import CssOutline.Proofs.Forest.Entries
import Mathlib.Order.Nat

/-!
# Walks up and down a tree

The rules around a rule are met on the way from each rule to its parent. The rules inside a rule are
met by taking addresses off a stack and putting children on top of it. Both ways come to an end:
the way up at the root, and the way down because every step leaves fewer rules to be met. What they
meet is read off the addresses, so each rule is met once and nothing else is.

## Main definitions

* `RuleTree.climb`: the way up, from parent to parent
* `RuleTree.visit`: the way down, with a stack of addresses

## Main results

* `RuleTree.children_eq_filter`: the rules right inside a rule, picked from the listing
* `RuleTree.climb_eq_ancestors`, `RuleTree.getLast?_ancestors`: the way up ends at the root
* `RuleTree.walk_eq_cons`: a walk goes through the children in order
* `RuleTree.visit_eq`: what a stack leads to
* `RuleTree.mem_walk_iff_ancestors`, `RuleTree.nodup_walk`: a walk meets what is inside a rule, once
-/

namespace CssOutline

/-- The addresses of a forest, tree by tree. -/
theorem Forest.map_fst_entriesFrom_eq_flatMap {α : Type} (above : Address) (i : Nat)
    (f : Forest α) :
    (f.entriesFrom above i).map (·.1) =
      (List.range f.width).flatMap fun j =>
        match f.tree? j with
        | some t => (above ++ [i + j]) :: (t.2.entriesFrom (above ++ [i + j]) 0).map (·.1)
        | none => [] := by
  induction f generalizing i with
  | nil => rfl
  | cons a below after _ ih =>
    rw [width, List.range_succ_eq_map, List.flatMap_cons, List.flatMap_map, entriesFrom,
      List.map_cons, List.map_append, ih]
    have hindex : ∀ j, i + 1 + j = i + (j + 1) := fun j => by omega
    simp only [hindex]
    rfl

namespace RuleTree

variable {tree : RuleTree} {id up x : Address}

/-! ## What a tree holds -/

theorem contains_iff_exists_below? :
    tree.contains id ↔ ∃ below, tree.top.below? id = some below := by
  rw [contains, Option.isSome_iff_exists]

/-- Around a rule there is a rule. -/
theorem contains_of_append {rest : Address} (h : tree.contains (id ++ rest)) :
    tree.contains id := by
  obtain ⟨below, hb⟩ := contains_iff_exists_below?.mp h
  rw [Forest.below?_append] at hb
  obtain ⟨level, hl, -⟩ := Option.bind_eq_some_iff.mp hb
  exact contains_iff_exists_below?.mpr ⟨level, hl⟩

/-- The rules that a tree holds besides its root are those that it lists. -/
theorem contains_iff_mem_rules (h : id ≠ root) :
    tree.contains id ↔ ∃ rule, (id, rule) ∈ tree.rules := by
  constructor
  · intro hid
    obtain ⟨rule, hr⟩ := exists_get?_of_contains hid
    exact ⟨rule, mem_rules_iff.mpr ⟨h, hr⟩⟩
  · rintro ⟨rule, hr⟩
    exact contains_of_mem_rules hr

theorem parent?_eq_some_iff :
    tree.parent? id = some up ↔ tree.contains id ∧ ∃ i, id = up ++ [i] := by
  rw [parent?]
  constructor
  · intro h
    split at h
    · next hid =>
      obtain rfl := Option.some.inj h
      exact ⟨hid.2, id.getLast hid.1, (List.dropLast_append_getLast hid.1).symm⟩
    · cases h
  · rintro ⟨hid, i, rfl⟩
    rw [if_pos ⟨by simp [root], hid⟩, List.dropLast_concat]

/-- A rule is right inside its parent. -/
theorem mem_children_iff_parent? : id ∈ tree.children up ↔ tree.parent? id = some up := by
  rw [mem_children_iff, parent?_eq_some_iff]
  constructor
  · rintro ⟨i, rule, hid, hr⟩
    exact ⟨contains_of_mem_rules hr, i, hid⟩
  · rintro ⟨hid, i, rfl⟩
    obtain ⟨rule, hr⟩ := (contains_iff_mem_rules (by simp [root])).mp hid
    exact ⟨i, rule, rfl, hr⟩

theorem contains_of_parent? (h : tree.parent? id = some up) : tree.contains up := by
  obtain ⟨hid, i, rfl⟩ := parent?_eq_some_iff.mp h
  exact contains_of_append hid

theorem contains_of_mem_children (h : id ∈ tree.children up) : tree.contains id :=
  (parent?_eq_some_iff.mp (mem_children_iff_parent?.mp h)).1

/-! ## The rules right inside a rule -/

theorem pairwise_children (tree : RuleTree) (id : Address) :
    (tree.children id).Pairwise Address.Precedes := by
  unfold children
  split
  · refine List.pairwise_lt_range.map _ fun i j hij => ?_
    exact Address.precedes_of_lt id [] [] hij
  · exact List.Pairwise.nil

/-- No rule is right inside another one twice. -/
theorem nodup_children (tree : RuleTree) (id : Address) : (tree.children id).Nodup :=
  (tree.pairwise_children id).imp Address.Precedes.ne

/-- The rules right inside a rule are listed in the order in which they are listed in the whole
tree. -/
theorem children_eq_filter (tree : RuleTree) (id : Address) :
    tree.children id = (tree.rules.map (·.1)).filter fun x => x ∈ tree.children id := by
  have hrules : (tree.rules.map (·.1)).Pairwise Address.Precedes := Forest.pairwise_entries tree.top
  have hperm : (tree.children id).Perm
      ((tree.rules.map (·.1)).filter fun x => x ∈ tree.children id) := by
    refine (List.perm_ext_iff_of_nodup (tree.nodup_children id)
      ((Forest.nodup_entries tree.top).filter _)).mpr fun x => ?_
    rw [List.mem_filter, decide_eq_true_iff]
    constructor
    · intro hx
      obtain ⟨rule, hr⟩ := exists_mem_rules_of_mem_children hx
      exact ⟨List.mem_map_of_mem hr, hx⟩
    · exact And.right
  refine hperm.eq_of_pairwise (fun x y _ _ hxy hyx => absurd hyx hxy.asymm)
    (tree.pairwise_children id) (hrules.filter _)

theorem children_eq_filter_dropLast (tree : RuleTree) (up : Address) :
    tree.children up = (tree.rules.map (·.1)).filter fun x => x.dropLast == up := by
  refine (tree.children_eq_filter up).trans (List.filter_congr fun x hx => ?_)
  obtain ⟨⟨_, other⟩, hother, rfl⟩ := List.mem_map.mp hx
  rw [Bool.eq_iff_iff, beq_iff_eq, decide_eq_true_iff, mem_children_iff_parent?,
    parent?_of_mem_rules hother, Option.some.injEq]

/-! ## The way up -/

/-- The rules on the way from a rule to its parent, from there to the next one, and so on. -/
def climb (tree : RuleTree) (id : Address) : List Address :=
  match _h : tree.parent? id with
  | some up => up :: tree.climb up
  | none => []
termination_by id.length
decreasing_by
  obtain ⟨-, i, rfl⟩ := parent?_eq_some_iff.mp _h
  simp

theorem ancestors_of_parent?_eq_none (h : tree.parent? id = none) : tree.ancestors id = [] := by
  rw [ancestors]
  split
  · next hid =>
    have hroot : id = root := by
      by_contra hne
      rw [parent?, if_pos ⟨hne, hid⟩] at h
      cases h
    rw [hroot]
    rfl
  · rfl

/-- The rules around a rule are its parent and those around that. -/
theorem ancestors_of_parent? (h : tree.parent? id = some up) :
    tree.ancestors id = up :: tree.ancestors up := by
  obtain ⟨hid, i, rfl⟩ := parent?_eq_some_iff.mp h
  rw [ancestors, if_pos hid, ancestors, if_pos (contains_of_append hid), List.length_append,
    List.length_singleton, List.range_succ, List.reverse_concat, List.map_cons, List.take_left']
  · congr 1
    refine List.map_congr_left fun n hn => ?_
    rw [List.mem_reverse, List.mem_range] at hn
    exact List.take_append_of_le_length (Nat.le_of_lt hn)
  · rfl

/-- **The way up meets the rules around a rule.** -/
theorem climb_eq_ancestors (tree : RuleTree) (id : Address) :
    tree.climb id = tree.ancestors id := by
  induction hn : id.length generalizing id with
  | zero =>
    obtain rfl := List.length_eq_zero_iff.mp hn
    rw [climb]
    rfl
  | succ n ih =>
    rw [climb]
    split
    · next up h =>
      obtain ⟨-, i, rfl⟩ := parent?_eq_some_iff.mp h
      rw [List.length_append, List.length_singleton, Nat.add_right_cancel_iff] at hn
      rw [ih up hn, ancestors_of_parent? h]
    · next h => rw [ancestors_of_parent?_eq_none h]

/-- The rules around a rule are those at the front of its address. -/
theorem mem_ancestors_iff : up ∈ tree.ancestors id ↔ tree.contains id ∧ up <+: id ∧ up ≠ id := by
  rw [ancestors]
  split
  · next hid =>
    simp only [hid, true_and, List.mem_map, List.mem_reverse, List.mem_range]
    constructor
    · rintro ⟨n, hn, rfl⟩
      refine ⟨List.take_prefix n id, fun he => ?_⟩
      have hlength := congrArg List.length he
      rw [List.length_take] at hlength
      omega
    · rintro ⟨hfront, hne⟩
      refine ⟨up.length, ?_, (List.prefix_iff_eq_take.mp hfront).symm⟩
      exact lt_of_le_of_ne hfront.length_le fun hl => hne (hfront.eq_of_length hl)
  · next hid => simp [hid]

/-- **The way up ends at the root.** -/
theorem getLast?_ancestors (h : tree.contains id) (hne : id ≠ root) :
    (tree.ancestors id).getLast? = some root := by
  obtain ⟨i, rest, rfl⟩ := List.exists_cons_of_ne_nil hne
  rw [ancestors, if_pos h, List.length_cons, List.range_succ_eq_map, List.reverse_cons,
    List.map_append]
  exact List.getLast?_concat

/-- A rule is one block deeper than its parent, unless that is the root. -/
theorem depth_of_parent? (h : tree.parent? id = some up) :
    tree.depth id = if up = root then 0 else tree.depth up + 1 := by
  obtain ⟨hid, i, rfl⟩ := parent?_eq_some_iff.mp h
  rw [depth, if_pos hid, depth, if_pos (contains_of_append hid), List.length_append,
    List.length_singleton, Nat.add_sub_cancel]
  split
  · next hroot =>
    rw [hroot]
    rfl
  · next hroot =>
    have hpos := List.length_pos_iff.mpr hroot
    omega

/-! ## The way down -/

theorem walk_of_not_contains (h : ¬ tree.contains id) : tree.walk id = [] := by
  rw [contains, Option.not_isSome_iff_eq_none] at h
  rw [walk, h]

/-- **A walk goes through the children in order.** -/
theorem walk_eq_cons (h : tree.contains id) :
    tree.walk id = id :: (tree.children id).flatMap tree.walk := by
  obtain ⟨below, hb⟩ := contains_iff_exists_below?.mp h
  have hwalk : tree.walk id = id :: (below.entriesFrom id 0).map (·.1) := by rw [walk, hb]
  have hchildren : tree.children id = (List.range below.width).map fun j => id ++ [j] := by
    rw [children, hb]
  rw [hwalk, hchildren, List.flatMap_map, Forest.map_fst_entriesFrom_eq_flatMap]
  congr 2
  funext j
  rw [Nat.zero_add]
  have hj : tree.top.below? (id ++ [j]) = (below.tree? j).map (·.2) := by
    rw [Forest.below?_append, hb, Option.bind_some, Forest.below?]
    cases below.tree? j <;> rfl
  rw [walk, hj]
  cases below.tree? j <;> rfl

/-- What is met by taking addresses off a stack one at a time. An address with a rule is met, and
its children come on top of the stack, the first one uppermost; other addresses are passed over. -/
def visit (tree : RuleTree) : List Address → List Address
  | [] => []
  | id :: stack =>
    if tree.contains id then id :: tree.visit (tree.children id ++ stack) else tree.visit stack
termination_by stack => ((stack.flatMap tree.walk).length, stack.length)
decreasing_by
  · next h =>
    rw [List.flatMap_cons, walk_eq_cons h, List.flatMap_append]
    exact Prod.Lex.left _ _ (Nat.lt_succ_self _)
  · next h =>
    rw [List.flatMap_cons, walk_of_not_contains h]
    exact Prod.Lex.right _ (Nat.lt_succ_self _)

/-- **What a stack leads to**: the walks from its addresses, from the top down. -/
theorem visit_eq (tree : RuleTree) (stack : List Address) :
    tree.visit stack = stack.flatMap tree.walk := by
  fun_induction visit tree stack with
  | case1 => rfl
  | case2 id stack h ih => rw [ih, List.flatMap_append, List.flatMap_cons, walk_eq_cons h]; rfl
  | case3 id stack h ih => rw [ih, List.flatMap_cons, walk_of_not_contains h]; rfl

/-- The rules that a walk meets have the address where it starts at the front of theirs. -/
theorem mem_walk_iff : x ∈ tree.walk id ↔ tree.contains x ∧ id <+: x := by
  by_cases h : tree.contains id
  · obtain ⟨below, hb⟩ := contains_iff_exists_below?.mp h
    rw [walk, hb]
    simp only [List.mem_cons]
    constructor
    · rintro (rfl | hx)
      · exact ⟨h, List.prefix_rfl⟩
      · obtain ⟨⟨_, rule⟩, hentry, rfl⟩ := List.mem_map.mp hx
        obtain ⟨j, rest, rfl, hget⟩ := Forest.mem_entriesFrom_iff.mp hentry
        obtain ⟨inner, hi⟩ := Forest.exists_below?_of_get? hget
        rw [Nat.zero_add]
        refine ⟨contains_iff_exists_below?.mpr ⟨inner, ?_⟩, List.prefix_append _ _⟩
        rw [Forest.below?_append, hb, Option.bind_some, hi]
    · rintro ⟨hx, rest, rfl⟩
      cases rest with
      | nil => exact Or.inl (List.append_nil id)
      | cons j rest =>
        obtain ⟨inner, hi⟩ := contains_iff_exists_below?.mp hx
        rw [Forest.below?_append, hb, Option.bind_some] at hi
        have hin : (RuleTree.mk below).contains (j :: rest) :=
          contains_iff_exists_below?.mpr ⟨inner, hi⟩
        obtain ⟨rule, hr⟩ := exists_get?_of_contains hin
        have hmem := mem_rules_iff.mpr ⟨List.cons_ne_nil j rest, hr⟩
        refine Or.inr (List.mem_map.mpr ⟨(id ++ j :: rest, rule), ?_, rfl⟩)
        refine Forest.mem_entriesFrom_iff.mpr ⟨j, rest, by rw [Nat.zero_add], ?_⟩
        exact Forest.mem_entries_iff.mp hmem
  · rw [walk_of_not_contains h]
    refine iff_of_false List.not_mem_nil ?_
    rintro ⟨hx, rest, rfl⟩
    exact h (contains_of_append hx)

/-- **A walk meets a rule and all rules inside it.** -/
theorem mem_walk_iff_ancestors :
    x ∈ tree.walk id ↔ tree.contains x ∧ (x = id ∨ id ∈ tree.ancestors x) := by
  rw [mem_walk_iff, mem_ancestors_iff]
  constructor
  · rintro ⟨hx, hfront⟩
    rcases eq_or_ne x id with rfl | hne
    · exact ⟨hx, Or.inl rfl⟩
    · exact ⟨hx, Or.inr ⟨hx, hfront, hne.symm⟩⟩
  · rintro ⟨hx, rfl | ⟨-, hfront, -⟩⟩
    · exact ⟨hx, List.prefix_rfl⟩
    · exact ⟨hx, hfront⟩

/-- **A walk meets no rule twice.** -/
theorem nodup_walk (tree : RuleTree) (id : Address) : (tree.walk id).Nodup := by
  unfold walk
  split
  · refine List.nodup_cons.mpr ⟨fun h => ?_, Forest.nodup_entriesFrom _ _ _⟩
    obtain ⟨j, rest, hid⟩ := Forest.mem_map_fst_entriesFrom h
    simp at hid
  · exact List.nodup_nil

/-- A walk from the root meets the rules as they are listed. -/
theorem walk_root (tree : RuleTree) : tree.walk root = root :: tree.rules.map (·.1) := rfl

end RuleTree

end CssOutline
