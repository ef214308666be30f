import CssOutline.Proofs.Forest.Insertion
import CssOutline.Proofs.RuleTree.Walk

/-!
# Trees and their insertions

A tree comes about by insertions: each puts a new rule as the last one right inside a rule that is
there already. Insertions may go under any rule in any order. Rules keep the addresses that they are
given, so the tree is an account of all its insertions: who is inside whom, in which order, and how
deep.

## Main definitions

* `Placement`: a rule, its address, and the address of the rule it was put into
* `RuleTree.Grown`: a tree with the insertions that led to it
* `RuleTree.Accounts`: a tree that is an account of insertions
* `RuleTree.placement`: the insertion of a rule where it stands

## Main results

* `RuleTree.isSome_insert?_iff`: where a rule can be put
* `RuleTree.children_insert?`, `RuleTree.rules_insert?`: what one insertion changes
* `RuleTree.Grown.children_eq`, `RuleTree.Grown.rules_perm`: what all insertions come to
* `RuleTree.Grown.accounts`: every tree is an account of its insertions
* `RuleTree.grown_rules`: every tree comes about by insertions in document order
-/

namespace CssOutline

/-- A rule that was put right inside another one, and the address that it was given. -/
structure Placement where
  parent : Address
  id : Address
  rule : Rule
  deriving DecidableEq, Repr

namespace RuleTree

/-- A tree that came about by insertions, and these insertions with the addresses that they gave,
the first one first. -/
inductive Grown : RuleTree → List Placement → Prop
  | empty : Grown {} []
  | insert {tree tree' : RuleTree} {log : List Placement} {parent id : Address} {rule : Rule}
      (before : Grown tree log) (placed : tree.insert? parent rule = some (tree', id)) :
      Grown tree' (log ++ [⟨parent, id, rule⟩])

/-! ## One insertion -/

section Insert

variable {tree tree' : RuleTree} {parent id x : Address} {rule : Rule}

/-- A rule can be put into every rule that a tree holds. -/
theorem isSome_insert?_iff : (tree.insert? parent rule).isSome ↔ tree.contains parent := by
  rw [contains, insert?]
  cases hb : tree.top.below? parent with
  | none => exact iff_of_false Bool.false_ne_true Bool.false_ne_true
  | some below =>
    have htop : (tree.top.insert? rule parent).isSome := by
      rw [Forest.isSome_insert?_iff, hb]
      rfl
    obtain ⟨top, htop⟩ := Option.isSome_iff_exists.mp htop
    rw [htop]
    exact iff_of_true rfl rfl

/-- What an insertion puts where. -/
theorem exists_of_insert? (h : tree.insert? parent rule = some (tree', id)) :
    ∃ below, tree.top.below? parent = some below ∧ id = parent ++ [below.width] ∧
      tree.top.insert? rule parent = some tree'.top := by
  obtain ⟨below, hb, h⟩ := Option.bind_eq_some_iff.mp h
  obtain ⟨top, htop, h⟩ := Option.bind_eq_some_iff.mp h
  obtain ⟨rfl, rfl⟩ := Prod.mk.inj (Option.some.inj h)
  exact ⟨below, hb, rfl, htop⟩

/-- A new rule has a new address. -/
theorem not_contains_of_insert? (h : tree.insert? parent rule = some (tree', id)) :
    ¬ tree.contains id := by
  obtain ⟨below, hb, rfl, -⟩ := exists_of_insert? h
  rw [contains, Forest.below?_append, hb, Option.bind_some, Forest.below?, Forest.tree?_width]
  exact Bool.false_ne_true

theorem children_of_not_contains (h : ¬ tree.contains id) : tree.children id = [] := by
  rw [contains, Option.not_isSome_iff_eq_none] at h
  rw [children, h]

theorem children_eq_getD (tree : RuleTree) (id : Address) :
    tree.children id =
      (List.range (((tree.top.below? id).map Forest.width).getD 0)).map fun i => id ++ [i] := by
  rw [children]
  cases tree.top.below? id <;> rfl

/-- **A new rule is the last one right inside its parent**, and nothing else changes its place. -/
theorem children_insert? (h : tree.insert? parent rule = some (tree', id)) (x : Address) :
    tree'.children x = tree.children x ++ if x = parent then [id] else [] := by
  have hnew := not_contains_of_insert? h
  obtain ⟨below, hb, rfl, htop⟩ := exists_of_insert? h
  have hwidth := Forest.width_below?_of_insert? htop hb x
  rw [children_eq_getD tree', hwidth]
  by_cases hx : x = parent ++ [below.width]
  · have hne : x ≠ parent := fun he => by simp [he] at hx
    rw [if_pos hx, if_neg hne, List.append_nil, hx, children_of_not_contains hnew]
    rfl
  · rw [if_neg hx, children_eq_getD tree]
    by_cases hparent : x = parent
    · rw [if_pos hparent, if_pos hparent, hparent, hb, Option.getD_some, Option.map_some,
        Option.getD_some, List.range_succ, List.map_append, List.map_singleton]
    · rw [if_neg hparent, if_neg hparent, List.append_nil]

theorem mem_rules_insert?_iff (h : tree.insert? parent rule = some (tree', id)) {other : Rule} :
    (x, other) ∈ tree'.rules ↔ x = id ∧ other = rule ∨ (x, other) ∈ tree.rules := by
  have hnew := not_contains_of_insert? h
  obtain ⟨below, hb, rfl, htop⟩ := exists_of_insert? h
  rw [rules, rules, Forest.mem_entries_iff, Forest.mem_entries_iff,
    Forest.get?_of_insert? htop hb]
  by_cases hx : x = parent ++ [below.width]
  · subst hx
    have hnone : tree.top.get? (parent ++ [below.width]) ≠ some other := fun hget =>
      hnew (contains_of_mem_rules (Forest.mem_entries_iff.mpr hget))
    rw [if_pos rfl, Option.some.injEq]
    simp [hnone, eq_comm]
  · simp [hx]

theorem ne_root_of_insert? (h : tree.insert? parent rule = some (tree', id)) : id ≠ root := by
  obtain ⟨below, -, rfl, -⟩ := exists_of_insert? h
  simp [root]

/-- A new rule has the data that it was put in with, and no other rule is changed. -/
theorem get?_insert? (h : tree.insert? parent rule = some (tree', id)) (x : Address) :
    tree'.get? x = if x = id then some rule else tree.get? x := by
  have hid := ne_root_of_insert? h
  obtain ⟨below, hb, rfl, htop⟩ := exists_of_insert? h
  rw [get?, get?, Forest.get?_of_insert? htop hb]
  by_cases hroot : x = root
  · rw [if_pos hroot, if_pos hroot, if_neg (hroot ▸ hid.symm)]
  · rw [if_neg hroot, if_neg hroot]

theorem contains_insert?_iff (h : tree.insert? parent rule = some (tree', id)) :
    tree'.contains x ↔ x = id ∨ tree.contains x := by
  rcases eq_or_ne x root with rfl | hx
  · exact iff_of_true rfl (Or.inr rfl)
  · rw [contains_iff_mem_rules hx, contains_iff_mem_rules hx]
    simp only [mem_rules_insert?_iff h, exists_or, exists_and_left, exists_eq, and_true]

/-- A new rule is right inside its parent, and no other rule is moved. -/
theorem parent?_insert? (h : tree.insert? parent rule = some (tree', id)) (x : Address) :
    tree'.parent? x = if x = id then some parent else tree.parent? x := by
  have hcontains := contains_insert?_iff h (x := x)
  have hid := ne_root_of_insert? h
  obtain ⟨below, -, hconcat, -⟩ := exists_of_insert? h
  by_cases hx : x = id
  · rw [if_pos hx, parent?, if_pos ⟨hx ▸ hid, hcontains.mpr (Or.inl hx)⟩, hx, hconcat,
      List.dropLast_concat]
  · have hsame : tree'.contains x ↔ tree.contains x := hcontains.trans (or_iff_right hx)
    simp only [if_neg hx, parent?, hsame]

/-- **A new rule is listed once**, and all others are listed as before. -/
theorem rules_insert? (h : tree.insert? parent rule = some (tree', id)) :
    tree'.rules.Perm (tree.rules ++ [(id, rule)]) := by
  have hnodup : ∀ tree : RuleTree, tree.rules.Nodup := fun tree =>
    (Forest.nodup_entries tree.top).of_map _
  have hnew : (id, rule) ∉ tree.rules := fun hmem =>
    not_contains_of_insert? h (contains_of_mem_rules hmem)
  refine (List.perm_ext_iff_of_nodup (hnodup tree') ?_).mpr fun entry => ?_
  · rw [List.nodup_append_comm]
    exact List.nodup_cons.mpr ⟨hnew, hnodup tree⟩
  · rw [List.mem_append, List.mem_singleton, Prod.ext_iff, or_comm]
    exact mem_rules_insert?_iff h

end Insert

/-! ## All insertions -/

/-- The tree is an account of insertions: the rules that it lists, their order inside each other,
and the ways from one to another are those that the insertions led to. -/
structure Accounts (tree : RuleTree) (log : List Placement) : Prop where
  /-- The tree holds its root and the rules that were put in, and takes new rules into these. -/
  isSome_insert?_iff : ∀ parent rule, (tree.insert? parent rule).isSome ↔
    parent = root ∨ ∃ placement ∈ log, placement.id = parent
  /-- The rules right inside a rule are those that were put there, in the order of insertion. -/
  children_eq : ∀ up, tree.children up =
    (log.filter fun placement => placement.parent == up).map (·.id)
  /-- A rule is right inside its parent once, and inside no other rule. -/
  count_children : ∀ id up,
    (tree.children up).count id = if tree.parent? id = some up then 1 else 0
  /-- The way from parent to parent meets the ancestors, and ends at the root. -/
  climb_eq : ∀ id, tree.climb id = tree.ancestors id
  parent?_eq : ∀ placement ∈ log, tree.parent? placement.id = some placement.parent
  parent?_root : tree.parent? root = none
  getLast?_ancestors : ∀ placement ∈ log, (tree.ancestors placement.id).getLast? = some root
  /-- A walk meets its start, and then what the walks from the children meet. -/
  walk_eq : ∀ id, tree.contains id →
    tree.walk id = id :: (tree.children id).flatMap tree.walk
  /-- A stack with a single address leads to the walk from there. -/
  visit_eq : ∀ id, tree.visit [id] = tree.walk id
  /-- A walk meets its start and what has it as an ancestor, and nothing twice. -/
  mem_walk_iff : ∀ id x, x ∈ tree.walk id ↔ tree.contains x ∧ (x = id ∨ id ∈ tree.ancestors x)
  nodup_walk : ∀ id, (tree.walk id).Nodup
  /-- The listing is the walk from the root without the root. -/
  walk_root : tree.walk root = root :: tree.rules.map (·.1)
  /-- Every rule that was put in is listed once under its own address, and nothing else is. -/
  rules_perm : tree.rules.Perm (log.map fun placement => (placement.id, placement.rule))
  nodup_ids : (log.map (·.id)).Nodup
  size_eq : tree.size = log.length
  /-- A rule is one block deeper than its parent, or at depth 0 right inside the root. -/
  depth_eq : ∀ id up, tree.parent? id = some up →
    tree.depth id = if up = root then 0 else tree.depth up + 1

namespace Grown

variable {tree : RuleTree} {log : List Placement} {id up : Address}

/-- **The rules right inside a rule are those that were put there**, in the order of insertion. -/
theorem children_eq (h : tree.Grown log) (up : Address) :
    tree.children up = (log.filter fun placement => placement.parent == up).map (·.id) := by
  induction h with
  | empty =>
    rcases up with _ | ⟨_ | i, rest⟩
    · rfl
    · rfl
    · rfl
  | insert _ placed ih =>
    rw [children_insert? placed, ih, List.filter_append, List.map_append]
    congr 1
    split
    · next hup => simp [hup]
    · next hup => simp [Ne.symm hup]

/-- **Every rule that was put in is listed once.** -/
theorem rules_perm (h : tree.Grown log) :
    tree.rules.Perm (log.map fun placement => (placement.id, placement.rule)) := by
  induction h with
  | empty => exact List.Perm.refl _
  | insert _ placed ih =>
    rw [List.map_append]
    exact (rules_insert? placed).trans (ih.append_right _)

theorem nodup_ids (h : tree.Grown log) : (log.map (·.id)).Nodup := by
  have hids := h.rules_perm.map Prod.fst
  rw [List.map_map] at hids
  exact hids.nodup_iff.mp (Forest.nodup_entries tree.top)

/-- A tree holds its root and the rules that were put in. -/
theorem contains_iff (h : tree.Grown log) :
    tree.contains id ↔ id = root ∨ ∃ placement ∈ log, placement.id = id := by
  rcases eq_or_ne id root with rfl | hne
  · exact iff_of_true rfl (Or.inl rfl)
  · simp only [contains_iff_mem_rules hne, h.rules_perm.mem_iff, hne, false_or, List.mem_map,
      Prod.mk.injEq]
    constructor
    · rintro ⟨rule, placement, hmem, hid, -⟩
      exact ⟨placement, hmem, hid⟩
    · rintro ⟨placement, hmem, hid⟩
      exact ⟨placement.rule, placement, hmem, hid, rfl⟩

theorem size_eq (h : tree.Grown log) : tree.size = log.length := by
  rw [← length_rules, h.rules_perm.length_eq, List.length_map]

theorem parent?_eq (h : tree.Grown log) {placement : Placement} (hmem : placement ∈ log) :
    tree.parent? placement.id = some placement.parent := by
  rw [← mem_children_iff_parent?, h.children_eq]
  exact List.mem_map.mpr ⟨placement, List.mem_filter.mpr ⟨hmem, beq_self_eq_true _⟩, rfl⟩

end Grown

/-- **Every tree is an account of its insertions**, whatever rules they went under and in whatever
order they came. -/
theorem Grown.accounts {tree : RuleTree} {log : List Placement} (h : tree.Grown log) :
    tree.Accounts log where
  isSome_insert?_iff parent rule := by rw [RuleTree.isSome_insert?_iff, h.contains_iff]
  children_eq := h.children_eq
  count_children id up := by
    rw [(tree.nodup_children up).count]
    simp only [mem_children_iff_parent?]
  climb_eq := tree.climb_eq_ancestors
  parent?_eq _ hmem := h.parent?_eq hmem
  parent?_root := rfl
  getLast?_ancestors placement hmem := by
    have hrule : (placement.id, placement.rule) ∈ tree.rules :=
      h.rules_perm.mem_iff.mpr (List.mem_map.mpr ⟨placement, hmem, rfl⟩)
    exact RuleTree.getLast?_ancestors (contains_of_mem_rules hrule) (mem_rules_iff.mp hrule).1
  walk_eq _ := walk_eq_cons
  visit_eq id := by rw [RuleTree.visit_eq, List.flatMap_singleton]
  mem_walk_iff _ _ := mem_walk_iff_ancestors
  nodup_walk := tree.nodup_walk
  walk_root := rfl
  rules_perm := h.rules_perm
  nodup_ids := h.nodup_ids
  size_eq := h.size_eq
  depth_eq _ _ := depth_of_parent?

/-- A rule that is put into an earlier one behind a later one. -/
theorem accounts_back_inside :
    let early : Rule := { start := 0, bodyStart := 1, stop := 8 }
    let late : Rule := { start := 9, bodyStart := 10, stop := 11 }
    let inner : Rule := { start := 2, bodyStart := 3, stop := 4 }
    let tree : RuleTree := ⟨.cons early (.cons inner .nil .nil) (.cons late .nil .nil)⟩
    let log : List Placement := [⟨root, [0], early⟩, ⟨root, [1], late⟩, ⟨[0], [0, 0], inner⟩]
    tree.Grown log ∧ tree.Accounts log := by
  intro early late inner tree log
  have hfirst : Grown ⟨.cons early .nil .nil⟩ ([] ++ [⟨root, [0], early⟩]) :=
    .insert .empty rfl
  have hsecond : Grown ⟨.cons early .nil (.cons late .nil .nil)⟩
      ([] ++ [⟨root, [0], early⟩] ++ [⟨root, [1], late⟩]) := .insert hfirst rfl
  have hgrown : tree.Grown log := .insert hsecond rfl
  exact ⟨hgrown, hgrown.accounts⟩

/-! ## Insertions in document order -/

section Replayed

variable {tree tree' : RuleTree} {front behind : List (Address × Rule)} {up : Address} {i : Nat}
  {rule : Rule}

/-- Trees that list the same rules are equal. -/
theorem eq_of_rules_perm (h : tree.rules.Perm tree'.rules) : tree = tree' := by
  have htop : tree.top = tree'.top := by
    refine Forest.eq_of_get?_eq fun id => Option.ext fun rule => ?_
    rw [← Forest.mem_entries_iff, ← Forest.mem_entries_iff]
    exact h.mem_iff
  exact congrArg RuleTree.mk htop

/-- The insertion of a rule where it stands. -/
def placement (entry : Address × Rule) : Placement := ⟨entry.1.dropLast, entry.1, entry.2⟩

/-- The rule around a rule is listed in front of it. -/
theorem eq_root_or_mem_front (h : tree.rules = front ++ (up ++ [i], rule) :: behind) :
    up = root ∨ ∃ around, (up, around) ∈ front := by
  rcases eq_or_ne up root with hroot | hroot
  · exact Or.inl hroot
  have hid : (up ++ [i], rule) ∈ tree.rules := h ▸ List.mem_append_right _ List.mem_cons_self
  obtain ⟨around, hup⟩ := (contains_iff_mem_rules hroot).mp
    (contains_of_append (contains_of_mem_rules hid))
  refine Or.inr ⟨around, ?_⟩
  have hbefore : Address.Precedes up (up ++ [i]) := Address.precedes_append up i []
  have hpairwise : (tree.rules.map (·.1)).Pairwise Address.Precedes :=
    Forest.pairwise_entries tree.top
  rw [h, List.map_append, List.map_cons, List.pairwise_append, List.pairwise_cons] at hpairwise
  rw [h] at hup
  rcases List.mem_append.mp hup with hup | hup
  · exact hup
  · rcases List.mem_cons.mp hup with heq | hup
    · exact absurd (congrArg Prod.fst heq) hbefore.ne
    · exact absurd (hpairwise.2.1.1 up (List.mem_map_of_mem hup)) hbefore.asymm

/-- In front of a rule stand all its earlier siblings. -/
theorem filter_front (h : tree.rules = front ++ (up ++ [i], rule) :: behind) :
    (front.map (·.1)).filter (fun x => x.dropLast == up) =
      (List.range i).map fun j => up ++ [j] := by
  have hsplit := (children_eq_getD tree up).symm.trans (tree.children_eq_filter_dropLast up)
  rw [h, List.map_append, List.map_cons, List.filter_append,
    List.filter_cons_of_pos (by simp), List.map_eq_append_iff] at hsplit
  obtain ⟨earlier, _, hrange, hearlier, hlater⟩ := hsplit
  obtain ⟨k, later, rfl, hk, -⟩ := List.map_eq_cons_iff.mp hlater
  obtain rfl : k = i := by simpa using hk
  rw [List.range_eq_range'] at hrange
  obtain ⟨n, -, rfl, hrest⟩ := List.range'_eq_append_iff.mp hrange
  obtain ⟨hn, -⟩ := List.range'_eq_cons_iff.mp hrest.symm
  rw [← hearlier, ← hn, List.range_eq_range', Nat.zero_add, Nat.mul_one]

/-- A rule is put where it stands by what was put in front of it. -/
theorem exists_insert?_of_front {grown : RuleTree} (hgrown : grown.Grown (front.map placement))
    (h : tree.rules = front ++ (up ++ [i], rule) :: behind) :
    ∃ grown', grown.insert? up rule = some (grown', up ++ [i]) := by
  have hup : grown.contains up := by
    rw [hgrown.contains_iff]
    refine (eq_root_or_mem_front h).imp_right ?_
    rintro ⟨around, hmem⟩
    exact ⟨_, List.mem_map_of_mem hmem, rfl⟩
  obtain ⟨⟨grown', id⟩, placed⟩ := Option.isSome_iff_exists.mp (isSome_insert?_iff.mpr hup)
  obtain ⟨below, hb, rfl, -⟩ := exists_of_insert? placed
  have hchildren := hgrown.children_eq up
  have hfront := filter_front h
  rw [children, hb, List.filter_map, List.map_map] at hchildren
  rw [List.filter_map] at hfront
  have hwidth := congrArg List.length (hchildren.trans hfront)
  rw [List.length_map, List.length_map, List.length_range, List.length_range] at hwidth
  exact ⟨grown', hwidth ▸ placed⟩

/-- The first rules of a tree make a tree. -/
theorem exists_grown_of_prefix (h : front <+: tree.rules) :
    ∃ grown : RuleTree, grown.Grown (front.map placement) := by
  induction front using List.reverseRecOn with
  | nil => exact ⟨{}, .empty⟩
  | append_singleton front entry ih =>
    obtain ⟨behind, hrules⟩ := h
    obtain ⟨grown, hgrown⟩ := ih ⟨entry :: behind, by simpa using hrules⟩
    obtain ⟨id, rule⟩ := entry
    rw [List.append_assoc, List.singleton_append, eq_comm] at hrules
    have hid : (id, rule) ∈ tree.rules := hrules ▸ List.mem_append_right _ List.mem_cons_self
    obtain ⟨up, i, rfl⟩ : ∃ up i, id = up ++ [i] :=
      (List.eq_nil_or_concat' id).resolve_left (mem_rules_iff.mp hid).1
    obtain ⟨grown', placed⟩ := exists_insert?_of_front hgrown hrules
    have hplacement : placement (up ++ [i], rule) = ⟨up, up ++ [i], rule⟩ := by
      rw [placement, List.dropLast_concat]
    refine ⟨grown', ?_⟩
    rw [List.map_append, List.map_singleton, hplacement]
    exact .insert hgrown placed

/-- **Every tree comes about by insertions of its rules in document order.** -/
theorem grown_rules (tree : RuleTree) : tree.Grown (tree.rules.map placement) := by
  obtain ⟨grown, hgrown⟩ := exists_grown_of_prefix (List.prefix_refl tree.rules)
  have hperm := hgrown.rules_perm
  rw [List.map_map] at hperm
  have hsame : grown = tree := eq_of_rules_perm (hperm.trans (List.Perm.of_eq (List.map_id _)))
  exact hsame ▸ hgrown

end Replayed

end RuleTree

end CssOutline
