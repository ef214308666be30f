import CssOutline.RuleTree
import Mathlib.Data.List.Induction
import Mathlib.Data.List.Nodup

/-!
# Addresses and the listing in document order

The listing of a forest holds every address in use once, with its label. So what is known of the
listing is known of the forest by address, and the other way round. It goes through the addresses in
the order of a dictionary.

## Main definitions

* `Address.Precedes`: one address in front of another in document order

## Main results

* `Forest.mem_entries_iff`, `Forest.nodup_entries`: the listing and the labels by address
* `Forest.pairwise_entries`: the listing is in document order
* `RuleTree.mem_rules_iff`: the rules of a tree and their addresses
* `RuleTree.parent?_of_mem_rules`, `RuleTree.depth_of_mem_rules`, `RuleTree.mem_children_iff`: the
  place of a rule is read off its address
-/

namespace CssOutline

/-! ## Document order -/

namespace Address

/-- One address stands in front of another in document order: a node stands in front of those below
it, and they stand in front of the later nodes at its side. -/
def Precedes (x y : Address) : Prop := List.Lex (fun i j => i < j) x y

theorem precedes_append (above : Address) (i : Nat) (rest : Address) :
    Precedes above (above ++ i :: rest) := by
  induction above with
  | nil => exact .nil
  | cons j above ih => exact .cons ih

theorem precedes_of_lt {i j : Nat} (above rest rest' : Address) (h : i < j) :
    Precedes (above ++ i :: rest) (above ++ j :: rest') := by
  induction above with
  | nil => exact .rel h
  | cons k above ih => exact .cons ih

theorem Precedes.asymm {x y : Address} (h : Precedes x y) : ¬ Precedes y x := List.lt_asymm h

theorem Precedes.ne {x y : Address} (h : Precedes x y) : x ≠ y := by
  rintro rfl
  exact h.asymm h

end Address

namespace Forest

variable {α : Type} {f : Forest α} {id : Address}

/-! ## Labels by address -/

@[simp] theorem get?_nil_left (id : Address) : (nil : Forest α).get? id = none := by
  rcases id with _ | ⟨i, _ | ⟨k, rest⟩⟩
  · rfl
  · cases i <;> rfl
  · cases i <;> rfl

@[simp] theorem get?_cons_zero (a : α) (below after : Forest α) :
    (cons a below after).get? [0] = some a := rfl

@[simp] theorem get?_cons_zero_cons (a : α) (below after : Forest α) (k : Nat) (rest : Address) :
    (cons a below after).get? (0 :: k :: rest) = below.get? (k :: rest) := rfl

@[simp] theorem get?_cons_succ (a : α) (below after : Forest α) (i : Nat) (rest : Address) :
    (cons a below after).get? ((i + 1) :: rest) = after.get? (i :: rest) := by
  cases rest <;> rfl

theorem tree?_eq_none_iff {i : Nat} : f.tree? i = none ↔ f.width ≤ i := by
  induction f generalizing i with
  | nil => cases i <;> simp [tree?, width]
  | cons a below after _ ih =>
    cases i with
    | zero => simp [tree?, width]
    | succ i => simpa [tree?, width] using ih

theorem below?_append (f : Forest α) (id rest : Address) :
    f.below? (id ++ rest) = (f.below? id).bind fun below => below.below? rest := by
  induction id generalizing f with
  | nil => rfl
  | cons i id ih =>
    rw [List.cons_append, below?, below?]
    cases f.tree? i with
    | none => rfl
    | some t => exact ih t.2

theorem get?_concat (f : Forest α) (id : Address) (i : Nat) :
    f.get? (id ++ [i]) = (f.below? id).bind fun below => (below.tree? i).map (·.1) := by
  induction id generalizing f with
  | nil => rfl
  | cons j id ih =>
    obtain ⟨k, rest, hk⟩ : ∃ k rest, id ++ [i] = k :: rest :=
      List.exists_cons_of_ne_nil (by simp)
    rw [List.cons_append, hk, get?, below?]
    · cases f.tree? j with
      | none => rfl
      | some t =>
        rw [Option.bind_some, Option.bind_some, ← hk]
        exact ih t.2
    · simp

/-- Replacing the labels leaves each at its address. -/
theorem get?_map {β : Type} (change : α → β) (f : Forest α) (id : Address) :
    (f.map change).get? id = (f.get? id).map change := by
  induction id using List.reverseRecOn with
  | nil => rfl
  | append_singleton id i =>
    rw [get?_concat, get?_concat, below?_map, Option.bind_map, Option.map_bind]
    congr 1
    funext below
    rw [Function.comp_apply, Function.comp_apply, tree?_map, Option.map_map, Option.map_map]
    rfl

/-- A label stands above a forest of its own. -/
theorem exists_below?_of_get? {a : α} (h : f.get? id = some a) :
    ∃ below, f.below? id = some below := by
  induction id using List.reverseRecOn with
  | nil => cases h
  | append_singleton id i =>
    rw [get?_concat] at h
    obtain ⟨below, hb, ht⟩ := Option.bind_eq_some_iff.mp h
    obtain ⟨t, ht, -⟩ := Option.map_eq_some_iff.mp ht
    exact ⟨t.2, by simp [below?_append, hb, below?, ht]⟩

/-! ## The listing -/

/-- The listing of trees number `i` and on below `above`, by address. -/
theorem mem_entriesFrom_iff {above : Address} {i : Nat} {a : α} :
    (id, a) ∈ f.entriesFrom above i ↔
      ∃ j rest, id = above ++ (i + j) :: rest ∧ f.get? (j :: rest) = some a := by
  induction f generalizing above i with
  | nil => simp [entriesFrom]
  | cons b below after ih₁ ih₂ =>
    simp only [entriesFrom, List.mem_cons, List.mem_append, Prod.mk.injEq, ih₁, ih₂]
    constructor
    · rintro (⟨rfl, rfl⟩ | ⟨j, rest, rfl, hj⟩ | ⟨j, rest, rfl, hj⟩)
      · exact ⟨0, [], by simp, rfl⟩
      · exact ⟨0, j :: rest, by simp, hj⟩
      · refine ⟨j + 1, rest, ?_, by simpa using hj⟩
        rw [Nat.add_right_comm, Nat.add_assoc]
    · rintro ⟨j, rest, rfl, hj⟩
      cases j with
      | zero =>
        cases rest with
        | nil => exact Or.inl ⟨by simp, by simpa using hj.symm⟩
        | cons k rest => exact Or.inr (Or.inl ⟨k, rest, by simp, hj⟩)
      | succ j =>
        refine Or.inr (Or.inr ⟨j, rest, ?_, by simpa using hj⟩)
        rw [Nat.add_right_comm, Nat.add_assoc]

/-- The listing holds a label with its address. -/
theorem mem_entries_iff {a : α} : (id, a) ∈ f.entries ↔ f.get? id = some a := by
  rw [entries, mem_entriesFrom_iff]
  constructor
  · rintro ⟨j, rest, rfl, hj⟩
    simpa using hj
  · intro h
    cases id with
    | nil => cases h
    | cons j rest => exact ⟨j, rest, by simp, h⟩

/-- Forests that have the same labels at the same addresses are equal. -/
theorem eq_of_get?_eq {g : Forest α} (h : ∀ id, f.get? id = g.get? id) : f = g := by
  induction f generalizing g with
  | nil =>
    cases g with
    | nil => rfl
    | cons b below after => cases h [0]
  | cons a below after ih₁ ih₂ =>
    cases g with
    | nil => cases h [0]
    | cons b below' after' =>
      have hlabel : a = b := Option.some.inj (h [0])
      have hbelow : below = below' := by
        refine ih₁ fun id => ?_
        rcases id with _ | ⟨k, rest⟩
        · rfl
        · exact h (0 :: k :: rest)
      have hafter : after = after' := by
        refine ih₂ fun id => ?_
        rcases id with _ | ⟨i, rest⟩
        · rfl
        · have hlater := h ((i + 1) :: rest)
          rwa [get?_cons_succ, get?_cons_succ] at hlater
      rw [hlabel, hbelow, hafter]

theorem mem_map_fst_entriesFrom {above : Address} {i : Nat}
    (h : id ∈ (f.entriesFrom above i).map (·.1)) : ∃ j rest, id = above ++ (i + j) :: rest := by
  obtain ⟨⟨id, a⟩, hm, rfl⟩ := List.mem_map.mp h
  obtain ⟨j, rest, hid, -⟩ := mem_entriesFrom_iff.mp hm
  exact ⟨j, rest, hid⟩

/-- The listing goes through the addresses in document order. -/
theorem pairwise_entriesFrom (above : Address) (i : Nat) (f : Forest α) :
    ((f.entriesFrom above i).map (·.1)).Pairwise Address.Precedes := by
  induction f generalizing above i with
  | nil => exact List.Pairwise.nil
  | cons a below after ih₁ ih₂ =>
    simp only [entriesFrom, List.map_cons, List.map_append]
    refine List.pairwise_cons.mpr ⟨?_, List.pairwise_append.mpr ⟨ih₁ _ _, ih₂ _ _, ?_⟩⟩
    · intro x hx
      rcases List.mem_append.mp hx with hx | hx
      · obtain ⟨j, rest, rfl⟩ := mem_map_fst_entriesFrom hx
        exact Address.precedes_append (above ++ [i]) (0 + j) rest
      · obtain ⟨j, rest, rfl⟩ := mem_map_fst_entriesFrom hx
        exact Address.precedes_of_lt above [] rest (by omega)
    · intro x hx y hy
      obtain ⟨j, rest, rfl⟩ := mem_map_fst_entriesFrom hx
      obtain ⟨k, rest', rfl⟩ := mem_map_fst_entriesFrom hy
      rw [List.append_assoc]
      exact Address.precedes_of_lt above ((0 + j) :: rest) rest' (by omega)

theorem pairwise_entries (f : Forest α) : (f.entries.map (·.1)).Pairwise Address.Precedes :=
  pairwise_entriesFrom [] 0 f

theorem nodup_entriesFrom (above : Address) (i : Nat) (f : Forest α) :
    ((f.entriesFrom above i).map (·.1)).Nodup :=
  (pairwise_entriesFrom above i f).imp Address.Precedes.ne

/-- The listing holds each address once. -/
theorem nodup_entries (f : Forest α) : (f.entries.map (·.1)).Nodup := nodup_entriesFrom [] 0 f

end Forest

namespace RuleTree

variable {tree : RuleTree} {id : Address} {rule : Rule}

/-- The rules of a tree are what it has at the addresses other than the root. -/
theorem mem_rules_iff : (id, rule) ∈ tree.rules ↔ id ≠ root ∧ tree.get? id = some rule := by
  rw [rules, Forest.mem_entries_iff, get?]
  constructor
  · intro h
    have hid : id ≠ root := by
      rintro rfl
      cases h
    exact ⟨hid, by rwa [if_neg hid]⟩
  · rintro ⟨hid, h⟩
    rwa [if_neg hid] at h

theorem mem_toList_of_mem_rules (h : (id, rule) ∈ tree.rules) : rule ∈ tree.top.toList := by
  rw [← Forest.map_snd_entries]
  exact List.mem_map_of_mem h

/-- The listing has as many rules as the tree. -/
theorem length_rules (tree : RuleTree) : tree.rules.length = tree.size := by
  rw [size, ← Forest.length_toList, ← Forest.map_snd_entries, List.length_map]
  rfl

theorem contains_of_mem_rules (h : (id, rule) ∈ tree.rules) : tree.contains id := by
  obtain ⟨below, hb⟩ := Forest.exists_below?_of_get? (Forest.mem_entries_iff.mp h)
  simp [contains, hb]

/-- No address is listed twice. -/
theorem eq_of_getElem?_rules {n k : Nat} {a b : Address × Rule} (ha : tree.rules[n]? = some a)
    (hb : tree.rules[k]? = some b) (h : a.1 = b.1) : n = k := by
  have hn : (tree.rules.map (·.1))[n]? = some a.1 := by
    rw [List.getElem?_map, ha, Option.map_some]
  have hk : (tree.rules.map (·.1))[k]? = some b.1 := by
    rw [List.getElem?_map, hb, Option.map_some]
  have hlt : n < (tree.rules.map (·.1)).length := (List.getElem?_eq_some_iff.mp hn).1
  exact (List.getElem?_inj hlt (Forest.nodup_entries tree.top)).mp (by rw [hn, hk, h])

/-- There is a rule at every address that a tree holds, the root included. -/
theorem exists_get?_of_contains (h : tree.contains id) : ∃ rule, tree.get? id = some rule := by
  induction id using List.reverseRecOn with
  | nil => exact ⟨{}, rfl⟩
  | append_singleton id i _ =>
    obtain ⟨below, hb⟩ := Option.isSome_iff_exists.mp h
    rw [Forest.below?_append] at hb
    obtain ⟨level, hl, hb⟩ := Option.bind_eq_some_iff.mp hb
    obtain ⟨t, ht, -⟩ := Option.bind_eq_some_iff.mp hb
    exact ⟨t.1, by rw [get?, if_neg (by simp [root]), Forest.get?_concat, hl, Option.bind_some, ht,
      Option.map_some]⟩

theorem parent?_of_mem_rules (h : (id, rule) ∈ tree.rules) :
    tree.parent? id = some id.dropLast := by
  rw [parent?, if_pos ⟨(mem_rules_iff.mp h).1, contains_of_mem_rules h⟩]

theorem depth_of_mem_rules (h : (id, rule) ∈ tree.rules) : tree.depth id = id.length - 1 := by
  rw [depth, if_pos (contains_of_mem_rules h)]

/-- The rules right inside a rule have one index more in their addresses. -/
theorem mem_children_iff {child : Address} :
    child ∈ tree.children id ↔ ∃ i rule, child = id ++ [i] ∧ (child, rule) ∈ tree.rules := by
  simp only [rules, Forest.mem_entries_iff, children]
  cases hb : tree.top.below? id with
  | none =>
    constructor
    · intro h
      cases h
    · rintro ⟨i, rule, rfl, h⟩
      simp [Forest.get?_concat, hb] at h
  | some below =>
    simp only [List.mem_map, List.mem_range]
    constructor
    · rintro ⟨i, hi, rfl⟩
      obtain ⟨t, ht⟩ := Option.ne_none_iff_exists'.mp
        (mt Forest.tree?_eq_none_iff.mp (Nat.not_le.mpr hi))
      exact ⟨i, t.1, rfl, by simp [Forest.get?_concat, hb, ht]⟩
    · rintro ⟨i, rule, rfl, h⟩
      rw [Forest.get?_concat, hb, Option.bind_some] at h
      obtain ⟨t, ht, -⟩ := Option.map_eq_some_iff.mp h
      refine ⟨i, Nat.not_le.mp (mt Forest.tree?_eq_none_iff.mpr ?_), rfl⟩
      simp [ht]

theorem exists_mem_rules_of_mem_children {child : Address} (h : child ∈ tree.children id) :
    ∃ rule, (child, rule) ∈ tree.rules := by
  obtain ⟨-, rule, -, hr⟩ := mem_children_iff.mp h
  exact ⟨rule, hr⟩

end RuleTree

end CssOutline
