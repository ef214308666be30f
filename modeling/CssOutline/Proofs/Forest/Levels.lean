import CssOutline.Proofs.Forest.Alike

/-!
# Forests by the depths of their nodes

A forest is determined by its labels in document order together with their depths: the nodes below
one are those behind it, up to the next one that is not deeper. So nothing but the depths is needed
to tell the shape of a forest from its listing.

## Main definitions

* `Forest.levels`: the labels in document order, with their depths

## Main results

* `append_inj_of_forall`: a list is cut in one way where a class of items ends
* `Forest.map_length_entriesFrom`: the depths are read off the addresses
* `Forest.levels_injective`: depths and labels determine a forest
-/

namespace CssOutline

/-- A list is cut in one way into items of a class and a rest that does not begin with one. -/
theorem append_inj_of_forall {α : Type} {p : α → Bool} {front front' rest rest' : List α}
    (h : front ++ rest = front' ++ rest') (hfront : ∀ x ∈ front, p x)
    (hfront' : ∀ x ∈ front', p x) (hrest : ∀ x ∈ rest.head?, p x = false)
    (hrest' : ∀ x ∈ rest'.head?, p x = false) : front = front' ∧ rest = rest' := by
  have hnil : ∀ rest : List α, (∀ x ∈ rest.head?, p x = false) → rest.takeWhile p = [] := by
    rintro (_ | ⟨x, rest⟩) hx
    · rfl
    · exact List.takeWhile_cons_of_neg (by simp [hx x rfl])
  have htake := congrArg (List.takeWhile p) h
  rw [List.takeWhile_append_of_pos hfront, List.takeWhile_append_of_pos hfront', hnil rest hrest,
    hnil rest' hrest', List.append_nil, List.append_nil] at htake
  subst htake
  exact ⟨rfl, List.append_cancel_left h⟩

namespace Forest

variable {α β : Type} {f g : Forest α} {depth : Nat}

/-- The labels in document order, each with its depth, where the trees are at the given one. -/
def levels (depth : Nat) : Forest α → List (Nat × α)
  | nil => []
  | cons a below after => (depth, a) :: (below.levels (depth + 1) ++ after.levels depth)

/-- The depth of a node is read off its address. -/
theorem map_length_entriesFrom (above : Address) (i : Nat) (f : Forest α) :
    ((f.entriesFrom above i).map fun entry => (entry.1.length - 1, entry.2)) =
      f.levels above.length := by
  induction f generalizing above i with
  | nil => rfl
  | cons a below after ih₁ ih₂ =>
    have hlength : (above ++ [i]).length = above.length + 1 := List.length_append
    rw [entriesFrom, List.map_cons, List.map_append, ih₁, ih₂, levels, hlength,
      Nat.add_sub_cancel]

theorem levels_map (change : α → β) (depth : Nat) (f : Forest α) :
    (f.map change).levels depth =
      (f.levels depth).map fun entry => (entry.1, change entry.2) := by
  induction f generalizing depth with
  | nil => rfl
  | cons a below after ih₁ ih₂ =>
    rw [map_cons, levels, levels, ih₁, ih₂, List.map_cons, List.map_append]

/-- No node is above the trees. -/
theorem le_of_mem_levels {entry : Nat × α} (h : entry ∈ f.levels depth) : depth ≤ entry.1 := by
  induction f generalizing depth with
  | nil => cases h
  | cons a below after ih₁ ih₂ =>
    rcases List.mem_cons.mp h with rfl | h
    · exact Nat.le_refl _
    · rcases List.mem_append.mp h with h | h
      · exact Nat.le_of_succ_le (ih₁ h)
      · exact ih₂ h

/-- The first node is the label of a tree. -/
theorem eq_of_mem_head?_levels {entry : Nat × α} (h : entry ∈ (f.levels depth).head?) :
    entry.1 = depth := by
  cases f with
  | nil => cases h
  | cons a below after =>
    obtain rfl := Option.some.inj h
    rfl

/-- **Depths and labels determine a forest.** -/
theorem levels_injective (h : f.levels depth = g.levels depth) : f = g := by
  induction f generalizing g depth with
  | nil =>
    cases g with
    | nil => rfl
    | cons a below after => cases h
  | cons a below after ih₁ ih₂ =>
    cases g with
    | nil => cases h
    | cons b below' after' =>
      obtain ⟨hlabel, hrest⟩ := List.cons.inj h
      have hdeeper : ∀ inner : Forest α, ∀ entry ∈ inner.levels (depth + 1),
          decide (depth < entry.1) := fun _ entry hentry =>
        decide_eq_true (le_of_mem_levels hentry)
      have hnext : ∀ outer : Forest α, ∀ entry ∈ (outer.levels depth).head?,
          decide (depth < entry.1) = false := fun _ entry hentry =>
        decide_eq_false (by rw [eq_of_mem_head?_levels hentry]; exact Nat.lt_irrefl _)
      obtain ⟨hbelow, hafter⟩ := append_inj_of_forall hrest (hdeeper below) (hdeeper below')
        (hnext after) (hnext after')
      rw [(Prod.mk.inj hlabel).2, ih₁ hbelow, ih₂ hafter]

/-- Forests that become equal are alike. -/
theorem alike_of_map_eq_map {F : α → β} (h : f.map F = g.map F) :
    f.Alike (fun a b => F a = F b) g := by
  induction f generalizing g with
  | nil =>
    cases g with
    | nil => exact .nil
    | cons b below after => cases h
  | cons a below after ih₁ ih₂ =>
    cases g with
    | nil => cases h
    | cons b below' after' =>
      obtain ⟨hlabel, hbelow, hafter⟩ := Forest.cons.inj h
      exact .cons hlabel (ih₁ hbelow) (ih₂ hafter)

end Forest

namespace RuleTree

/-- The rules in document order, with their depths. -/
theorem map_depth_rules (tree : RuleTree) :
    (tree.rules.map fun entry => (tree.depth entry.1, entry.2)) = tree.top.levels 0 := by
  have hlevels := Forest.map_length_entriesFrom root 0 tree.top
  refine Eq.trans ?_ hlevels
  refine List.map_congr_left fun ⟨id, rule⟩ hr => ?_
  rw [depth_of_mem_rules hr]

end RuleTree

end CssOutline
