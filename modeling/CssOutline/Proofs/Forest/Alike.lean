import CssOutline.Proofs.Forest.Entries
import Mathlib.Data.List.Forall2

/-!
# Forests of one shape

Two forests are alike under a relation if they have the same shape and related labels at the
same places. So they list related labels under the same addresses, and a node has the same
parent and the same depth in both.

## Main definitions

* `Forest.Alike`: forests of the same shape with related labels

## Main results

* `Forest.Alike.map_eq_map`: forests that are alike become equal where related labels do
* `Forest.Alike.forall₂_entries`: their listings have the same addresses
* `RuleTree.parent?_eq_of_alike`, `RuleTree.depth_eq_of_alike`: rules have the same places
-/

namespace CssOutline

/-- What stands in the one of two related lists is related to something in the other. -/
theorem exists_mem_of_forall₂ {α β : Type} {R : α → β → Prop} {l : List α} {l' : List β}
    (h : List.Forall₂ R l l') {a : α} (ha : a ∈ l) : ∃ b ∈ l', R a b := by
  induction h with
  | nil => cases ha
  | cons hhead _ ih =>
    rcases List.mem_cons.mp ha with rfl | ha
    · exact ⟨_, List.mem_cons_self, hhead⟩
    · obtain ⟨b, hb, hrelated⟩ := ih ha
      exact ⟨b, List.mem_cons_of_mem _ hb, hrelated⟩

namespace Forest

variable {α β γ : Type} {R : α → β → Prop} {f f' : Forest α} {g g' : Forest β}

/-- Forests of the same shape with related labels at the same places. -/
inductive Alike (R : α → β → Prop) : Forest α → Forest β → Prop
  | nil : Alike R nil nil
  | cons {a : α} {b : β} {below after : Forest α} {below' after' : Forest β} (label : R a b)
      (inside : Alike R below below') (behind : Alike R after after') :
      Alike R (cons a below after) (cons b below' after')

namespace Alike

theorem append (h : f.Alike R g) (h' : f'.Alike R g') : (f ++ f').Alike R (g ++ g') := by
  induction h with
  | nil => exact h'
  | cons label inside _ _ ih => exact .cons label inside ih

/-- One more tree behind forests that are alike. -/
theorem concat (h : f.Alike R g) {a : α} {b : β} (label : R a b) (inside : f'.Alike R g') :
    (f ++ Forest.cons a f' .nil).Alike R (g ++ Forest.cons b g' .nil) :=
  h.append (.cons label inside .nil)

/-- Forests that are alike become equal where related labels do. -/
theorem map_eq_map (h : f.Alike R g) {F : α → γ} {G : β → γ} (hFG : ∀ a b, R a b → F a = G b) :
    f.map F = g.map G := by
  induction h with
  | nil => rfl
  | cons label _ _ ih₁ ih₂ => rw [map_cons, map_cons, hFG _ _ label, ih₁, ih₂]

/-- Changed labels are related where the labels were. -/
theorem map {δ : Type} {S : γ → δ → Prop} {F : α → γ} {G : β → δ} (h : f.Alike R g)
    (hFG : ∀ a b, R a b → S (F a) (G b)) : (f.map F).Alike S (g.map G) := by
  induction h with
  | nil => exact .nil
  | cons label _ _ ih₁ ih₂ => exact .cons (hFG _ _ label) ih₁ ih₂

/-- Two changes of the labels of one forest are alike where they are related on its labels. -/
theorem of_map {F : γ → α} {G : γ → β} {f : Forest γ} (h : ∀ c ∈ f.toList, R (F c) (G c)) :
    (f.map F).Alike R (f.map G) := by
  induction f with
  | nil => exact .nil
  | cons c below after ih₁ ih₂ =>
    refine .cons (h c List.mem_cons_self) (ih₁ fun d hd => ?_) (ih₂ fun d hd => ?_)
    · exact h d (List.mem_cons_of_mem c (List.mem_append_left _ hd))
    · exact h d (List.mem_cons_of_mem c (List.mem_append_right _ hd))

/-- Every forest is alike to itself where labels may be anything. -/
theorem refl (f : Forest α) : f.Alike (fun _ _ : α => True) f := by
  induction f with
  | nil => exact .nil
  | cons _ _ _ ih₁ ih₂ => exact .cons trivial ih₁ ih₂

theorem size_eq (h : f.Alike R g) : f.size = g.size := by
  induction h with
  | nil => rfl
  | cons _ _ _ ih₁ ih₂ => rw [size, size, ih₁, ih₂]

theorem forall₂_entriesFrom (h : f.Alike R g) (above : Address) (i : Nat) :
    List.Forall₂ (fun x y => x.1 = y.1 ∧ R x.2 y.2) (f.entriesFrom above i)
      (g.entriesFrom above i) := by
  induction h generalizing above i with
  | nil => exact .nil
  | cons label _ _ ih₁ ih₂ =>
    exact .cons ⟨rfl, label⟩ (List.rel_append (ih₁ _ _) (ih₂ _ _))

/-- Forests that are alike list related labels under the same addresses. -/
theorem forall₂_entries (h : f.Alike R g) :
    List.Forall₂ (fun x y => x.1 = y.1 ∧ R x.2 y.2) f.entries g.entries :=
  h.forall₂_entriesFrom [] 0

theorem map_fst_entries (h : f.Alike R g) : f.entries.map (·.1) = g.entries.map (·.1) := by
  rw [← List.forall₂_eq_eq_eq, List.forall₂_map_left_iff, List.forall₂_map_right_iff]
  exact h.forall₂_entries.imp fun _ _ => And.left

end Alike

/-- Maps that agree on the labels of a forest agree on the forest. -/
theorem map_congr {F G : α → β} (h : ∀ a ∈ f.toList, F a = G a) : f.map F = f.map G := by
  induction f with
  | nil => rfl
  | cons a below after ih₁ ih₂ =>
    have hbelow : below.map F = below.map G := by
      apply ih₁
      intro b hb
      exact h b (List.mem_cons_of_mem a (List.mem_append_left _ hb))
    have hafter : after.map F = after.map G := by
      apply ih₂
      intro b hb
      exact h b (List.mem_cons_of_mem a (List.mem_append_right _ hb))
    rw [map_cons, map_cons, h a List.mem_cons_self, hbelow, hafter]

theorem map_map (F : α → β) (G : β → γ) (f : Forest α) :
    (f.map F).map G = f.map fun a => G (F a) := by
  induction f with
  | nil => rfl
  | cons a below after ih₁ ih₂ => rw [map_cons, map_cons, map_cons, ih₁, ih₂]

end Forest

namespace RuleTree

variable {R : Rule → Rule → Prop} {tree tree' : RuleTree}

/-- Trees that are alike hold the same addresses. -/
theorem contains_eq_of_alike (h : tree.top.Alike R tree'.top) (id : Address) :
    tree.contains id = tree'.contains id := by
  have hshape : tree.map (fun _ => {}) = tree'.map fun _ => {} :=
    congrArg RuleTree.mk (h.map_eq_map fun _ _ _ => rfl)
  rw [← contains_map (fun _ => {}) tree, hshape, contains_map]

theorem children_map (change : Rule → Rule) (tree : RuleTree) (id : Address) :
    (tree.map change).children id = tree.children id := by
  rw [children, children, map, Forest.below?_map]
  cases tree.top.below? id with
  | none => rfl
  | some below => simp only [Option.map_some, Forest.width_map]

theorem children_eq_of_alike (h : tree.top.Alike R tree'.top) (id : Address) :
    tree.children id = tree'.children id := by
  have hshape : tree.map (fun _ => {}) = tree'.map fun _ => {} :=
    congrArg RuleTree.mk (h.map_eq_map fun _ _ _ => rfl)
  rw [← children_map (fun _ => {}) tree, hshape, children_map]

theorem parent?_eq_of_alike (h : tree.top.Alike R tree'.top) (id : Address) :
    tree.parent? id = tree'.parent? id := by
  rw [parent?, parent?, contains_eq_of_alike h]

theorem depth_eq_of_alike (h : tree.top.Alike R tree'.top) (id : Address) :
    tree.depth id = tree'.depth id := by
  rw [depth, depth, contains_eq_of_alike h]

/-- A rule of the one tree has a related rule at its address in the other. -/
theorem exists_mem_rules_of_alike (h : tree.top.Alike R tree'.top) {id : Address} {rule : Rule}
    (hr : (id, rule) ∈ tree.rules) : ∃ rule', (id, rule') ∈ tree'.rules ∧ R rule rule' := by
  obtain ⟨⟨_, rule'⟩, hr', rfl, hrelated⟩ := exists_mem_of_forall₂ h.forall₂_entries hr
  exact ⟨rule', hr', hrelated⟩

end RuleTree

end CssOutline
