import CssOutline.Proofs.Outline.Landmark

/-!
# Pairing the braces of a stylesheet

Braces pair up innermost first: an opening brace and a closing one form a pair if the braces
between them pair up among themselves. A block is open as long as the closing brace of its pair
has not been read.

## Main definitions

* `Balanced`: landmarks whose braces pair up among themselves
* `ClosesAt`: the partner of an opening brace
* `enclosing`: the rules whose blocks are open behind some landmarks
* `closer?`: the partner found by counting

## Main results

* `closer?_zero_eq_some_iff`: counting finds the partner
-/

namespace CssOutline

/-- Landmarks whose braces pair up among themselves. -/
inductive Balanced : List Landmark → Prop
  | nil : Balanced []
  | statement (start stop : Nat) {after : List Landmark} :
      Balanced after → Balanced (.statement start stop :: after)
  | block (brace partner : Nat) {inside after : List Landmark} :
      Balanced inside → Balanced after →
        Balanced (.opening brace :: inside ++ .closing partner :: after)

/-- Whether a block that opens right before the given landmarks is closed at an offset. -/
def ClosesAt (after : List Landmark) (stop : Nat) : Prop :=
  ∃ inside rest, after = inside ++ .closing stop :: rest ∧ Balanced inside

/-- The closing brace, among the given landmarks, of a block that is open before them; `inner`
other blocks inside it are open there too. -/
def closer? : (inner : Nat) → List Landmark → Option Nat
  | _, [] => none
  | inner, .opening _ :: rest => closer? (inner + 1) rest
  | 0, .closing brace :: _ => some brace
  | inner + 1, .closing _ :: rest => closer? inner rest
  | inner, .statement _ _ :: rest => closer? inner rest

section Closer

variable {inner : Nat} {rest : List Landmark}

@[simp] theorem closer?_nil : closer? inner [] = none := by
  cases inner <;> rfl

@[simp] theorem closer?_opening (brace : Nat) :
    closer? inner (.opening brace :: rest) = closer? (inner + 1) rest := by
  cases inner <;> rfl

@[simp] theorem closer?_zero_closing (brace : Nat) :
    closer? 0 (.closing brace :: rest) = some brace := rfl

@[simp] theorem closer?_succ_closing (brace : Nat) :
    closer? (inner + 1) (.closing brace :: rest) = closer? inner rest := rfl

@[simp] theorem closer?_statement (start stop : Nat) :
    closer? inner (.statement start stop :: rest) = closer? inner rest := by
  cases inner <;> rfl

/-- Balanced landmarks close no block around them. -/
theorem Balanced.closer?_append {inside : List Landmark} (h : Balanced inside) (inner : Nat)
    (rest : List Landmark) : closer? inner (inside ++ rest) = closer? inner rest := by
  induction h generalizing inner rest with
  | nil => rfl
  | statement start stop _ ih => rw [List.cons_append, closer?_statement, ih]
  | block brace partner _ _ ih₁ ih₂ =>
    rw [List.cons_append, List.cons_append, closer?_opening, List.append_assoc, ih₁,
      List.cons_append, closer?_succ_closing, ih₂]

/-- The first block that the landmarks close is the innermost one. -/
theorem exists_balanced_of_closer? {ls : List Landmark} {stop : Nat}
    (h : closer? inner ls = some stop) :
    ∃ inside brace rest, ls = inside ++ .closing brace :: rest ∧ Balanced inside ∧
      (inner = 0 ∧ brace = stop ∨ ∃ n, inner = n + 1 ∧ closer? n rest = some stop) := by
  -- what follows the partner of an inner brace is shorter, but no tail of the induction's own
  induction hn : ls.length using Nat.strongRecOn generalizing ls inner with
  | ind n ih =>
    match ls, h with
    | [], h => simp at h
    | .opening brace :: ls, h =>
      rw [closer?_opening] at h
      simp only [List.length_cons] at hn
      obtain ⟨inside, partner, rest, rfl, hb, hc⟩ := ih ls.length (by omega) h rfl
      rcases hc with ⟨h0, -⟩ | ⟨m, hm, hc⟩
      · cases h0
      · obtain rfl : inner = m := by omega
        simp only [List.length_append, List.length_cons] at hn
        obtain ⟨inside', partner', rest', rfl, hb', hc'⟩ := ih rest.length (by omega) hc rfl
        exact ⟨_, partner', rest', by simp, Balanced.block brace partner hb hb', hc'⟩
    | .closing brace :: ls, h =>
      refine ⟨[], brace, ls, rfl, Balanced.nil, ?_⟩
      cases inner with
      | zero => exact Or.inl ⟨rfl, by simpa using h⟩
      | succ m => exact Or.inr ⟨m, rfl, h⟩
    | .statement start stop :: ls, h =>
      rw [closer?_statement] at h
      simp only [List.length_cons] at hn
      obtain ⟨inside, brace, rest, rfl, hb, hc⟩ := ih ls.length (by omega) h rfl
      exact ⟨_, brace, rest, rfl, Balanced.statement start stop hb, hc⟩

/-- Counting open blocks finds the partner of an opening brace. -/
theorem closer?_zero_eq_some_iff {ls : List Landmark} {stop : Nat} :
    closer? 0 ls = some stop ↔ ClosesAt ls stop := by
  constructor
  · intro h
    obtain ⟨inside, brace, rest, rfl, hb, hstop⟩ := exists_balanced_of_closer? h
    rcases hstop with ⟨-, rfl⟩ | ⟨n, h0, -⟩
    · exact ⟨inside, rest, rfl, hb⟩
    · cases h0
  · rintro ⟨inside, rest, rfl, hb⟩
    rw [hb.closer?_append, closer?_zero_closing]

theorem exists_closesAt_iff {ls : List Landmark} :
    (∃ stop, ClosesAt ls stop) ↔ (closer? 0 ls).isSome := by
  simp only [Option.isSome_iff_exists, closer?_zero_eq_some_iff]

instance (ls : List Landmark) : Decidable (∃ stop, ClosesAt ls stop) :=
  decidable_of_iff _ exists_closesAt_iff.symm

end Closer

/-- The blocks that are open behind the given landmarks, outermost first. A block is named by
the number of its rule in document order; the first rule of the landmarks has number `number`. -/
def enclosing : (number : Nat) → List Landmark → List Nat
  | _, [] => []
  | number, .opening _ :: rest =>
    if ∃ stop, ClosesAt rest stop then enclosing (number + 1) rest
    else number :: enclosing (number + 1) rest
  | number, .closing _ :: rest => enclosing number rest
  | number, .statement _ _ :: rest => enclosing (number + 1) rest

example : enclosing 0 [.opening 1, .opening 2, .statement 3 9, .closing 10, .opening 11] =
    [0, 3] := by decide

end CssOutline
