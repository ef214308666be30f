import CssOutline.Rule
import Mathlib.Data.List.Infix
import Mathlib.Data.Option.Basic

/-!
# Slices between character boundaries

A slice of a text exists exactly where its two offsets are in order and both fall between
characters.

## Main definitions

* `Text.IsBoundary`: an offset that falls between two characters

## Main results

* `Text.isBoundary_iff`: a boundary cuts the text in two
* `Text.slice?_eq_some_iff`: the pieces around a slice
* `Text.isSome_slice?_iff`: when there is a slice
* `Text.slice?_append`: slices that meet
-/

namespace CssOutline.Text

variable {text : Text} {i j : Nat}

/-- An offset that falls between two characters of a text, or at one of its ends. -/
def IsBoundary (text : Text) (offset : Nat) : Prop := (text.splitAt? offset).isSome

theorem isBoundary_iff : text.IsBoundary i ↔ ∃ a b, text = a ++ b ∧ byteSize a = i := by
  rw [IsBoundary, Option.isSome_iff_exists]
  constructor
  · rintro ⟨⟨a, b⟩, h⟩
    exact ⟨a, b, splitAt?_eq_some_iff.mp h⟩
  · rintro ⟨a, b, h⟩
    exact ⟨(a, b), splitAt?_eq_some_iff.mpr h⟩

/-- A text is cut in one way into parts of given sizes. -/
theorem append_inj_of_byteSize {a b a' b' : Text} (h : a ++ b = a' ++ b')
    (hsize : byteSize a = byteSize a') : a = a' ∧ b = b' := by
  have hcut := splitAt?_append a b
  rw [h, hsize, splitAt?_append, Option.some.injEq, Prod.mk.injEq] at hcut
  exact ⟨hcut.1.symm, hcut.2.symm⟩

theorem dropBytes?_append (a b : Text) : (a ++ b).dropBytes? (byteSize a) = some b := by
  rw [dropBytes?, splitAt?_append]
  rfl

theorem dropBytes?_eq_some_iff {behind : Text} :
    text.dropBytes? i = some behind ↔ ∃ a, text = a ++ behind ∧ byteSize a = i := by
  rw [dropBytes?, Option.map_eq_some_iff]
  constructor
  · rintro ⟨⟨a, _⟩, h, rfl⟩
    exact ⟨a, splitAt?_eq_some_iff.mp h⟩
  · rintro ⟨a, h⟩
    exact ⟨(a, behind), splitAt?_eq_some_iff.mpr h, rfl⟩

theorem isBoundary_append (a b : Text) : IsBoundary (a ++ b) (byteSize a) :=
  isBoundary_iff.mpr ⟨a, b, rfl, rfl⟩

theorem isBoundary_zero (text : Text) : text.IsBoundary 0 := isBoundary_append [] text

theorem isBoundary_byteSize (text : Text) : text.IsBoundary text.byteSize := by
  simpa using isBoundary_append text []

theorem byteSize_eq_zero_iff : byteSize text = 0 ↔ text = [] := by
  cases text with
  | nil => simp
  | cons c rest =>
    have hc := c.utf8Size_pos
    simp only [byteSize_cons, List.cons_ne_nil, iff_false]
    omega

/-- The pieces around a slice. -/
theorem slice?_eq_some_iff {inside : Text} :
    text.slice? i j = some inside ↔
      ∃ a b, text = a ++ (inside ++ b) ∧ byteSize a = i ∧ byteSize a + byteSize inside = j := by
  simp only [slice?, dropBytes?, Option.bind_eq_bind, Option.bind_eq_some_iff,
    Option.guard_eq_some', Option.map_eq_some_iff, Option.pure_def, Option.some.injEq]
  constructor
  · rintro ⟨-, hij, rest, ⟨⟨a, _⟩, ha, rfl⟩, ⟨_, b⟩, hb, rfl⟩
    obtain ⟨rfl, rfl⟩ := splitAt?_eq_some_iff.mp ha
    obtain ⟨hr, hj⟩ := splitAt?_eq_some_iff.mp hb
    simp only at hr hj ⊢
    exact ⟨a, b, by rw [hr], rfl, by omega⟩
  · rintro ⟨a, b, rfl, rfl, rfl⟩
    refine ⟨(), Nat.le_add_right _ _, inside ++ b, ⟨(a, inside ++ b), ?_, rfl⟩, (inside, b), ?_,
      rfl⟩
    · exact splitAt?_append _ _
    · rw [Nat.add_sub_cancel_left]
      exact splitAt?_append _ _

/-- What the text behind an offset begins with is a slice. -/
theorem slice?_of_dropBytes? {inside after : Text}
    (h : text.dropBytes? i = some (inside ++ after)) :
    text.slice? i (i + byteSize inside) = some inside := by
  obtain ⟨a, ht, rfl⟩ := dropBytes?_eq_some_iff.mp h
  exact slice?_eq_some_iff.mpr ⟨a, after, ht, rfl, rfl⟩

theorem dropBytes?_of_slice? {inside : Text} (h : text.slice? i j = some inside) :
    ∃ after, text.dropBytes? i = some (inside ++ after) := by
  obtain ⟨a, after, ht, ha, -⟩ := slice?_eq_some_iff.mp h
  exact ⟨after, dropBytes?_eq_some_iff.mpr ⟨a, ht, ha⟩⟩

/-- There is a slice where the offsets are boundaries in order. -/
theorem isSome_slice?_iff :
    (text.slice? i j).isSome ↔ i ≤ j ∧ text.IsBoundary i ∧ text.IsBoundary j := by
  rw [Option.isSome_iff_exists]
  constructor
  · rintro ⟨inside, h⟩
    obtain ⟨a, b, rfl, rfl, rfl⟩ := slice?_eq_some_iff.mp h
    refine ⟨Nat.le_add_right _ _, isBoundary_append _ _, ?_⟩
    simpa using isBoundary_append (a ++ inside) b
  · rintro ⟨hij, hi, hj⟩
    obtain ⟨a, b, rfl, rfl⟩ := isBoundary_iff.mp hi
    obtain ⟨a', b', ht, rfl⟩ := isBoundary_iff.mp hj
    rcases List.append_eq_append_iff.mp ht with ⟨inside, rfl, rfl⟩ | ⟨extra, rfl, rfl⟩
    · exact ⟨inside, slice?_eq_some_iff.mpr ⟨a, b', rfl, rfl, by simp⟩⟩
    · obtain rfl : extra = [] := by
        rw [byteSize_append] at hij
        exact byteSize_eq_zero_iff.mp (by omega)
      exact ⟨[], slice?_eq_some_iff.mpr ⟨a', b, by simp, by simp, by simp⟩⟩

/-- Slices that meet are one slice. -/
theorem slice?_append {k : Nat} {inside inside' : Text} (h : text.slice? i j = some inside)
    (h' : text.slice? j k = some inside') : text.slice? i k = some (inside ++ inside') := by
  obtain ⟨a, b, ht, rfl, hj⟩ := slice?_eq_some_iff.mp h
  obtain ⟨a', b', ht', hj', rfl⟩ := slice?_eq_some_iff.mp h'
  have hcut : text.splitAt? j = some (a ++ inside, b) :=
    splitAt?_eq_some_iff.mpr ⟨by rw [ht, List.append_assoc], by rw [byteSize_append, hj]⟩
  have hcut' : text.splitAt? j = some (a', inside' ++ b') := splitAt?_eq_some_iff.mpr ⟨ht', hj'⟩
  obtain ⟨rfl, rfl⟩ := Prod.mk.inj (Option.some.inj (hcut.symm.trans hcut'))
  refine slice?_eq_some_iff.mpr ⟨a, b', by rw [ht, List.append_assoc], rfl, ?_⟩
  rw [byteSize_append, byteSize_append, Nat.add_assoc]

/-- A slice falls between boundaries. -/
theorem IsBoundary.of_slice? {inside : Text} (h : text.slice? i j = some inside) :
    text.IsBoundary i ∧ text.IsBoundary j := by
  have hsome : (text.slice? i j).isSome := by rw [h]; rfl
  exact (isSome_slice?_iff.mp hsome).2

end CssOutline.Text
