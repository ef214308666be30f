import CssOutline.Text.Blank
import Mathlib.Data.List.DropRight

/-!
# Trimmed texts

Trimming takes the characters of a class from both ends of a text and nothing else. A text is
trimmed if neither of its ends is in the class, and what is put around a text from the class alone
goes again when the whole is trimmed.

## Main results

* `Text.exists_trim`: a text is its trimmed text between characters of the class
* `Text.getElem?_trimEnd_eq_some_iff`: other characters stay where they were
* `Text.trim_append`: characters of the class around a text are trimmed
* `Text.trim_eq_self_iff`, `Text.trim_trim`: which texts are trimmed
* `Text.trim_map`: a map that respects the class respects trimming
-/

namespace CssOutline.Text

variable {drop : Char → Bool} {text front back : Text}

/-! ## What trimming removes -/

theorem exists_trimEnd (drop : Char → Bool) (text : Text) :
    ∃ back, text = trimEnd drop text ++ back ∧ ∀ c ∈ back, drop c := by
  refine ⟨text.rtakeWhile drop, List.rdropWhile_append_rtakeWhile.symm, fun c hc => ?_⟩
  exact List.mem_rtakeWhile_imp hc

theorem exists_trimStart (drop : Char → Bool) (text : Text) :
    ∃ front, text = front ++ trimStart drop text ∧ ∀ c ∈ front, drop c := by
  refine ⟨text.takeWhile drop, List.takeWhile_append_dropWhile.symm, fun c hc => ?_⟩
  exact List.mem_takeWhile_imp hc

/-- A text is its trimmed text between characters of the class. -/
theorem exists_trim (drop : Char → Bool) (text : Text) :
    ∃ front back, text = front ++ (trim drop text ++ back) ∧ (∀ c ∈ front, drop c) ∧
      ∀ c ∈ back, drop c := by
  obtain ⟨front, hfront, hf⟩ := exists_trimStart drop text
  obtain ⟨back, hback, hb⟩ := exists_trimEnd drop (trimStart drop text)
  refine ⟨front, back, ?_, hf, hb⟩
  rw [trim, ← hback]
  exact hfront

theorem mem_of_mem_trim {c : Char} (h : c ∈ trim drop text) : c ∈ text := by
  obtain ⟨front, back, ht, -, -⟩ := exists_trim drop text
  rw [ht]
  exact List.mem_append_right front (List.mem_append_left back h)

theorem mem_of_mem_trimEnd {c : Char} (h : c ∈ trimEnd drop text) : c ∈ text := by
  obtain ⟨back, ht, -⟩ := exists_trimEnd drop text
  rw [ht]
  exact List.mem_append_left back h

/-- What is left stays where it was. -/
theorem getElem?_of_getElem?_trimEnd {c : Char} {i : Nat} (h : (trimEnd drop text)[i]? = some c) :
    text[i]? = some c := by
  obtain ⟨back, ht, -⟩ := exists_trimEnd drop text
  obtain ⟨hi, -⟩ := List.getElem?_eq_some_iff.mp h
  rw [ht, List.getElem?_append_left hi]
  exact h

/-- A character that is not of the class is left where it was. -/
theorem getElem?_trimEnd_eq_some_iff {c : Char} {i : Nat} (hc : drop c = false) :
    (trimEnd drop text)[i]? = some c ↔ text[i]? = some c := by
  refine ⟨getElem?_of_getElem?_trimEnd, fun h => ?_⟩
  obtain ⟨back, ht, hback⟩ := exists_trimEnd drop text
  rw [ht, List.getElem?_append] at h
  split at h
  · exact h
  · rw [hback c (List.mem_of_getElem? h)] at hc
    cases hc

/-- Nothing is trimmed in front of a character that is not of the class. -/
theorem trimEnd_append_of_getLast? {front : Text} (h : ∀ c ∈ front.getLast?, drop c = false)
    (text : Text) : trimEnd drop (front ++ text) = front ++ trimEnd drop text := by
  have hfront : front.reverse.dropWhile drop = front.reverse := by
    cases hreverse : front.reverse with
    | nil => rfl
    | cons c rest =>
      rw [List.dropWhile_cons_of_neg]
      rw [h c (by rw [← List.head?_reverse, hreverse]; rfl)]
      exact Bool.false_ne_true
  rw [trimEnd, List.reverse_append, List.dropWhile_append, trimEnd]
  split
  · next hempty => rw [hfront, List.isEmpty_iff.mp hempty, List.reverse_reverse]; simp
  · rw [List.reverse_append, List.reverse_reverse]

theorem trimEnd_append (hback : ∀ c ∈ back, drop c) (text : Text) :
    trimEnd drop (text ++ back) = trimEnd drop text := by
  have hreverse : ∀ c ∈ back.reverse, drop c := fun c hc => hback c (List.mem_reverse.mp hc)
  rw [trimEnd, List.reverse_append, List.dropWhile_append_of_pos hreverse, trimEnd]

/-- Characters of the class around a text are trimmed. -/
theorem trim_append (hfront : ∀ c ∈ front, drop c) (hback : ∀ c ∈ back, drop c) (text : Text) :
    trim drop (front ++ (text ++ back)) = trim drop text := by
  rw [trim, trimStart, List.dropWhile_append_of_pos hfront, List.dropWhile_append, trim, trimStart]
  split
  · next hempty =>
    rw [List.isEmpty_iff.mp hempty, List.dropWhile_eq_nil_iff.mpr hback]
  · exact trimEnd_append hback _

/-! ## Trimmed texts -/

/-- A text is trimmed if neither of its ends is in the class. -/
theorem trim_eq_self_iff : trim drop text = text ↔
    (∀ c ∈ text.head?, drop c = false) ∧ ∀ c ∈ text.getLast?, drop c = false := by
  constructor
  · intro h
    obtain ⟨front, hfront, -⟩ := exists_trimStart drop text
    obtain ⟨back, hback, -⟩ := exists_trimEnd drop (trimStart drop text)
    have hlength := congrArg List.length hfront
    have hlength' := congrArg List.length hback
    have htrim := congrArg List.length h
    rw [trim] at htrim
    rw [List.length_append] at hlength hlength'
    obtain rfl : front = [] := List.length_eq_zero_iff.mp (by omega)
    have hstart : trimStart drop text = text := hfront.symm
    have hend : trimEnd drop text = text := by rwa [trim, hstart] at h
    constructor
    · intro c hc
      obtain ⟨rest, rfl⟩ := List.head?_eq_some_iff.mp hc
      simpa using List.dropWhile_eq_self_iff.mp hstart
    · intro c hc
      obtain ⟨most, rfl⟩ := List.getLast?_eq_some_iff.mp hc
      simpa using List.rdropWhile_eq_self_iff.mp hend
  · rintro ⟨hhead, hlast⟩
    have hstart : trimStart drop text = text := by
      refine List.dropWhile_eq_self_iff.mpr fun hpos => ?_
      rw [hhead text[0] (by rw [List.head?_eq_getElem?, List.getElem?_eq_getElem hpos]; rfl)]
      exact Bool.false_ne_true
    rw [trim, hstart]
    refine List.rdropWhile_eq_self_iff.mpr fun hne => ?_
    rw [hlast _ (List.getLast?_eq_some_getLast hne)]
    exact Bool.false_ne_true

/-- Trimming twice is trimming once. -/
theorem trim_trim (drop : Char → Bool) (text : Text) :
    trim drop (trim drop text) = trim drop text := by
  obtain ⟨front, back, ht, hfront, hback⟩ := exists_trim drop text
  rw [← trim_append hfront hback, ← ht]

/-! ## Changed characters -/

/-- A map that respects the class respects trimming. -/
theorem trim_map {change : Char → Char} (h : ∀ c, drop (change c) = drop c) (text : Text) :
    trim drop (text.map change) = (trim drop text).map change := by
  have hdrop : drop ∘ change = drop := funext h
  simp only [trim, trimStart, trimEnd, List.dropWhile_map, ← List.map_reverse, hdrop]

end CssOutline.Text
