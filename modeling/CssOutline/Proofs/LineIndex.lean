import CssOutline.LineIndex
import Mathlib.Data.List.Count
import Mathlib.Order.Nat

/-!
# Lines and line ends

The index of a text has one line more than the text has line ends, and bisection finds the line
of every offset. The line of a place is one more than the number of line ends in front of it,
unless the place is between the `\r` and the `\n` of one line end: the text in front of it alone
has a line end there, and the whole text has it one character later.

## Main definitions

* `Text.lineEnds`: the number of line ends of a text
* `Text.SplitsLineEnd`: two texts with one line end across the cut between them

## Main results

* `LineIndex.countUpTo_eq`: bisection counts the lines that start up to an offset
* `LineIndex.size_ofText`: the number of lines of a text
* `LineIndex.lineOf_append`: the line of a place counts the line ends in front of it
* `LineIndex.lineOf_mono`: later offsets are on later lines
-/

namespace CssOutline

namespace Text

/-- Whether a line ends behind a character with the given text behind it. A `\r` in front of a
`\n` only begins a line end. -/
def EndsLine (c : Char) (rest : Text) : Prop := c = '\n' ∨ c = '\r' ∧ rest.head? ≠ some '\n'

instance (c : Char) (rest : Text) : Decidable (EndsLine c rest) :=
  inferInstanceAs (Decidable (_ ∨ _))

/-- The number of line ends of a text: `\n`, `\r`, or both together. -/
def lineEnds : Text → Nat
  | [] => 0
  | c :: rest => (if EndsLine c rest then 1 else 0) + lineEnds rest

/-- Two texts with one line end across the cut between them. -/
def SplitsLineEnd (a b : Text) : Prop := a.getLast? = some '\r' ∧ b.head? = some '\n'

theorem not_splitsLineEnd_of_append {x a b : Text} (h : ¬ SplitsLineEnd (x ++ a) b) :
    ¬ SplitsLineEnd a b := by
  rintro ⟨ha, hb⟩
  exact h ⟨by rw [List.getLast?_append, ha, Option.some_or], hb⟩

/-- Behind a text that does not end in `\r` no line end is cut. -/
theorem not_splitsLineEnd_of_getLast? {a : Text} (h : a.getLast? ≠ some '\r') (b : Text) :
    ¬ SplitsLineEnd a b := fun hs => h hs.1

/-- In front of a text that does not begin with `\n` no line end is cut. -/
theorem not_splitsLineEnd_of_head? {b : Text} (h : b.head? ≠ some '\n') (a : Text) :
    ¬ SplitsLineEnd a b := fun hs => h hs.2

/-- Where no line end is cut, lines end with and without the text behind the cut. -/
theorem endsLine_append_iff {c : Char} {rest b : Text} (h : ¬ SplitsLineEnd (c :: rest) b) :
    EndsLine c (rest ++ b) ↔ EndsLine c rest := by
  cases rest with
  | nil =>
    have hb : c = '\r' → b.head? ≠ some '\n' := by
      rintro rfl hb
      exact h ⟨rfl, hb⟩
    constructor
    · rintro (hc | ⟨hc, -⟩)
      · exact Or.inl hc
      · exact Or.inr ⟨hc, by simp⟩
    · rintro (hc | ⟨hc, -⟩)
      · exact Or.inl hc
      · exact Or.inr ⟨hc, hb hc⟩
  | cons d rest => rfl

end Text

/-! ## Where lines start -/

section LineStarts

variable {a b : Text}

theorem lineStartsAfter_cons (start : Nat) (c : Char) (rest : Text) :
    lineStartsAfter start (c :: rest) =
      (if Text.EndsLine c rest then [start + c.utf8Size] else []) ++
        lineStartsAfter (start + c.utf8Size) rest := by
  by_cases hpair : c = '\r' ∧ rest.head? = some '\n'
  · obtain ⟨rfl, hn⟩ := hpair
    obtain ⟨tail, rfl⟩ := List.head?_eq_some_iff.mp hn
    have hr : ¬ Text.EndsLine '\r' ('\n' :: tail) := by
      simp [Text.EndsLine]
    rw [if_neg hr, List.nil_append]
    cases tail <;> rfl
  · have hc : ∀ tail, c = '\r' → rest = '\n' :: tail → False := by
      rintro tail rfl rfl
      exact hpair ⟨rfl, rfl⟩
    rw [lineStartsAfter]
    · have hends : c = '\r' ∨ c = '\n' ↔ Text.EndsLine c rest := by
        constructor
        · rintro (rfl | rfl)
          · exact Or.inr ⟨rfl, fun hn => hpair ⟨rfl, hn⟩⟩
          · exact Or.inl rfl
        · rintro (rfl | ⟨rfl, -⟩)
          · exact Or.inr rfl
          · exact Or.inl rfl
      by_cases hline : c = '\r' ∨ c = '\n'
      · have hsize : c.utf8Size = 1 := by
          rcases hline with rfl | rfl <;> rfl
        rw [if_pos hline, if_pos (hends.mp hline), hsize, List.singleton_append]
      · rw [if_neg hline, if_neg (mt hends.mpr hline), List.nil_append]
    · exact hc

/-- Each line end starts one line. -/
theorem length_lineStartsAfter (start : Nat) (text : Text) :
    (lineStartsAfter start text).length = text.lineEnds := by
  induction text generalizing start with
  | nil => rfl
  | cons c rest ih =>
    rw [lineStartsAfter_cons, List.length_append, ih, Text.lineEnds]
    split <;> rfl

/-- Where no line end is cut, the lines of two texts start where those of the whole text do. -/
theorem lineStartsAfter_append (start : Nat) (h : ¬ Text.SplitsLineEnd a b) :
    lineStartsAfter start (a ++ b) =
      lineStartsAfter start a ++ lineStartsAfter (start + a.byteSize) b := by
  induction a generalizing start with
  | nil => rfl
  | cons c rest ih =>
    have hrest := ih (start + c.utf8Size) (Text.not_splitsLineEnd_of_append (x := [c]) h)
    have hends := Text.endsLine_append_iff h
    rw [List.cons_append, lineStartsAfter_cons, hrest, lineStartsAfter_cons, Text.byteSize_cons,
      List.append_assoc, Nat.add_assoc]
    simp only [hends]

theorem Text.lineEnds_append (h : ¬ SplitsLineEnd a b) :
    (a ++ b).lineEnds = a.lineEnds + b.lineEnds := by
  rw [← length_lineStartsAfter 0, lineStartsAfter_append 0 h, List.length_append,
    length_lineStartsAfter, length_lineStartsAfter]

/-- A line starts behind its line end, inside the text or at its end. -/
theorem bounds_of_mem_lineStartsAfter {start s : Nat} {text : Text}
    (h : s ∈ lineStartsAfter start text) : start < s ∧ s ≤ start + text.byteSize := by
  induction text generalizing start with
  | nil => cases h
  | cons c rest ih =>
    have hc := c.utf8Size_pos
    rw [Text.byteSize_cons]
    rw [lineStartsAfter_cons] at h
    rcases List.mem_append.mp h with h | h
    · obtain rfl : s = start + c.utf8Size := by
        split at h
        · exact List.mem_singleton.mp h
        · cases h
      omega
    · obtain ⟨hlt, hle⟩ := ih h
      omega

/-- Lines start one after another. -/
theorem pairwise_lineStartsAfter (start : Nat) (text : Text) :
    (lineStartsAfter start text).Pairwise fun s t => s < t := by
  induction text generalizing start with
  | nil => exact List.Pairwise.nil
  | cons c rest ih =>
    rw [lineStartsAfter_cons]
    refine List.pairwise_append.mpr ⟨?_, ih _, ?_⟩
    · split
      · exact List.pairwise_singleton _ _
      · exact List.Pairwise.nil
    · intro s hs t ht
      have hlt := (bounds_of_mem_lineStartsAfter ht).1
      split at hs
      · rwa [List.mem_singleton.mp hs]
      · cases hs

end LineStarts

/-! ## Bisection -/

section Bisection

/-- In a sorted list no number is up to a bound that the first one exceeds. -/
theorem countP_le_eq_zero {first offset : Nat} {rest : List Nat}
    (hs : (first :: rest).Pairwise fun s t => s < t) (h : offset < first) :
    (first :: rest).countP (· ≤ offset) = 0 := by
  rw [List.countP_eq_zero]
  intro s hmem
  rw [decide_eq_true_eq, Nat.not_le]
  rcases List.mem_cons.mp hmem with rfl | hmem
  · exact h
  · exact h.trans ((List.pairwise_cons.mp hs).1 s hmem)

/-- In a sorted list the numbers up to a bound are the first ones. -/
theorem getElem_le_iff_of_pairwise {starts : List Nat} (hs : starts.Pairwise fun s t => s < t)
    (offset : Nat) {i s : Nat} (hi : starts[i]? = some s) :
    s ≤ offset ↔ i < starts.countP (· ≤ offset) := by
  induction starts generalizing i with
  | nil => simp at hi
  | cons first rest ih =>
    obtain ⟨hfirst, hrest⟩ := List.pairwise_cons.mp hs
    by_cases hle : first ≤ offset
    · rw [List.countP_cons_of_pos (by simpa using hle)]
      cases i with
      | zero =>
        obtain rfl : first = s := by simpa using hi
        simp [hle]
      | succ i => rw [ih hrest (by simpa using hi), Nat.succ_lt_succ_iff]
    · rw [countP_le_eq_zero hs (Nat.not_le.mp hle)]
      refine iff_of_false (fun hsle => hle ?_) (Nat.not_lt_zero i)
      rcases List.mem_cons.mp (List.mem_of_getElem? hi) with rfl | hmem
      · exact hsle
      · exact (hfirst s hmem).le.trans hsle

namespace LineIndex

variable {index : LineIndex} {offset : Nat}

/-- Bisection closes in on the number of starts up to an offset. -/
theorem countFrom_eq (hs : index.starts.toList.Pairwise fun s t => s < t) {bits found : Nat}
    (hlo : found ≤ index.starts.toList.countP (· ≤ offset))
    (hhi : index.starts.toList.countP (· ≤ offset) < found + 1 <<< bits) :
    index.countFrom offset bits found = index.starts.toList.countP (· ≤ offset) := by
  induction bits generalizing found with
  | zero =>
    rw [countFrom]
    rw [Nat.one_shiftLeft, Nat.pow_zero] at hhi
    omega
  | succ bits ih =>
    have hpos : 0 < 1 <<< bits := by
      rw [Nat.one_shiftLeft]
      exact Nat.two_pow_pos bits
    have htwice : 1 <<< (bits + 1) = 1 <<< bits + 1 <<< bits := by
      rw [Nat.one_shiftLeft, Nat.one_shiftLeft, Nat.pow_succ, Nat.mul_two]
    rw [htwice] at hhi
    rw [countFrom]
    cases hget : index.starts[found + 1 <<< bits - 1]? with
    | none =>
      have hsize := Array.getElem?_eq_none_iff.mp hget
      have hcount : index.starts.toList.countP (· ≤ offset) ≤ index.starts.toList.length :=
        List.countP_le_length
      rw [Array.length_toList] at hcount
      exact ih hlo (by omega)
    | some s =>
      rw [← Array.getElem?_toList] at hget
      have hiff := getElem_le_iff_of_pairwise hs offset hget
      by_cases hle : s ≤ offset
      · have hlt := hiff.mp hle
        simp only [hle, if_true]
        exact ih (by omega) (by omega)
      · have hge := mt hiff.mpr hle
        simp only [hle, if_false]
        exact ih hlo (by omega)

/-- **Bisection counts the lines that start up to an offset.** -/
theorem countUpTo_eq (hs : index.starts.toList.Pairwise fun s t => s < t) (offset : Nat) :
    index.countUpTo offset = index.starts.toList.countP (· ≤ offset) := by
  refine countFrom_eq hs (Nat.zero_le _) ?_
  have hcount : index.starts.toList.countP (· ≤ offset) ≤ index.starts.toList.length :=
    List.countP_le_length
  have hsize : index.size < 2 ^ (index.size.log2 + 1) := Nat.lt_log2_self
  rw [Array.length_toList] at hcount
  rw [Nat.zero_add, Nat.one_shiftLeft]
  exact hcount.trans_lt hsize

end LineIndex

end Bisection

/-! ## The index of a text -/

namespace LineIndex

variable {text a b : Text}

theorem toList_starts_ofText (text : Text) :
    (ofText text).starts.toList = 0 :: lineStartsAfter 0 text := rfl

/-- **A text has one line more than line ends.** -/
theorem size_ofText (text : Text) : (ofText text).size = text.lineEnds + 1 := by
  rw [size, ← Array.length_toList, toList_starts_ofText, List.length_cons, length_lineStartsAfter]

theorem pairwise_ofText (text : Text) :
    (ofText text).starts.toList.Pairwise fun s t => s < t := by
  rw [toList_starts_ofText]
  refine List.pairwise_cons.mpr ⟨fun s hs => ?_, pairwise_lineStartsAfter 0 text⟩
  exact (bounds_of_mem_lineStartsAfter hs).1

/-- The first line starts up to every offset. -/
theorem lineOf_ofText (text : Text) (offset : Nat) :
    (ofText text).lineOf offset = (lineStartsAfter 0 text).countP (· ≤ offset) + 1 := by
  rw [lineOf, countUpTo_eq (pairwise_ofText text), toList_starts_ofText,
    List.countP_cons_of_pos (by simp)]
  exact max_eq_right (Nat.le_add_left 1 _)

/-- **The line of a place counts the line ends in front of it.** -/
theorem lineOf_append (h : ¬ Text.SplitsLineEnd a b) :
    (ofText (a ++ b)).lineOf a.byteSize = a.lineEnds + 1 := by
  have hbefore : (lineStartsAfter 0 a).countP (· ≤ a.byteSize) = a.lineEnds := by
    rw [← length_lineStartsAfter 0, List.countP_eq_length]
    intro s hs
    have hle := (bounds_of_mem_lineStartsAfter hs).2
    rw [Nat.zero_add] at hle
    simpa using hle
  have hbehind : (lineStartsAfter (0 + a.byteSize) b).countP (· ≤ a.byteSize) = 0 := by
    rw [List.countP_eq_zero]
    intro s hs
    have hlt := (bounds_of_mem_lineStartsAfter hs).1
    rw [Nat.zero_add] at hlt
    simpa using hlt
  rw [lineOf_ofText, lineStartsAfter_append 0 h, List.countP_append, hbefore, hbehind,
    Nat.add_zero]

/-- **Later offsets are on later lines**, or on the same one. -/
theorem lineOf_mono (text : Text) {i j : Nat} (h : i ≤ j) :
    (ofText text).lineOf i ≤ (ofText text).lineOf j := by
  rw [lineOf_ofText, lineOf_ofText]
  refine Nat.succ_le_succ (List.countP_mono_left fun s _ hs => ?_)
  simp only [decide_eq_true_eq] at hs ⊢
  exact hs.trans h

/-- Every offset is on a line of the text. -/
theorem lineOf_le_size (text : Text) (offset : Nat) :
    (ofText text).lineOf offset ≤ (ofText text).size := by
  rw [lineOf_ofText, size_ofText, ← length_lineStartsAfter 0]
  exact Nat.succ_le_succ List.countP_le_length

theorem one_le_lineOf (index : LineIndex) (offset : Nat) : 1 ≤ index.lineOf offset :=
  Nat.le_max_left 1 _

end LineIndex

end CssOutline
