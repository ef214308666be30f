import CssOutline.Proofs.LineIndex
import CssOutline.Proofs.Text.Slice

/-!
# The lines of a text

A text is the lines between its line ends, one after another, each with the line end behind it. The
index of a text holds where these lines start, so the text from one start to the next is a line.

## Main definitions

* `Text.lines`: the lines of a text, each with its line end
* `Text.IsLineEnd`: a line end

## Main results

* `Text.flatten_lines`, `Text.length_lines`: the lines make up the text
* `Text.exists_of_getElem?_lines`: a line ends where its line end does, and nowhere before
* `LineIndex.getElem?_starts_ofText`: where a line starts
* `LineIndex.slice?_line`: the text from one start to the next is a line
-/

namespace CssOutline

namespace Text

/-- The lines of a text, each with its line end. The last one has none. -/
def lines : Text → List Text
  | [] => [[]]
  | c :: rest => if EndsLine c rest then [c] :: lines rest else (lines rest).modifyHead (c :: ·)

/-- A line end: `\n`, `\r`, or both together. -/
def IsLineEnd (ending : Text) : Prop := ending = ['\n'] ∨ ending = ['\r'] ∨ ending = ['\r', '\n']

variable {text line rest : Text} {c : Char} {i : Nat}

/-! ## Reading off the lines -/

theorem lines_of_endsLine (h : EndsLine c rest) : lines (c :: rest) = [c] :: lines rest := by
  rw [lines, if_pos h]

theorem lines_ne_nil (text : Text) : lines text ≠ [] := by
  induction text with
  | nil => exact List.cons_ne_nil _ _
  | cons c rest ih =>
    rw [lines]
    split
    · exact List.cons_ne_nil _ _
    · rwa [ne_eq, List.modifyHead_eq_nil_iff]

/-- A character that ends no line belongs to the line that goes on behind it. -/
theorem exists_lines_of_not_endsLine (h : ¬ EndsLine c rest) :
    ∃ first others, lines rest = first :: others ∧
      lines (c :: rest) = (c :: first) :: others := by
  obtain ⟨first, others, hlines⟩ := List.exists_cons_of_ne_nil (lines_ne_nil rest)
  exact ⟨first, others, hlines, by rw [lines, if_neg h, hlines, List.modifyHead_cons]⟩

/-- **The lines make up the text.** -/
theorem flatten_lines (text : Text) : (lines text).flatten = text := by
  induction text with
  | nil => rfl
  | cons c rest ih =>
    by_cases h : EndsLine c rest
    · rw [lines_of_endsLine h, List.flatten_cons, ih, List.singleton_append]
    · obtain ⟨first, others, hlines, hcons⟩ := exists_lines_of_not_endsLine h
      rw [hcons, List.flatten_cons, List.cons_append, ← List.flatten_cons, ← hlines, ih]

/-- A text has one line more than line ends. -/
theorem length_lines (text : Text) : (lines text).length = text.lineEnds + 1 := by
  induction text with
  | nil => rfl
  | cons c rest ih =>
    by_cases h : EndsLine c rest
    · rw [lines_of_endsLine h, List.length_cons, ih, lineEnds, if_pos h]
      omega
    · obtain ⟨first, others, hlines, hcons⟩ := exists_lines_of_not_endsLine h
      rw [hcons, List.length_cons, ← List.length_cons (a := first), ← hlines, ih, lineEnds,
        if_neg h, Nat.zero_add]

/-- **A line ends where its line end does**, and nowhere before. The last line has none. -/
theorem exists_of_getElem?_lines (h : (lines text)[i]? = some line) :
    ∃ inside ending, line = inside ++ ending ∧ '\r' ∉ inside ∧ '\n' ∉ inside ∧
      if i = text.lineEnds then ending = [] else IsLineEnd ending := by
  induction text generalizing i line with
  | nil =>
    obtain ⟨hi, rfl⟩ := List.getElem?_eq_some_iff.mp h
    obtain rfl : i = 0 := by simpa [lines] using hi
    exact ⟨[], [], rfl, List.not_mem_nil, List.not_mem_nil, by simp [lineEnds]⟩
  | cons c rest ih =>
    by_cases hc : EndsLine c rest
    · rw [lines_of_endsLine hc] at h
      rw [lineEnds, if_pos hc]
      cases i with
      | zero =>
        obtain rfl := Option.some.inj h
        refine ⟨[], [c], rfl, List.not_mem_nil, List.not_mem_nil, ?_⟩
        rw [if_neg (by omega)]
        rcases hc with rfl | ⟨rfl, -⟩
        · exact Or.inl rfl
        · exact Or.inr (Or.inl rfl)
      | succ i =>
        obtain ⟨inside, ending, hline, hr, hn, hending⟩ := ih h
        refine ⟨inside, ending, hline, hr, hn, ?_⟩
        simpa only [Nat.add_comm 1, Nat.add_right_cancel_iff] using hending
    · obtain ⟨first, others, hlines, hcons⟩ := exists_lines_of_not_endsLine hc
      rw [hcons] at h
      rw [lineEnds, if_neg hc, Nat.zero_add]
      cases i with
      | succ i =>
        apply ih
        rw [hlines]
        exact h
      | zero =>
        obtain rfl := Option.some.inj h
        by_cases hreturn : c = '\r'
        · subst hreturn
          have hnext : rest.head? = some '\n' := by
            by_contra hne
            exact hc (Or.inr ⟨rfl, hne⟩)
          obtain ⟨tail, rfl⟩ := List.head?_eq_some_iff.mp hnext
          have hline : EndsLine '\n' tail := Or.inl rfl
          rw [lines_of_endsLine hline] at hlines
          obtain ⟨rfl, -⟩ := List.cons.inj hlines
          refine ⟨[], ['\r', '\n'], rfl, List.not_mem_nil, List.not_mem_nil, ?_⟩
          rw [lineEnds, if_pos hline, if_neg (by omega)]
          exact Or.inr (Or.inr rfl)
        · have hnewline : c ≠ '\n' := fun he => hc (Or.inl he)
          obtain ⟨inside, ending, hfirst, hr, hn, hending⟩ := ih (i := 0) (by rw [hlines]; rfl)
          refine ⟨c :: inside, ending, by rw [hfirst, List.cons_append], ?_, ?_, hending⟩
          · exact fun hmem => (List.mem_cons.mp hmem).elim (fun he => hreturn he.symm) hr
          · exact fun hmem => (List.mem_cons.mp hmem).elim (fun he => hnewline he.symm) hn

end Text

/-! ## Where the lines start -/

section Starts

variable {text line : Text} {i : Nat}

theorem lineStartsAfter_eq (start : Nat) (text : Text) :
    lineStartsAfter start text = (List.range text.lineEnds).map fun i =>
      start + Text.byteSize (text.lines.take (i + 1)).flatten := by
  induction text generalizing start with
  | nil => rfl
  | cons c rest ih =>
    rw [lineStartsAfter_cons, ih, Text.lineEnds]
    by_cases h : Text.EndsLine c rest
    · rw [if_pos h, if_pos h, Text.lines_of_endsLine h, Nat.add_comm 1, List.range_succ_eq_map,
        List.map_cons, List.map_map, List.singleton_append]
      simp [Nat.add_assoc, Function.comp_def]
    · obtain ⟨first, others, hlines, hcons⟩ := Text.exists_lines_of_not_endsLine h
      rw [if_neg h, if_neg h, Nat.zero_add, List.nil_append, hlines, hcons]
      simp [Nat.add_assoc]

namespace LineIndex

/-- **A line starts behind the lines in front of it.** -/
theorem getElem?_starts_ofText (h : i < (ofText text).size) :
    (ofText text).starts[i]? = some (Text.byteSize (text.lines.take i).flatten) := by
  rw [size_ofText] at h
  rw [← Array.getElem?_toList, toList_starts_ofText]
  cases i with
  | zero => rfl
  | succ i =>
    rw [List.getElem?_cons_succ, lineStartsAfter_eq, List.getElem?_map,
      List.getElem?_range (Nat.lt_of_succ_lt_succ h), Option.map_some, Nat.zero_add]

/-- The next line starts behind a line, or the text ends there. -/
theorem getD_starts_ofText (h : i ≤ (ofText text).size) :
    (ofText text).starts.getD i text.byteSize = Text.byteSize (text.lines.take i).flatten := by
  rw [Array.getD_eq_getD_getElem?]
  rcases Nat.lt_or_eq_of_le h with hlt | rfl
  · rw [getElem?_starts_ofText hlt, Option.getD_some]
  · have hnone : (ofText text).starts[(ofText text).size]? = none :=
      Array.getElem?_eq_none_iff.mpr (Nat.le_refl _)
    have hall : text.lines.take (ofText text).size = text.lines := by
      rw [size_ofText, ← Text.length_lines, List.take_length]
    rw [hnone, Option.getD_none, hall, Text.flatten_lines]

/-- **The text from one start to the next is a line.** -/
theorem slice?_line (h : text.lines[i]? = some line) :
    text.slice? ((ofText text).starts.getD i text.byteSize)
      ((ofText text).starts.getD (i + 1) text.byteSize) = some line := by
  obtain ⟨hi, rfl⟩ := List.getElem?_eq_some_iff.mp h
  have hsize : i < (ofText text).size := by rwa [size_ofText, ← Text.length_lines]
  have htake : (text.lines.take (i + 1)).flatten =
      (text.lines.take i).flatten ++ text.lines[i] := by
    rw [← List.take_concat_get' text.lines i hi, List.flatten_append, List.flatten_singleton]
  rw [getD_starts_ofText hsize.le, getD_starts_ofText hsize, htake]
  refine Text.slice?_eq_some_iff.mpr ⟨_, (text.lines.drop (i + 1)).flatten, ?_, rfl, ?_⟩
  · rw [← List.append_assoc, ← htake, ← List.flatten_append, List.take_append_drop,
      Text.flatten_lines]
  · rw [Text.byteSize_append]

/-- Every line has its start in the index. -/
theorem exists_slice?_line (h : text.lines[i]? = some line) :
    ∃ start, (ofText text).starts[i]? = some start ∧
      text.slice? start ((ofText text).starts.getD (i + 1) text.byteSize) = some line := by
  have hsize : i < (ofText text).size := by
    rw [size_ofText, ← Text.length_lines]
    exact (List.getElem?_eq_some_iff.mp h).1
  have hslice := slice?_line h
  rw [getD_starts_ofText hsize.le] at hslice
  exact ⟨_, getElem?_starts_ofText hsize, hslice⟩

end LineIndex

end Starts

end CssOutline
