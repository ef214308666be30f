import CssOutline.Proofs.LineIndex.Lines

/-!
# Lines by scanning

The starts in the index of a text are where its lines end, and the texts between them are its lines.
The line of an offset is the one that starts last up to the offset, so looking at one start after
another finds the line that bisection finds.

## Main definitions

* `LineIndex.piece?`: the text from one start to the next
* `LineIndex.scanLine`: the line of an offset, found from the first line on

## Main results

* `mem_lineStartsAfter_iff`: a line starts behind each character that ends one
* `LineIndex.lineOf_eq_scanLine`: bisection finds what a scan finds
* `LineIndex.cuts_and_finds_lines`: the starts of a text, the lines between them, and the lines of
  offsets
-/

namespace CssOutline

/-- **A line starts behind each character that ends one**, and nowhere else. -/
theorem mem_lineStartsAfter_iff {start s : Nat} {text : Text} :
    s ∈ lineStartsAfter start text ↔ ∃ before c behind, text = before ++ c :: behind ∧
      Text.EndsLine c behind ∧ s = start + Text.byteSize (before ++ [c]) := by
  induction text generalizing start with
  | nil => simp [lineStartsAfter]
  | cons d rest ih =>
    rw [lineStartsAfter_cons, List.mem_append, ih]
    constructor
    · rintro (h | ⟨before, c, behind, rfl, hc, rfl⟩)
      · split at h
        · next hd =>
          obtain rfl := List.mem_singleton.mp h
          exact ⟨[], d, rest, rfl, hd, rfl⟩
        · cases h
      · refine ⟨d :: before, c, behind, rfl, hc, ?_⟩
        rw [List.cons_append, Text.byteSize_cons, Nat.add_assoc]
    · rintro ⟨_ | ⟨e, before⟩, c, behind, htext, hc, rfl⟩
      · obtain ⟨rfl, rfl⟩ := List.cons.inj htext
        rw [if_pos hc]
        exact Or.inl (List.mem_singleton.mpr rfl)
      · obtain ⟨rfl, rfl⟩ := List.cons.inj htext
        refine Or.inr ⟨before, c, behind, rfl, hc, ?_⟩
        rw [List.cons_append, Text.byteSize_cons, Nat.add_assoc]

namespace LineIndex

/-- The text from start number `i` of an index to the next start, or to the end of the text. -/
def piece? (index : LineIndex) (text : Text) (i : Nat) : Option Text :=
  text.slice? (index.starts.getD i text.byteSize) (index.starts.getD (i + 1) text.byteSize)

/-- The line of an offset, found from the first line on: the first line that starts up to the offset
while the next one starts behind it, or the last line if there is none. -/
def scanLine (index : LineIndex) (offset : Nat) : Nat :=
  let neighbours := index.starts.toList.zip index.starts.toList.tail
  let found := neighbours.findIdx? fun (start, next) => start ≤ offset && offset < next
  found.elim index.size fun j => j + 1

variable {index : LineIndex} {offset : Nat}

/-- A scan over starts in order stops where they exceed the offset. -/
theorem elim_findIdx?_zip_eq {first : Nat} {others : List Nat}
    (hs : (first :: others).Pairwise fun s t => s < t) (hfirst : first ≤ offset) :
    (((first :: others).zip others).findIdx? fun (start, next) =>
        start ≤ offset && offset < next).elim (first :: others).length (fun j => j + 1) =
      (first :: others).countP (· ≤ offset) := by
  induction others generalizing first with
  | nil => simp [hfirst]
  | cons next others ih =>
    obtain ⟨-, hothers⟩ := List.pairwise_cons.mp hs
    rw [List.zip_cons_cons, List.findIdx?_cons, List.countP_cons_of_pos (by simpa using hfirst)]
    by_cases hnext : next ≤ offset
    · have hgo : (first ≤ offset && offset < next : Bool) = false := by simp [hnext]
      rw [← ih hothers hnext]
      simp only [hgo]
      cases ((next :: others).zip others).findIdx? _ <;> rfl
    · have hstop : (first ≤ offset && offset < next : Bool) = true := by simp; omega
      rw [countP_le_eq_zero hothers (Nat.not_le.mp hnext)]
      simp [hstop]

/-- **Bisection finds what a scan finds.** -/
theorem lineOf_eq_scanLine (text : Text) (offset : Nat) :
    (ofText text).lineOf offset = (ofText text).scanLine offset := by
  have hs := pairwise_ofText text
  rw [toList_starts_ofText] at hs
  have hscan := elim_findIdx?_zip_eq hs (Nat.zero_le offset)
  rw [List.countP_cons_of_pos (by simp)] at hscan
  rw [lineOf_ofText, scanLine, size, ← Array.length_toList, toList_starts_ofText]
  exact hscan.symm

/-- The starts of a text: its beginning, and the places behind the characters that end lines. -/
theorem mem_starts_ofText_iff {text : Text} {s : Nat} :
    s ∈ (ofText text).starts.toList ↔ s = 0 ∨ ∃ before c behind, text = before ++ c :: behind ∧
      Text.EndsLine c behind ∧ s = Text.byteSize (before ++ [c]) := by
  rw [toList_starts_ofText, List.mem_cons, mem_lineStartsAfter_iff]
  simp only [Nat.zero_add]

theorem isBoundary_of_mem_starts {text : Text} {s : Nat} (h : s ∈ (ofText text).starts.toList) :
    s ≤ text.byteSize ∧ text.IsBoundary s := by
  rcases mem_starts_ofText_iff.mp h with rfl | ⟨before, c, behind, rfl, -, rfl⟩
  · exact ⟨Nat.zero_le _, Text.isBoundary_zero text⟩
  · rw [List.append_cons before c behind]
    refine ⟨?_, Text.isBoundary_append _ _⟩
    rw [Text.byteSize_append (before ++ [c])]
    exact Nat.le_add_right _ _

/-- **The starts of a text, the lines between them, and the lines of offsets.** The starts are the
beginning of the text and the places behind the characters that end lines, in order, all of them
between characters of the text. The text from each start to the next is a line with its line end,
and with no other; the last one has none, and together they are the text. The line that bisection
finds for an offset, past the end of the text or inside a line end included, is the one that a scan
finds, and later offsets are on later lines or on the same one. -/
theorem cuts_and_finds_lines (text : Text) :
    (ofText text).starts[0]? = some 0 ∧
    (ofText text).starts.toList.Pairwise (fun s t => s < t) ∧
    (∀ s, s ∈ (ofText text).starts.toList ↔ s = 0 ∨ ∃ before c behind,
      text = before ++ c :: behind ∧ Text.EndsLine c behind ∧
        s = Text.byteSize (before ++ [c])) ∧
    (∀ s ∈ (ofText text).starts.toList, s ≤ text.byteSize ∧ text.IsBoundary s) ∧
    (∃ pieces : List Text, pieces.flatten = text ∧ pieces.length = (ofText text).size ∧
      ∀ i piece, pieces[i]? = some piece → (ofText text).piece? text i = some piece ∧
        ∃ inside ending, piece = inside ++ ending ∧ '\r' ∉ inside ∧ '\n' ∉ inside ∧
          if i + 1 = (ofText text).size then ending = [] else Text.IsLineEnd ending) ∧
    (∀ offset, (ofText text).lineOf offset = (ofText text).scanLine offset) ∧
    ∀ i j, i ≤ j → (ofText text).lineOf i ≤ (ofText text).lineOf j := by
  refine ⟨rfl, pairwise_ofText text, fun s => mem_starts_ofText_iff,
    fun s => isBoundary_of_mem_starts, ⟨text.lines, Text.flatten_lines text, ?_, ?_⟩,
    lineOf_eq_scanLine text, fun i j => lineOf_mono text⟩
  · rw [size_ofText, Text.length_lines]
  · intro i piece h
    refine ⟨slice?_line h, ?_⟩
    obtain ⟨inside, ending, hpiece, hr, hn, hending⟩ := Text.exists_of_getElem?_lines h
    refine ⟨inside, ending, hpiece, hr, hn, ?_⟩
    simpa only [size_ofText, Nat.add_right_cancel_iff] using hending

end LineIndex

end CssOutline
