import CssOutline.Proofs.LineIndex
import CssOutline.Proofs.Text.Slice
import CssOutline.Text.Blank
import Mathlib.Data.List.Infix
import Mathlib.Order.Monotone.Basic

/-!
# Other spellings of line ends

A text that ends its lines with `\n` can be spelled with `\r` or with `\r\n` instead. The spelling
takes the text piece by piece, and touches nothing that is written without line ends: what begins
the one text begins the other, and what is a part of the one is a part of the other. It leaves the
lines as they are, and moves the characters behind a line end by what the line end has grown.

## Main definitions

* `LineEnding`: the spellings of a line end
* `Text.respell`: a text with another spelling for every `\n`
* `Text.newlinesBefore`, `Text.respelledOffset`: where an offset is in the respelled text

## Main results

* `Text.append_eq_respell_iff`, `Text.infix_respell_iff`: the parts without line ends
* `Text.respelledOffset_append`: offsets in the respelled text
* `Text.slice?_respell`: the parts of the respelled text
* `Text.lineEnds_respell`: respelled line ends are line ends
-/

namespace CssOutline

/-- The spellings of a line end. -/
inductive LineEnding
  | lf
  | cr
  | crlf
  deriving DecidableEq, Repr

namespace LineEnding

/-- How a line end is written. -/
def text : LineEnding → Text
  | lf => ['\n']
  | cr => ['\r']
  | crlf => ['\r', '\n']

/-- By how many bytes a line end is longer than `\n`. -/
def excess (ending : LineEnding) : Nat := ending.text.byteSize - 1

theorem byteSize_text (ending : LineEnding) : ending.text.byteSize = 1 + ending.excess := by
  cases ending <;> rfl

theorem excess_cr : excess .cr = 0 := rfl

theorem eq_of_mem_text {ending : LineEnding} {c : Char} (h : c ∈ ending.text) :
    c = '\n' ∨ c = '\r' := by
  cases ending with
  | lf => exact Or.inl (List.mem_singleton.mp h)
  | cr => exact Or.inr (List.mem_singleton.mp h)
  | crlf =>
    rcases List.mem_cons.mp h with h | h
    · exact Or.inr h
    · exact Or.inl (List.mem_singleton.mp h)

theorem text_ne_nil (ending : LineEnding) : ending.text ≠ [] := by
  cases ending <;> exact List.cons_ne_nil _ _

end LineEnding

namespace Text

/-- A text with another spelling for every `\n`. -/
def respell (ending : LineEnding) (text : Text) : Text :=
  text.flatMap fun c => if c = '\n' then ending.text else [c]

section Pieces

variable {ending : LineEnding} {word text a b : Text} {c : Char}

@[simp] theorem respell_nil (ending : LineEnding) : respell ending [] = [] := rfl

@[simp] theorem respell_append (ending : LineEnding) (a b : Text) :
    respell ending (a ++ b) = respell ending a ++ respell ending b :=
  List.flatMap_append

@[simp] theorem respell_cons_newline (ending : LineEnding) (rest : Text) :
    respell ending ('\n' :: rest) = ending.text ++ respell ending rest := rfl

theorem respell_cons_of_ne (hc : c ≠ '\n') (rest : Text) :
    respell ending (c :: rest) = c :: respell ending rest := by
  rw [respell, List.flatMap_cons, if_neg hc]
  rfl

/-- A text without line ends stays as it is. -/
theorem respell_eq_self (h : '\n' ∉ text) : respell ending text = text := by
  induction text with
  | nil => rfl
  | cons c rest ih =>
    rw [List.mem_cons, not_or] at h
    rw [respell_cons_of_ne (Ne.symm h.1), ih h.2]

/-! ## Words without line ends -/

/-- A text that no line end is a part of. -/
def Unbroken (word : Text) : Prop := ∀ c ∈ word, c ≠ '\n' ∧ c ≠ '\r'

instance (word : Text) : Decidable (Unbroken word) :=
  List.decidableBAll (fun c => c ≠ '\n' ∧ c ≠ '\r') word

theorem Unbroken.notMem_text {d : Char} (h : Unbroken (d :: word)) (ending : LineEnding) :
    d ∉ ending.text := by
  intro hd
  obtain ⟨hn, hr⟩ := h d List.mem_cons_self
  rcases LineEnding.eq_of_mem_text hd with rfl | rfl
  · exact hn rfl
  · exact hr rfl

theorem Unbroken.tail {d : Char} (h : Unbroken (d :: word)) : Unbroken word :=
  fun c hc => h c (List.mem_cons_of_mem d hc)

/-- A word is in front of the respelled text where it is in front of the text. -/
theorem append_eq_respell_iff (hw : Unbroken word) {text b : Text} :
    word ++ b = respell ending text ↔ ∃ rest, word ++ rest = text ∧ respell ending rest = b := by
  induction word generalizing text with
  | nil =>
    constructor
    · intro h
      exact ⟨text, rfl, h.symm⟩
    · rintro ⟨rest, rfl, h⟩
      exact h.symm
  | cons d word ih =>
    cases text with
    | nil => simp
    | cons c text =>
      by_cases hc : c = '\n'
      · subst hc
        obtain ⟨first, others, he⟩ := List.exists_cons_of_ne_nil ending.text_ne_nil
        have hd : d ≠ first := by
          rintro rfl
          exact hw.notMem_text ending (by rw [he]; exact List.mem_cons_self)
        have hn : d ≠ '\n' := (hw d List.mem_cons_self).1
        simp [he, hd, hn]
      · rw [respell_cons_of_ne hc, List.cons_append, List.cons.injEq, ih hw.tail]
        simp [and_assoc]

theorem isPrefixOf?_respell (hw : Unbroken word) (ending : LineEnding) (text : Text) :
    word.isPrefixOf? (respell ending text) = (word.isPrefixOf? text).map (respell ending) := by
  ext b
  rw [List.isPrefixOf?_eq_some_iff_append_eq, append_eq_respell_iff hw, Option.map_eq_some_iff]
  simp only [List.isPrefixOf?_eq_some_iff_append_eq]

theorem prefix_respell_iff (hw : Unbroken word) :
    word <+: respell ending text ↔ word <+: text := by
  constructor
  · rintro ⟨b, hb⟩
    obtain ⟨rest, hrest, -⟩ := (append_eq_respell_iff hw).mp hb
    exact ⟨rest, hrest⟩
  · rintro ⟨rest, hrest⟩
    exact ⟨respell ending rest, (append_eq_respell_iff hw).mpr ⟨rest, hrest, rfl⟩⟩

/-- A word is a part of the respelled text where it is a part of the text. -/
theorem infix_respell_iff (hw : Unbroken word) (hne : word ≠ []) :
    word <:+: respell ending text ↔ word <:+: text := by
  obtain ⟨d, tail, rfl⟩ := List.exists_cons_of_ne_nil hne
  have hskip : ∀ front b : Text, d ∉ front → (d :: tail <:+: front ++ b ↔ d :: tail <:+: b) := by
    intro front b hfront
    induction front with
    | nil => rfl
    | cons c front ih =>
      rw [List.mem_cons, not_or] at hfront
      rw [List.cons_append, List.infix_cons_iff, List.cons_prefix_cons, ih hfront.2]
      simp [hfront.1]
  induction text with
  | nil => rfl
  | cons c rest ih =>
    by_cases hc : c = '\n'
    · subst hc
      have hnewline : d ∉ ['\n'] := by simpa using (hw d List.mem_cons_self).1
      rw [respell_cons_newline, hskip _ _ (hw.notMem_text ending)]
      exact ih.trans (hskip ['\n'] rest hnewline).symm
    · rw [respell_cons_of_ne hc, List.infix_cons_iff, List.infix_cons_iff,
        ← respell_cons_of_ne hc]
      exact or_congr (prefix_respell_iff hw) ih

/-- A class that holds the line ends holds a respelled text if it holds the text. -/
theorem forall_mem_respell {p : Char → Bool} (hn : p '\n') (hr : p '\r')
    (h : ∀ c ∈ text, p c) (ending : LineEnding) : ∀ c ∈ respell ending text, p c := by
  intro c hc
  obtain ⟨d, hd, hc⟩ := List.mem_flatMap.mp hc
  split at hc
  · rcases LineEnding.eq_of_mem_text hc with rfl | rfl
    · exact hn
    · exact hr
  · rw [List.mem_singleton.mp hc]
    exact h d hd

theorem takeWhile_respell {p : Char → Bool} (hn : p '\n') (hr : p '\r') (ending : LineEnding)
    (text : Text) :
    (respell ending text).takeWhile p = respell ending (text.takeWhile p) := by
  have hall : ∀ c ∈ ending.text, p c := by
    intro c hc
    rcases LineEnding.eq_of_mem_text hc with rfl | rfl
    · exact hn
    · exact hr
  induction text with
  | nil => rfl
  | cons c rest ih =>
    by_cases hc : c = '\n'
    · subst hc
      rw [respell_cons_newline, List.takeWhile_append_of_pos hall, ih,
        List.takeWhile_cons_of_pos hn, respell_cons_newline]
    · rw [respell_cons_of_ne hc, List.takeWhile_cons, List.takeWhile_cons]
      split
      · rw [ih, respell_cons_of_ne hc]
      · rfl

theorem dropWhile_respell {p : Char → Bool} (hn : p '\n') (hr : p '\r') (ending : LineEnding)
    (text : Text) :
    (respell ending text).dropWhile p = respell ending (text.dropWhile p) := by
  have htake := takeWhile_respell hn hr ending text
  have hsplit := List.takeWhile_append_dropWhile (p := p) (l := respell ending text)
  have htext := List.takeWhile_append_dropWhile (p := p) (l := text)
  rw [htake] at hsplit
  refine List.append_cancel_left (hsplit.trans ?_)
  rw [← respell_append, htext]

theorem head?_respell (h : text.head? = some c) (hc : c ≠ '\n') :
    (respell ending text).head? = some c := by
  obtain ⟨rest, rfl⟩ := List.head?_eq_some_iff.mp h
  rw [respell_cons_of_ne hc, List.head?_cons]

theorem getLast?_respell (h : text.getLast? = some c) (hc : c ≠ '\n') (ending : LineEnding) :
    (respell ending text).getLast? = some c := by
  obtain ⟨most, rfl⟩ := List.getLast?_eq_some_iff.mp h
  rw [respell_append, respell_cons_of_ne hc, respell_nil, List.getLast?_append]
  rfl

end Pieces

/-! ## Offsets and lines -/

section Offsets

variable {ending : LineEnding} {text a b : Text}

theorem byteSize_respell (ending : LineEnding) (text : Text) :
    (respell ending text).byteSize = text.byteSize + ending.excess * text.count '\n' := by
  induction text with
  | nil => rfl
  | cons c rest ih =>
    by_cases hc : c = '\n'
    · subst hc
      have hsize : '\n'.utf8Size = 1 := rfl
      rw [respell_cons_newline, byteSize_append, ih, ending.byteSize_text, byteSize_cons,
        List.count_cons_self, hsize, Nat.mul_add]
      omega
    · rw [respell_cons_of_ne hc, byteSize_cons, ih, byteSize_cons, List.count_cons_of_ne hc,
        Nat.add_assoc]

/-- A text grows by a character at each line end that is spelled `\r\n`. -/
theorem length_respell_crlf (text : Text) :
    (respell .crlf text).length = text.length + text.count '\n' := by
  induction text with
  | nil => rfl
  | cons c rest ih =>
    by_cases hc : c = '\n'
    · subst hc
      have htwo : LineEnding.crlf.text.length = 2 := rfl
      rw [respell_cons_newline, List.length_append, ih, htwo, List.count_cons_self,
        List.length_cons]
      omega
    · rw [respell_cons_of_ne hc, List.length_cons, ih, List.count_cons_of_ne hc, List.length_cons]
      omega

/-- The number of `\n` in front of an offset. -/
def newlinesBefore : Text → Nat → Nat
  | [], _ => 0
  | c :: rest, offset =>
    if offset = 0 then 0
    else (if c = '\n' then 1 else 0) + newlinesBefore rest (offset - c.utf8Size)

/-- Where an offset of a text is in the respelled text. -/
def respelledOffset (ending : LineEnding) (text : Text) (offset : Nat) : Nat :=
  offset + ending.excess * text.newlinesBefore offset

@[simp] theorem newlinesBefore_zero (text : Text) : text.newlinesBefore 0 = 0 := by
  cases text <;> rfl

/-- At a cut the newlines of the first part are in front of the offset. -/
theorem newlinesBefore_append (a b : Text) :
    (a ++ b).newlinesBefore a.byteSize = a.count '\n' := by
  induction a with
  | nil => simp
  | cons c rest ih =>
    have hpos := c.utf8Size_pos
    rw [List.cons_append, byteSize_cons, newlinesBefore, if_neg (by omega),
      Nat.add_sub_cancel_left, ih, List.count_cons]
    simp [Nat.add_comm]

theorem newlinesBefore_mono (text : Text) : Monotone text.newlinesBefore := by
  induction text with
  | nil => exact monotone_const
  | cons c rest ih =>
    intro i j hij
    simp only [newlinesBefore]
    by_cases hi : i = 0
    · rw [if_pos hi]
      exact Nat.zero_le _
    · have hj : j ≠ 0 := by omega
      rw [if_neg hi, if_neg hj]
      exact Nat.add_le_add_left (ih (Nat.sub_le_sub_right hij _)) _

/-- Offsets stay in order. -/
theorem strictMono_respelledOffset (ending : LineEnding) (text : Text) :
    StrictMono (text.respelledOffset ending) := by
  intro i j hij
  exact Nat.add_lt_add_of_lt_of_le hij (Nat.mul_le_mul_left _ (newlinesBefore_mono text hij.le))

@[simp] theorem respelledOffset_zero (ending : LineEnding) (text : Text) :
    text.respelledOffset ending 0 = 0 := by
  simp [respelledOffset]

/-- **A place of the text is behind the respelled text in front of it.** -/
theorem respelledOffset_append (ending : LineEnding) (a b : Text) :
    (a ++ b).respelledOffset ending a.byteSize = (respell ending a).byteSize := by
  rw [respelledOffset, newlinesBefore_append, byteSize_respell]

/-- Nothing is moved inside a word. -/
theorem respelledOffset_add_of_unbroken {word : Text} (hw : Unbroken word) (ending : LineEnding)
    (a b : Text) :
    (a ++ (word ++ b)).respelledOffset ending (a.byteSize + word.byteSize) =
      (a ++ (word ++ b)).respelledOffset ending a.byteSize + word.byteSize := by
  have hself : respell ending word = word := respell_eq_self fun hn => (hw _ hn).1 rfl
  rw [respelledOffset_append, ← byteSize_append, ← List.append_assoc, respelledOffset_append,
    respell_append, hself, byteSize_append]

/-- A line end spelled `\r` is as long as it was, so nothing is moved. -/
theorem respelledOffset_cr (text : Text) (offset : Nat) :
    text.respelledOffset .cr offset = offset := by
  rw [respelledOffset, LineEnding.excess_cr, Nat.zero_mul, Nat.add_zero]

theorem byteSize_respell_cr (text : Text) : (respell .cr text).byteSize = text.byteSize := by
  rw [byteSize_respell, LineEnding.excess_cr, Nat.zero_mul, Nat.add_zero]

/-- **A part of the text is respelled in its place.** -/
theorem slice?_respell {inside : Text} {i j : Nat} (h : text.slice? i j = some inside)
    (ending : LineEnding) :
    (respell ending text).slice? (text.respelledOffset ending i)
      (text.respelledOffset ending j) = some (respell ending inside) := by
  obtain ⟨a, b, rfl, rfl, rfl⟩ := slice?_eq_some_iff.mp h
  have hstop : (a ++ (inside ++ b)).respelledOffset ending (a.byteSize + inside.byteSize) =
      (respell ending (a ++ inside)).byteSize := by
    rw [← byteSize_append, ← List.append_assoc, respelledOffset_append]
  rw [respelledOffset_append, hstop, respell_append, respell_append, respell_append]
  exact slice?_eq_some_iff.mpr
    ⟨respell ending a, respell ending b, rfl, rfl, (byteSize_append _ _).symm⟩

/-- A respelled text begins with `\n` only if it is spelled so. -/
theorem head?_respell_cr_ne (text : Text) : (respell .cr text).head? ≠ some '\n' := by
  cases text with
  | nil => simp
  | cons c rest =>
    by_cases hc : c = '\n'
    · subst hc
      simp [LineEnding.text]
    · rw [respell_cons_of_ne hc]
      simpa using hc

/-- **Respelled line ends are line ends.** -/
theorem lineEnds_respell (ending : LineEnding) (h : '\r' ∉ text) :
    (respell ending text).lineEnds = text.lineEnds := by
  induction text with
  | nil => rfl
  | cons c rest ih =>
    rw [List.mem_cons, not_or] at h
    have hrest := ih h.2
    by_cases hc : c = '\n'
    · subst hc
      have hends : ∀ rest, EndsLine '\n' rest := fun _ => Or.inl rfl
      rw [respell_cons_newline, lineEnds, if_pos (hends _), ← hrest]
      cases ending with
      | lf => rw [LineEnding.text, List.singleton_append, lineEnds, if_pos (hends _)]
      | cr =>
        have hcr : EndsLine '\r' (respell .cr rest) := Or.inr ⟨rfl, head?_respell_cr_ne rest⟩
        rw [LineEnding.text, List.singleton_append, lineEnds, if_pos hcr]
      | crlf =>
        have hcr : ¬ EndsLine '\r' ('\n' :: respell .crlf rest) := by
          simp [EndsLine]
        rw [LineEnding.text, List.cons_append, List.singleton_append, lineEnds, if_neg hcr,
          lineEnds, if_pos (hends _), Nat.zero_add]
    · have hends : ∀ rest, ¬ EndsLine c rest := by
        rintro rest (hn | ⟨hr, -⟩)
        · exact hc hn
        · exact h.1 hr.symm
      rw [respell_cons_of_ne hc, lineEnds, lineEnds, if_neg (hends _), if_neg (hends _), hrest]

end Offsets

end Text

end CssOutline
