import CssOutline.Proofs.LineIndex
import CssOutline.Text.Blank
import Mathlib.Data.List.Infix

/-!
# Covering parts of a text

A character is covered by spaces, as many as it has bytes, and the ends of lines are left as they
are. So a text with some characters covered has all its places at the offsets and on the lines where
they were, and a word without blanks that stands in it was there before.

## Main definitions

* `Text.cover`: the spaces in place of a character
* `Text.blankFrom`: a text with the characters at hidden offsets covered

## Main results

* `Text.byteSize_blankFrom`, `Text.lineEnds_blankFrom`: offsets and lines stay
* `Text.prefix_of_prefix_blankFrom`: no word comes up
-/

namespace CssOutline.Text

/-- Spaces in place of a character, one for each of its bytes. The end of a line stays. -/
def cover (c : Char) : Text :=
  if c = '\n' ∨ c = '\r' then [c] else List.replicate c.utf8Size ' '

/-- A text that begins at an offset, with the characters at hidden offsets covered. -/
def blankFrom (hidden : Nat → Prop) [DecidablePred hidden] : (start : Nat) → Text → Text
  | _, [] => []
  | start, c :: rest =>
    (if hidden start then cover c else [c]) ++ blankFrom hidden (start + c.utf8Size) rest

example : blankFrom (2 ≤ ·) 1 ['a', 'é', '\n', 'b'] = ['a', ' ', ' ', '\n', ' '] := by decide

/-! ## Covered characters -/

section Cover

variable (c : Char)

theorem byteSize_cover : (cover c).byteSize = c.utf8Size := by
  have hspaces : ∀ n, byteSize (List.replicate n ' ') = n := by
    intro n
    induction n with
    | zero => rfl
    | succ n ih =>
      rw [List.replicate_succ, byteSize_cons, ih]
      exact Nat.add_comm _ _
  unfold cover
  split
  · rfl
  · exact hspaces _

theorem isBlank_of_mem_cover {d : Char} (h : d ∈ cover c) : isBlank d := by
  unfold cover at h
  split at h
  · next hc =>
    obtain rfl := List.mem_singleton.mp h
    rcases hc with rfl | rfl <;> decide
  · obtain rfl := List.eq_of_mem_replicate h
    decide

/-- In place of a character there is something, a line feed only in place of a line feed. -/
theorem exists_cover : ∃ d tail, cover c = d :: tail ∧ (d = '\n' ↔ c = '\n') := by
  unfold cover
  split
  · exact ⟨c, [], rfl, Iff.rfl⟩
  · next hc =>
    obtain ⟨n, hn⟩ := Nat.exists_eq_succ_of_ne_zero c.utf8Size_pos.ne'
    refine ⟨' ', List.replicate n ' ', ?_, ?_⟩
    · rw [hn, List.replicate_succ]
    · exact iff_of_false (by decide) fun h => hc (Or.inl h)

/-- Covered characters that end no line end none. -/
theorem lineEnds_cover_append (h : ¬ (c = '\n' ∨ c = '\r')) (text : Text) :
    (cover c ++ text).lineEnds = text.lineEnds := by
  have hspaces : ∀ n, lineEnds (List.replicate n ' ' ++ text) = text.lineEnds := by
    intro n
    induction n with
    | zero => rfl
    | succ n ih =>
      have hspace : ¬ EndsLine ' ' (List.replicate n ' ' ++ text) := by
        rintro (h | ⟨h, -⟩) <;> cases h
      rw [List.replicate_succ, List.cons_append, lineEnds, if_neg hspace, Nat.zero_add, ih]
  rw [cover, if_neg h]
  exact hspaces _

end Cover

/-! ## Texts with covered characters -/

section Blank

variable {hidden : Nat → Prop} [DecidablePred hidden]

theorem blankFrom_cons (start : Nat) (c : Char) (rest : Text) :
    blankFrom hidden start (c :: rest) =
      (if hidden start then cover c else [c]) ++ blankFrom hidden (start + c.utf8Size) rest := rfl

/-- Covering keeps all offsets. -/
theorem byteSize_blankFrom (start : Nat) (text : Text) :
    (blankFrom hidden start text).byteSize = text.byteSize := by
  induction text generalizing start with
  | nil => rfl
  | cons c rest ih =>
    rw [blankFrom_cons, byteSize_append, ih, byteSize_cons]
    split
    · rw [byteSize_cover]
    · rfl

theorem blankFrom_append (start : Nat) (a b : Text) :
    blankFrom hidden start (a ++ b) =
      blankFrom hidden start a ++ blankFrom hidden (start + a.byteSize) b := by
  induction a generalizing start with
  | nil => rfl
  | cons c rest ih =>
    rw [List.cons_append, blankFrom_cons, blankFrom_cons, ih, byteSize_cons, List.append_assoc,
      Nat.add_assoc]

/-- Where nothing is hidden, nothing is covered. -/
theorem blankFrom_eq_self {start : Nat} {text : Text}
    (h : ∀ o, start ≤ o → o < start + text.byteSize → ¬ hidden o) :
    blankFrom hidden start text = text := by
  induction text generalizing start with
  | nil => rfl
  | cons c rest ih =>
    have hpos := c.utf8Size_pos
    rw [byteSize_cons] at h
    have hrest : blankFrom hidden (start + c.utf8Size) rest = rest := by
      apply ih
      intro o hle hlt
      exact h o (by omega) (by omega)
    rw [blankFrom_cons, if_neg (h start le_rfl (by omega)), hrest]
    rfl

/-- Where all is hidden, only blanks are left. -/
theorem isBlank_of_mem_blankFrom {start : Nat} {text : Text}
    (h : ∀ o, start ≤ o → o < start + text.byteSize → hidden o) :
    ∀ c ∈ blankFrom hidden start text, isBlank c := by
  induction text generalizing start with
  | nil => exact fun c hc => nomatch hc
  | cons c rest ih =>
    have hpos := c.utf8Size_pos
    rw [byteSize_cons] at h
    rw [blankFrom_cons, if_pos (h start le_rfl (by omega))]
    intro d hd
    rcases List.mem_append.mp hd with hd | hd
    · exact isBlank_of_mem_cover c hd
    · apply ih _ d hd
      intro o hle hlt
      exact h o (by omega) (by omega)

/-- **No word comes up**: a word without blanks that a text begins with when some characters are
covered is what it began with before. -/
theorem prefix_of_prefix_blankFrom {word : Text} (hword : ∀ c ∈ word, isBlank c = false)
    {start : Nat} {text : Text} (h : word <+: blankFrom hidden start text) : word <+: text := by
  induction text generalizing start word with
  | nil => exact h
  | cons c rest ih =>
    cases word with
    | nil => exact List.nil_prefix
    | cons w word =>
      rw [blankFrom_cons] at h
      split at h
      · obtain ⟨d, tail, hcover, -⟩ := exists_cover c
        have hd : isBlank d := isBlank_of_mem_cover c (by rw [hcover]; exact List.mem_cons_self)
        rw [hcover, List.cons_append, List.cons_prefix_cons] at h
        rw [← h.1, hword w List.mem_cons_self] at hd
        cases hd
      · rw [List.singleton_append, List.cons_prefix_cons] at h
        obtain ⟨rfl, hrest⟩ := h
        rw [List.cons_prefix_cons]
        exact ⟨rfl, ih (fun d hd => hword d (List.mem_cons_of_mem w hd)) hrest⟩

theorem head?_blankFrom_eq_newline_iff (start : Nat) (text : Text) :
    (blankFrom hidden start text).head? = some '\n' ↔ text.head? = some '\n' := by
  cases text with
  | nil => exact Iff.rfl
  | cons c rest =>
    rw [blankFrom_cons]
    split
    · obtain ⟨d, tail, hcover, hnewline⟩ := exists_cover c
      rw [hcover, List.cons_append, List.head?_cons, List.head?_cons, Option.some.injEq,
        Option.some.injEq, hnewline]
    · exact Iff.rfl

/-- **Covering keeps all lines.** -/
theorem lineEnds_blankFrom (start : Nat) (text : Text) :
    (blankFrom hidden start text).lineEnds = text.lineEnds := by
  induction text generalizing start with
  | nil => rfl
  | cons c rest ih =>
    rw [blankFrom_cons]
    by_cases hc : c = '\n' ∨ c = '\r'
    · have hself : (if hidden start then cover c else [c]) = [c] := by
        rw [cover, if_pos hc, ite_self]
      have hends : EndsLine c (blankFrom hidden (start + c.utf8Size) rest) ↔ EndsLine c rest := by
        unfold EndsLine
        rw [ne_eq, head?_blankFrom_eq_newline_iff]
      rw [hself, List.singleton_append, lineEnds, lineEnds, ih]
      simp only [hends]
    · have hends : ¬ EndsLine c rest := by
        rintro (h | ⟨h, -⟩)
        · exact hc (Or.inl h)
        · exact hc (Or.inr h)
      rw [lineEnds, if_neg hends, Nat.zero_add, ← ih (start + c.utf8Size)]
      split
      · exact lineEnds_cover_append c hc _
      · have hends' : ¬ EndsLine c (blankFrom hidden (start + c.utf8Size) rest) := by
          rintro (h | ⟨h, -⟩)
          · exact hc (Or.inl h)
          · exact hc (Or.inr h)
        rw [List.singleton_append, lineEnds, if_neg hends', Nat.zero_add]

end Blank

end CssOutline.Text
