import CssOutline.Proofs.ImportStatement
import CssOutline.Proofs.Text.LineEnding
import Mathlib.Data.List.TakeWhile

/-!
# Import statements and line ends

An import statement ends before the line of its argument does. So it is not changed by what stands
behind the next `\n`, and not by a `\r` in front of it. Only the blanks behind the keyword may
reach across line ends, and they may have them in any spelling.

## Main definitions

* `statementOf`: an import statement from its blanks and its argument

## Main results

* `importStatement?_eq`: an import statement is read part by part
* `importStatement?_append_newline`: a `\n` keeps an import statement from what is behind it
* `importStatement?_append_closing`: so does a brace on the next line
* `importStatement?_respell`: an import statement in a text with its line ends spelled `\r\n`
-/

namespace CssOutline

/-- The import statement with the given blanks behind its keyword and the given text behind
`url(`, whose argument is closed by the character number `close`. -/
def statementOf (blanks argument : Text) (close : Nat) : Text :=
  Mark.importKeyword.literal ++ blanks ++ urlOpen ++ argument.take (close + 1) ++
    ((argument.drop (close + 1)).take 1).filter (· == ';')

/-- An import statement is read part by part. -/
theorem importStatement?_eq (text : Text) :
    importStatement? text = (Mark.importKeyword.literal.isPrefixOf? text).bind fun unread =>
      (urlOpen.isPrefixOf? (unread.dropWhile Text.isWhiteSpace)).bind fun argument =>
        (argumentClose? argument).map fun close =>
          statementOf (unread.takeWhile Text.isWhiteSpace) argument close := by
  simp only [importStatement?, List.splitAt_eq, Option.map_eq_bind]
  rfl

section Close

variable {argument : Text} {skip close : Nat}

/-- Whether an argument is closed is settled on its line. -/
theorem closeFrom?_append_newline (skip : Nat) (line rest : Text) :
    closeFrom? skip (line ++ '\n' :: rest) = closeFrom? skip line := by
  induction line generalizing skip with
  | nil => cases skip <;> rfl
  | cons c line ih => cases skip <;> simp [closeFrom?, ih]

theorem argumentClose?_append_newline (argument rest : Text) :
    argumentClose? (argument ++ '\n' :: rest) = argumentClose? argument := by
  have hquoted : startsQuoted (argument ++ '\n' :: rest) = startsQuoted argument := by
    cases argument <;> rfl
  rw [argumentClose?, hquoted, closeFrom?_append_newline, closeFrom?_append_newline,
    argumentClose?]

/-- A `\r` in front of a `\n` does not change where an argument is closed. -/
theorem closeFrom?_respell (skip : Nat) (text : Text) :
    closeFrom? skip (text.respell .crlf) = closeFrom? skip text := by
  induction text generalizing skip with
  | nil => rfl
  | cons c rest ih =>
    by_cases hc : c = '\n'
    · subst hc
      rw [Text.respell_cons_newline]
      rcases skip with _ | _ | skip <;> rfl
    · rw [Text.respell_cons_of_ne hc]
      cases skip <;> simp [closeFrom?, ih]

/-- A line end is no quote. -/
theorem startsQuoted_respell (ending : LineEnding) (argument : Text) :
    startsQuoted (argument.respell ending) = startsQuoted argument := by
  cases argument with
  | nil => rfl
  | cons c rest =>
    by_cases hc : c = '\n'
    · subst hc
      cases ending <;> rfl
    · rw [Text.respell_cons_of_ne hc]
      rfl

theorem argumentClose?_respell (argument : Text) :
    argumentClose? (argument.respell .crlf) = argumentClose? argument := by
  rw [argumentClose?, startsQuoted_respell, closeFrom?_respell, closeFrom?_respell, argumentClose?]

end Close

section Statement

variable {blanks argument rest : Text} {close : Nat}

/-- The argument of a statement is closed on its line. -/
theorem exists_eq_of_close (h : argumentClose? argument = some close) :
    ∃ closed after, argument = closed ++ after ∧ closed.length = close + 1 ∧ '\n' ∉ closed := by
  obtain ⟨line, after, rfl, hlength, -, hline⟩ := exists_eq_of_argumentClose? h
  exact ⟨line ++ [')'], after, by simp, by simp [hlength], by simpa using hline⟩

theorem statementOf_append {closed : Text} (hclosed : closed.length = close + 1)
    (blanks after : Text) :
    statementOf blanks (closed ++ after) close =
      Mark.importKeyword.literal ++ blanks ++ urlOpen ++ closed ++
        (after.take 1).filter (· == ';') := by
  rw [statementOf, List.take_left' hclosed, List.drop_left' hclosed]

theorem statementOf_append_newline (h : argumentClose? argument = some close)
    (blanks rest : Text) :
    statementOf blanks (argument ++ '\n' :: rest) close = statementOf blanks argument close := by
  obtain ⟨closed, after, rfl, hlength, -⟩ := exists_eq_of_close h
  have hsemicolon : ((after ++ '\n' :: rest).take 1).filter (· == ';') =
      (after.take 1).filter (· == ';') := by
    cases after <;> rfl
  rw [List.append_assoc, statementOf_append hlength, statementOf_append hlength, hsemicolon]

/-- The words of an import statement are written without line ends. -/
theorem respell_words (ending : LineEnding) (blanks argument : Text) :
    Text.respell ending (Mark.importKeyword.literal ++ (blanks ++ (urlOpen ++ argument))) =
      Mark.importKeyword.literal ++
        (blanks.respell ending ++ (urlOpen ++ argument.respell ending)) := by
  have hkeyword : Text.respell ending Mark.importKeyword.literal = Mark.importKeyword.literal :=
    Text.respell_eq_self (by decide)
  have hurl : Text.respell ending urlOpen = urlOpen := Text.respell_eq_self (by decide)
  rw [Text.respell_append, Text.respell_append, Text.respell_append, hkeyword, hurl]

theorem statementOf_respell (h : argumentClose? argument = some close) (ending : LineEnding)
    (blanks : Text) :
    statementOf (blanks.respell ending) (argument.respell ending) close =
      (statementOf blanks argument close).respell ending := by
  obtain ⟨closed, after, rfl, hlength, hline⟩ := exists_eq_of_close h
  have hclosed : closed.respell ending = closed := Text.respell_eq_self hline
  have hsemicolon : ((after.respell ending).take 1).filter (· == ';') =
      Text.respell ending ((after.take 1).filter (· == ';')) := by
    cases after with
    | nil => rfl
    | cons c after =>
      by_cases hc : c = '\n'
      · subst hc
        cases ending <;> rfl
      · rw [Text.respell_cons_of_ne hc]
        by_cases hs : c = ';'
        · subst hs
          rfl
        · simp [hs]
  rw [Text.respell_append, hclosed, statementOf_append hlength, statementOf_append hlength,
    hsemicolon]
  simp only [List.append_assoc]
  rw [respell_words, Text.respell_append, hclosed]

end Statement

/-! ## The whole statement -/

/-- A word without `\n` is in front of a text with a `\n` behind it where it is in front of the
text. -/
theorem isPrefixOf?_append_newline {word : Text} (hw : '\n' ∉ word) (text rest : Text) :
    word.isPrefixOf? (text ++ '\n' :: rest) =
      (word.isPrefixOf? text).map (· ++ '\n' :: rest) := by
  ext b
  simp only [List.isPrefixOf?_eq_some_iff_append_eq, Option.map_eq_some_iff]
  constructor
  · intro h
    rcases List.append_eq_append_iff.mp h with ⟨a, rfl, rfl⟩ | ⟨beyond, rfl, hbeyond⟩
    · exact ⟨a, rfl, rfl⟩
    · cases beyond with
      | nil => exact ⟨[], by simp, by simpa using hbeyond⟩
      | cons c beyond =>
        obtain ⟨rfl, -⟩ := List.cons.inj hbeyond
        exact absurd (List.mem_append_right _ List.mem_cons_self) hw
  · rintro ⟨a, rfl, rfl⟩
    exact (List.append_assoc _ _ _).symm

/-- **A `\n` keeps an import statement from what is behind it**, unless there are only blanks
between it and the keyword. -/
theorem importStatement?_append_newline {unread : Text}
    (h : ∃ c ∈ unread, Text.isWhiteSpace c = false) (rest : Text) :
    importStatement? (Mark.importKeyword.literal ++ (unread ++ '\n' :: rest)) =
      importStatement? (Mark.importKeyword.literal ++ unread) := by
  obtain ⟨c, hc, hsolid⟩ := h
  have hkeyword : ∀ b : Text,
      Mark.importKeyword.literal.isPrefixOf? (Mark.importKeyword.literal ++ b) = some b :=
    fun b => List.isPrefixOf?_eq_some_iff_append_eq.mpr rfl
  have htake : (unread ++ '\n' :: rest).takeWhile Text.isWhiteSpace =
      unread.takeWhile Text.isWhiteSpace := by
    rw [List.takeWhile_append, if_neg]
    intro hlength
    have hall := (List.takeWhile_prefix Text.isWhiteSpace).eq_of_length hlength
    exact absurd (List.takeWhile_eq_self_iff.mp hall c hc) (by simp [hsolid])
  have hdrop : (unread ++ '\n' :: rest).dropWhile Text.isWhiteSpace =
      unread.dropWhile Text.isWhiteSpace ++ '\n' :: rest := by
    rw [List.dropWhile_append, if_neg]
    intro hempty
    have hall := List.dropWhile_eq_nil_iff.mp (List.isEmpty_iff.mp hempty)
    exact absurd (hall c hc) (by simp [hsolid])
  rw [importStatement?_eq, importStatement?_eq, hkeyword, hkeyword, Option.bind_some,
    Option.bind_some, htake, hdrop, isPrefixOf?_append_newline (by decide), Option.bind_map]
  congr 1
  funext argument
  rw [Function.comp_apply, argumentClose?_append_newline]
  cases hclose : argumentClose? argument with
  | none => rfl
  | some close => exact congrArg some (statementOf_append_newline hclose _ rest)

/-- A brace on the next line is nothing that an import statement looks at. -/
theorem importStatement?_append_closing (unread : Text) :
    importStatement? (Mark.importKeyword.literal ++ (unread ++ ['\n', '}'])) =
      importStatement? (Mark.importKeyword.literal ++ unread) := by
  by_cases h : ∃ c ∈ unread, Text.isWhiteSpace c = false
  · exact importStatement?_append_newline h ['}']
  · -- there is no statement, for the blanks behind the keyword end at the brace or not at all
    have hblank : ∀ c ∈ unread, Text.isWhiteSpace c := by
      intro c hc
      by_contra hsolid
      exact h ⟨c, hc, by simpa using hsolid⟩
    have hkeyword : ∀ b : Text,
        Mark.importKeyword.literal.isPrefixOf? (Mark.importKeyword.literal ++ b) = some b :=
      fun b => List.isPrefixOf?_eq_some_iff_append_eq.mpr rfl
    have hdrop : (unread ++ ['\n', '}']).dropWhile Text.isWhiteSpace = ['}'] := by
      rw [List.dropWhile_append_of_pos hblank]
      decide
    have hnone : unread.dropWhile Text.isWhiteSpace = [] := List.dropWhile_eq_nil_iff.mpr hblank
    rw [importStatement?_eq, importStatement?_eq, hkeyword, hkeyword, Option.bind_some,
      Option.bind_some, hdrop, hnone]
    rfl

/-- In a respelled text an import statement is read from the same parts, respelled. -/
theorem importStatement?_respell_eq (ending : LineEnding) (text : Text) :
    importStatement? (text.respell ending) =
      (Mark.importKeyword.literal.isPrefixOf? text).bind fun unread =>
        (urlOpen.isPrefixOf? (unread.dropWhile Text.isWhiteSpace)).bind fun argument =>
          (argumentClose? (Text.respell ending argument)).map fun close =>
            statementOf (Text.respell ending (unread.takeWhile Text.isWhiteSpace))
              (Text.respell ending argument) close := by
  rw [importStatement?_eq, Text.isPrefixOf?_respell (by decide), Option.bind_map]
  congr 1
  funext unread
  rw [Function.comp_apply, Text.takeWhile_respell (by decide) (by decide),
    Text.dropWhile_respell (by decide) (by decide), Text.isPrefixOf?_respell (by decide),
    Option.bind_map]
  rfl

/-- **An import statement in a text with its line ends spelled `\r\n`.** -/
theorem importStatement?_respell (text : Text) :
    importStatement? (text.respell .crlf) = (importStatement? text).map (Text.respell .crlf) := by
  rw [importStatement?_respell_eq, importStatement?_eq]
  cases Mark.importKeyword.literal.isPrefixOf? text with
  | none => rfl
  | some unread =>
    rw [Option.bind_some, Option.bind_some]
    cases urlOpen.isPrefixOf? (unread.dropWhile Text.isWhiteSpace) with
    | none => rfl
    | some argument =>
      rw [Option.bind_some, Option.bind_some, argumentClose?_respell]
      cases hclose : argumentClose? argument with
      | none => rfl
      | some close => exact congrArg some (statementOf_respell hclose .crlf _)

end CssOutline
