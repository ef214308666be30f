import CssOutline.Proofs.ImportStatement.Surroundings

/-!
# Import statements and lone `\r`

Behind the keyword of an import statement a `\r` is as good a blank as a `\n`. Behind `url(` it is
not: a `\n` ends the line of the argument, and a `\r` belongs to it. So a text with its line ends
spelled `\r` keeps its import statements, but they may reach farther, and there may be more of them.
It has no others where the arguments hold no line end.

## Main definitions

* `OnOneLine`: an import statement with no line end behind `url(`

## Main results

* `importStatement?_eq_some_iff`: what an import statement is made of
* `isSome_importStatement?_respell_cr`: import statements remain when their line ends are spelled
  `\r`
* `importStatement?_of_respell_cr`: no others come up that have their arguments on one line
-/

namespace CssOutline

/-- An import statement with no line end behind the opening of its argument. -/
def OnOneLine (statement : Text) : Prop :=
  ∃ blanks argument,
    statement = Mark.importKeyword.literal ++ (blanks ++ (urlOpen ++ argument)) ∧
      (∀ c ∈ blanks, Text.isWhiteSpace c) ∧ Text.Unbroken argument

/-! ## The parts of an import statement -/

section Parts

variable {text statement blanks argument : Text} {close : Nat}

/-- The blanks behind a keyword end at `url(`. -/
theorem takeWhile_append_urlOpen (h : ∀ c ∈ blanks, Text.isWhiteSpace c) (argument : Text) :
    (blanks ++ (urlOpen ++ argument)).takeWhile Text.isWhiteSpace = blanks ∧
      (blanks ++ (urlOpen ++ argument)).dropWhile Text.isWhiteSpace = urlOpen ++ argument := by
  have hsolid : ¬ Text.isWhiteSpace 'u' := by decide
  constructor
  · rw [List.takeWhile_append_of_pos h, urlOpen, List.cons_append,
      List.takeWhile_cons_of_neg hsolid, List.append_nil]
  · rw [List.dropWhile_append_of_pos h, urlOpen, List.cons_append,
      List.dropWhile_cons_of_neg hsolid]

/-- **What an import statement is made of**: the keyword, blanks, `url(` and a closed argument. -/
theorem importStatement?_eq_some_iff :
    importStatement? text = some statement ↔ ∃ blanks argument close,
      text = Mark.importKeyword.literal ++ (blanks ++ (urlOpen ++ argument)) ∧
        (∀ c ∈ blanks, Text.isWhiteSpace c) ∧ argumentClose? argument = some close ∧
        statement = statementOf blanks argument close := by
  rw [importStatement?_eq]
  simp only [Option.bind_eq_some_iff, Option.map_eq_some_iff,
    List.isPrefixOf?_eq_some_iff_append_eq]
  constructor
  · rintro ⟨unread, rfl, argument, hargument, close, hclose, rfl⟩
    refine ⟨unread.takeWhile Text.isWhiteSpace, argument, close, ?_, ?_, hclose, rfl⟩
    · rw [hargument, List.takeWhile_append_dropWhile]
    · exact fun c hc => List.mem_takeWhile_imp hc
  · rintro ⟨blanks, argument, close, rfl, hblanks, hclose, rfl⟩
    obtain ⟨htake, hdrop⟩ := takeWhile_append_urlOpen hblanks argument
    exact ⟨_, rfl, argument, hdrop.symm, close, hclose, by rw [htake]⟩

/-- The argument of a statement on one line is closed on this line. -/
theorem OnOneLine.unbroken (h : OnOneLine (statementOf blanks argument close))
    (hblanks : ∀ c ∈ blanks, Text.isWhiteSpace c) :
    Text.Unbroken (argument.take (close + 1)) := by
  obtain ⟨blanks', argument', heq, hblanks', hline⟩ := h
  simp only [statementOf, List.append_assoc, List.append_cancel_left_eq] at heq
  have hdrop := congrArg (List.dropWhile Text.isWhiteSpace) heq
  rw [(takeWhile_append_urlOpen hblanks _).2, (takeWhile_append_urlOpen hblanks' _).2] at hdrop
  rw [← List.append_cancel_left hdrop] at hline
  exact fun c hc => hline c (List.mem_append_left _ hc)

end Parts

/-! ## Closed arguments -/

section Close

variable {argument : Text} {skip close : Nat}

/-- A parenthesis that closes an argument closes it with its line ends spelled `\r` as well. -/
theorem closeFrom?_respell_cr (h : closeFrom? skip argument = some close) :
    closeFrom? skip (argument.respell .cr) = some close := by
  obtain ⟨line, after, rfl, hlength, hskip, hline, hclose⟩ := closeFrom?_eq_some_iff.mp h
  have hself : line.respell .cr = line := Text.respell_eq_self hline
  rw [Text.respell_append, hself, Text.respell_cons_of_ne (by decide)]
  exact closeFrom?_eq_some_iff.mpr ⟨line, _, rfl, hlength, hskip, hline, hclose⟩

/-- A parenthesis with no line end in front of it closes the argument in either spelling. -/
theorem closeFrom?_of_respell_cr (h : closeFrom? skip (argument.respell .cr) = some close)
    (hline : Text.Unbroken ((argument.respell .cr).take (close + 1))) :
    closeFrom? skip argument = some close := by
  obtain ⟨line, after, ht, hlength, hskip, hnewline, hclose⟩ := closeFrom?_eq_some_iff.mp h
  have hlength' : (line ++ [')']).length = close + 1 := by
    rw [List.length_append, hlength, List.length_singleton]
  rw [ht, List.append_cons, List.take_left' hlength'] at hline
  have hparts : line ++ [')'] ++ after = argument.respell .cr :=
    (List.append_cons _ _ _).symm.trans ht.symm
  obtain ⟨rest, rfl, -⟩ := (Text.append_eq_respell_iff hline).mp hparts
  exact closeFrom?_eq_some_iff.mpr
    ⟨line, rest, (List.append_cons _ _ _).symm, hlength, hskip, hnewline, hclose⟩

theorem argumentClose?_eq_some_iff :
    argumentClose? argument = some close ↔
      startsQuoted argument ∧ closeFrom? 2 argument = some close ∨
      (startsQuoted argument → closeFrom? 2 argument = none) ∧
        closeFrom? 1 argument = some close := by
  rw [argumentClose?, Option.orElse_eq_orElse, Option.orElse_eq_or, Option.or_eq_some_iff]
  by_cases hquoted : startsQuoted argument <;> simp [hquoted]

/-- A closed argument is closed with its line ends spelled `\r` as well. -/
theorem isSome_argumentClose?_respell_cr (h : argumentClose? argument = some close) :
    (argumentClose? (argument.respell .cr)).isSome := by
  rw [argumentClose?, startsQuoted_respell, Option.orElse_eq_orElse, Option.orElse_eq_or,
    Option.isSome_or, Bool.or_eq_true]
  rcases argumentClose?_eq_some_iff.mp h with ⟨hquoted, hclose⟩ | ⟨-, hclose⟩
  · rw [if_pos hquoted, closeFrom?_respell_cr hclose]
    exact Or.inl rfl
  · rw [closeFrom?_respell_cr hclose]
    exact Or.inr rfl

/-- An argument that is closed on one line is closed there in either spelling. -/
theorem argumentClose?_of_respell_cr (h : argumentClose? (argument.respell .cr) = some close)
    (hline : Text.Unbroken ((argument.respell .cr).take (close + 1))) :
    argumentClose? argument = some close := by
  rw [argumentClose?_eq_some_iff, startsQuoted_respell] at h
  rw [argumentClose?_eq_some_iff]
  rcases h with ⟨hquoted, hclose⟩ | ⟨hnone, hclose⟩
  · exact Or.inl ⟨hquoted, closeFrom?_of_respell_cr hclose hline⟩
  · refine Or.inr ⟨fun hquoted => ?_, closeFrom?_of_respell_cr hclose hline⟩
    cases hfound : closeFrom? 2 argument with
    | none => rfl
    | some other =>
      have hother := closeFrom?_respell_cr hfound
      rw [hnone hquoted] at hother
      cases hother

end Close

/-! ## Whole statements -/

section Statement

variable {text statement : Text}

/-- Import statements remain when their line ends are spelled `\r`. -/
theorem isSome_importStatement?_respell_cr (h : importStatement? text = some statement) :
    (importStatement? (text.respell .cr)).isSome := by
  obtain ⟨blanks, argument, close, rfl, hblanks, hclose, -⟩ := importStatement?_eq_some_iff.mp h
  obtain ⟨close', hclose'⟩ := Option.isSome_iff_exists.mp (isSome_argumentClose?_respell_cr hclose)
  rw [Option.isSome_iff_exists]
  exact ⟨_, importStatement?_eq_some_iff.mpr ⟨blanks.respell .cr, argument.respell .cr, close',
    respell_words .cr blanks argument,
    Text.forall_mem_respell (by decide) (by decide) hblanks .cr, hclose', rfl⟩⟩

/-- **An import statement that comes up on one line** when line ends are spelled `\r` was there
before. -/
theorem importStatement?_of_respell_cr (h : importStatement? (text.respell .cr) = some statement)
    (hline : OnOneLine statement) :
    ∃ original, importStatement? text = some original ∧ original.respell .cr = statement := by
  rw [importStatement?_respell_eq] at h
  simp only [Option.bind_eq_some_iff, Option.map_eq_some_iff] at h
  obtain ⟨unread, hunread, argument, hargument, close, hclose, rfl⟩ := h
  have hblanks : ∀ c ∈ Text.respell .cr (unread.takeWhile Text.isWhiteSpace),
      Text.isWhiteSpace c :=
    Text.forall_mem_respell (by decide) (by decide) (fun c hc => List.mem_takeWhile_imp hc) .cr
  have hclosed := argumentClose?_of_respell_cr hclose (hline.unbroken hblanks)
  refine ⟨statementOf (unread.takeWhile Text.isWhiteSpace) argument close, ?_,
    (statementOf_respell hclosed .cr _).symm⟩
  rw [importStatement?_eq, hunread, Option.bind_some, hargument, Option.bind_some, hclosed,
    Option.map_some]

/-- An import statement of a text without `\r` has its argument on one line, in this spelling
too. -/
theorem onOneLine_respell_cr (hr : '\r' ∉ text) (h : importStatement? text = some statement) :
    OnOneLine (statement.respell .cr) := by
  obtain ⟨blanks, argument, close, rfl, hblanks, hclose, rfl⟩ := importStatement?_eq_some_iff.mp h
  obtain ⟨closed, after, rfl, hlength, hline⟩ := exists_eq_of_close hclose
  have hsemicolon : ∀ c ∈ (after.take 1).filter (· == ';'), c = ';' :=
    fun c hc => by simpa using List.of_mem_filter hc
  have hunbroken : Text.Unbroken (closed ++ (after.take 1).filter (· == ';')) := by
    intro c hc
    rcases List.mem_append.mp hc with hc | hc
    · refine ⟨fun hn => hline (hn ▸ hc), fun hn => hr ?_⟩
      rw [← hn]
      simp [hc]
    · rw [hsemicolon c hc]
      decide
  refine ⟨blanks.respell .cr, _, ?_,
    Text.forall_mem_respell (by decide) (by decide) hblanks .cr, hunbroken⟩
  rw [statementOf_append hlength, List.append_assoc, List.append_assoc, List.append_assoc,
    respell_words, Text.respell_eq_self fun hn => (hunbroken _ hn).1 rfl]

end Statement

end CssOutline
