import CssOutline.Proofs.ImportStatement.LoneReturns
import CssOutline.Proofs.Pattern
import Mathlib.Order.Lattice.Nat

/-!
# Import statements as the preferred match of a pattern

An import statement is what a pattern takes whose repetitions are lazy and whose quotes may be left
out. It is not the shortest match: where a quote can be matched as one, it is, although the match
may reach farther then. There are two patterns. One names the quote that it opened once more, where
the other lists the forms of the argument. Both prefer the same parenthesis.

## Main definitions

* `Closes`: the parentheses that may close an argument
* `Selects`: the parenthesis that does
* `importPattern`, `quoteBoundPattern`: the two patterns

## Main results

* `closeFrom?_eq_some_iff_isLeast`, `argumentClose?_eq_some_iff_selects`: the selected parenthesis
* `run_fewPattern`: a lazy repetition ends in front of the first parenthesis, quoted or not
* `importLength?_spec`: what an import statement takes
-/

namespace CssOutline

/-! ## The selected parenthesis -/

/-- The parentheses on the first line of an argument that stand behind `skip` characters at
least. -/
def Closes (skip : Nat) (argument : Text) : Set Nat :=
  {i | argument[i]? = some ')' ∧ skip ≤ i ∧ '\n' ∉ argument.take i}

/-- The parenthesis that closes an argument: the first one behind two characters if the argument
begins with a quote and there is one, and the first one behind one character otherwise. -/
def Selects (argument : Text) (close : Nat) : Prop :=
  (startsQuoted argument ∧ (Closes 2 argument).Nonempty → IsLeast (Closes 2 argument) close) ∧
    (¬ (startsQuoted argument ∧ (Closes 2 argument).Nonempty) → IsLeast (Closes 1 argument) close)

section Close

variable {argument : Text} {skip close : Nat}

/-- What closes an argument closes it whatever is behind. -/
theorem closes_subset_append (skip : Nat) (argument rest : Text) :
    Closes skip argument ⊆ Closes skip (argument ++ rest) := by
  rintro i ⟨hclose, hskip, hline⟩
  have hi : i < argument.length := (List.getElem?_eq_some_iff.mp hclose).1
  refine ⟨?_, hskip, ?_⟩
  · rw [List.getElem?_append_left hi]
    exact hclose
  · rw [List.take_append_of_le_length hi.le]
    exact hline

/-- The parenthesis that is searched for is the first one. -/
theorem closeFrom?_eq_some_iff_isLeast :
    closeFrom? skip argument = some close ↔ IsLeast (Closes skip argument) close := by
  rw [closeFrom?_eq_some_iff]
  constructor
  · rintro ⟨line, after, rfl, rfl, hskip, hline, hclose⟩
    refine ⟨⟨?_, hskip, by rwa [List.take_left]⟩, ?_⟩
    · rw [List.getElem?_append_right le_rfl, Nat.sub_self, List.getElem?_cons_zero]
    rintro i ⟨hi, hskip', -⟩
    by_contra! hlt
    rw [List.getElem?_append_left hlt] at hi
    apply hclose
    apply List.mem_of_getElem? (i := i - skip)
    rw [List.getElem?_drop, Nat.add_sub_cancel' hskip']
    exact hi
  · rintro ⟨⟨hi, hskip, hline⟩, hleast⟩
    obtain ⟨hlt, hget⟩ := List.getElem?_eq_some_iff.mp hi
    refine ⟨argument.take close, argument.drop (close + 1), ?_, ?_, hskip, hline, ?_⟩
    · rw [← hget, List.getElem_cons_drop, List.take_append_drop]
    · exact List.length_take_of_le hlt.le
    · intro hmem
      obtain ⟨i, hi'⟩ := List.mem_iff_getElem?.mp hmem
      rw [List.getElem?_drop, List.getElem?_take] at hi'
      split at hi'
      · next hlt' =>
        have hearly : skip + i ∈ Closes skip argument := by
          refine ⟨hi', Nat.le_add_right _ _, fun hbreak => hline ?_⟩
          exact List.take_subset_take_left argument hlt'.le hbreak
        exact absurd (hleast hearly) (Nat.not_le.mpr hlt')
      · cases hi'

/-- The search fails where there is no parenthesis. -/
theorem closeFrom?_eq_none_iff :
    closeFrom? skip argument = none ↔ ¬ (Closes skip argument).Nonempty := by
  constructor
  · intro hnone hsome
    have hleast : IsLeast (Closes skip argument) (sInf (Closes skip argument)) :=
      ⟨Nat.sInf_mem hsome, fun _ => Nat.sInf_le⟩
    rw [closeFrom?_eq_some_iff_isLeast.mpr hleast] at hnone
    cases hnone
  · intro hempty
    apply Option.eq_none_iff_forall_ne_some.mpr
    intro close hclose
    exact hempty ⟨close, (closeFrom?_eq_some_iff_isLeast.mp hclose).1⟩

/-- The closing parenthesis is the selected one. -/
theorem argumentClose?_eq_some_iff_selects :
    argumentClose? argument = some close ↔ Selects argument close := by
  rw [argumentClose?_eq_some_iff, closeFrom?_eq_some_iff_isLeast, closeFrom?_eq_some_iff_isLeast,
    closeFrom?_eq_none_iff, Selects]
  constructor
  · rintro (⟨hstarts, hquoted⟩ | ⟨hnone, hbare⟩)
    · exact ⟨fun _ => hquoted, fun h => absurd ⟨hstarts, close, hquoted.1⟩ h⟩
    · exact ⟨fun h => absurd h.2 (hnone h.1), fun _ => hbare⟩
  · rintro ⟨hquoted, hbare⟩
    by_cases h : startsQuoted argument ∧ (Closes 2 argument).Nonempty
    · exact Or.inl ⟨h.1, hquoted h⟩
    · exact Or.inr ⟨fun hstarts hsome => h ⟨hstarts, hsome⟩, hbare h⟩

/-- An argument that was cut behind its closing parenthesis is closed by it. -/
theorem argumentClose?_of_append {rest : Text} (hclose : close < argument.length)
    (h : argumentClose? (argument ++ rest) = some close) :
    argumentClose? argument = some close := by
  have hquoted : startsQuoted (argument ++ rest) = startsQuoted argument := by
    cases argument with
    | nil => cases hclose
    | cons c argument => rfl
  have hcut : ∀ skip, closeFrom? skip (argument ++ rest) = some close →
      closeFrom? skip argument = some close := by
    intro skip hfound
    rw [closeFrom?_eq_some_iff_isLeast] at hfound ⊢
    obtain ⟨⟨hget, hskip, hline⟩, hleast⟩ := hfound
    rw [List.getElem?_append_left hclose] at hget
    rw [List.take_append_of_le_length hclose.le] at hline
    exact ⟨⟨hget, hskip, hline⟩, fun i hi => hleast (closes_subset_append skip argument rest hi)⟩
  have hnone : closeFrom? 2 (argument ++ rest) = none → closeFrom? 2 argument = none := by
    rw [closeFrom?_eq_none_iff, closeFrom?_eq_none_iff]
    exact fun h hsome => h (hsome.mono (closes_subset_append 2 argument rest))
  rw [argumentClose?_eq_some_iff, hquoted] at h
  rw [argumentClose?_eq_some_iff]
  rcases h with ⟨hstarts, hfound⟩ | ⟨hmissing, hfound⟩
  · exact Or.inl ⟨hstarts, hcut 2 hfound⟩
  · exact Or.inr ⟨fun hstarts => hnone (hmissing hstarts), hcut 1 hfound⟩

end Close

/-! ## What is behind the parenthesis -/

/-- The text behind a semicolon, if there is one. -/
def behindSemicolon : Text → Text
  | [] => []
  | c :: rest => if c = ';' then rest else c :: rest

/-- The text behind a parenthesis and the semicolon. -/
def behindClose? : Text → Option Text
  | [] => none
  | c :: rest => if c = ')' then some (behindSemicolon rest) else none

/-- The text behind the first parenthesis that is searched for, and behind its semicolon. -/
def behindFrom? (skip : Nat) (argument : Text) : Option Text :=
  (closeFrom? skip argument).map fun close => behindSemicolon (argument.drop (close + 1))

section Behind

variable (c : Char) (rest : Text)

theorem behindFrom?_zero_cons :
    behindFrom? 0 (c :: rest) =
      if c = ')' then some (behindSemicolon rest)
      else if c = '\n' then none else behindFrom? 0 rest := by
  unfold behindFrom?
  rw [closeFrom?]
  split
  · rfl
  · split
    · rfl
    · rw [Option.map_map]
      rfl

theorem behindFrom?_succ_cons (skip : Nat) :
    behindFrom? (skip + 1) (c :: rest) = if c = '\n' then none else behindFrom? skip rest := by
  unfold behindFrom?
  rw [closeFrom?]
  split
  · rfl
  · rw [Option.map_map]
    rfl

/-- A word that holds neither a parenthesis nor a line end is passed over. -/
theorem behindFrom?_zero_append {word : Text} (hclose : ')' ∉ word) (hline : '\n' ∉ word) :
    behindFrom? 0 (word ++ rest) = behindFrom? 0 rest := by
  induction word with
  | nil => rfl
  | cons c word ih =>
    rw [List.mem_cons, not_or] at hclose hline
    rw [List.cons_append, behindFrom?_zero_cons, if_neg (Ne.symm hclose.1),
      if_neg (Ne.symm hline.1)]
    exact ih hclose.2 hline.2

theorem behindClose?_eq (rest : Text) :
    behindClose? rest = none ∨ behindClose? rest = behindFrom? 0 rest := by
  cases rest with
  | nil => exact Or.inl rfl
  | cons c rest =>
    rw [behindFrom?_zero_cons, behindClose?]
    split
    · exact Or.inr rfl
    · exact Or.inl rfl

/-- The semicolon of a statement and what is behind it. -/
theorem filter_take_append_behindSemicolon (after : Text) :
    (after.take 1).filter (· == ';') ++ behindSemicolon after = after := by
  cases after with
  | nil => rfl
  | cons c after =>
    rw [behindSemicolon]
    by_cases hc : c = ';' <;> simp [hc]

/-- A text is read as far as its import statement ends. -/
theorem statementOf_append_behindSemicolon (blanks argument : Text) (close : Nat) :
    statementOf blanks argument close ++ behindSemicolon (argument.drop (close + 1)) =
      Mark.importKeyword.literal ++ (blanks ++ (urlOpen ++ argument)) := by
  unfold statementOf
  simp only [List.append_assoc]
  rw [filter_take_append_behindSemicolon, List.take_append_drop]

end Behind

/-! ## The patterns -/

open Pattern

/-- All characters but the end of a line. -/
def onLine (c : Char) : Bool := c != '\n'

theorem onLine_iff {c : Char} : onLine c ↔ c ≠ '\n' := bne_iff_ne

/-- The parenthesis, and the semicolon if there is one. -/
def closePattern : Pattern := (word [')']).seq (word [';']).optional

/-- An import statement whose argument is of the given form. -/
def framePattern (argument : Pattern) : Pattern :=
  (word Mark.importKeyword.literal).seq <| (many Text.isWhiteSpace).seq <|
    (word urlOpen).seq <| argument.seq closePattern

/-- An argument that is opened by a quote and may be closed by it. -/
def quotedPattern (quote : Char) : Pattern :=
  (word [quote]).seq <| (few onLine).seq (word [quote]).optional

/-- An import statement by the forms of its argument, the quoted ones first. -/
def importPattern : Pattern :=
  framePattern <| (quotedPattern '\'').either <| (quotedPattern '"').either (few onLine)

/-- An import statement whose argument may be closed by the quote that opened it. -/
def quoteBoundPattern : Pattern :=
  framePattern <| (group ((word ['\'']).either (word ['"'])).optional).seq <|
    (few onLine).seq again.optional

section Run

variable (place : Place) (argument : Pattern) (text : Text)

theorem isPrefixOf?_singleton_of_ne {c d : Char} {rest : Text} (h : c ≠ d) :
    [d].isPrefixOf? (c :: rest) = none := by
  simp [List.isPrefixOf?, Ne.symm h]

/-- What is left of a text behind a place. -/
def left (place : Place) : Option Text := some place.rest

/-- The semicolon is taken if it is there. -/
theorem run_optional_semicolon :
    (word [';']).optional.run left place = some (behindSemicolon place.rest) := by
  rw [run_optional, run_word]
  cases hrest : place.rest with
  | nil =>
    rw [left, hrest]
    rfl
  | cons c rest =>
    rw [behindSemicolon]
    by_cases hc : c = ';'
    · rw [if_pos hc, hc]
      rfl
    · rw [if_neg hc, isPrefixOf?_singleton_of_ne hc, Option.bind_none, Option.none_or, left, hrest]

theorem run_closePattern : closePattern.run left place = behindClose? place.rest := by
  unfold closePattern
  rw [run_seq, run_word]
  cases hrest : place.rest with
  | nil => rfl
  | cons c rest =>
    rw [behindClose?]
    by_cases hc : c = ')'
    · rw [if_pos hc, hc]
      exact run_optional_semicolon { place with rest }
    · rw [if_neg hc, isPrefixOf?_singleton_of_ne hc, Option.bind_none]

/-- What is left behind a word that may be missing, and a parenthesis. -/
def behindWord? (word rest : Text) : Option Text :=
  ((word.isPrefixOf? rest).bind behindClose?).or (behindClose? rest)

/-- Only the next parenthesis can be matched. -/
theorem behindWord?_eq {word : Text} (hclose : ')' ∉ word) (hline : '\n' ∉ word) (rest : Text) :
    behindWord? word rest = none ∨ behindWord? word rest = behindFrom? 0 rest := by
  unfold behindWord?
  cases hprefix : word.isPrefixOf? rest with
  | none => exact behindClose?_eq rest
  | some after =>
    obtain rfl := List.append_eq_of_isPrefixOf?_eq_some hprefix
    rcases behindClose?_eq after with hnone | hbehind
    · rw [Option.bind_some, hnone, Option.none_or]
      exact behindClose?_eq _
    · rw [Option.bind_some, hbehind, behindFrom?_zero_append after hclose hline]
      rcases behindClose?_eq (word ++ after) with hnone | hbehind'
      · rw [hnone, Option.or_none]
        exact Or.inr rfl
      · rw [hbehind', behindFrom?_zero_append after hclose hline, Option.or_self]
        exact Or.inr rfl

/-- A parenthesis that comes next is matched. -/
theorem behindWord?_close {word : Text} (hclose : ')' ∉ word) (rest : Text) :
    behindWord? word (')' :: rest) = behindFrom? 0 (')' :: rest) := by
  have hbehind : behindClose? (')' :: rest) = behindFrom? 0 (')' :: rest) := rfl
  unfold behindWord?
  cases word with
  | nil =>
    show (behindClose? (')' :: rest)).or (behindClose? (')' :: rest)) = _
    rw [Option.or_self, hbehind]
  | cons c word =>
    have hc : c ≠ ')' := fun hc => hclose (hc ▸ List.mem_cons_self)
    have hnone : (c :: word).isPrefixOf? (')' :: rest) = none := by simp [List.isPrefixOf?, hc]
    rw [hnone, Option.bind_none, Option.none_or, hbehind]

/-- Between here and the first parenthesis, no place but the last one is matched. -/
theorem behindWord?_or_findSome? {word : Text} (hclose : ')' ∉ word) (hline : '\n' ∉ word)
    (rest : Text) :
    (behindWord? word rest).or ((rest.behindShortest onLine).findSome? (behindWord? word)) =
      behindFrom? 0 rest := by
  induction rest with
  | nil =>
    rw [Text.behindShortest, List.findSome?_nil, Option.or_none]
    exact (behindWord?_eq hclose hline []).elim id id
  | cons c rest ih =>
    by_cases hc : c = ')'
    · subst hc
      rw [behindWord?_close hclose, behindFrom?_zero_cons, if_pos rfl, Option.some_or]
    by_cases hn : c = '\n'
    · subst hn
      rw [Text.behindShortest, if_neg (by decide), List.findSome?_nil, Option.or_none]
      exact (behindWord?_eq hclose hline _).elim id id
    have hbehind : behindFrom? 0 (c :: rest) = behindFrom? 0 rest := by
      rw [behindFrom?_zero_cons, if_neg hc, if_neg hn]
    have hshortest : (Text.behindShortest onLine (c :: rest)).findSome? (behindWord? word) =
        behindFrom? 0 rest := by
      rw [Text.behindShortest, if_pos (onLine_iff.mpr hn), List.findSome?_cons, ← ih]
      cases behindWord? word rest <;> rfl
    rw [hshortest, hbehind]
    rcases behindWord?_eq hclose hline (c :: rest) with hnone | hsome
    · rw [hnone, Option.none_or]
    · rw [hsome, hbehind, Option.or_self]

/-- **A lazy repetition ends in front of the first parenthesis** behind its first character, with
or without a word between them. -/
theorem findSome?_behindShortest {word : Text} (hclose : ')' ∉ word) (hline : '\n' ∉ word)
    (rest : Text) :
    (rest.behindShortest onLine).findSome? (behindWord? word) = behindFrom? 1 rest := by
  cases rest with
  | nil => rfl
  | cons c rest =>
    rw [behindFrom?_succ_cons, Text.behindShortest]
    by_cases hn : c = '\n'
    · rw [if_pos hn, if_neg fun h => onLine_iff.mp h hn, List.findSome?_nil]
    · rw [if_neg hn, if_pos (onLine_iff.mpr hn), List.findSome?_cons,
        ← behindWord?_or_findSome? hclose hline]
      cases behindWord? word rest <;> rfl

/-- A word that may be missing, and the parenthesis behind it. -/
theorem run_optional_word :
    (word text).optional.run (fun behind => closePattern.run left behind) place =
      behindWord? text place.rest := by
  rw [run_optional, run_word]
  simp only [run_closePattern]
  rfl

/-- A lazy repetition, the text that was kept or nothing, and the parenthesis. -/
theorem run_few_again (hclose : ')' ∉ place.group) (hline : '\n' ∉ place.group) :
    ((few onLine).seq again.optional).run (fun behind => closePattern.run left behind) place =
      behindFrom? 1 place.rest := by
  rw [run_seq, run_few, ← findSome?_behindShortest hclose hline]
  congr 1
  funext rest
  rw [run_optional, run_again]
  simp only [run_closePattern]
  rfl

/-- A quoted argument and the parenthesis. -/
theorem run_quotedPattern {quote : Char} (hclose : quote ≠ ')') (hline : quote ≠ '\n') :
    (quotedPattern quote).run (fun behind => closePattern.run left behind) place =
      if [quote].isPrefixOf place.rest then behindFrom? 2 place.rest else none := by
  unfold quotedPattern
  rw [run_seq, run_word]
  cases place.rest with
  | nil => rfl
  | cons c rest =>
    by_cases hc : c = quote
    · subst hc
      have hlazy : ((few onLine).seq (word [c]).optional).run
          (fun behind => closePattern.run left behind) { place with rest } =
            behindFrom? 1 rest := by
        rw [run_seq, run_few]
        simp only [run_optional_word]
        exact findSome?_behindShortest (by simpa using hclose.symm) (by simpa using hline.symm) rest
      rw [behindFrom?_succ_cons, if_neg hline, ← hlazy]
      simp [List.isPrefixOf?, List.isPrefixOf]
    · rw [isPrefixOf?_singleton_of_ne hc, Option.bind_none]
      simp [List.isPrefixOf, Ne.symm hc]

/-- A bare argument and the parenthesis. -/
theorem run_few_closePattern :
    (few onLine).run (fun behind => closePattern.run left behind) place =
      behindFrom? 1 place.rest := by
  have hword : ∀ rest, behindClose? rest = behindWord? [] rest := fun rest =>
    (Option.or_self).symm
  rw [run_few]
  simp only [run_closePattern, hword]
  exact findSome?_behindShortest List.not_mem_nil List.not_mem_nil place.rest

/-- The text behind the parenthesis that closes an argument. -/
def behindArgument? (argument : Text) : Option Text :=
  (argumentClose? argument).map fun close => behindSemicolon (argument.drop (close + 1))

theorem behindArgument?_eq (argument : Text) :
    behindArgument? argument =
      (if startsQuoted argument then behindFrom? 2 argument else none).or
        (behindFrom? 1 argument) := by
  unfold behindArgument? argumentClose? behindFrom?
  split
  · rw [Option.orElse_eq_orElse, Option.orElse_eq_or, Option.map_or]
  · rfl

/-- Both ways to write the argument lead behind the parenthesis that closes it. -/
theorem run_importArgument :
    ((quotedPattern '\'').either ((quotedPattern '"').either (few onLine))).run
        (fun behind => closePattern.run left behind) place =
      behindArgument? place.rest := by
  rw [run_either, run_either, run_quotedPattern place (by decide) (by decide),
    run_quotedPattern place (by decide) (by decide), run_few_closePattern, behindArgument?_eq]
  cases place.rest with
  | nil => rfl
  | cons c rest =>
    by_cases hsingle : c = '\''
    · subst hsingle
      simp [List.isPrefixOf, startsQuoted]
    by_cases hdouble : c = '"'
    · subst hdouble
      simp [List.isPrefixOf, startsQuoted]
    simp [List.isPrefixOf, startsQuoted, hsingle, hdouble, Ne.symm hsingle, Ne.symm hdouble]

/-- A quote is kept, and so is that there is none. -/
theorem run_quoteGroup (next : Place → Option Text) (text : Text) :
    (group ((word ['\'']).either (word ['"'])).optional).run next ⟨[], text⟩ =
      (if startsQuoted text then next ⟨text.take 1, text.drop 1⟩ else none).or
        (next ⟨[], text⟩) := by
  rw [run_group, run_optional, run_either, run_word, run_word]
  cases text with
  | nil => rfl
  | cons c rest =>
    by_cases hsingle : c = '\''
    · subst hsingle
      simp [List.isPrefixOf?, startsQuoted]
    by_cases hdouble : c = '"'
    · subst hdouble
      simp [List.isPrefixOf?, startsQuoted]
    simp [List.isPrefixOf?, startsQuoted, hsingle, hdouble, Ne.symm hsingle, Ne.symm hdouble]

/-- A quote is neither a parenthesis nor a line end. -/
theorem not_mem_take_of_startsQuoted (h : startsQuoted text) :
    ')' ∉ text.take 1 ∧ '\n' ∉ text.take 1 := by
  cases text with
  | nil => cases h
  | cons c rest =>
    simp only [startsQuoted, Bool.or_eq_true, beq_iff_eq] at h
    show ')' ∉ [c] ∧ '\n' ∉ [c]
    rcases h with rfl | rfl <;> decide

theorem run_quoteBoundArgument :
    ((group ((word ['\'']).either (word ['"'])).optional).seq ((few onLine).seq again.optional)).run
        (fun behind => closePattern.run left behind) ⟨[], text⟩ =
      behindArgument? text := by
  rw [run_seq, run_quoteGroup, behindArgument?_eq,
    run_few_again ⟨[], text⟩ List.not_mem_nil List.not_mem_nil]
  congr 1
  split
  · next hquoted =>
    obtain ⟨hclose, hline⟩ := not_mem_take_of_startsQuoted text hquoted
    rw [run_few_again _ hclose hline]
    cases text with
    | nil => cases hquoted
    | cons c rest =>
      have hc : c ≠ '\n' := fun hc => hline (by simp [hc])
      rw [behindFrom?_succ_cons, if_neg hc]
      rfl
  · rfl

/-- The frame of an import statement: the keyword, all blanks behind it, and `url(`. -/
theorem run_framePattern {argument : Pattern}
    (h : ∀ text, argument.run (fun behind => closePattern.run left behind) ⟨[], text⟩ =
      behindArgument? text) (text : Text) :
    (framePattern argument).run left ⟨[], text⟩ =
      (Mark.importKeyword.literal.isPrefixOf? text).bind fun unread =>
        (urlOpen.isPrefixOf? (unread.dropWhile Text.isWhiteSpace)).bind behindArgument? := by
  unfold framePattern
  rw [run_seq, run_word]
  congr 1
  funext unread
  rw [run_seq, run_many]
  · rw [run_seq, run_word]
    congr 1
    funext unread
    rw [run_seq]
    exact h unread
  · intro c rest hc
    have hu : c ≠ 'u' := by
      rintro rfl
      cases hc
    rw [run_seq, run_word]
    simp [urlOpen, List.isPrefixOf?, Ne.symm hu]

end Run

/-! ## What an import statement takes -/

/-- An import statement is as long as a pattern of its frame takes. -/
theorem length?_framePattern {argument : Pattern}
    (h : ∀ text, argument.run (fun behind => closePattern.run left behind) ⟨[], text⟩ =
      behindArgument? text) (text : Text) :
    (framePattern argument).length? text = importLength? text := by
  rw [length?_eq_run]
  show ((framePattern argument).run left ⟨[], text⟩).map _ = _
  rw [run_framePattern h, importLength?, importStatement?_eq, Option.map_bind, Option.map_bind]
  cases hkeyword : Mark.importKeyword.literal.isPrefixOf? text with
  | none => rfl
  | some unread =>
    obtain rfl := List.append_eq_of_isPrefixOf?_eq_some hkeyword
    rw [Option.bind_some, Option.bind_some, Function.comp_apply, Function.comp_apply,
      Option.map_bind, Option.map_bind]
    cases hurl : urlOpen.isPrefixOf? (unread.dropWhile Text.isWhiteSpace) with
    | none => rfl
    | some argument =>
      have hunread := List.append_eq_of_isPrefixOf?_eq_some hurl
      rw [Option.bind_some, Option.bind_some, Function.comp_apply, Function.comp_apply,
        behindArgument?, Option.map_map, Option.map_map]
      congr 1
      funext close
      have htext := congrArg Text.byteSize
        (statementOf_append_behindSemicolon (unread.takeWhile Text.isWhiteSpace) argument close)
      rw [hunread, List.takeWhile_append_dropWhile, Text.byteSize_append] at htext
      rw [Function.comp_apply, Function.comp_apply, ← htext, Nat.add_sub_cancel_right]

/-- The extent of a statement: up to the parenthesis, and the semicolon if there is one. -/
theorem byteSize_statementOf (blanks argument : Text) (close : Nat) :
    (statementOf blanks argument close).byteSize =
      Text.byteSize (Mark.importKeyword.literal ++ blanks ++ urlOpen ++
          argument.take (close + 1)) +
        if argument[close + 1]? = some ';' then 1 else 0 := by
  rw [statementOf, Text.byteSize_append, ← List.head?_drop]
  congr 1
  cases argument.drop (close + 1) with
  | nil => rfl
  | cons c rest =>
    by_cases hc : c = ';'
    · subst hc
      rfl
    · simp [hc]

/-- An import statement by itself is the same statement. -/
theorem importStatement?_statement {text statement : Text}
    (h : importStatement? text = some statement) : importStatement? statement = some statement := by
  obtain ⟨blanks, argument, close, rfl, hblanks, hclose, rfl⟩ := importStatement?_eq_some_iff.mp h
  obtain ⟨closed, after, rfl, hlength, -⟩ := exists_eq_of_close hclose
  rw [statementOf_append hlength]
  set semicolon := (after.take 1).filter (· == ';') with hsemicolon
  have hself : (semicolon.take 1).filter (· == ';') = semicolon := by
    rw [hsemicolon]
    cases after with
    | nil => rfl
    | cons c after => by_cases hc : c = ';' <;> simp [hc]
  have hclosed : argumentClose? (closed ++ semicolon) = some close := by
    have hbehind : argumentClose? (closed ++ semicolon ++ behindSemicolon after) = some close := by
      rw [List.append_assoc, hsemicolon, filter_take_append_behindSemicolon]
      exact hclose
    apply argumentClose?_of_append _ hbehind
    rw [List.length_append, hlength]
    exact Nat.lt_add_right _ (Nat.lt_succ_self close)
  refine importStatement?_eq_some_iff.mpr
    ⟨blanks, closed ++ semicolon, close, ?_, hblanks, hclosed, ?_⟩
  · simp only [List.append_assoc]
  · rw [statementOf_append hlength, hself]

/-- **What an import statement takes.** It takes the keyword, blanks, `url(` and an argument up to
the selected parenthesis, and a semicolon behind that. This is what each of the two patterns
prefers. It is longer than the keyword and ends between two characters, and the statement by itself
is taken as a whole. -/
theorem importLength?_spec (text : Text) :
    (∀ n, importLength? text = some n ↔ ∃ blanks argument close,
      text = Mark.importKeyword.literal ++ blanks ++ urlOpen ++ argument ∧
        (∀ c ∈ blanks, Text.isWhiteSpace c) ∧ Selects argument close ∧
        n = Text.byteSize (Mark.importKeyword.literal ++ blanks ++ urlOpen ++
            argument.take (close + 1)) +
          if argument[close + 1]? = some ';' then 1 else 0) ∧
    importPattern.length? text = importLength? text ∧
    quoteBoundPattern.length? text = importLength? text ∧
    ∀ n, importLength? text = some n → 13 ≤ n ∧ text.IsBoundary n ∧
      ∃ statement, text.slice? 0 n = some statement ∧ importLength? statement = some n := by
  refine ⟨fun n => ?_, ?_, ?_, fun n h => ?_⟩
  · simp only [importLength?, Option.map_eq_some_iff, importStatement?_eq_some_iff]
    constructor
    · rintro ⟨statement, ⟨blanks, argument, close, rfl, hblanks, hclose, rfl⟩, rfl⟩
      exact ⟨blanks, argument, close, by simp only [List.append_assoc], hblanks,
        argumentClose?_eq_some_iff_selects.mp hclose, byteSize_statementOf blanks argument close⟩
    · rintro ⟨blanks, argument, close, rfl, hblanks, hclose, rfl⟩
      exact ⟨_, ⟨blanks, argument, close, by simp only [List.append_assoc], hblanks,
        argumentClose?_eq_some_iff_selects.mpr hclose, rfl⟩,
        byteSize_statementOf blanks argument close⟩
  · exact length?_framePattern (fun text => run_importArgument ⟨[], text⟩) text
  · exact length?_framePattern run_quoteBoundArgument text
  · obtain ⟨statement, hstatement, rfl⟩ := Option.map_eq_some_iff.mp h
    obtain ⟨after, rfl⟩ := exists_append_of_importStatement? hstatement
    refine ⟨byteSize_of_importStatement? hstatement, Text.isBoundary_append _ _, statement, ?_, ?_⟩
    · apply Text.slice?_eq_some_iff.mpr
      exact ⟨[], after, rfl, rfl, Nat.zero_add _⟩
    · rw [importLength?, importStatement?_statement hstatement]
      rfl

/-- The second parenthesis closes an argument whose first one stands behind its quote. -/
theorem importLength?_spec_quoted :
    let text : Text := ['@', 'i', 'm', 'p', 'o', 'r', 't', ' ', 'u', 'r', 'l', '(', '\'', ')', '\'',
      ')', ';', 'a']
    importPattern.length? text = some 17 ∧ quoteBoundPattern.length? text = some 17 ∧
      13 ≤ 17 ∧ text.IsBoundary 17 ∧
        ∃ statement, text.slice? 0 17 = some statement ∧ importLength? statement = some 17 := by
  intro text
  have hlength : importLength? text = some 17 := by decide
  obtain ⟨-, himport, hbound, hspec⟩ := importLength?_spec text
  exact ⟨himport.trans hlength, hbound.trans hlength, hspec 17 hlength⟩

end CssOutline
