import CssOutline.Proofs.ImportStatement
import CssOutline.Proofs.Text.Slice
import Mathlib.Data.List.Pairwise
import Mathlib.Data.List.Sort

/-!
# Reading the longest marks

Reading takes the longest match at each place: a mark, or a run of characters that begin no mark.
It is never stuck, for each character that begins a mark is a mark by itself. What it comes upon can
be told without reading: of all lists of marks that stand in a text, one behind another, the tokens
are the only one that holds every character that begins a mark, and no mark that goes on behind its
end. An import statement ends where no mark does, so reading can be resumed there.

## Main definitions

* `Mark.Extends`: a mark that goes on behind its end
* `Lexed`: what is come upon by taking the longest match at each place
* `Token.Covers`: a token that holds the byte at an offset
* `IsReading`: tokens in order that hold each character that begins a mark, and none of which goes
  on behind its end

## Main results

* `Mark.extends_iff`: a mark goes on where a longer one stands
* `lexed_iff`: the longest matches are the tokens, without an error
* `isReading_iff`: the tokens are the only list of tokens of that kind
* `tokensFrom_behind_statement`: reading is resumed behind an import statement
* `tokens_sole_and_resumable`: what the tokens of a text are, and where reading is resumed
-/

namespace CssOutline

namespace Mark

/-- Whether a mark goes on in the text behind it, so that the two begin with a longer mark. -/
def Extends : Mark → Text → Prop
  | slash, behind => ['*'] <+: behind
  | star, behind => ['/'] <+: behind
  | atSign, behind => ['i', 'm', 'p', 'o', 'r', 't'] <+: behind
  | _, _ => False

variable {mark : Mark} {behind : Text}

/-- **A mark goes on where a longer one stands.** -/
theorem extends_iff : mark.Extends behind ↔ ∃ longer : Mark,
    longer.literal <+: mark.literal ++ behind ∧ mark.literal.length < longer.literal.length := by
  constructor
  · intro h
    cases mark with
    | slash => exact ⟨commentOpen, List.prefix_append_right_inj ['/'] |>.mpr h, by decide⟩
    | star => exact ⟨commentClose, List.prefix_append_right_inj ['*'] |>.mpr h, by decide⟩
    | atSign => exact ⟨importKeyword, List.prefix_append_right_inj ['@'] |>.mpr h, by decide⟩
    | commentOpen | commentClose | importKeyword | blockOpen | blockClose => cases h
  · rintro ⟨longer, hprefix, hlength⟩
    cases mark <;> cases longer <;> simp_all [literal, Extends]

/-- A mark is read where it does not go on. -/
theorem leading?_append_eq_some_iff :
    leading? (mark.literal ++ behind) = some mark ↔ ¬ mark.Extends behind := by
  have hprefix : ∀ more : Text, ¬ more <+: behind ↔ more.isPrefixOf behind = false := by
    simp [← List.isPrefixOf_iff_prefix]
  cases mark <;> simp [leading?, longestFirst, literal, Extends, hprefix]

/-- The mark that is read is the longest one. -/
theorem leading?_append_eq_some_iff_forall_length_le :
    leading? (mark.literal ++ behind) = some mark ↔ ∀ other : Mark,
      other.literal <+: mark.literal ++ behind →
        other.literal.length ≤ mark.literal.length := by
  simp [leading?_append_eq_some_iff, extends_iff]

end Mark

/-! ## Taking the longest match -/

/-- What is come upon in a text that begins at offset `start` by taking the longest match at each
place: a token for a mark, and an error at a character where nothing matches. Runs of characters
that begin no mark are passed over. -/
inductive Lexed : (start : Nat) → Text → List (Except Nat Token) → Prop
  | nil {start : Nat} : Lexed start [] []
  | skip {start : Nat} {run rest : Text} {read : List (Except Nat Token)} (nonempty : run ≠ [])
      (plain : ∀ c ∈ run, c ∉ Mark.initials) (stops : ∀ c ∈ rest.head?, c ∈ Mark.initials)
      (later : Lexed (start + run.byteSize) rest read) : Lexed start (run ++ rest) read
  | mark {start : Nat} {mark : Mark} {rest : Text} {read : List (Except Nat Token)}
      (longest : ∀ other : Mark, other.literal <+: mark.literal ++ rest →
        other.literal.length ≤ mark.literal.length)
      (later : Lexed (start + mark.byteSize) rest read) :
      Lexed start (mark.literal ++ rest) (.ok ⟨mark, start⟩ :: read)
  | stuck {start : Nat} {c : Char} {rest : Text} {read : List (Except Nat Token)}
      (initial : c ∈ Mark.initials) (unmatched : ∀ mark : Mark, ¬ mark.literal <+: c :: rest)
      (later : Lexed (start + c.utf8Size) rest read) :
      Lexed start (c :: rest) (.error start :: read)

section Lexed

variable {start : Nat} {text : Text} {read : List (Except Nat Token)}

/-- A character that begins no mark makes the run that follows it longer. -/
theorem Lexed.pass {c : Char} (hc : c ∉ Mark.initials) (h : Lexed (start + c.utf8Size) text read) :
    Lexed start (c :: text) read := by
  have hself : (∀ d ∈ text.head?, d ∈ Mark.initials) → Lexed start ([c] ++ text) read :=
    fun hstop => .skip (List.cons_ne_nil _ _) (by simpa using hc) hstop h
  cases h with
  | nil => exact hself (by simp)
  | @skip _ run rest _ nonempty plain stops later =>
    have hplain : ∀ d ∈ c :: run, d ∉ Mark.initials := List.forall_mem_cons.mpr ⟨hc, plain⟩
    refine .skip (List.cons_ne_nil _ _) hplain stops ?_
    rwa [Text.byteSize_cons, ← Nat.add_assoc]
  | @mark _ m rest _ longest later =>
    obtain ⟨d, hd, tail, hliteral⟩ := m.exists_literal_eq_cons
    refine hself ?_
    rw [hliteral]
    simpa using hd
  | stuck initial unmatched later => exact hself (by simpa using initial)

/-- Reading a text is never stuck. -/
theorem lexed_tokensFrom (start : Nat) (text : Text) :
    Lexed start text ((tokensFrom start text).map .ok) := by
  induction text using Text.lexicalInduction generalizing start with
  | nil => exact .nil
  | mark m rest hm ih =>
    rw [tokensFrom_of_leading? hm]
    exact .mark (Mark.leading?_append_eq_some_iff_forall_length_le.mp hm) (ih _)
  | pass c rest hc ih =>
    rw [tokensFrom_of_leading?_eq_none hc]
    exact (ih _).pass (Mark.leading?_cons_eq_none_iff.mp hc)

/-- **The longest matches are the tokens**, without an error. -/
theorem lexed_iff : Lexed start text read ↔ read = (tokensFrom start text).map .ok := by
  constructor
  · intro h
    induction h with
    | nil => rfl
    | skip _ plain _ _ ih => rw [ih, tokensFrom_append_of_forall_notMem plain]
    | mark longest _ ih =>
      rw [ih, tokensFrom_of_leading?
        (Mark.leading?_append_eq_some_iff_forall_length_le.mpr longest), List.map_cons]
    | stuck initial unmatched =>
      have hnone := Mark.leading?_eq_none_iff.mpr unmatched
      exact absurd initial (Mark.leading?_cons_eq_none_iff.mp hnone)
  · rintro rfl
    exact lexed_tokensFrom start text

end Lexed

/-! ## Lists of tokens that stand in a text -/

/-- Whether a token holds the byte at an offset. -/
def Token.Covers (t : Token) (offset : Nat) : Prop := t.start ≤ offset ∧ offset < t.stop

/-- A way to read a text: tokens one behind another, each where its mark is written and no longer
one, that leave out no character that begins a mark. -/
structure IsReading (text : Text) (read : List Token) : Prop where
  /-- Tokens follow one another and do not overlap. -/
  ordered : read.Pairwise fun t u => t.stop ≤ u.start
  /-- A token spans its mark as it is written. -/
  spelled : ∀ t ∈ read, text.slice? t.start t.stop = some t.mark.literal
  /-- Each character that begins a mark is inside of one token and no other. -/
  covered : ∀ (before : Text) (c : Char) (behind : Text), text = before ++ c :: behind →
    c ∈ Mark.initials → ∃! t, t ∈ read ∧ t.Covers before.byteSize
  /-- No token is a part of a longer mark. -/
  longest : ∀ t ∈ read, ∀ behind, text.dropBytes? t.stop = some behind → ¬ t.mark.Extends behind

section Covers

variable {text before behind : Text} {c : Char} {read : List Token} {t u : Token}

theorem Token.covers_start (t : Token) : t.Covers t.start := ⟨le_rfl, start_lt_stop t⟩

/-- Each character that begins a mark is inside of a token. -/
theorem exists_covers_of_mem_initials (start : Nat) (htext : text = before ++ c :: behind)
    (hc : c ∈ Mark.initials) : ∃ t ∈ tokensFrom start text, t.Covers (start + before.byteSize) := by
  induction text using Text.lexicalInduction generalizing start before with
  | nil => exact absurd htext.symm (by simp)
  | mark m rest hm ih =>
    rw [tokensFrom_of_leading? hm]
    by_cases hinside : before.byteSize < m.byteSize
    · refine ⟨_, List.mem_cons_self, Nat.le_add_right _ _, ?_⟩
      exact Nat.add_lt_add_left hinside start
    · obtain ⟨inside, rfl⟩ : ∃ inside, before = m.literal ++ inside := by
        rcases List.append_eq_append_iff.mp htext with ⟨inside, hb, -⟩ | ⟨tail, hl, -⟩
        · exact ⟨inside, hb⟩
        · rw [Mark.byteSize, hl, Text.byteSize_append] at hinside
          obtain rfl : tail = [] := Text.byteSize_eq_zero_iff.mp (by omega)
          exact ⟨[], by rw [hl, List.append_nil, List.append_nil]⟩
      rw [List.append_assoc] at htext
      obtain ⟨t, ht, hcovers⟩ := ih (start + m.byteSize) (List.append_cancel_left htext)
      refine ⟨t, List.mem_cons_of_mem _ ht, ?_⟩
      rwa [Text.byteSize_append, ← Nat.add_assoc]
  | pass d rest hd ih =>
    rw [tokensFrom_of_leading?_eq_none hd]
    cases before with
    | nil =>
      obtain ⟨rfl, -⟩ := List.cons.inj htext
      exact absurd hc (Mark.leading?_cons_eq_none_iff.mp hd)
    | cons e before =>
      obtain ⟨rfl, hrest⟩ := List.cons.inj htext
      rw [Text.byteSize_cons, ← Nat.add_assoc]
      exact ih _ hrest

/-- Of tokens that do not overlap only one holds a byte. -/
theorem eq_of_covers {offset : Nat} (h : read.Pairwise fun t u => t.stop ≤ u.start) (ht : t ∈ read)
    (hu : u ∈ read) (htc : t.Covers offset) (huc : u.Covers offset) : t = u := by
  by_contra hne
  have hsymm : Std.Symm fun t u : Token => t.stop ≤ u.start ∨ u.stop ≤ t.start :=
    ⟨fun _ _ => Or.symm⟩
  have happart : read.Pairwise fun t u => t.stop ≤ u.start ∨ u.stop ≤ t.start := h.imp Or.inl
  have htu := happart.forall ht hu hne
  unfold Token.Covers at htc huc
  omega

theorem isReading_tokens (text : Text) : IsReading text (tokens text) where
  ordered := pairwise_tokensFrom 0 text
  spelled := by
    intro t ht
    obtain ⟨a, b, htext, hstart⟩ := exists_eq_append_of_mem_tokens ht
    exact Text.slice?_eq_some_iff.mpr ⟨a, b, htext, hstart.symm, by rw [← hstart]; rfl⟩
  covered := by
    intro before c behind htext hc
    obtain ⟨t, ht, hcovers⟩ := exists_covers_of_mem_initials 0 htext hc
    rw [Nat.zero_add] at hcovers
    refine ⟨t, ⟨ht, hcovers⟩, fun u hu => ?_⟩
    exact eq_of_covers (pairwise_tokensFrom 0 text) hu.1 ht hu.2 hcovers
  longest := by
    intro t ht behind hbehind
    obtain ⟨earlier, later, hsplit⟩ := List.append_of_mem ht
    obtain ⟨a, b, htext, hstart, hlead, -⟩ := exists_eq_append_of_tokensFrom_eq hsplit
    have hstop : t.stop = Text.byteSize (a ++ t.mark.literal) := by
      rw [Token.stop, hstart, Nat.zero_add, Text.byteSize_append]
      rfl
    rw [htext, hstop, Text.dropBytes?_append, Option.some.injEq] at hbehind
    rw [← hbehind]
    exact Mark.leading?_append_eq_some_iff.mp hlead

end Covers

/-! ## The only reading -/

namespace IsReading

variable {text : Text} {read other : List Token} {t u : Token}

/-- A token stands where its mark is the longest one. -/
theorem bind_leading? (h : IsReading text read) (ht : t ∈ read) :
    (text.dropBytes? t.start).bind Mark.leading? = some t.mark := by
  obtain ⟨a, behind, htext, hstart, hstop⟩ := Text.slice?_eq_some_iff.mp (h.spelled t ht)
  have hrest : text.dropBytes? t.start = some (t.mark.literal ++ behind) := by
    rw [htext, ← hstart, Text.dropBytes?_append]
  have hbehind : text.dropBytes? t.stop = some behind := by
    rw [htext, ← hstop, ← List.append_assoc, ← Text.byteSize_append, Text.dropBytes?_append]
  rw [hrest, Option.bind_some]
  exact Mark.leading?_append_eq_some_iff.mpr (h.longest t ht behind hbehind)

/-- Tokens of two readings that start at the same place are the same. -/
theorem eq_of_start_eq (h : IsReading text read) (h' : IsReading text other) (ht : t ∈ read)
    (hu : u ∈ other) (hstart : t.start = u.start) : t = u := by
  have hmark : some t.mark = some u.mark := by
    rw [← h.bind_leading? ht, ← h'.bind_leading? hu, hstart]
  obtain ⟨mark, start⟩ := t
  obtain ⟨mark', start'⟩ := u
  obtain rfl : mark = mark' := Option.some.inj hmark
  obtain rfl : start = start' := hstart
  rfl

/-- Where a token of one reading starts, another reading has a token, too. -/
theorem exists_covers_start (h : IsReading text read) (h' : IsReading text other) (ht : t ∈ read) :
    ∃ u ∈ other, u.Covers t.start := by
  obtain ⟨a, b, htext, hstart, -⟩ := Text.slice?_eq_some_iff.mp (h.spelled t ht)
  obtain ⟨c, hc, tail, hliteral⟩ := t.mark.exists_literal_eq_cons
  rw [hliteral, List.cons_append] at htext
  obtain ⟨u, ⟨hu, hcovers⟩, -⟩ := h'.covered a c (tail ++ b) htext hc
  exact ⟨u, hu, hstart ▸ hcovers⟩

/-- Each token of one reading belongs to the other. -/
theorem subset (h : IsReading text read) (h' : IsReading text other) : read ⊆ other := by
  intro t ht
  -- by induction on the place of the token: those in front of it belong to both readings
  induction hn : t.start using Nat.strongRecOn generalizing t with
  | ind n ih =>
    obtain ⟨u, hu, huc⟩ := h.exists_covers_start h' ht
    rcases Nat.lt_or_eq_of_le huc.1 with hlt | heq
    · obtain ⟨v, hv, hvc⟩ := h'.exists_covers_start h hu
      have hv' : v ∈ other := ih v.start (hn ▸ hvc.1.trans_lt hlt) hv rfl
      have hvu : v = u := eq_of_covers h'.ordered hv' hu hvc u.covers_start
      have htu : t = u := eq_of_covers h.ordered ht (hvu ▸ hv) t.covers_start huc
      exact absurd hlt (by rw [htu]; exact Nat.lt_irrefl _)
    · rwa [h.eq_of_start_eq h' ht hu heq.symm]

theorem eq (h : IsReading text read) (h' : IsReading text other) : read = other := by
  have hirrefl : Std.Irrefl fun t u : Token => t.stop ≤ u.start :=
    ⟨fun t => Nat.not_le.mpr (start_lt_stop t)⟩
  have hantisymm : Std.Antisymm fun t u : Token => t.stop ≤ u.start := by
    refine ⟨fun t u htu hut => absurd htu ?_⟩
    have ht := start_lt_stop t
    have hu := start_lt_stop u
    omega
  exact List.Subset.antisymm_of_pairwise h.ordered h'.ordered (h.subset h') (h'.subset h)

end IsReading

/-- **The tokens are the only reading of a text.** -/
theorem isReading_iff {text : Text} {read : List Token} :
    IsReading text read ↔ read = tokens text := by
  constructor
  · intro h
    exact h.eq (isReading_tokens text)
  · rintro rfl
    exact isReading_tokens text

/-! ## Reading on behind an import statement -/

/-- **Reading is resumed behind an import statement.** -/
theorem tokensFrom_behind_statement {text : Text} {start length : Nat}
    (h : (text.dropBytes? start).bind importLength? = some length) :
    ∃ behind, text.dropBytes? (start + length) = some behind ∧
      tokensFrom (start + length) behind =
        (tokens text).filter fun t => start + length ≤ t.start := by
  obtain ⟨rest, hrest, hlength⟩ := Option.bind_eq_some_iff.mp h
  obtain ⟨front, rfl, rfl⟩ := Text.dropBytes?_eq_some_iff.mp hrest
  obtain ⟨statement, hstatement, rfl⟩ := Option.map_eq_some_iff.mp hlength
  obtain ⟨behind, rfl⟩ := exists_append_of_importStatement? hstatement
  have hcut := (cleanCut_of_importStatement? hstatement behind).append_left
    (ne_nil_of_importStatement? hstatement) front
  have hresume := filter_tokensFrom_append 0 hcut
  rw [Nat.zero_add, Text.byteSize_append] at hresume
  refine ⟨behind, ?_, ?_⟩
  · rw [← List.append_assoc, ← Text.byteSize_append, Text.dropBytes?_append]
  · rw [tokens, ← List.append_assoc, hresume]

/-- **What the tokens of a text are, and where reading is resumed.** Taking the longest match at
each place comes upon the tokens and never upon an error. The tokens are the only list of marks in
the text, one behind another, that has each `/`, `*`, `@`, `{` and `}` inside of exactly one of them
and none of them that goes on behind its end. Reading that is resumed behind an import statement
comes upon the tokens from there on. -/
theorem tokens_sole_and_resumable (text : Text) :
    (∀ start read, Lexed start text read ↔ read = (tokensFrom start text).map .ok) ∧
    (∀ read, IsReading text read ↔ read = tokens text) ∧
    ∀ t ∈ tokens text, t.mark = .importKeyword → ∀ length,
      (text.dropBytes? t.start).bind importLength? = some length →
      ∃ behind, text.dropBytes? (t.start + length) = some behind ∧
        tokensFrom (t.start + length) behind =
          (tokens text).filter fun u => t.start + length ≤ u.start :=
  ⟨fun _ _ => lexed_iff, fun _ => isReading_iff, fun _ _ _ _ => tokensFrom_behind_statement⟩

/-- The argument of this statement opens a comment, and reading is resumed at the mark that closes
it. -/
theorem tokens_resumed_behind_argument :
    let text : Text := ['@', 'i', 'm', 'p', 'o', 'r', 't', ' ', 'u', 'r', 'l', '(', '/', '*', '/',
      ')', '*', '/', '{']
    ⟨.importKeyword, 0⟩ ∈ tokens text ∧ (text.dropBytes? 0).bind importLength? = some 16 ∧
      ∃ behind, text.dropBytes? 16 = some behind ∧
        tokensFrom 16 behind = [⟨.commentClose, 16⟩, ⟨.blockOpen, 18⟩] := by
  intro text
  have hkeyword : ⟨.importKeyword, 0⟩ ∈ tokens text := by decide
  have hlength : (text.dropBytes? 0).bind importLength? = some 16 := by decide
  have hlater : ((tokens text).filter fun u => 0 + 16 ≤ u.start) =
      [⟨.commentClose, 16⟩, ⟨.blockOpen, 18⟩] := by decide
  obtain ⟨-, -, hresumed⟩ := tokens_sole_and_resumable text
  obtain ⟨behind, hbehind, hread⟩ := hresumed ⟨.importKeyword, 0⟩ hkeyword rfl 16 hlength
  refine ⟨hkeyword, hlength, behind, ?_, ?_⟩
  · simpa using hbehind
  · simpa using hread.trans hlater

end CssOutline
