import CssOutline.Proofs.Prelude.Scanned
import CssOutline.Proofs.Text.Blanked

/-!
# The bytes of comments

A byte of a text belongs to a comment if a comment is open there: from the first byte of the mark
that opens it through the last byte of the mark that closes it. If the bytes of all comments are
covered by spaces, then what is read of the text are the tokens that stand outside of comments, each
where it was. Next to a comment no new mark comes up, for a blank stands in none.

## Main definitions

* `openAt`: the number of comments that are open at a byte
* `InComment`, `blanked`: the bytes of comments, and a text with all of them covered
* `HidesComments`: offsets that are hidden where a comment is open
* `uncommented`: the tokens outside of comments

## Main results

* `HidesComments.split`: what is hidden in one part of a text and in the other
* `tokensFrom_blankFrom`: the tokens of a text with its comments covered
-/

namespace CssOutline

/-! ## Open comments at a byte -/

/-- The offset from which a token counts. A mark that closes a comment is a part of it, so it counts
from behind. -/
def Token.turn (t : Token) : Nat := if t.mark = .commentClose then t.stop else t.start

/-- The number of comments that are open at a byte, if `depth` comments are open in front of the
given tokens. -/
def openAt (depth : Nat) (read : List Token) (offset : Nat) : Nat :=
  (read.filter fun t => t.turn ≤ offset).foldl Token.depthAfter depth

/-- Whether a byte of a text belongs to a comment. -/
def InComment (text : Text) (offset : Nat) : Prop := 0 < openAt 0 (tokens text) offset

instance (text : Text) : DecidablePred (InComment text) :=
  fun _ => inferInstanceAs (Decidable (0 < _))

/-- A text with a space for each byte of its comments but the ends of lines. -/
def blanked (text : Text) : Text := Text.blankFrom (InComment text) 0 text

section OpenAt

variable {depth offset : Nat} {read : List Token} {t : Token}

theorem Token.start_le_turn (t : Token) : t.start ≤ t.turn := by
  unfold turn
  split
  · exact (start_lt_stop t).le
  · exact le_rfl

theorem Token.turn_le_stop (t : Token) : t.turn ≤ t.stop := by
  unfold turn
  split
  · exact le_rfl
  · exact (start_lt_stop t).le

theorem openAt_append (depth : Nat) (read more : List Token) (offset : Nat) :
    openAt depth (read ++ more) offset = openAt (openAt depth read offset) more offset := by
  unfold openAt
  rw [List.filter_append, List.foldl_append]

/-- Tokens that count only later open nothing. -/
theorem openAt_of_forall_lt (h : ∀ t ∈ read, offset < t.turn) :
    openAt depth read offset = depth := by
  have hnone : (read.filter fun t => t.turn ≤ offset) = [] := by
    refine List.filter_eq_nil_iff.mpr fun t ht => ?_
    simpa using h t ht
  rw [openAt, hnone]
  rfl

/-- Tokens that count already have opened what they open. -/
theorem openAt_of_forall_le (h : ∀ t ∈ read, t.turn ≤ offset) :
    openAt depth read offset = read.foldl Token.depthAfter depth := by
  have hall : (read.filter fun t => t.turn ≤ offset) = read := by
    refine List.filter_eq_self.mpr fun t ht => ?_
    simpa using h t ht
  rw [openAt, hall]

/-- Tokens other than comment marks open and close nothing. -/
theorem openAt_of_plain (h : ∀ t ∈ read, t.mark ≠ .commentOpen ∧ t.mark ≠ .commentClose) :
    openAt depth read offset = depth :=
  Token.foldl_depthAfter_of_plain (fun t ht => h t (List.mem_of_mem_filter ht)) depth

/-- Outside of comments only the beginning of one changes something. -/
theorem Token.depthAfter_zero (h : t.mark ≠ .commentOpen) : t.depthAfter 0 = 0 := by
  unfold depthAfter
  split
  · next hmark => exact absurd hmark h
  · rfl
  · rfl

/-- At the bytes of a token a comment is open if one was open in front of it or if it opens one. -/
theorem openAt_singleton_pos_iff (hstart : t.start ≤ offset) (hstop : offset < t.stop) :
    0 < openAt depth [t] offset ↔ ¬ (depth = 0 ∧ t.mark ≠ .commentOpen) := by
  by_cases hclose : t.mark = .commentClose
  · have hturn : offset < t.turn := by rwa [Token.turn, if_pos hclose]
    rw [openAt_of_forall_lt (by simpa using hturn), hclose, Nat.pos_iff_ne_zero]
    simp
  · have hturn : t.turn ≤ offset := by rwa [Token.turn, if_neg hclose]
    rw [openAt_of_forall_le (by simpa using hturn), List.foldl_cons, List.foldl_nil]
    by_cases hopen : t.mark = .commentOpen
    · rw [Token.depthAfter, hopen]
      simp
    · have hsame : t.depthAfter depth = depth := by
        unfold Token.depthAfter
        split
        · next hmark => exact absurd hmark hopen
        · next hmark => exact absurd hmark hclose
        · rfl
      rw [hsame, Nat.pos_iff_ne_zero]
      simp [hopen]

/-- From the mark that opens it through the one that closes it, a comment with no comment marks
inside is open. -/
theorem openAt_comment {start : Nat} {inner : List Token} {last : Token}
    (hplain : ∀ t ∈ inner, t.mark ≠ .commentOpen ∧ t.mark ≠ .commentClose)
    (hmark : last.mark = .commentClose) (hstart : start ≤ offset) (hstop : offset < last.stop) :
    openAt 0 (⟨.commentOpen, start⟩ :: (inner ++ [last])) offset = 1 := by
  have hopen : openAt 0 [⟨.commentOpen, start⟩] offset = 1 := by
    rw [openAt_of_forall_le]
    · rfl
    · intro t ht
      rw [List.mem_singleton.mp ht]
      exact hstart
  have hclose : ∀ t ∈ [last], offset < t.turn := by
    intro t ht
    rw [List.mem_singleton.mp ht, Token.turn, if_pos hmark]
    exact hstop
  rw [← List.singleton_append, openAt_append, hopen, openAt_append, openAt_of_plain hplain,
    openAt_of_forall_lt hclose]

end OpenAt

/-! ## Hidden comments -/

/-- Offsets that are hidden, in a text that begins at `start` inside `depth` open comments, just
where a comment is open. -/
def HidesComments (hidden : Nat → Prop) (depth start : Nat) (text : Text) : Prop :=
  ∀ o, start ≤ o → o < start + text.byteSize →
    (hidden o ↔ 0 < openAt depth (tokensFrom start text) o)

theorem hidesComments_inComment (text : Text) : HidesComments (InComment text) 0 0 text :=
  fun _ _ _ => Iff.rfl

section Hides

variable {hidden : Nat → Prop} {depth start : Nat} {a b : Text} {read : List Token}

/-- **What is hidden in the two parts of a text**: in the first part it depends on the tokens that
are read there, in the second one on the comments that they leave open. -/
theorem HidesComments.split (h : HidesComments hidden depth start (a ++ b))
    (hread : tokensFrom start (a ++ b) = read ++ tokensFrom (start + a.byteSize) b)
    (hstop : ∀ t ∈ read, t.stop ≤ start + a.byteSize) :
    (∀ o, start ≤ o → o < start + a.byteSize → (hidden o ↔ 0 < openAt depth read o)) ∧
      HidesComments hidden (read.foldl Token.depthAfter depth) (start + a.byteSize) b := by
  constructor
  · intro o hle hlt
    have hlater : ∀ t ∈ tokensFrom (start + a.byteSize) b, o < t.turn := by
      intro t ht
      exact hlt.trans_le ((le_start_of_mem_tokensFrom ht).trans t.start_le_turn)
    have hsize : o < start + (a ++ b).byteSize := by
      rw [Text.byteSize_append]
      omega
    rw [h o hle hsize, hread, openAt_append, openAt_of_forall_lt hlater]
  · intro o hle hlt
    have hearlier : ∀ t ∈ read, t.turn ≤ o := by
      intro t ht
      exact t.turn_le_stop.trans ((hstop t ht).trans hle)
    have hsize : o < start + (a ++ b).byteSize := by
      rw [Text.byteSize_append]
      omega
    rw [h o (by omega) hsize, hread, openAt_append, openAt_of_forall_le hearlier]

/-- A mark at the front of a text is hidden or not, and what is behind it is read as before. -/
theorem HidesComments.mark {m : Mark} {rest : Text}
    (h : HidesComments hidden depth start (m.literal ++ rest))
    (hm : Mark.leading? (m.literal ++ rest) = some m) :
    (∀ o, start ≤ o → o < start + m.byteSize →
        (hidden o ↔ ¬ (depth = 0 ∧ m ≠ .commentOpen))) ∧
      HidesComments hidden ((Token.mk m start).depthAfter depth) (start + m.byteSize) rest := by
  have hread : tokensFrom start (m.literal ++ rest) =
      [⟨m, start⟩] ++ tokensFrom (start + m.literal.byteSize) rest := tokensFrom_of_leading? hm
  have hstop : ∀ t ∈ [Token.mk m start], t.stop ≤ start + m.literal.byteSize := by
    intro t ht
    obtain rfl := List.mem_singleton.mp ht
    exact le_rfl
  obtain ⟨hmark, hrest⟩ := h.split hread hstop
  refine ⟨fun o hle hlt => ?_, hrest⟩
  rw [hmark o hle hlt]
  exact openAt_singleton_pos_iff hle hlt

/-- A character that is passed over is hidden inside of comments. -/
theorem HidesComments.pass {c : Char} {rest : Text}
    (h : HidesComments hidden depth start (c :: rest))
    (hc : Mark.leading? (c :: rest) = none) :
    (∀ o, start ≤ o → o < start + c.utf8Size → (hidden o ↔ ¬ depth = 0)) ∧
      HidesComments hidden depth (start + c.utf8Size) rest := by
  have hread : tokensFrom start ([c] ++ rest) =
      [] ++ tokensFrom (start + Text.byteSize [c]) rest := tokensFrom_of_leading?_eq_none hc
  obtain ⟨hchar, hrest⟩ := HidesComments.split h hread fun t ht => nomatch ht
  refine ⟨fun o hle hlt => ?_, hrest⟩
  rw [hchar o hle hlt]
  exact Nat.pos_iff_ne_zero

end Hides

/-! ## The tokens outside of comments -/

/-- The tokens outside of comments, if `depth` comments are open in front of the given ones. -/
def uncommented : (depth : Nat) → List Token → List Token
  | _, [] => []
  | depth, t :: rest =>
    if depth = 0 ∧ t.mark ≠ .commentOpen then t :: uncommented (t.depthAfter depth) rest
    else uncommented (t.depthAfter depth) rest

theorem uncommented_subset (depth : Nat) (read : List Token) : uncommented depth read ⊆ read := by
  induction read generalizing depth with
  | nil => exact fun t ht => ht
  | cons t read ih =>
    unfold uncommented
    split
    · exact List.cons_subset_cons t (ih _)
    · exact List.subset_cons_of_subset t (ih _)

section Covered

variable {hidden : Nat → Prop} [DecidablePred hidden]

/-- There is no blank in a mark. -/
theorem Mark.isBlank_of_mem_literal (m : Mark) : ∀ c ∈ m.literal, Text.isBlank c = false := by
  have hall : m.literal.all fun c => !Text.isBlank c := by cases m <;> rfl
  simpa only [List.all_eq_true, Bool.not_eq_true'] using hall

/-- No mark comes up where characters are covered. -/
theorem Mark.leading?_blankFrom_eq_none {start : Nat} {text : Text} (h : leading? text = none) :
    leading? (Text.blankFrom hidden start text) = none := by
  rw [leading?_eq_none_iff] at h ⊢
  intro m hprefix
  exact h m (Text.prefix_of_prefix_blankFrom m.isBlank_of_mem_literal hprefix)

/-- A mark that is not covered is read where it was. -/
theorem Mark.leading?_blankFrom {start : Nat} {m : Mark} {text : Text} (h : leading? text = some m)
    (hm : m.literal <+: Text.blankFrom hidden start text) :
    leading? (Text.blankFrom hidden start text) = some m := by
  unfold leading? at h ⊢
  rw [List.find?_eq_some_iff_append] at h ⊢
  obtain ⟨-, longer, shorter, hmarks, hnone⟩ := h
  refine ⟨List.isPrefixOf_iff_prefix.mpr hm, longer, shorter, hmarks, fun m' hm' => ?_⟩
  have hlonger := hnone m' hm'
  rw [Bool.not_eq_true', ← Bool.not_eq_true, List.isPrefixOf_iff_prefix] at hlonger ⊢
  exact fun hprefix =>
    hlonger (Text.prefix_of_prefix_blankFrom m'.isBlank_of_mem_literal hprefix)

/-- Blanks are passed over. -/
theorem tokensFrom_append_of_isBlank {blanks : Text} (h : ∀ c ∈ blanks, Text.isBlank c)
    (start : Nat) (rest : Text) :
    tokensFrom start (blanks ++ rest) = tokensFrom (start + blanks.byteSize) rest :=
  tokensFrom_append_of_forall_notMem (fun c hc => Mark.notMem_initials_of_isBlank (h c hc)) rest

/-- A part of a text that is covered is passed over. -/
theorem tokensFrom_blankFrom_append {start : Nat} {a : Text} (b : Text)
    (h : ∀ o, start ≤ o → o < start + a.byteSize → hidden o) :
    tokensFrom start (Text.blankFrom hidden start (a ++ b)) =
      tokensFrom (start + a.byteSize) (Text.blankFrom hidden (start + a.byteSize) b) := by
  rw [Text.blankFrom_append, tokensFrom_append_of_isBlank (Text.isBlank_of_mem_blankFrom h),
    Text.byteSize_blankFrom]

/-- **The tokens of a text with its comments covered** are those outside of comments. -/
theorem tokensFrom_blankFrom {depth start : Nat} {text : Text}
    (h : HidesComments hidden depth start text) :
    tokensFrom start (Text.blankFrom hidden start text) =
      uncommented depth (tokensFrom start text) := by
  induction text using Text.lexicalInduction generalizing depth start with
  | nil => rfl
  | mark m rest hm ih =>
    obtain ⟨hmark, hrest⟩ := h.mark hm
    rw [tokensFrom_of_leading? hm, uncommented, ← ih hrest]
    by_cases hout : depth = 0 ∧ m ≠ .commentOpen
    · have hself : Text.blankFrom hidden start m.literal = m.literal :=
        Text.blankFrom_eq_self fun o hle hlt => (not_congr (hmark o hle hlt)).mpr (not_not.mpr hout)
      have hsplit : Text.blankFrom hidden start (m.literal ++ rest) =
          m.literal ++ Text.blankFrom hidden (start + m.byteSize) rest := by
        rw [Text.blankFrom_append, hself]
        rfl
      have hprefix : m.literal <+: Text.blankFrom hidden start (m.literal ++ rest) := by
        rw [hsplit]
        exact List.prefix_append _ _
      have hlead := Mark.leading?_blankFrom hm hprefix
      rw [hsplit] at hlead ⊢
      rw [if_pos hout, tokensFrom_of_leading? hlead]
    · rw [if_neg hout]
      exact tokensFrom_blankFrom_append rest fun o hle hlt => (hmark o hle hlt).mpr hout
  | pass c rest hc ih =>
    obtain ⟨hchar, hrest⟩ := h.pass hc
    rw [tokensFrom_of_leading?_eq_none hc, ← ih hrest]
    by_cases hout : depth = 0
    · have hself : ¬ hidden start := by
        rw [hchar start le_rfl (Nat.lt_add_of_pos_right c.utf8Size_pos)]
        exact not_not.mpr hout
      have hnone : Mark.leading? (Text.blankFrom hidden start (c :: rest)) = none :=
        Mark.leading?_blankFrom_eq_none hc
      rw [Text.blankFrom_cons, if_neg hself, List.singleton_append] at hnone ⊢
      exact tokensFrom_of_leading?_eq_none hnone
    · apply tokensFrom_blankFrom_append (a := [c])
      exact fun o hle hlt => (hchar o hle hlt).mpr hout

theorem tokens_blanked (text : Text) : tokens (blanked text) = uncommented 0 (tokens text) :=
  tokensFrom_blankFrom (hidesComments_inComment text)

end Covered

end CssOutline
