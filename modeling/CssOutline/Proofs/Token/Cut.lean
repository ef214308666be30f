import CssOutline.Token
import Mathlib.Data.List.Infix

/-!
# Reading tokens across a cut

The tokens of a text are those of its two parts wherever no mark stands across the cut between
them. A mark can only stand across a cut whose two neighbouring characters stand together in
some mark, so most characters may be read as if a new text began before or behind them.

## Main definitions

* `Mark.initials`: the characters that marks begin with
* `Mark.Joined`: two characters that stand together in a mark
* `Text.CleanCut`: two texts with no mark across the cut between them

## Main results

* `Text.lexicalInduction`: texts taken apart the way the tokens are read
* `tokensFrom_append`: at a clean cut the tokens of two texts are read separately
* `exists_eq_append_of_tokensFrom_eq`: where a token stands, and what is read behind it
* `pairwise_tokensFrom`: tokens follow one another and do not overlap
* `filter_tokensFrom_append`: reading can be resumed at a clean cut
-/

namespace CssOutline

namespace Mark

theorem literal_ne_nil (mark : Mark) : mark.literal ≠ [] := by
  cases mark <;> exact List.cons_ne_nil _ _

theorem byteSize_pos (mark : Mark) : 0 < mark.byteSize := by
  cases mark <;> decide

theorem literal_prefix_of_leading? {text : Text} {mark : Mark} (h : leading? text = some mark) :
    mark.literal <+: text := by
  have hp := List.find?_some h
  exact List.isPrefixOf_iff_prefix.mp hp

theorem leading?_eq_none_iff {text : Text} :
    leading? text = none ↔ ∀ mark : Mark, ¬ mark.literal <+: text := by
  simp [leading?, List.find?_eq_none, mem_longestFirst]

/-- The characters that marks begin with. -/
def initials : List Char := ['/', '*', '@', '{', '}']

theorem exists_literal_eq_cons (mark : Mark) :
    ∃ c ∈ initials, ∃ tail, mark.literal = c :: tail := by
  cases mark <;> exact ⟨_, by decide, _, rfl⟩

/-- Each character that marks begin with is a mark by itself. -/
theorem exists_literal_eq_singleton {c : Char} (h : c ∈ initials) :
    ∃ mark : Mark, mark.literal = [c] := by
  simp only [initials, List.mem_cons, List.not_mem_nil, or_false] at h
  rcases h with rfl | rfl | rfl | rfl | rfl
  exacts [⟨slash, rfl⟩, ⟨star, rfl⟩, ⟨atSign, rfl⟩, ⟨blockOpen, rfl⟩, ⟨blockClose, rfl⟩]

/-- A text begins with no mark where its first character begins none. -/
theorem leading?_cons_eq_none_iff {c : Char} {rest : Text} :
    leading? (c :: rest) = none ↔ c ∉ initials := by
  rw [leading?_eq_none_iff]
  constructor
  · intro h hc
    obtain ⟨mark, hmark⟩ := exists_literal_eq_singleton hc
    exact h mark ⟨rest, by rw [hmark]; rfl⟩
  · rintro h mark ⟨behind, hbehind⟩
    obtain ⟨d, hd, tail, hmark⟩ := mark.exists_literal_eq_cons
    rw [hmark] at hbehind
    obtain ⟨rfl, -⟩ := List.cons.inj hbehind
    exact h hd

/-- Two texts that begin with the same marks begin with the same longest mark. -/
theorem leading?_congr {a b : Text} (h : ∀ mark : Mark, mark.literal <+: a ↔ mark.literal <+: b) :
    leading? a = leading? b := by
  have hb : ∀ mark : Mark, mark.literal.isPrefixOf a = mark.literal.isPrefixOf b := by
    intro mark
    rw [Bool.eq_iff_iff, List.isPrefixOf_iff_prefix, List.isPrefixOf_iff_prefix]
    exact h mark
  simp only [leading?, hb]

/-- Two characters that stand together in some mark. -/
def Joined (c d : Char) : Prop := ∃ mark ∈ longestFirst, [c, d] <:+: mark.literal

/-- The pairs of characters that stand together in a mark. -/
theorem joined_iff {c d : Char} : Joined c d ↔
    (c, d) ∈ [('/', '*'), ('*', '/'), ('@', 'i'), ('i', 'm'), ('m', 'p'), ('p', 'o'), ('o', 'r'),
      ('r', 't')] := by
  simp [Joined, longestFirst, literal, List.infix_cons_iff, List.cons_prefix_cons]

end Mark

namespace Text

/-- Two texts with no mark across the cut between them. -/
def CleanCut (a b : Text) : Prop :=
  ∀ c d : Char, c ∈ a.getLast? → d ∈ b.head? → ¬ Mark.Joined c d

/-- A cut is clean in front of a character that stands behind no other in a mark. -/
theorem cleanCut_cons {d : Char} (h : ∀ c, ¬ Mark.Joined c d) (a b : Text) :
    CleanCut a (d :: b) := by
  intro c e _ he
  obtain rfl : d = e := Option.some.inj he
  exact h c

/-- A cut is clean behind a character that stands in front of no other in a mark. -/
theorem cleanCut_of_getLast? {a : Text} {c : Char} (ha : a.getLast? = some c)
    (h : ∀ d, ¬ Mark.Joined c d) (b : Text) : CleanCut a b := by
  intro e d he _
  obtain rfl : c = e := Option.some.inj (ha.symm.trans he)
  exact h d

/-- A cut stays clean if less is in front of it. -/
theorem CleanCut.of_append {x a b : Text} (h : CleanCut (x ++ a) b) : CleanCut a b := by
  intro c d hc hd
  refine h c d ?_ hd
  rw [Option.mem_def] at hc ⊢
  rw [List.getLast?_append, hc, Option.some_or]

/-- A cut stays clean if more is in front of it. -/
theorem CleanCut.append_left {a b : Text} (h : CleanCut a b) (ha : a ≠ []) (x : Text) :
    CleanCut (x ++ a) b := by
  intro c d hc hd
  refine h c d ?_ hd
  rw [Option.mem_def] at hc ⊢
  rwa [List.getLast?_append_of_ne_nil x ha] at hc

/-- A mark does not reach across a clean cut. -/
theorem CleanCut.literal_prefix_iff {a b : Text} (h : CleanCut a b) (ha : a ≠ []) (mark : Mark) :
    mark.literal <+: a ++ b ↔ mark.literal <+: a := by
  constructor
  · rintro ⟨z, hz⟩
    rcases List.append_eq_append_iff.mp hz with ⟨a', rfl, -⟩ | ⟨l', hl, hb⟩
    · exact List.prefix_append _ _
    · cases l' with
      | nil => exact ⟨[], by simpa using hl⟩
      | cons d l' =>
        obtain ⟨x, c, rfl⟩ := List.eq_nil_or_concat a |>.resolve_left ha
        have hd : d ∈ b.head? := by rw [hb]; rfl
        refine absurd ⟨mark, Mark.mem_longestFirst mark, x, l', ?_⟩ (h c d (by simp) hd)
        rw [hl]
        simp
  · exact List.prefix_append_of_prefix

theorem CleanCut.leading?_append {a b : Text} (h : CleanCut a b) (ha : a ≠ []) :
    Mark.leading? (a ++ b) = Mark.leading? a :=
  Mark.leading?_congr fun mark => h.literal_prefix_iff ha mark

/-- A text is empty, begins with its longest mark, or begins with a character that is passed
over. -/
theorem lexicalInduction {motive : Text → Prop} (nil : motive [])
    (mark : ∀ (m : Mark) (rest : Text), Mark.leading? (m.literal ++ rest) = some m →
      motive rest → motive (m.literal ++ rest))
    (pass : ∀ (c : Char) (rest : Text), Mark.leading? (c :: rest) = none →
      motive rest → motive (c :: rest)) (text : Text) : motive text := by
  induction hn : text.length using Nat.strongRecOn generalizing text with
  | ind n ih =>
    cases text with
    | nil => exact nil
    | cons c rest =>
      -- the length falls at each mark and at each character that is passed over
      cases hm : Mark.leading? (c :: rest) with
      | none => exact pass c rest hm (ih rest.length (by simp [← hn]) rest rfl)
      | some m =>
        obtain ⟨after, ha⟩ := Mark.literal_prefix_of_leading? hm
        rw [← ha] at hm hn ⊢
        refine mark m after hm (ih after.length ?_ after rfl)
        have hpos := List.length_pos_iff.mpr m.literal_ne_nil
        simp only [List.length_append] at hn
        omega

end Text

/-! ## Tokens in order -/

section Tokens

variable {start : Nat} {text : Text}

@[simp] theorem tokensFrom_nil : tokensFrom start [] = [] := rfl

theorem tokensFrom_of_leading? {mark : Mark} {rest : Text}
    (h : Mark.leading? (mark.literal ++ rest) = some mark) :
    tokensFrom start (mark.literal ++ rest) =
      ⟨mark, start⟩ :: tokensFrom (start + mark.byteSize) rest := by
  have hread : ∀ c tail, mark.literal = c :: tail →
      tokensAfter (start + c.utf8Size) (mark.literal.length - 1) (tail ++ rest) =
        tokensFrom (start + mark.byteSize) rest := by
    intro c tail hl
    rw [hl, List.length_cons, Nat.add_sub_cancel, tokensAfter_append, Mark.byteSize, hl,
      Text.byteSize_cons, Nat.add_assoc]
    rfl
  obtain ⟨c, tail, hl⟩ := List.exists_cons_of_ne_nil mark.literal_ne_nil
  rw [← hread c tail hl]
  simp only [hl, List.cons_append] at h ⊢
  simp only [tokensFrom, tokensAfter, h, hl]

theorem tokensFrom_of_leading?_eq_none {c : Char} {rest : Text}
    (h : Mark.leading? (c :: rest) = none) :
    tokensFrom start (c :: rest) = tokensFrom (start + c.utf8Size) rest := by
  simp only [tokensFrom, tokensAfter, h]

/-- Characters that begin no mark are passed over. -/
theorem tokensFrom_append_of_forall_notMem {run : Text} (h : ∀ c ∈ run, c ∉ Mark.initials)
    (rest : Text) : tokensFrom start (run ++ rest) = tokensFrom (start + run.byteSize) rest := by
  induction run generalizing start with
  | nil => rfl
  | cons c run ih =>
    have hc : Mark.leading? (c :: (run ++ rest)) = none :=
      Mark.leading?_cons_eq_none_iff.mpr (h c List.mem_cons_self)
    rw [List.cons_append, tokensFrom_of_leading?_eq_none hc,
      ih (fun d hd => h d (List.mem_cons_of_mem c hd)), Text.byteSize_cons, Nat.add_assoc]

/-- At a clean cut the tokens of two texts are read separately. -/
theorem tokensFrom_append {a b : Text} (h : Text.CleanCut a b) :
    tokensFrom start (a ++ b) = tokensFrom start a ++ tokensFrom (start + a.byteSize) b := by
  induction a using Text.lexicalInduction generalizing start with
  | nil => simp
  | mark m rest hm ih =>
    have hm' := (h.leading?_append (by simp [m.literal_ne_nil])).trans hm
    rw [List.append_assoc] at hm'
    rw [List.append_assoc, tokensFrom_of_leading? hm', tokensFrom_of_leading? hm, ih h.of_append,
      Text.byteSize_append, List.cons_append, ← Nat.add_assoc]
    rfl
  | pass c rest hc ih =>
    have hc' : Mark.leading? (c :: (rest ++ b)) = none :=
      (h.leading?_append (List.cons_ne_nil _ _)).trans hc
    have hr : Text.CleanCut rest b := Text.CleanCut.of_append (x := [c]) h
    rw [List.cons_append, tokensFrom_of_leading?_eq_none hc', tokensFrom_of_leading?_eq_none hc,
      ih hr, Text.byteSize_cons, ← Nat.add_assoc]

/-- Where a token stands in a text: its mark is the longest one at that place, and the tokens
after it are those of the text behind it. -/
theorem exists_eq_append_of_tokensFrom_eq {before after : List Token} {token : Token}
    (h : tokensFrom start text = before ++ token :: after) :
    ∃ a b, text = a ++ token.mark.literal ++ b ∧ token.start = start + a.byteSize ∧
      Mark.leading? (token.mark.literal ++ b) = some token.mark ∧
      after = tokensFrom token.stop b := by
  induction text using Text.lexicalInduction generalizing start before with
  | nil => simp at h
  | mark m rest hm ih =>
    rw [tokensFrom_of_leading? hm] at h
    cases before with
    | nil =>
      obtain ⟨rfl, rfl⟩ := List.cons.inj h
      exact ⟨[], rest, by simp, by simp, hm, rfl⟩
    | cons t before =>
      obtain ⟨a, b, rfl, hs, hl, ha⟩ := ih (List.cons.inj h).2
      refine ⟨m.literal ++ a, b, by simp, ?_, hl, ha⟩
      rw [hs, Text.byteSize_append, ← Nat.add_assoc]
      rfl
  | pass c rest hc ih =>
    rw [tokensFrom_of_leading?_eq_none hc] at h
    obtain ⟨a, b, rfl, hs, hl, ha⟩ := ih h
    refine ⟨c :: a, b, by simp, ?_, hl, ha⟩
    rw [hs, Text.byteSize_cons, ← Nat.add_assoc]

/-- Where a token of a text stands. -/
theorem exists_eq_append_of_mem_tokensFrom {token : Token} (h : token ∈ tokensFrom start text) :
    ∃ a b, text = a ++ token.mark.literal ++ b ∧ token.start = start + a.byteSize := by
  obtain ⟨before, after, hs⟩ := List.append_of_mem h
  obtain ⟨a, b, ht, ha, -⟩ := exists_eq_append_of_tokensFrom_eq hs
  exact ⟨a, b, ht, ha⟩

/-- Where a token of a whole text stands. -/
theorem exists_eq_append_of_mem_tokens {token : Token} (h : token ∈ tokens text) :
    ∃ a b, text = a ++ (token.mark.literal ++ b) ∧ token.start = a.byteSize := by
  obtain ⟨a, b, ht, ha⟩ := exists_eq_append_of_mem_tokensFrom h
  exact ⟨a, b, by rw [ht, List.append_assoc], by rw [ha, Nat.zero_add]⟩

theorem le_start_of_mem_tokensFrom {token : Token} (h : token ∈ tokensFrom start text) :
    start ≤ token.start := by
  obtain ⟨a, b, -, ha⟩ := exists_eq_append_of_mem_tokensFrom h
  omega

theorem stop_le_of_mem_tokensFrom {token : Token} (h : token ∈ tokensFrom start text) :
    token.stop ≤ start + text.byteSize := by
  obtain ⟨a, b, rfl, ha⟩ := exists_eq_append_of_mem_tokensFrom h
  simp only [Token.stop, Mark.byteSize, Text.byteSize_append]
  omega

/-- Tokens follow one another and do not overlap. -/
theorem pairwise_tokensFrom (start : Nat) (text : Text) :
    (tokensFrom start text).Pairwise fun t u => t.stop ≤ u.start := by
  induction text using Text.lexicalInduction generalizing start with
  | nil => exact List.Pairwise.nil
  | mark m rest hm ih =>
    rw [tokensFrom_of_leading? hm]
    refine List.Pairwise.cons ?_ (ih _)
    intro u hu
    exact le_start_of_mem_tokensFrom hu
  | pass c rest hc ih =>
    rw [tokensFrom_of_leading?_eq_none hc]
    exact ih _

theorem start_lt_stop (token : Token) : token.start < token.stop :=
  Nat.lt_add_of_pos_right token.mark.byteSize_pos

/-- Of tokens that follow one another the last one reaches farthest. -/
theorem stop_le_of_pairwise_concat {read : List Token} {last : Token}
    (h : (read ++ [last]).Pairwise fun t u => t.stop ≤ u.start) :
    ∀ t ∈ read ++ [last], t.stop ≤ last.stop := by
  obtain ⟨-, -, hbefore⟩ := List.pairwise_append.mp h
  intro t ht
  rcases List.mem_append.mp ht with ht | ht
  · have hle := hbefore t ht last (List.mem_singleton_self last)
    exact hle.trans (start_lt_stop last).le
  · rw [List.mem_singleton.mp ht]

/-- Reading can be resumed at a clean cut: the tokens that start behind it are those of the text
behind it. -/
theorem filter_tokensFrom_append (start : Nat) {a b : Text} (h : Text.CleanCut a b) :
    (tokensFrom start (a ++ b)).filter (fun t => start + a.byteSize ≤ t.start) =
      tokensFrom (start + a.byteSize) b := by
  rw [tokensFrom_append h, List.filter_append]
  have ha : (tokensFrom start a).filter (fun t => start + a.byteSize ≤ t.start) = [] := by
    refine List.filter_eq_nil_iff.mpr fun t ht => ?_
    have hstop := stop_le_of_mem_tokensFrom ht
    have hlt := start_lt_stop t
    simp only [decide_eq_true_eq]
    omega
  have hb : (tokensFrom (start + a.byteSize) b).filter (fun t => start + a.byteSize ≤ t.start) =
      tokensFrom (start + a.byteSize) b := by
    refine List.filter_eq_self.mpr fun t ht => ?_
    simpa using le_start_of_mem_tokensFrom ht
  rw [ha, hb, List.nil_append]

end Tokens

end CssOutline
