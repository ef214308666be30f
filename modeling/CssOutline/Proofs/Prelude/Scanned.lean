import CssOutline.Proofs.Outline.Landmark
import CssOutline.Proofs.Prelude.Strip

/-!
# Comments as they are stripped and as they are scanned

Stripping ends a comment at the first `*/` behind its beginning. The scanner reads one mark after
the other and counts the comments that are open, so a `/*/` inside a comment is a second beginning
for it and an end for stripping. The two agree on where comments end as long as the scanner sees
no comment inside another. Even where they differ, stripping never stops in front of a comment
that the scanner sees closed.

## Main definitions

* `Prelude.Scanned`: blanks and comments, with the tokens that the scanner reads in them

## Main results

* `Prelude.not_prefix_strip`: what is left of a prelude does not begin with a comment
* `Prelude.exists_scanned`: the scanner reads what is stripped as blanks and whole comments
-/

namespace CssOutline

/-! ## Counting open comments -/

namespace Token

/-- Without ends of comments the number of open comments does not fall. -/
theorem le_foldl_depthAfter {read : List Token} (h : ∀ t ∈ read, t.mark ≠ .commentClose)
    (depth : Nat) : depth ≤ read.foldl depthAfter depth := by
  induction read generalizing depth with
  | nil => exact le_rfl
  | cons t read ih =>
    have ht : depth ≤ t.depthAfter depth := by
      have hclose := h t List.mem_cons_self
      unfold depthAfter
      split
      · exact Nat.le_succ depth
      · next hmark => exact absurd hmark hclose
      · exact le_rfl
    exact ht.trans (ih (fun u hu => h u (List.mem_cons_of_mem t hu)) _)

/-- Without comment marks the number of open comments stays the same. -/
theorem foldl_depthAfter_of_plain {read : List Token}
    (h : ∀ t ∈ read, t.mark ≠ .commentOpen ∧ t.mark ≠ .commentClose) (depth : Nat) :
    read.foldl depthAfter depth = depth := by
  induction read generalizing depth with
  | nil => rfl
  | cons t read ih =>
    obtain ⟨hopen, hclose⟩ := h t List.mem_cons_self
    have ht : t.depthAfter depth = depth := by
      unfold depthAfter
      split
      · next hmark => exact absurd hmark hopen
      · next hmark => exact absurd hmark hclose
      · rfl
    rw [List.foldl_cons, ht]
    exact ih (fun u hu => h u (List.mem_cons_of_mem t hu)) depth

/-- Behind a comment with no comment marks inside the tokens are counted as from the start. -/
theorem foldl_depthAfter_comment {first last : Token} {inner : List Token}
    (opens : first.mark = .commentOpen)
    (plain : ∀ t ∈ inner, t.mark ≠ .commentOpen ∧ t.mark ≠ .commentClose)
    (closes : last.mark = .commentClose) (read : List Token) :
    (first :: (inner ++ last :: read)).foldl depthAfter 0 = read.foldl depthAfter 0 := by
  have hfirst : first.depthAfter 0 = 1 := by rw [depthAfter, opens]
  have hlast : last.depthAfter 1 = 0 := by rw [depthAfter, closes]
  rw [List.foldl_cons, List.foldl_append, hfirst, foldl_depthAfter_of_plain plain, List.foldl_cons,
    hlast]

end Token

/-! ## Marks next to blanks and comments -/

section Marks

variable {start : Nat} {rest : Text}

theorem Mark.leading?_commentOpen (rest : Text) :
    leading? (commentOpen.literal ++ rest) = some commentOpen := rfl

theorem Mark.leading?_commentClose (rest : Text) :
    leading? (commentClose.literal ++ rest) = some commentClose := rfl

/-- A blank begins no mark. -/
theorem Mark.notMem_initials_of_isBlank {c : Char} (hc : Text.isBlank c) : c ∉ initials := by
  have hall : initials.all fun d => !Text.isBlank d := rfl
  intro h
  have hblank := List.all_eq_true.mp hall c h
  rw [hc] at hblank
  cases hblank

theorem Mark.leading?_cons_of_isBlank {c : Char} (hc : Text.isBlank c) :
    leading? (c :: rest) = none :=
  leading?_cons_eq_none_iff.mpr (notMem_initials_of_isBlank hc)

end Marks

namespace Prelude

/-! ## What is left of a prelude -/

theorem IsComment.getLast? {comment : Text} (h : IsComment comment) :
    comment.getLast? = some '/' := by
  obtain ⟨inside, rfl, -⟩ := h
  rw [← List.cons_append, ← List.cons_append, List.getLast?_append]
  rfl

/-- Blanks and comments do not end with a star, so no mark joins them to a slash behind them. -/
theorem IsFront.cleanCut {front : Text} (h : IsFront front) (rest : Text) :
    Text.CleanCut front ('/' :: rest) := by
  intro c d hc hd
  obtain rfl : '/' = d := by simpa using hd
  have hstar : c ≠ '*' := by
    induction h with
    | nil => simp at hc
    | @blank b front hb _ ih =>
      rw [← List.singleton_append, Option.mem_def, List.getLast?_append] at hc
      cases hl : front.getLast? with
      | none =>
        rintro rfl
        rw [hl, Option.none_or, List.getLast?_singleton, Option.some.injEq] at hc
        rw [hc] at hb
        exact absurd hb (by decide)
      | some e =>
        rw [hl, Option.some_or] at hc
        exact ih (hl.trans hc)
    | @comment comment front hcomment _ ih =>
      rw [Option.mem_def, List.getLast?_append, hcomment.getLast?] at hc
      cases hl : front.getLast? with
      | none =>
        rw [hl, Option.none_or, Option.some.injEq] at hc
        rw [← hc]
        decide
      | some e =>
        rw [hl, Option.some_or] at hc
        exact ih (hl.trans hc)
  simpa [Mark.joined_iff] using hstar

/-- **What is left of a prelude does not begin with a comment** if all comments that the scanner
opens in it are closed. -/
theorem not_prefix_strip {start : Nat} {text : Text}
    (h : (tokensFrom start text).foldl Token.depthAfter 0 = 0) :
    ¬ Mark.commentOpen.literal <+: strip text := by
  rintro ⟨tail, ht⟩
  obtain ⟨front, htext, hfront⟩ := exists_front text
  -- the comment that is left has no end, so the scanner does not close it either
  have hclose : ¬ closeLiteral <:+: tail := (stops_strip text).unclosed tail ht
  rw [← ht] at htext
  have hopen : ∀ i, ∀ t ∈ tokensFrom i tail, t.mark ≠ .commentClose := by
    intro i t hm hmark
    obtain ⟨a, b, hab, -⟩ := exists_eq_append_of_mem_tokensFrom hm
    rw [hmark] at hab
    exact hclose ⟨a, b, hab.symm⟩
  have hcut : Text.CleanCut front (Mark.commentOpen.literal ++ tail) :=
    hfront.cleanCut ('*' :: tail)
  rw [htext, tokensFrom_append hcut, tokensFrom_of_leading? (Mark.leading?_commentOpen tail),
    List.foldl_append, List.foldl_cons] at h
  have hdepth := Token.le_foldl_depthAfter (hopen (start + front.byteSize + 2))
    ((tokensFrom start front).foldl Token.depthAfter 0 + 1)
  exact absurd (hdepth.trans_eq h) (Nat.not_succ_le_zero _)

/-! ## What is stripped -/

/-- Blanks and whole comments from an offset on, with the tokens that are read in them: the first
token of a comment opens it, the last one closes it where the comment ends, and no comment mark is
read between them. -/
inductive Scanned : (start : Nat) → Text → List Token → Prop
  | nil (start : Nat) : Scanned start [] []
  | blank {start : Nat} {c : Char} {rest : Text} {read : List Token} (hc : Text.isBlank c)
      (later : Scanned (start + c.utf8Size) rest read) : Scanned start (c :: rest) read
  | comment {start : Nat} {comment rest : Text} {first last : Token} {inner read : List Token}
      (hc : IsComment comment) (opens : first = ⟨.commentOpen, start⟩)
      (plain : ∀ t ∈ inner, t.mark ≠ .commentOpen ∧ t.mark ≠ .commentClose)
      (closes : last.mark = .commentClose) (ends : last.stop = start + comment.byteSize)
      (later : Scanned (start + comment.byteSize) rest read) :
      Scanned start (comment ++ rest) (first :: (inner ++ last :: read))

/-- All comments are closed again. -/
theorem Scanned.foldl_depthAfter {start : Nat} {front : Text} {read : List Token}
    (h : Scanned start front read) : read.foldl Token.depthAfter 0 = 0 := by
  induction h with
  | nil => rfl
  | blank _ _ ih => exact ih
  | comment _ opens plain closes _ _ ih =>
    rw [Token.foldl_depthAfter_comment (by rw [opens]) plain closes]
    exact ih

/-- The tokens start in the text that they are read in. -/
theorem Scanned.start_lt {start : Nat} {front : Text} {read : List Token}
    (h : Scanned start front read) (hp : read.Pairwise fun t u => t.stop ≤ u.start) :
    ∀ t ∈ read, t.start < start + front.byteSize := by
  induction h with
  | nil => simp
  | blank _ _ ih =>
    rw [Text.byteSize_cons, ← Nat.add_assoc]
    exact ih hp
  | @comment start comment rest first last inner read _ opens _ _ ends _ ih =>
    rw [← List.cons_append] at hp ⊢
    obtain ⟨-, hlater, hbefore⟩ := List.pairwise_append.mp hp
    rw [Text.byteSize_append, ← Nat.add_assoc, ← ends]
    intro t ht
    have hlast := start_lt_stop last
    rcases List.mem_append.mp ht with ht | ht
    · have hle := hbefore t ht last List.mem_cons_self
      have hlt := start_lt_stop t
      omega
    · rcases List.mem_cons.mp ht with rfl | ht
      · omega
      · rw [ends]
        exact ih (List.pairwise_cons.mp hlater).2 t ht

/-- A mark that reaches past the end of the inside of a comment opens a comment. -/
theorem exists_eq_append_of_prefix {m : Mark} {inside rest : Text} (hne : inside ≠ [])
    (hm : m ≠ .commentOpen) (h : m.literal <+: inside ++ (closeLiteral ++ rest)) :
    ∃ tail, inside = m.literal ++ tail := by
  obtain ⟨behind, hb⟩ := h
  rcases List.append_eq_append_iff.mp hb with ⟨tail, htail, -⟩ | ⟨beyond, hbeyond, hclose⟩
  · exact ⟨tail, htail⟩
  · cases beyond with
    | nil => exact ⟨[], by simpa using hbeyond.symm⟩
    | cons d beyond =>
      obtain ⟨rfl, -⟩ := List.cons.inj hclose
      obtain ⟨c, inside, rfl⟩ := List.exists_cons_of_ne_nil hne
      have hstar : '*' ∈ m.literal.tail := by simp [hbeyond]
      cases m <;> first | exact absurd rfl hm | exact absurd hstar (by decide)

/-- A mark at the front of the inside of a comment, if it opens no comment, is followed by a shorter
inside. -/
theorem exists_tail_of_leading? {m : Mark} {inside rest : Text} (hne : inside ≠ [])
    (h : ¬ closeLiteral <:+: inside ++ ['*'])
    (hm : Mark.leading? (inside ++ (closeLiteral ++ rest)) = some m) (hopen : m ≠ .commentOpen) :
    ∃ tail, inside = m.literal ++ tail ∧ m ≠ .commentClose ∧ ¬ closeLiteral <:+: tail ++ ['*'] := by
  obtain ⟨tail, rfl⟩ :=
    exists_eq_append_of_prefix hne hopen (Mark.literal_prefix_of_leading? hm)
  refine ⟨tail, rfl, ?_, fun hin => ?_⟩
  · rintro rfl
    exact h ⟨[], tail ++ ['*'], by simp [closeLiteral, Mark.literal]⟩
  · rw [List.append_assoc] at h
    exact h (hin.trans (List.suffix_append _ _).isInfix)

/-- Behind the beginning of a comment the scanner reads its end, or else the beginning of a
comment inside it. -/
theorem exists_inner {inside : Text} (h : ¬ closeLiteral <:+: inside ++ ['*']) (start : Nat)
    (rest : Text) :
    ∃ inner, (∀ t ∈ inner, t.mark ≠ .commentOpen ∧ t.mark ≠ .commentClose) ∧
      (tokensFrom start (inside ++ (closeLiteral ++ rest)) =
          inner ++ ⟨.commentClose, start + inside.byteSize⟩ ::
            tokensFrom (start + inside.byteSize + 2) rest ∨
        ∃ place later, tokensFrom start (inside ++ (closeLiteral ++ rest)) =
          inner ++ ⟨.commentOpen, place⟩ :: later) := by
  -- the inside is read mark by mark; what is left of it holds no end of a comment either
  induction hn : inside.length using Nat.strongRecOn generalizing inside start with
  | ind n ih =>
    cases inside with
    | nil =>
      refine ⟨[], by simp, Or.inl ?_⟩
      exact tokensFrom_of_leading? (Mark.leading?_commentClose rest)
    | cons c inside =>
      cases hm : Mark.leading? (c :: inside ++ (closeLiteral ++ rest)) with
      | none =>
        have hinside : ¬ closeLiteral <:+: inside ++ ['*'] :=
          fun hin => h (hin.trans (List.suffix_cons c _).isInfix)
        obtain ⟨inner, hplain, hread⟩ :=
          ih inside.length (by simp [← hn]) hinside (start + c.utf8Size) rfl
        rw [List.cons_append] at hm ⊢
        rw [tokensFrom_of_leading?_eq_none hm, Text.byteSize_cons, ← Nat.add_assoc]
        exact ⟨inner, hplain, hread⟩
      | some m =>
        by_cases hopen : m = .commentOpen
        · subst hopen
          obtain ⟨behind, hb⟩ := Mark.literal_prefix_of_leading? hm
          rw [← hb]
          exact ⟨[], by simp, Or.inr ⟨start, _, tokensFrom_of_leading?
            (Mark.leading?_commentOpen behind)⟩⟩
        · obtain ⟨tail, htail, hclose, hinside⟩ :=
            exists_tail_of_leading? (List.cons_ne_nil c inside) h hm hopen
          rw [htail] at hm hn ⊢
          have hpos := List.length_pos_iff.mpr m.literal_ne_nil
          rw [List.length_append] at hn
          obtain ⟨inner, hplain, hread⟩ :=
            ih tail.length (by omega) hinside (start + m.byteSize) rfl
          rw [List.append_assoc] at hm ⊢
          rw [tokensFrom_of_leading? hm, Text.byteSize_append, ← Nat.add_assoc]
          refine ⟨⟨m, start⟩ :: inner, List.forall_mem_cons.mpr ⟨⟨hopen, hclose⟩, hplain⟩, ?_⟩
          rcases hread with hread | ⟨place, later, hread⟩
          · exact Or.inl (by rw [hread]; rfl)
          · exact Or.inr ⟨place, later, by rw [hread]; rfl⟩

/-- The scanner reads a comment from its first mark to its last one, or sees a comment inside it. -/
theorem exists_tokens_of_isComment {comment : Text} (hc : IsComment comment) (start : Nat)
    (rest : Text) :
    ∃ inner, (∀ t ∈ inner, t.mark ≠ .commentOpen ∧ t.mark ≠ .commentClose) ∧
      ((∃ last : Token, last.mark = .commentClose ∧ last.stop = start + comment.byteSize ∧
          tokensFrom start (comment ++ rest) = ⟨.commentOpen, start⟩ ::
            (inner ++ last :: tokensFrom (start + comment.byteSize) rest)) ∨
        ∃ place later, tokensFrom start (comment ++ rest) =
          ⟨.commentOpen, start⟩ :: (inner ++ ⟨.commentOpen, place⟩ :: later)) := by
  obtain ⟨inside, rfl, hinside⟩ := hc
  have htext : '/' :: '*' :: (inside ++ closeLiteral) ++ rest =
      Mark.commentOpen.literal ++ (inside ++ (closeLiteral ++ rest)) := by simp [Mark.literal]
  have hsize : Text.byteSize ('/' :: '*' :: (inside ++ closeLiteral)) =
      2 + Text.byteSize inside + 2 := by
    have hslash : '/'.utf8Size = 1 := rfl
    have hstar : '*'.utf8Size = 1 := rfl
    simp only [closeLiteral, Text.byteSize_cons, Text.byteSize_append, Text.byteSize_nil, hslash,
      hstar]
    omega
  rw [htext, tokensFrom_of_leading? (Mark.leading?_commentOpen _), hsize, ← Nat.add_assoc,
    ← Nat.add_assoc]
  obtain ⟨inner, hplain, hread⟩ := exists_inner hinside (start + 2) rest
  rcases hread with hread | ⟨place, later, hread⟩
  · exact ⟨inner, hplain, Or.inl ⟨_, rfl, rfl, congrArg _ hread⟩⟩
  · exact ⟨inner, hplain, Or.inr ⟨place, later, congrArg _ hread⟩⟩

/-- The scanner reads a comment from its first mark to its last one, if it sees no comment inside
another, and counts the tokens behind it as from the start. -/
theorem exists_tokens_of_flat {comment : Text} (hc : IsComment comment) {start : Nat} {rest : Text}
    (h : ∀ read, read <+: tokensFrom start (comment ++ rest) →
      read.foldl Token.depthAfter 0 ≤ 1) :
    ∃ (inner : List Token) (last : Token),
      (∀ t ∈ inner, t.mark ≠ .commentOpen ∧ t.mark ≠ .commentClose) ∧
      last.mark = .commentClose ∧ last.stop = start + comment.byteSize ∧
      tokensFrom start (comment ++ rest) = ⟨.commentOpen, start⟩ ::
        (inner ++ last :: tokensFrom (start + comment.byteSize) rest) ∧
      ∀ read, read <+: tokensFrom (start + comment.byteSize) rest →
        read.foldl Token.depthAfter 0 ≤ 1 := by
  obtain ⟨inner, hplain, hread⟩ := exists_tokens_of_isComment hc start rest
  rcases hread with ⟨last, hmark, hstop, htokens⟩ | ⟨place, later, htokens⟩
  · refine ⟨inner, last, hplain, hmark, hstop, htokens, ?_⟩
    rintro read ⟨behind, hb⟩
    have hle := h (⟨.commentOpen, start⟩ :: (inner ++ last :: read))
      ⟨behind, by rw [htokens, ← hb]; simp⟩
    rwa [Token.foldl_depthAfter_comment rfl hplain hmark] at hle
  · have hle := h (⟨.commentOpen, start⟩ :: (inner ++ [⟨.commentOpen, place⟩]))
      ⟨later, by rw [htokens]; simp⟩
    rw [List.foldl_cons, List.foldl_append, Token.foldl_depthAfter_of_plain hplain] at hle
    simp [Token.depthAfter] at hle

/-- **The scanner reads what is stripped as blanks and whole comments** if it sees no comment
inside another. -/
theorem exists_scanned {start : Nat} {text : Text}
    (h : ∀ read, read <+: tokensFrom start text → read.foldl Token.depthAfter 0 ≤ 1) :
    ∃ front read, text = front ++ strip text ∧ Scanned start front read ∧
      tokensFrom start text = read ++ tokensFrom (start + front.byteSize) (strip text) := by
  induction text using strip_induction generalizing start with
  | blank c rest hc hs ih =>
    rw [tokensFrom_of_leading?_eq_none (Mark.leading?_cons_of_isBlank hc)] at h ⊢
    obtain ⟨front, read, hf, hscan, hread⟩ := ih h
    refine ⟨c :: front, read, ?_, .blank hc hscan, ?_⟩
    · rw [hs, List.cons_append, ← hf]
    · rw [hs, Text.byteSize_cons, ← Nat.add_assoc]
      exact hread
  | comment comment rest hc hs ih =>
    obtain ⟨inner, last, hplain, hmark, hstop, htokens, hrest⟩ := exists_tokens_of_flat hc h
    obtain ⟨front, read, hf, hscan, hread⟩ := ih hrest
    refine ⟨comment ++ front, ⟨.commentOpen, start⟩ :: (inner ++ last :: read), ?_,
      .comment hc rfl hplain hmark hstop hscan, ?_⟩
    · rw [hs, List.append_assoc, ← hf]
    · rw [hs, htokens, hread, Text.byteSize_append, ← Nat.add_assoc]
      simp
  | stop text hs _ _ =>
    refine ⟨[], [], by rw [hs, List.nil_append], .nil start, ?_⟩
    rw [hs]
    rfl

end Prelude

end CssOutline
