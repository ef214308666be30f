import CssOutline.Proofs.Token.Commented

/-!
# Stripping a prelude with its comments covered

Stripping takes away the blanks and comments at the front of a prelude. If the comments are covered
by spaces, it takes away the same bytes, as long as the scanner sees no comment inside another: it
stops in front of the same character, which stands in no comment.

## Main results

* `Prelude.strip_blankFrom`: what is left of a prelude with its comments covered
-/

namespace CssOutline.Prelude

variable {hidden : Nat → Prop} {start : Nat}

/-- From the mark that opens it through the one that closes it, all bytes of a comment are hidden,
and behind it no comment is open. -/
theorem hidden_of_comment {comment rest : Text} {inner : List Token} {last : Token}
    (h : HidesComments hidden 0 start (comment ++ rest))
    (hplain : ∀ t ∈ inner, t.mark ≠ .commentOpen ∧ t.mark ≠ .commentClose)
    (hmark : last.mark = .commentClose) (hstop : last.stop = start + comment.byteSize)
    (hread : tokensFrom start (comment ++ rest) = ⟨.commentOpen, start⟩ ::
      (inner ++ last :: tokensFrom (start + comment.byteSize) rest)) :
    (∀ o, start ≤ o → o < start + comment.byteSize → hidden o) ∧
      HidesComments hidden 0 (start + comment.byteSize) rest := by
  have hsplit : tokensFrom start (comment ++ rest) =
      (⟨.commentOpen, start⟩ :: (inner ++ [last])) ++
        tokensFrom (start + comment.byteSize) rest := by
    rw [hread, List.cons_append, List.append_assoc, List.singleton_append]
  have hpairwise := pairwise_tokensFrom start (comment ++ rest)
  rw [hsplit] at hpairwise
  have hcomment := (List.pairwise_append.mp hpairwise).1
  rw [← List.cons_append] at hcomment
  have hstops := stop_le_of_pairwise_concat hcomment
  rw [hstop] at hstops
  obtain ⟨hinside, hrest⟩ := h.split hsplit hstops
  rw [Token.foldl_depthAfter_comment rfl hplain hmark] at hrest
  refine ⟨fun o hle hlt => ?_, hrest⟩
  rw [hinside o hle hlt, openAt_comment hplain hmark hle (hstop ▸ hlt)]
  exact Nat.one_pos

variable [DecidablePred hidden]

/-- What neither begins with a blank nor with a comment stays as it is with its comments covered. -/
theorem strip_blankFrom_of_head {text : Text} (h : HidesComments hidden 0 start text)
    (hblank : ∀ c ∈ text.head?, Text.isBlank c = false)
    (hcomment : ¬ Mark.commentOpen.literal <+: text) :
    strip (Text.blankFrom hidden start text) = Text.blankFrom hidden start text := by
  cases text with
  | nil => rfl
  | cons c rest =>
    have hshown : ¬ hidden start := by
      have hpos := c.utf8Size_pos
      cases hlead : Mark.leading? (c :: rest) with
      | none =>
        rw [(h.pass hlead).1 start le_rfl (Nat.lt_add_of_pos_right hpos)]
        exact not_not.mpr rfl
      | some m =>
        obtain ⟨after, hafter⟩ := Mark.literal_prefix_of_leading? hlead
        rw [← hafter] at h hlead hcomment
        have hopen : m ≠ .commentOpen := by
          rintro rfl
          exact hcomment (List.prefix_append _ _)
        rw [(h.mark hlead).1 start le_rfl (Nat.lt_add_of_pos_right m.byteSize_pos)]
        exact not_not.mpr ⟨rfl, hopen⟩
    have hnone : leadingComment? (Text.blankFrom hidden start (c :: rest)) = none := by
      apply leadingComment?_eq_none_iff.mpr
      intro body hbody
      have hprefix : Mark.commentOpen.literal <+: Text.blankFrom hidden start (c :: rest) :=
        ⟨body, hbody⟩
      exact absurd (Text.prefix_of_prefix_blankFrom Mark.commentOpen.isBlank_of_mem_literal hprefix)
        hcomment
    rw [Text.blankFrom_cons, if_neg hshown, List.singleton_append] at hnone ⊢
    exact strip_of_leadingComment?_eq_none (hblank c rfl) hnone

/-- **What is left of a prelude with its comments covered** is what is left of the prelude, with the
comments in it covered, if the scanner closes all comments of the prelude and sees none inside
another. -/
theorem strip_blankFrom {gap : Text} (h : HidesComments hidden 0 start gap)
    (hflat : ∀ read, read <+: tokensFrom start gap → read.foldl Token.depthAfter 0 ≤ 1)
    (hclosed : (tokensFrom start gap).foldl Token.depthAfter 0 = 0) :
    ∃ front, gap = front ++ strip gap ∧ strip (Text.blankFrom hidden start gap) =
      Text.blankFrom hidden (start + front.byteSize) (strip gap) := by
  induction gap using strip_induction generalizing start with
  | blank c rest hc hs ih =>
    have hlead : Mark.leading? (c :: rest) = none := Mark.leading?_cons_of_isBlank hc
    rw [tokensFrom_of_leading?_eq_none hlead] at hflat hclosed
    obtain ⟨front, hfront, hstrip⟩ := ih (h.pass hlead).2 hflat hclosed
    have hcover : ∀ d ∈ (if hidden start then Text.cover c else [c]), Text.isBlank d := by
      intro d hd
      split at hd
      · exact Text.isBlank_of_mem_cover c hd
      · obtain rfl := List.mem_singleton.mp hd
        exact hc
    refine ⟨c :: front, ?_, ?_⟩
    · rw [hs, List.cons_append, ← hfront]
    · rw [Text.blankFrom_cons, strip_append_of_isBlank hcover, hs, hstrip, Text.byteSize_cons,
        Nat.add_assoc]
  | comment comment rest hc hs ih =>
    obtain ⟨inner, last, hplain, hmark, hstop, htokens, hrest⟩ := exists_tokens_of_flat hc hflat
    obtain ⟨hhidden, hlater⟩ := hidden_of_comment h hplain hmark hstop htokens
    rw [htokens, Token.foldl_depthAfter_comment rfl hplain hmark] at hclosed
    obtain ⟨front, hfront, hstrip⟩ := ih hlater hrest hclosed
    refine ⟨comment ++ front, ?_, ?_⟩
    · rw [hs, List.append_assoc, ← hfront]
    · rw [Text.blankFrom_append, strip_append_of_isBlank (Text.isBlank_of_mem_blankFrom hhidden),
        hs, hstrip, Text.byteSize_append, Nat.add_assoc]
  | stop text hs hblank _ =>
    have hcomment := not_prefix_strip hclosed
    rw [hs] at hcomment
    refine ⟨[], ?_, ?_⟩
    · rw [hs]
      rfl
    · rw [hs]
      exact strip_blankFrom_of_head h hblank hcomment

end CssOutline.Prelude
