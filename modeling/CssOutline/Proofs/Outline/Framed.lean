import CssOutline.Proofs.Outline.Resumed

/-!
# Scanning inside a block

A text that closes no block but its own, and all of its own, is scanned inside a block as it is
scanned alone. The blocks around it are a frame that no step looks at: what the scanner does above
the frame is what it does without it, and what it does further down in a longer text mirrors what it
does in the text itself.

## Main definitions

* `Builder.above`, `Scanner.above`: an outline and a scanner with more blocks around them
* `Scanner.Mirrors`: scanners that are as far in two texts
* `Scanner.SelfContained`: texts that close their own blocks, comments included, and no others

## Main results

* `Scanner.foldl_step_above`: tokens are read above a frame as without it
* `Scanner.Mirrors.foldl_step`: tokens further down are read as in the text itself
-/

namespace CssOutline

/-! ## More blocks around -/

/-- An outline under construction with more blocks around it. -/
def Builder.above (outer : List OpenBlock) (b : Builder) : Builder :=
  { b with opened := b.opened ++ outer }

/-- A closing brace that closes a block of an outline closes it with more blocks around. -/
theorem Builder.closeBlock_above {b : Builder} (h : b.opened ≠ []) (outer : List OpenBlock)
    (brace : Nat) : (b.above outer).closeBlock brace = (b.closeBlock brace).above outer := by
  obtain ⟨pending, opened, finished⟩ := b
  cases opened with
  | nil => exact absurd rfl h
  | cons block opened => rfl

/-- The number of open blocks behind a closing brace. -/
theorem Builder.length_opened_closeBlock (b : Builder) (brace : Nat) :
    (b.closeBlock brace).opened.length = b.opened.length - 1 := by
  obtain ⟨pending, opened, finished⟩ := b
  cases opened <;> rfl

namespace Scanner

/-- A scanner with more blocks around what it has read. -/
def above (outer : List OpenBlock) (s : Scanner) : Scanner :=
  { s with outline := s.outline.above outer }

/-- A token that closes one of the blocks that are open, if it closes any. -/
def ClosesOwn (s : Scanner) (token : Token) : Prop :=
  token.mark = .blockClose → s.resume ≤ token.start → s.commentDepth = 0 → s.outline.opened ≠ []

section Above

variable {text : Text} {outer : List OpenBlock} {s : Scanner} {token : Token}

theorem readImport_above (outer : List OpenBlock) (s : Scanner) (start : Nat) :
    (s.above outer).readImport text start = (s.readImport text start).above outer := by
  unfold readImport
  split <;> rfl

/-- A token is read above a frame as without it. -/
theorem step_above (h : s.ClosesOwn token) :
    (s.above outer).step text token = (s.step text token).above outer := by
  by_cases hskip : token.start < s.resume
  · rw [step_of_lt_resume hskip]
    exact step_of_lt_resume hskip
  · obtain ⟨mark, start⟩ := token
    replace hskip : ¬ start < s.resume := hskip
    unfold step
    show (if start < s.resume then _ else _) = above outer (if start < s.resume then _ else _)
    rw [if_neg hskip, if_neg hskip]
    cases mark with
    | importKeyword =>
      show (if s.commentDepth = 0 then _ else _) = above outer (if s.commentDepth = 0 then _ else _)
      split
      · exact readImport_above outer s start
      · rfl
    | blockOpen =>
      show (if s.commentDepth = 0 then _ else _) = above outer (if s.commentDepth = 0 then _ else _)
      split <;> rfl
    | blockClose =>
      show (if s.commentDepth = 0 then _ else _) = above outer (if s.commentDepth = 0 then _ else _)
      split
      · next hd =>
        have hopened := h rfl (Nat.not_lt.mp hskip) hd
        show { s with outline := (s.outline.above outer).closeBlock start } = _
        rw [Builder.closeBlock_above hopened]
        rfl
      · rfl
    | commentOpen | commentClose | slash | star | atSign => rfl

/-- **Tokens are read above a frame as without it** if no brace among them closes a block of the
frame. -/
theorem foldl_step_above {read : List Token}
    (h : ∀ before token after, read = before ++ token :: after →
      (before.foldl (step text) s).ClosesOwn token) :
    read.foldl (step text) (s.above outer) = (read.foldl (step text) s).above outer := by
  induction read generalizing s with
  | nil => rfl
  | cons token read ih =>
    have hstep : (s.above outer).step text token = (s.step text token).above outer :=
      step_above (h [] token read rfl)
    rw [List.foldl_cons, List.foldl_cons, hstep]
    apply ih
    intro before later after hread
    exact h (token :: before) later after (by rw [hread, List.cons_append])

end Above

/-! ## Further down in a longer text -/

/-- A scanner of a text, and one that is as far many bytes further down. -/
structure Mirrors (bytes : Nat) (s s' : Scanner) : Prop where
  commentDepth_eq : s'.commentDepth = s.commentDepth
  lt_resume_iff : ∀ start, start + bytes < s'.resume ↔ start < s.resume
  length_opened_eq : s'.outline.opened.length = s.outline.opened.length

namespace Mirrors

variable {text text' : Text} {bytes : Nat} {s s' : Scanner} {token : Token}

theorem readImport (h : Mirrors bytes s s')
    (himport : (text'.dropBytes? (token.start + bytes)).bind importLength? =
      (text.dropBytes? token.start).bind importLength?) :
    Mirrors bytes (s.readImport text token.start)
      (s'.readImport text' (token.start + bytes)) := by
  unfold Scanner.readImport
  rw [himport]
  split
  · next length _ =>
    refine ⟨h.commentDepth_eq, fun start => ?_, h.length_opened_eq⟩
    show start + bytes < token.start + bytes + length ↔ start < token.start + length
    omega
  · exact h

/-- A token is read further down as in the text itself. -/
theorem step (h : Mirrors bytes s s')
    (himport : token.mark = .importKeyword →
      (text'.dropBytes? (token.start + bytes)).bind importLength? =
        (text.dropBytes? token.start).bind importLength?) :
    Mirrors bytes (s.step text token) (s'.step text' (token.move (· + bytes))) := by
  obtain ⟨mark, start⟩ := token
  by_cases hskip : start < s.resume
  · have hskip' : start + bytes < s'.resume := (h.lt_resume_iff start).mpr hskip
    rw [step_of_lt_resume hskip, step_of_lt_resume hskip']
    exact h
  · have hskip' : ¬ start + bytes < s'.resume := fun hlt => hskip ((h.lt_resume_iff start).mp hlt)
    unfold Scanner.step
    show Mirrors bytes (if start < s.resume then _ else _)
      (if start + bytes < s'.resume then _ else _)
    rw [if_neg hskip, if_neg hskip']
    cases mark with
    | commentOpen =>
      exact ⟨congrArg (· + 1) h.commentDepth_eq, h.lt_resume_iff, h.length_opened_eq⟩
    | commentClose =>
      exact ⟨congrArg (· - 1) h.commentDepth_eq, h.lt_resume_iff, h.length_opened_eq⟩
    | importKeyword =>
      show Mirrors bytes (if _ then _ else _) (if _ then _ else _)
      rw [h.commentDepth_eq]
      split
      · exact h.readImport (himport rfl)
      · exact h
    | blockOpen =>
      show Mirrors bytes (if _ then _ else _) (if _ then _ else _)
      rw [h.commentDepth_eq]
      split
      · exact ⟨rfl, h.lt_resume_iff, congrArg (· + 1) h.length_opened_eq⟩
      · exact h
    | blockClose =>
      show Mirrors bytes (if _ then _ else _) (if _ then _ else _)
      rw [h.commentDepth_eq]
      split
      · refine ⟨rfl, h.lt_resume_iff, ?_⟩
        rw [Builder.length_opened_closeBlock, Builder.length_opened_closeBlock, h.length_opened_eq]
      · exact h
    | slash | star | atSign => exact h

/-- **Tokens are read further down as in the text itself.** -/
theorem foldl_step (h : Mirrors bytes s s') {read : List Token}
    (himport : ∀ t ∈ read, t.mark = .importKeyword →
      (text'.dropBytes? (t.start + bytes)).bind importLength? =
        (text.dropBytes? t.start).bind importLength?) :
    Mirrors bytes (read.foldl (Scanner.step text) s)
      ((read.map (Token.move (· + bytes))).foldl (Scanner.step text') s') := by
  induction read generalizing s s' with
  | nil => exact h
  | cons token read ih =>
    rw [List.foldl_cons, List.map_cons, List.foldl_cons]
    apply ih (h.step (himport token List.mem_cons_self))
    exact fun t ht => himport t (List.mem_cons_of_mem token ht)

/-- What closes a block in the text itself does so further down. -/
theorem closesOwn (h : Mirrors bytes s s') (hown : s.ClosesOwn token) :
    s'.ClosesOwn (token.move (· + bytes)) := by
  intro hmark hresume hdepth
  have hlive : s.resume ≤ token.start := by
    by_contra! hskip
    exact absurd ((h.lt_resume_iff token.start).mpr hskip) (Nat.not_lt.mpr hresume)
  have hopened := hown hmark hlive (h.commentDepth_eq.symm.trans hdepth)
  rw [← List.length_pos_iff] at hopened ⊢
  rw [h.length_opened_eq]
  exact hopened

end Mirrors

/-! ## Texts that close their own blocks -/

/-- A text whose closing braces outside of comments close blocks of the text, and at whose end no
block and no comment is open. -/
structure SelfContained (text : Text) : Prop where
  closesOwn : ∀ read token rest, tokens text = read ++ token :: rest →
    (readTokens text read).ClosesOwn token
  opened_eq : (run text).outline.opened = []
  commentDepth_eq : (run text).commentDepth = 0

end Scanner

end CssOutline
