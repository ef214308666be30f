import CssOutline.Outline.Scanner
import CssOutline.Proofs.ImportStatement

/-!
# The landmarks of a stylesheet

The outline of a text depends on its landmarks alone: its import statements and the braces
outside of comments and import statements. They are read off the tokens with nothing but the
number of open comments in hand, and the scanner builds the outline from them one by one.

## Main definitions

* `Landmark`: a brace or an import statement that counts for the outline
* `landmarksFrom`, `landmarks`: the landmarks among the tokens of a text
* `Builder.read`: what a landmark does to an outline

## Main results

* `scan_top_eq`: the scanner's outline is built from the landmarks of the text
-/

namespace CssOutline

/-- A brace or an import statement that counts for the outline of a stylesheet. -/
inductive Landmark
  | opening (brace : Nat)
  | closing (brace : Nat)
  | statement (start stop : Nat)
  deriving DecidableEq, Repr

namespace Landmark

/-- The offset of the first byte of a landmark. -/
def start : Landmark → Nat
  | opening brace => brace
  | closing brace => brace
  | statement start _ => start

/-- The offset just past a landmark. -/
def stop : Landmark → Nat
  | opening brace => brace + 1
  | closing brace => brace + 1
  | statement _ stop => stop

end Landmark

/-- The landmark that a token begins outside of comments. -/
def Token.landmark? (text : Text) (token : Token) : Option Landmark :=
  match token.mark with
  | .importKeyword => ((text.dropBytes? token.start).bind importLength?).map fun length =>
      .statement token.start (token.start + length)
  | .blockOpen => some (.opening token.start)
  | .blockClose => some (.closing token.start)
  | _ => none

/-- The number of open comments behind a token. A stray end of a comment closes nothing. -/
def Token.depthAfter (depth : Nat) (token : Token) : Nat :=
  match token.mark with
  | .commentOpen => depth + 1
  | .commentClose => depth - 1
  | _ => depth

/-- The landmarks among the given tokens of a text, which are read from left to right inside
`depth` open comments. Tokens inside a landmark are a part of it and count for nothing. -/
def landmarksFrom (text : Text) : (depth : Nat) → List Token → List Landmark
  | _, [] => []
  | depth, token :: rest =>
    match if depth = 0 then token.landmark? text else none with
    | some landmark =>
      landmark :: landmarksFrom text 0 (rest.filter fun later => landmark.stop ≤ later.start)
    | none => landmarksFrom text (token.depthAfter depth) rest
termination_by _ tokens => tokens.length
decreasing_by
  · rw [List.length_unattach, List.length_cons, ← List.length_attach (l := rest)]
    exact Nat.lt_succ_of_le (List.length_filter_le _ _)
  · exact Nat.lt_succ_self _

/-- The landmarks of a text. -/
def landmarks (text : Text) : List Landmark := landmarksFrom text 0 (tokens text)

/-- Reads a landmark of a text into an outline. -/
def Builder.read (b : Builder) : Landmark → Builder
  | .opening brace => b.openBlock brace
  | .closing brace => b.closeBlock brace
  | .statement start stop => b.addStatement start (start + Mark.importKeyword.byteSize) stop

/-- The next prelude begins where a landmark ends. -/
theorem Builder.pending_read (b : Builder) (l : Landmark) : (b.read l).pending = l.stop := by
  obtain ⟨pending, opened, finished⟩ := b
  cases l with
  | opening brace => rfl
  | closing brace => cases opened <;> rfl
  | statement start stop => rfl

/-- The next prelude begins where the last of some landmarks ends. -/
theorem Builder.pending_foldl_read (b : Builder) (before : List Landmark) :
    (before.foldl Builder.read b).pending =
      (before.getLast?.map Landmark.stop).getD b.pending := by
  induction before generalizing b with
  | nil => rfl
  | cons l before ih =>
    rw [List.foldl_cons, ih, pending_read, List.getLast?_cons]
    cases before.getLast? <;> rfl

/-! ## Landmarks token by token -/

section Equations

variable {text : Text} {depth : Nat} {token : Token} {landmark : Landmark}

@[simp] theorem landmarksFrom_nil : landmarksFrom text depth [] = [] := by
  rw [landmarksFrom]

theorem landmarksFrom_cons_of_landmark? (rest : List Token)
    (h : token.landmark? text = some landmark) :
    landmarksFrom text 0 (token :: rest) =
      landmark :: landmarksFrom text 0
        (rest.filter fun later => landmark.stop ≤ later.start) := by
  rw [landmarksFrom, if_pos rfl, h]

theorem landmarksFrom_cons_of_none (rest : List Token)
    (h : depth = 0 → token.landmark? text = none) :
    landmarksFrom text depth (token :: rest) =
      landmarksFrom text (token.depthAfter depth) rest := by
  have hn : (if depth = 0 then token.landmark? text else none) = none := by
    split
    · next hd => exact h hd
    · rfl
  rw [landmarksFrom, hn]

theorem landmarksFrom_cons_eq_nil_iff {rest : List Token} :
    landmarksFrom text depth (token :: rest) = [] ↔
      (depth = 0 → token.landmark? text = none) ∧
        landmarksFrom text (token.depthAfter depth) rest = [] := by
  by_cases hl : depth = 0 → token.landmark? text = none
  · rw [landmarksFrom_cons_of_none rest hl]
    exact ⟨fun h => ⟨hl, h⟩, fun h => h.2⟩
  · refine ⟨fun h => ?_, fun h => absurd h.1 hl⟩
    obtain ⟨rfl, hsome⟩ := Classical.not_imp.mp hl
    obtain ⟨landmark, hl⟩ := Option.ne_none_iff_exists'.mp hsome
    rw [landmarksFrom_cons_of_landmark? rest hl] at h
    cases h

/-- Where there is no landmark, there is none among the first tokens. -/
theorem landmarksFrom_eq_nil_of_prefix {read all : List Token} (h : read <+: all)
    (hall : landmarksFrom text depth all = []) : landmarksFrom text depth read = [] := by
  obtain ⟨behind, rfl⟩ := h
  induction read generalizing depth with
  | nil => exact landmarksFrom_nil
  | cons token read ih =>
    rw [List.cons_append, landmarksFrom_cons_eq_nil_iff] at hall
    exact landmarksFrom_cons_eq_nil_iff.mpr ⟨hall.1, ih hall.2⟩

end Equations

/-! ## What the scanner makes of them -/

namespace Scanner

variable {text : Text} {s : Scanner} {token : Token} {landmark : Landmark}

theorem step_of_lt_resume (h : token.start < s.resume) : s.step text token = s := by
  rw [step, if_pos h]

/-- A token outside of comments that begins a landmark. -/
theorem step_of_landmark? (hr : s.resume ≤ token.start) (hd : s.commentDepth = 0)
    (h : token.landmark? text = some landmark) :
    ∃ resume, s.step text token =
        { commentDepth := 0, resume, outline := s.outline.read landmark } ∧
      (resume = landmark.stop ∨ resume = s.resume ∧ landmark.stop = token.stop) := by
  obtain ⟨mark, start⟩ := token
  obtain ⟨depth, resume, outline⟩ := s
  obtain rfl : depth = 0 := hd
  have hn : ¬ start < resume := Nat.not_lt.mpr hr
  cases mark with
  | importKeyword =>
    obtain ⟨length, hl, rfl⟩ := Option.map_eq_some_iff.mp h
    refine ⟨start + length, ?_, Or.inl rfl⟩
    simp only at hl
    simp [step, hn, readImport, hl, Builder.read]
  | blockOpen =>
    obtain rfl : .opening start = landmark := Option.some.inj h
    exact ⟨resume, by simp [step, hn, Builder.read], Or.inr ⟨rfl, rfl⟩⟩
  | blockClose =>
    obtain rfl : .closing start = landmark := Option.some.inj h
    exact ⟨resume, by simp [step, hn, Builder.read], Or.inr ⟨rfl, rfl⟩⟩
  | commentOpen | commentClose | slash | star | atSign => cases h

/-- A token that begins no landmark changes the comment depth at most. -/
theorem step_of_none (hr : s.resume ≤ token.start)
    (h : s.commentDepth = 0 → token.landmark? text = none) :
    s.step text token = { s with commentDepth := token.depthAfter s.commentDepth } := by
  obtain ⟨mark, start⟩ := token
  obtain ⟨depth, resume, outline⟩ := s
  have hn : ¬ start < resume := Nat.not_lt.mpr hr
  cases mark with
  | importKeyword =>
    by_cases hd : depth = 0
    · have hl : (text.dropBytes? start).bind importLength? = none := by
        simpa [Token.landmark?] using h hd
      simp [step, hn, hd, readImport, hl, Token.depthAfter]
    · simp [step, hn, hd, Token.depthAfter]
  | blockOpen | blockClose =>
    have hd : depth ≠ 0 := fun hd => by simpa [Token.landmark?] using h hd
    simp [step, hn, hd, Token.depthAfter]
  | commentOpen | commentClose | slash | star | atSign =>
    simp [step, hn, Token.depthAfter]

/-- The scanner builds its outline from the landmarks among the tokens that it does not skip. -/
theorem outline_foldl_step (text : Text) {read : List Token}
    (hp : read.Pairwise fun t u => t.stop ≤ u.start) (s : Scanner) :
    (read.foldl (step text) s).outline =
      (landmarksFrom text s.commentDepth (read.filter fun t => s.resume ≤ t.start)).foldl
        Builder.read s.outline := by
  induction read generalizing s with
  | nil => simp
  | cons token rest ih =>
    -- induction on the tokens; the state is general, for a landmark changes what is skipped
    obtain ⟨hlater, hp⟩ := List.pairwise_cons.mp hp
    rw [List.foldl_cons]
    by_cases hr : s.resume ≤ token.start
    · rw [List.filter_cons_of_pos (by simpa using hr)]
      by_cases hl : s.commentDepth = 0 → token.landmark? text = none
      · rw [step_of_none hr hl, landmarksFrom_cons_of_none _ hl]
        exact ih hp _
      · obtain ⟨hd, hsome⟩ := Classical.not_imp.mp hl
        obtain ⟨landmark, hl⟩ := Option.ne_none_iff_exists'.mp hsome
        obtain ⟨resume, hs, hresume⟩ := step_of_landmark? hr hd hl
        rw [hs, hd, landmarksFrom_cons_of_landmark? _ hl, ih hp, List.foldl_cons,
          List.filter_filter]
        have hfilter : rest.filter (fun t => resume ≤ t.start) = rest.filter fun t =>
            decide (landmark.stop ≤ t.start) && decide (s.resume ≤ t.start) := by
          refine List.filter_congr fun t ht => ?_
          have hstop : token.start ≤ token.stop := Nat.le_add_right _ _
          have hresumed : s.resume ≤ t.start := hr.trans (hstop.trans (hlater t ht))
          rcases hresume with rfl | ⟨rfl, hbrace⟩
          · simp [hresumed]
          · have hpast : landmark.stop ≤ t.start := hbrace ▸ hlater t ht
            simp [hresumed, hpast]
        rw [hfilter]
    · rw [List.filter_cons_of_neg (by simpa using hr), step_of_lt_resume (Nat.not_le.mp hr)]
      exact ih hp s

/-- The outline at the end of a text is built from its landmarks. -/
theorem outline_run_eq (text : Text) :
    (run text).outline = (landmarks text).foldl Builder.read {} := by
  have hrun := outline_foldl_step text (pairwise_tokensFrom 0 text) {}
  have hall : (tokens text).filter (fun t => (0 : Nat) ≤ t.start) = tokens text := by simp
  rw [run, readTokens, tokens, hrun, landmarks, ← tokens, hall]

end Scanner

/-- The scanner's outline is built from the landmarks of the text. -/
theorem scan_top_eq (text : Text) :
    (scan text).top = ((landmarks text).foldl Builder.read {}).finish text.byteSize := by
  rw [scan, Scanner.outline_run_eq]

end CssOutline
