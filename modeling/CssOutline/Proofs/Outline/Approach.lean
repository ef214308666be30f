import CssOutline.Proofs.Outline.Chart
import CssOutline.Proofs.Outline.Reading

/-!
# The scanner in front of a landmark

The scanner reaches the gap in front of a landmark outside of comments and with nothing left to
skip. In the gap it only counts comments, and behind the landmark it is again where it was: outside
of comments, with nothing left to skip.

## Main definitions

* `Scanner.Reaches`: the scanner at a cut of a text
* `Landmark.Reached`: the scanner at the gap in front of a landmark

## Main results

* `Scanner.Reaches.readTokens_gap`: inside a gap the scanner only counts comments
* `Charted.exists_reached`: the scanner reaches the gap in front of every landmark
-/

namespace CssOutline

namespace Scanner

variable {text pre suf gap body rest : Text} {read : List Token} {l : Landmark}

/-! ## Reading several tokens -/

/-- Tokens among which is no landmark change the comment depth at most. -/
theorem foldl_step_of_quiet (s : Scanner) (hquiet : landmarksFrom text s.commentDepth read = [])
    (hr : ∀ t ∈ read, s.resume ≤ t.start) :
    read.foldl (step text) s =
      { s with commentDepth := read.foldl Token.depthAfter s.commentDepth } := by
  induction read generalizing s with
  | nil => rfl
  | cons token read ih =>
    obtain ⟨hnone, hrest⟩ := landmarksFrom_cons_eq_nil_iff.mp hquiet
    rw [List.foldl_cons, step_of_none (hr token List.mem_cons_self) hnone]
    exact ih { s with commentDepth := token.depthAfter s.commentDepth } hrest
      fun t ht => hr t (List.mem_cons_of_mem token ht)

/-- Tokens inside an import statement that has been read are passed over. -/
theorem foldl_step_of_lt_resume (s : Scanner) (h : ∀ t ∈ read, t.start < s.resume) :
    read.foldl (step text) s = s := by
  induction read with
  | nil => rfl
  | cons token read ih =>
    rw [List.foldl_cons, step_of_lt_resume (h token List.mem_cons_self)]
    exact ih fun t ht => h t (List.mem_cons_of_mem token ht)

/-- The first token of a landmark begins it. -/
theorem exists_tokens_of_spans (hs : l.Spans pre.byteSize body rest)
    (ht : text = pre ++ (body ++ rest)) :
    ∃ (token : Token) (inside : List Token),
      tokensFrom pre.byteSize body = token :: inside ∧ token.start = pre.byteSize ∧
        token.landmark? text = some l ∧ (inside = [] ∨ token.stop < l.stop) := by
  cases hs with
  | opening => exact ⟨⟨.blockOpen, _⟩, [], rfl, rfl, rfl, Or.inl rfl⟩
  | closing => exact ⟨⟨.blockClose, _⟩, [], rfl, rfl, rfl, Or.inl rfl⟩
  | statement found =>
    obtain ⟨tail, rfl⟩ := literal_prefix_of_importStatement? found
    have hlead : Mark.leading? (Mark.importKeyword.literal ++ tail) = some .importKeyword := rfl
    refine ⟨⟨.importKeyword, pre.byteSize⟩, _, tokensFrom_of_leading? hlead, rfl, ?_, Or.inr ?_⟩
    · rw [Token.landmark?, ht]
      simp only [Text.dropBytes?_append, Option.bind_some, importLength?, found, Option.map_some]
    · have hsize := byteSize_of_importStatement? found
      have hkeyword : Mark.importKeyword.byteSize = 7 := rfl
      simp only [Token.stop, Landmark.stop, hkeyword]
      omega

/-- Behind a landmark the scanner is outside of comments, with nothing left to skip. -/
theorem foldl_step_of_spans (hs : l.Spans pre.byteSize body rest)
    (ht : text = pre ++ (body ++ rest)) {s : Scanner} (hd : s.commentDepth = 0)
    (hr : s.resume ≤ pre.byteSize) :
    ((tokensFrom pre.byteSize body).foldl (step text) s).commentDepth = 0 ∧
      ((tokensFrom pre.byteSize body).foldl (step text) s).resume ≤ (pre ++ body).byteSize := by
  obtain ⟨token, inside, htokens, hstart, hl, hinside⟩ := exists_tokens_of_spans hs ht
  obtain ⟨resume, hstep, hresume⟩ := step_of_landmark? (hstart ▸ hr) hd hl
  have hstop : l.stop = (pre ++ body).byteSize := by rw [hs.stop_eq, Text.byteSize_append]
  have hbehind : resume ≤ (pre ++ body).byteSize := by
    rcases hresume with rfl | ⟨rfl, -⟩
    · exact hstop.le
    · rw [Text.byteSize_append]
      exact hr.trans (Nat.le_add_right _ _)
  rw [htokens, List.foldl_cons, hstep, foldl_step_of_lt_resume]
  · exact ⟨rfl, hbehind⟩
  · intro t htin
    rcases hinside with rfl | hlt
    · cases htin
    · have hresumed : resume = l.stop := by
        rcases hresume with h | ⟨-, h⟩
        · exact h
        · exact absurd h hlt.ne'
      show t.start < resume
      have hle := stop_le_of_mem_tokensFrom (htokens ▸ List.mem_cons_of_mem token htin)
      rw [← Text.byteSize_append, ← hstop, ← hresumed] at hle
      exact (start_lt_stop t).trans_le hle

/-! ## From landmark to landmark -/

/-- The scanner at a cut of a text: it has read the tokens in front of it, is outside of comments
and has nothing left to skip. -/
structure Reaches (text pre suf : Text) (read : List Token) : Prop where
  text_eq : text = pre ++ suf
  tokens_eq : tokens text = read ++ tokensFrom pre.byteSize suf
  start_lt : ∀ t ∈ read, t.start < pre.byteSize
  depth_eq : (readTokens text read).commentDepth = 0
  resume_le : (readTokens text read).resume ≤ pre.byteSize

theorem reaches_nil (text : Text) : Reaches text [] text [] :=
  ⟨rfl, rfl, by simp, rfl, le_rfl⟩

theorem readTokens_append (text : Text) (read more : List Token) :
    readTokens text (read ++ more) = more.foldl (step text) (readTokens text read) :=
  List.foldl_append

namespace Reaches

/-- **Inside a gap the scanner only counts comments.** -/
theorem readTokens_gap (h : Reaches text pre suf read) {more : List Token}
    (hquiet : landmarksFrom text 0 (tokensFrom pre.byteSize gap) = [])
    (hmore : more <+: tokensFrom pre.byteSize gap) :
    readTokens text (read ++ more) =
      { readTokens text read with commentDepth := more.foldl Token.depthAfter 0 } := by
  have hnone := landmarksFrom_eq_nil_of_prefix hmore hquiet
  rw [← h.depth_eq] at hnone
  rw [readTokens_append, foldl_step_of_quiet _ hnone, h.depth_eq]
  exact fun t ht => h.resume_le.trans (le_start_of_mem_tokensFrom (hmore.subset ht))

/-- The scanner goes on behind the next landmark. -/
theorem exists_next (h : Reaches text pre (gap ++ (body ++ rest)) read)
    (hquiet : landmarksFrom text 0 (tokensFrom pre.byteSize gap) = [])
    (hclosed : (tokensFrom pre.byteSize gap).foldl Token.depthAfter 0 = 0)
    (hs : l.Spans (pre ++ gap).byteSize body rest) :
    ∃ read, Reaches text (pre ++ gap ++ body) rest read := by
  have htext : text = pre ++ gap ++ (body ++ rest) := by rw [h.text_eq, List.append_assoc]
  have hgap := h.readTokens_gap hquiet (List.prefix_refl _)
  have hdepth : (readTokens text (read ++ tokensFrom pre.byteSize gap)).commentDepth = 0 := by
    rw [hgap, hclosed]
  have hresume : (readTokens text (read ++ tokensFrom pre.byteSize gap)).resume ≤
      (pre ++ gap).byteSize := by
    rw [hgap, Text.byteSize_append]
    exact h.resume_le.trans (Nat.le_add_right _ _)
  obtain ⟨hdepth', hresume'⟩ := foldl_step_of_spans hs htext hdepth hresume
  rw [← readTokens_append] at hdepth' hresume'
  refine ⟨_, by rw [htext, List.append_assoc (pre ++ gap)], ?_, ?_, hdepth', hresume'⟩
  · rw [h.tokens_eq, tokensFrom_append (hs.cleanCut_left gap),
      tokensFrom_append (hs.cleanCut_right rest)]
    simp [Nat.add_assoc]
  · intro t ht
    have hpre := Text.byteSize_append pre gap
    have hbody := Text.byteSize_append (pre ++ gap) body
    have hlt := start_lt_stop t
    rcases List.mem_append.mp ht with ht | ht
    · rcases List.mem_append.mp ht with ht | ht
      · have hread := h.start_lt t ht
        omega
      · have hle := stop_le_of_mem_tokensFrom ht
        omega
    · have hle := stop_le_of_mem_tokensFrom ht
      omega

end Reaches

end Scanner

/-- The scanner at the gap in front of a landmark. -/
structure Landmark.Reached (text : Text) (l : Landmark) (pre gap body rest : Text)
    (read : List Token) : Prop where
  reaches : Scanner.Reaches text pre (gap ++ (body ++ rest)) read
  quiet : landmarksFrom text 0 (tokensFrom pre.byteSize gap) = []
  closed : (tokensFrom pre.byteSize gap).foldl Token.depthAfter 0 = 0
  spans : l.Spans (pre ++ gap).byteSize body rest

/-- **The scanner reaches the gap in front of every landmark.** The gap begins where the landmark
before it ends. -/
theorem Charted.exists_reached {text pre suf : Text} {ls : List Landmark}
    (h : Charted text pre suf ls) {read : List Token} (hr : Scanner.Reaches text pre suf read)
    {before after : List Landmark} {l : Landmark} (hls : ls = before ++ l :: after) :
    ∃ pre' gap body rest read', l.Reached text pre' gap body rest read' ∧
      pre'.byteSize = (before.getLast?.map Landmark.stop).getD pre.byteSize := by
  induction h generalizing before read with
  | last => simp at hls
  -- induction on the chart; the scanner goes on from landmark to landmark
  | @next pre gap body rest m ls quiet closed spans later ih =>
    cases before with
    | nil =>
      obtain ⟨rfl, rfl⟩ := List.cons.inj hls
      exact ⟨pre, gap, body, rest, read, ⟨hr, quiet, closed, spans⟩, rfl⟩
    | cons x before =>
      obtain ⟨rfl, hrest⟩ := List.cons.inj hls
      obtain ⟨read, hnext⟩ := hr.exists_next quiet closed spans
      obtain ⟨pre', gap', body', rest', read', hreached, hsize⟩ := ih hnext hrest
      refine ⟨pre', gap', body', rest', read', hreached, hsize.trans ?_⟩
      have hstop := spans.stop_eq
      rw [← Text.byteSize_append] at hstop
      rw [List.getLast?_cons, Option.map_some, Option.getD_some, ← hstop]
      cases before.getLast? <;> rfl

end CssOutline
