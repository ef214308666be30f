import CssOutline.Proofs.Outline.Landmark
import CssOutline.Proofs.Text.Slice

/-!
# Where landmarks stand

A text falls into its landmarks and the gaps in front of them. In a gap every comment that is
opened is closed again, and no mark reaches across the border of a gap or of a landmark.

## Main definitions

* `Landmark.Spans`: the characters of a landmark
* `Mark.landmark?`: the landmark that a mark begins, and the number of its characters
* `Charted`: a text taken apart at its landmarks

## Main results

* `charted_landmarks`: every text is taken apart at its landmarks
* `Charted.pairwise`: landmarks follow one another and do not overlap
-/

namespace CssOutline

/-- A landmark that starts at an offset, with its characters and the text behind it. -/
inductive Landmark.Spans (start : Nat) : Landmark → Text → Text → Prop
  | opening (rest : Text) : Spans start (.opening start) ['{'] rest
  | closing (rest : Text) : Spans start (.closing start) ['}'] rest
  | statement {body rest : Text} (found : importStatement? (body ++ rest) = some body) :
      Spans start (.statement start (start + body.byteSize)) body rest

namespace Landmark.Spans

variable {start : Nat} {l : Landmark} {body rest : Text}

theorem start_eq (h : l.Spans start body rest) : l.start = start := by
  cases h <;> rfl

theorem stop_eq (h : l.Spans start body rest) : l.stop = start + body.byteSize := by
  cases h <;> rfl

theorem body_ne_nil (h : l.Spans start body rest) : body ≠ [] := by
  cases h with
  | opening | closing => simp
  | statement found => exact ne_nil_of_importStatement? found

theorem start_lt_stop (h : l.Spans start body rest) : l.start < l.stop := by
  rw [h.start_eq, h.stop_eq]
  have hpos : 0 < body.byteSize := by
    obtain ⟨c, body, rfl⟩ := List.exists_cons_of_ne_nil h.body_ne_nil
    rw [Text.byteSize_cons]
    exact Nat.add_pos_left c.utf8Size_pos _
  omega

/-- No mark reaches into a landmark. -/
theorem cleanCut_left (h : l.Spans start body rest) (a : Text) :
    Text.CleanCut a (body ++ rest) := by
  cases h with
  | opening | closing => exact Text.cleanCut_cons (by simp [Mark.joined_iff]) a rest
  | statement found =>
    obtain ⟨tail, rfl⟩ := literal_prefix_of_importStatement? found
    exact Text.cleanCut_cons (by simp [Mark.joined_iff]) a _

/-- No mark reaches out of a landmark. -/
theorem cleanCut_right (h : l.Spans start body rest) (b : Text) : Text.CleanCut body b := by
  cases h with
  | opening | closing => exact Text.cleanCut_of_getLast? rfl (by simp [Mark.joined_iff]) b
  | statement found => exact cleanCut_of_importStatement? found b

end Landmark.Spans

/-! ## The first landmark -/

/-- The landmark that a mark begins at an offset, and the number of its characters; `unread` is the
text from there on. -/
def Mark.landmark? (start : Nat) (unread : Text) : Mark → Option (Landmark × Nat)
  | importKeyword => (importStatement? unread).map fun statement =>
      (.statement start (start + statement.byteSize), statement.length)
  | blockOpen => some (.opening start, 1)
  | blockClose => some (.closing start, 1)
  | _ => none

/-- A token begins the landmark that its mark begins. -/
theorem Mark.map_fst_landmark? (pre unread : Text) (m : Mark) :
    (m.landmark? pre.byteSize unread).map (·.1) =
      (Token.mk m pre.byteSize).landmark? (pre ++ unread) := by
  cases m with
  | importKeyword =>
    simp only [landmark?, Token.landmark?, Text.dropBytes?_append, Option.bind_some,
      importLength?, Option.map_map]
    rfl
  | commentOpen | commentClose | blockOpen | blockClose | slash | star | atSign => rfl

/-- The number of characters is that of the characters of the landmark. -/
theorem Mark.exists_spans_of_landmark? {start length : Nat} {rest : Text} {m : Mark} {l : Landmark}
    (h : m.landmark? start (m.literal ++ rest) = some (l, length)) :
    ∃ body behind, m.literal ++ rest = body ++ behind ∧ length = body.length ∧
      l.Spans start body behind := by
  cases m with
  | importKeyword =>
    obtain ⟨body, hb, heq⟩ := Option.map_eq_some_iff.mp h
    obtain ⟨rfl, rfl⟩ := Prod.mk.inj heq
    obtain ⟨behind, ht⟩ := exists_append_of_importStatement? hb
    refine ⟨body, behind, ht, rfl, .statement ?_⟩
    rw [← ht]
    exact hb
  | blockOpen =>
    obtain ⟨rfl, rfl⟩ := Prod.mk.inj (Option.some.inj h)
    exact ⟨['{'], rest, rfl, rfl, .opening rest⟩
  | blockClose =>
    obtain ⟨rfl, rfl⟩ := Prod.mk.inj (Option.some.inj h)
    exact ⟨['}'], rest, rfl, rfl, .closing rest⟩
  | commentOpen | commentClose | slash | star | atSign => cases h

/-- A token that begins a landmark stands at the front of its characters. -/
theorem exists_spans_of_landmark? {pre rest : Text} {m : Mark} {l : Landmark}
    (h : (Token.mk m pre.byteSize).landmark? (pre ++ (m.literal ++ rest)) = some l) :
    ∃ body behind, m.literal ++ rest = body ++ behind ∧ l.Spans pre.byteSize body behind := by
  rw [← Mark.map_fst_landmark?] at h
  obtain ⟨⟨l', length⟩, hl, rfl⟩ := Option.map_eq_some_iff.mp h
  obtain ⟨body, behind, hb, -, hs⟩ := Mark.exists_spans_of_landmark? hl
  exact ⟨body, behind, hb, hs⟩

/-- Where a landmark begins, the reading goes on behind it: its tokens are passed over. -/
theorem landmarksFrom_of_landmark? {text pre rest body behind : Text} {m : Mark} {l : Landmark}
    (hm : Mark.leading? (m.literal ++ rest) = some m)
    (h : (Token.mk m pre.byteSize).landmark? text = some l)
    (hb : m.literal ++ rest = body ++ behind) (hs : l.Spans pre.byteSize body behind) :
    landmarksFrom text 0 (tokensFrom pre.byteSize (m.literal ++ rest)) =
      l :: landmarksFrom text 0 (tokensFrom (pre ++ body).byteSize behind) := by
  have hresume := filter_tokensFrom_append pre.byteSize (hs.cleanCut_right behind)
  have hself : ¬ pre.byteSize + body.byteSize ≤ pre.byteSize := by
    have hlt := hs.start_lt_stop
    rw [hs.start_eq, hs.stop_eq] at hlt
    exact Nat.not_le.mpr hlt
  rw [← hb, tokensFrom_of_leading? hm, List.filter_cons_of_neg (by simpa using hself)] at hresume
  rw [tokensFrom_of_leading? hm, landmarksFrom_cons_of_landmark? _ h, hs.stop_eq, hresume,
    Text.byteSize_append]

/-- In front of the first landmark of a text is a gap in which all comments are closed again;
behind it the reading goes on outside of comments. -/
theorem exists_gap_of_landmarksFrom {text pre suf : Text} {depth : Nat} {l : Landmark}
    {ls : List Landmark} (ht : text = pre ++ suf)
    (h : landmarksFrom text depth (tokensFrom pre.byteSize suf) = l :: ls) :
    ∃ gap body rest, suf = gap ++ (body ++ rest) ∧
      landmarksFrom text depth (tokensFrom pre.byteSize gap) = [] ∧
      (tokensFrom pre.byteSize gap).foldl Token.depthAfter depth = 0 ∧
      l.Spans (pre ++ gap).byteSize body rest ∧
      ls = landmarksFrom text 0 (tokensFrom (pre ++ gap ++ body).byteSize rest) := by
  -- the reading is followed mark by mark up to the first landmark
  induction suf using Text.lexicalInduction generalizing pre depth with
  | nil => simp at h
  | mark m rest hm ih =>
    rw [tokensFrom_of_leading? hm] at h
    by_cases hl : depth = 0 → (Token.mk m pre.byteSize).landmark? text = none
    · rw [landmarksFrom_cons_of_none _ hl, Mark.byteSize, ← Text.byteSize_append] at h
      obtain ⟨gap, body, behind, rfl, hq, hd, hs, hls⟩ := ih (by simp [ht]) h
      have hm' : Mark.leading? (m.literal ++ gap) = some m := by
        rw [← hm, ← List.append_assoc, (hs.cleanCut_left _).leading?_append]
        simp [m.literal_ne_nil]
      refine ⟨m.literal ++ gap, body, behind, by simp, ?_, ?_, by simpa using hs,
        by simpa using hls⟩
      · rw [tokensFrom_of_leading? hm', landmarksFrom_cons_of_none _ hl, Mark.byteSize,
          ← Text.byteSize_append]
        exact hq
      · rw [tokensFrom_of_leading? hm', Mark.byteSize, ← Text.byteSize_append]
        exact hd
    · obtain ⟨rfl, hsome⟩ := Classical.not_imp.mp hl
      obtain ⟨l', hl'⟩ := Option.ne_none_iff_exists'.mp hsome
      rw [ht] at hl'
      obtain ⟨body, behind, hb, hs⟩ := exists_spans_of_landmark? hl'
      rw [← tokensFrom_of_leading? hm, landmarksFrom_of_landmark? hm (ht ▸ hl') hb hs] at h
      obtain ⟨rfl, rfl⟩ := List.cons.inj h
      exact ⟨[], body, behind, hb, landmarksFrom_nil, rfl, by simpa using hs, by simp⟩
  | pass c rest hc ih =>
    rw [tokensFrom_of_leading?_eq_none hc] at h
    have hsize : pre.byteSize + c.utf8Size = Text.byteSize (pre ++ [c]) := by simp
    rw [hsize] at h
    obtain ⟨gap, body, behind, rfl, hq, hd, hs, hls⟩ := ih (by simp [ht]) h
    have hc' : Mark.leading? (c :: gap) = none := by
      rw [← hc, ← List.cons_append, (hs.cleanCut_left _).leading?_append]
      simp
    refine ⟨c :: gap, body, behind, by simp, ?_, ?_, by simpa using hs, by simpa using hls⟩
    · rw [tokensFrom_of_leading?_eq_none hc', hsize]
      exact hq
    · rw [tokensFrom_of_leading?_eq_none hc', hsize]
      exact hd

/-! ## All landmarks -/

/-- The text behind `pre`, taken apart at its landmarks: each has a gap in front of it that holds
no landmark and leaves no comment open. -/
inductive Charted (text : Text) : (pre suf : Text) → List Landmark → Prop
  | last {pre suf : Text} (quiet : landmarksFrom text 0 (tokensFrom pre.byteSize suf) = []) :
      Charted text pre suf []
  | next {pre gap body rest : Text} {l : Landmark} {ls : List Landmark}
      (quiet : landmarksFrom text 0 (tokensFrom pre.byteSize gap) = [])
      (closed : (tokensFrom pre.byteSize gap).foldl Token.depthAfter 0 = 0)
      (spans : l.Spans (pre ++ gap).byteSize body rest)
      (later : Charted text (pre ++ gap ++ body) rest ls) :
      Charted text pre (gap ++ (body ++ rest)) (l :: ls)

theorem charted_landmarksFrom {text pre suf : Text} (ht : text = pre ++ suf) :
    Charted text pre suf (landmarksFrom text 0 (tokensFrom pre.byteSize suf)) := by
  induction hn : suf.length using Nat.strongRecOn generalizing pre suf with
  | ind n ih =>
    cases hl : landmarksFrom text 0 (tokensFrom pre.byteSize suf) with
    | nil => exact .last hl
    | cons l ls =>
      obtain ⟨gap, body, rest, rfl, hq, hd, hs, rfl⟩ := exists_gap_of_landmarksFrom ht hl
      refine .next hq hd hs (ih rest.length ?_ (by simp [ht]) rfl)
      have hpos := List.length_pos_iff.mpr hs.body_ne_nil
      simp only [List.length_append] at hn
      omega

/-- **Every text is taken apart at its landmarks.** -/
theorem charted_landmarks (text : Text) : Charted text [] text (landmarks text) :=
  charted_landmarksFrom rfl

namespace Charted

variable {text pre suf : Text} {ls : List Landmark}

/-- Where a landmark stands. -/
theorem exists_spans (h : Charted text pre suf ls) {l : Landmark} (hl : l ∈ ls) :
    ∃ gap body rest, suf = gap ++ (body ++ rest) ∧ l.Spans (pre ++ gap).byteSize body rest := by
  induction h with
  | last => cases hl
  | @next pre gap body rest l' ls _ _ spans later ih =>
    rcases List.mem_cons.mp hl with rfl | hl
    · exact ⟨gap, body, rest, rfl, spans⟩
    · obtain ⟨gap', body', rest', rfl, hs⟩ := ih hl
      exact ⟨gap ++ (body ++ gap'), body', rest', by simp, by simpa using hs⟩

theorem le_start (h : Charted text pre suf ls) {l : Landmark} (hl : l ∈ ls) :
    pre.byteSize ≤ l.start := by
  obtain ⟨gap, body, rest, -, hs⟩ := h.exists_spans hl
  rw [hs.start_eq, Text.byteSize_append]
  exact Nat.le_add_right _ _

/-- Landmarks follow one another and do not overlap. -/
theorem pairwise (h : Charted text pre suf ls) : ls.Pairwise fun l m => l.stop ≤ m.start := by
  induction h with
  | last => exact List.Pairwise.nil
  | next _ _ spans later ih =>
    refine List.Pairwise.cons (fun m hm => ?_) ih
    have hle := later.le_start hm
    rw [spans.stop_eq]
    simpa [Nat.add_assoc] using hle

end Charted

end CssOutline
