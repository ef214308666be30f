import CssOutline.Proofs.Outline.Chart

/-!
# Landmarks read in one pass

The landmarks of a text can be read without a list of all tokens. Where an import statement is found
among the marks, reading goes on with the character behind the statement, and its characters are
never looked at as marks. Nothing is lost or gained by that: no mark reaches out of a statement.

## Main definitions

* `landmarksAfter`: the landmarks of a text, read in one pass

## Main results

* `landmarksAfter_eq`: one pass finds the landmarks among the tokens
* `scan_top_eq_landmarksAfter`: the outline of a text is built from one pass
-/

namespace CssOutline

/-- The landmarks of a text that begins at offset `start` and inside `depth` open comments, and of
which the first `skip` characters are read already. -/
def landmarksAfter (start depth : Nat) : (skip : Nat) → Text → List Landmark
  | _, [] => []
  | skip + 1, c :: rest => landmarksAfter (start + c.utf8Size) depth skip rest
  | 0, c :: rest =>
    match Mark.leading? (c :: rest) with
    | some mark =>
      match if depth = 0 then mark.landmark? start (c :: rest) else none with
      | some (landmark, length) =>
        landmark :: landmarksAfter (start + c.utf8Size) 0 (length - 1) rest
      | none =>
        landmarksAfter (start + c.utf8Size) ((Token.mk mark start).depthAfter depth)
          (mark.literal.length - 1) rest
    | none => landmarksAfter (start + c.utf8Size) depth 0 rest

/-! ## One pass -/

section Pass

variable {start depth : Nat} {text pre suf rest body behind : Text} {m : Mark} {l : Landmark}
  {length : Nat}

@[simp] theorem landmarksAfter_nil (skip : Nat) : landmarksAfter start depth skip [] = [] := by
  cases skip <;> rfl

/-- Characters that are read already are passed over. -/
theorem landmarksAfter_append (start depth : Nat) (read text : Text) :
    landmarksAfter start depth read.length (read ++ text) =
      landmarksAfter (start + read.byteSize) depth 0 text := by
  induction read generalizing start with
  | nil => rfl
  | cons c rest ih =>
    rw [List.length_cons, List.cons_append, landmarksAfter, ih, Text.byteSize_cons, Nat.add_assoc]

theorem landmarksAfter_of_leading?_eq_none {c : Char} (h : Mark.leading? (c :: rest) = none) :
    landmarksAfter start depth 0 (c :: rest) =
      landmarksAfter (start + c.utf8Size) depth 0 rest := by
  simp only [landmarksAfter, h]

/-- Behind the characters of a landmark the pass goes on outside of comments. -/
theorem landmarksAfter_of_landmark? (hm : Mark.leading? (body ++ behind) = some m)
    (h : m.landmark? start (body ++ behind) = some (l, body.length)) (hb : body ≠ []) :
    landmarksAfter start 0 0 (body ++ behind) =
      l :: landmarksAfter (start + body.byteSize) 0 0 behind := by
  obtain ⟨c, tail, rfl⟩ := List.exists_cons_of_ne_nil hb
  rw [List.cons_append] at hm h
  rw [List.cons_append]
  simp only [landmarksAfter, hm, h, if_true]
  rw [List.length_cons, Nat.add_sub_cancel, landmarksAfter_append, Text.byteSize_cons,
    Nat.add_assoc]

/-- Behind a mark that begins no landmark the pass goes on with the next character. -/
theorem landmarksAfter_of_none (hm : Mark.leading? (m.literal ++ rest) = some m)
    (h : depth = 0 → m.landmark? start (m.literal ++ rest) = none) :
    landmarksAfter start depth 0 (m.literal ++ rest) =
      landmarksAfter (start + m.byteSize) ((Token.mk m start).depthAfter depth) 0 rest := by
  obtain ⟨c, tail, hl⟩ := List.exists_cons_of_ne_nil m.literal_ne_nil
  have hnone : (if depth = 0 then m.landmark? start (m.literal ++ rest) else none) = none := by
    split
    · next hd => exact h hd
    · rfl
  rw [Mark.byteSize, ← landmarksAfter_append]
  simp only [hl, List.cons_append] at hm hnone ⊢
  simp only [landmarksAfter, hm, hnone, hl, List.length_cons, Nat.add_sub_cancel]

/-- **One pass finds the landmarks among the tokens.** -/
theorem landmarksAfter_eq (ht : text = pre ++ suf) (depth : Nat) :
    landmarksAfter pre.byteSize depth 0 suf =
      landmarksFrom text depth (tokensFrom pre.byteSize suf) := by
  induction hn : suf.length using Nat.strongRecOn generalizing pre suf depth with
  | ind n ih =>
    cases suf with
    | nil => rw [landmarksAfter_nil, tokensFrom_nil, landmarksFrom_nil]
    | cons c rest =>
      cases hm : Mark.leading? (c :: rest) with
      | none =>
        have hsize : pre.byteSize + c.utf8Size = Text.byteSize (pre ++ [c]) := by simp
        rw [landmarksAfter_of_leading?_eq_none hm, tokensFrom_of_leading?_eq_none hm, hsize]
        exact ih rest.length (by simp [← hn]) (by simp [ht]) depth rfl
      | some m =>
        obtain ⟨after, ha⟩ := Mark.literal_prefix_of_leading? hm
        rw [← ha] at ht hm hn ⊢
        have htoken := m.map_fst_landmark? pre (m.literal ++ after)
        rw [← ht] at htoken
        by_cases hl : depth = 0 → m.landmark? pre.byteSize (m.literal ++ after) = none
        · have hnone : depth = 0 → (Token.mk m pre.byteSize).landmark? text = none := by
            intro hd
            rw [← htoken, hl hd, Option.map_none]
          rw [landmarksAfter_of_none hm hl, tokensFrom_of_leading? hm,
            landmarksFrom_cons_of_none _ hnone, Mark.byteSize, ← Text.byteSize_append]
          refine ih after.length ?_ (by rw [ht, List.append_assoc]) _ rfl
          have hpos := List.length_pos_iff.mpr m.literal_ne_nil
          rw [← hn, List.length_append]
          exact Nat.lt_add_of_pos_left hpos
        · obtain ⟨rfl, hsome⟩ := Classical.not_imp.mp hl
          obtain ⟨⟨l, length⟩, hl⟩ := Option.ne_none_iff_exists'.mp hsome
          obtain ⟨body, behind, hb, rfl, hs⟩ := Mark.exists_spans_of_landmark? hl
          rw [hl, Option.map_some] at htoken
          rw [landmarksFrom_of_landmark? hm htoken.symm hb hs]
          rw [hb] at ht hm hn hl ⊢
          rw [landmarksAfter_of_landmark? hm hl hs.body_ne_nil, ← Text.byteSize_append]
          refine congrArg _ (ih behind.length ?_ (by rw [ht, List.append_assoc]) 0 rfl)
          have hpos := List.length_pos_iff.mpr hs.body_ne_nil
          rw [← hn, List.length_append]
          exact Nat.lt_add_of_pos_left hpos

end Pass

theorem landmarksAfter_eq_landmarks (text : Text) : landmarksAfter 0 0 0 text = landmarks text :=
  landmarksAfter_eq (List.nil_append text).symm 0

/-- **The outline of a text is built from one pass.** -/
theorem scan_top_eq_landmarksAfter (text : Text) :
    (scan text).top =
      ((landmarksAfter 0 0 0 text).foldl Builder.read {}).finish text.byteSize := by
  rw [landmarksAfter_eq_landmarks, scan_top_eq]

end CssOutline
