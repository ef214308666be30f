import CssOutline.ImportStatement
import CssOutline.Proofs.Token.Cut

/-!
# The extent of an import statement

An import statement is a part at the start of a text, thirteen bytes long at least. It ends with
a parenthesis or a semicolon, which stand in no mark, so reading can go on behind it.

## Main results

* `closeFrom?_eq_some_iff`: where the closing parenthesis stands
* `exists_eq_of_importStatement?`: the parts of an import statement
* `cleanCut_of_importStatement?`: no mark reaches out of an import statement
-/

namespace CssOutline

/-- The closing parenthesis is the first one on the line behind the characters to skip. -/
theorem closeFrom?_eq_some_iff {skip i : Nat} {text : Text} :
    closeFrom? skip text = some i ↔ ∃ line after, text = line ++ ')' :: after ∧
      line.length = i ∧ skip ≤ i ∧ '\n' ∉ line ∧ ')' ∉ line.drop skip := by
  induction text generalizing skip i with
  | nil => cases skip <;> simp [closeFrom?]
  | cons c rest ih =>
    cases skip with
    | zero =>
      constructor
      · intro h
        simp only [closeFrom?] at h
        split at h
        · next hc =>
          obtain rfl : 0 = i := by simpa using h
          exact ⟨[], rest, by simp [hc], rfl, le_rfl, by simp, by simp⟩
        · next hc =>
          split at h
          · simp at h
          · next hn =>
            obtain ⟨j, hj, rfl⟩ := Option.map_eq_some_iff.mp h
            obtain ⟨line, after, rfl, hl, -, hb, hp⟩ := ih.mp hj
            refine ⟨c :: line, after, rfl, by simp [hl], Nat.zero_le _, ?_, ?_⟩
            · simpa [hb] using Ne.symm hn
            · simpa using ⟨Ne.symm hc, hp⟩
      · rintro ⟨line, after, ht, rfl, -, hb, hp⟩
        cases line with
        | nil =>
          obtain ⟨rfl, rfl⟩ := List.cons.inj ht
          simp [closeFrom?]
        | cons d line =>
          obtain ⟨rfl, rfl⟩ := List.cons.inj ht
          simp only [List.drop_zero, List.mem_cons, not_or] at hb hp
          have hr : closeFrom? 0 (line ++ ')' :: after) = some line.length :=
            ih.mpr ⟨line, after, rfl, rfl, Nat.zero_le _, hb.2, hp.2⟩
          simp [closeFrom?, Ne.symm hp.1, Ne.symm hb.1, hr]
    | succ skip =>
      constructor
      · intro h
        simp only [closeFrom?] at h
        split at h
        · simp at h
        · next hn =>
          obtain ⟨j, hj, rfl⟩ := Option.map_eq_some_iff.mp h
          obtain ⟨line, after, rfl, hl, hs, hb, hp⟩ := ih.mp hj
          refine ⟨c :: line, after, rfl, by simp [hl], by omega, ?_, by simpa using hp⟩
          simpa [hb] using Ne.symm hn
      · rintro ⟨line, after, ht, rfl, hs, hb, hp⟩
        cases line with
        | nil => simp at hs
        | cons d line =>
          obtain ⟨rfl, rfl⟩ := List.cons.inj ht
          simp only [List.mem_cons, not_or] at hb
          have hr : closeFrom? skip (line ++ ')' :: after) = some line.length :=
            ih.mpr ⟨line, after, rfl, rfl, by simpa using hs, hb.2, by simpa using hp⟩
          simp [closeFrom?, Ne.symm hb.1, hr]

/-- The argument of `url(` holds a character at least. -/
theorem exists_eq_of_argumentClose? {argument : Text} {i : Nat}
    (h : argumentClose? argument = some i) :
    ∃ line after, argument = line ++ ')' :: after ∧ line.length = i ∧ 1 ≤ i ∧ '\n' ∉ line := by
  obtain ⟨skip, hs, hc⟩ : ∃ skip, 1 ≤ skip ∧ closeFrom? skip argument = some i := by
    rw [argumentClose?, Option.orElse_eq_orElse, Option.orElse_eq_or, Option.or_eq_some_iff] at h
    rcases h with hq | ⟨-, hf⟩
    · split at hq
      · exact ⟨2, by omega, hq⟩
      · simp at hq
    · exact ⟨1, le_rfl, hf⟩
  obtain ⟨line, after, ha, hl, hi, hn, -⟩ := closeFrom?_eq_some_iff.mp hc
  exact ⟨line, after, ha, hl, hs.trans hi, hn⟩

/-- The parts of an import statement. -/
theorem exists_eq_of_importStatement? {text statement : Text}
    (h : importStatement? text = some statement) :
    ∃ blanks line semicolon after, text = statement ++ after ∧
      statement = Mark.importKeyword.literal ++ blanks ++ urlOpen ++ line ++ ')' :: semicolon ∧
      line ≠ [] ∧ (semicolon = [] ∨ semicolon = [';']) := by
  simp only [importStatement?, Option.bind_eq_bind, Option.bind_eq_some_iff] at h
  obtain ⟨unread, hu, argument, ha, close, hc, hs⟩ := h
  obtain ⟨line, rest, rfl, hl, hpos, -⟩ := exists_eq_of_argumentClose? hc
  have ht := List.append_eq_of_isPrefixOf?_eq_some hu
  have hd := List.append_eq_of_isPrefixOf?_eq_some ha
  have hw := List.takeWhile_append_dropWhile (p := Text.isWhiteSpace) (l := unread)
  have hsplit : (line ++ ')' :: rest).splitAt (close + 1) = (line ++ [')'], rest) := by
    have hlen : (line ++ [')']).length = close + 1 := by simp [hl]
    rw [List.splitAt_eq, List.append_cons, List.take_left' hlen, List.drop_left' hlen]
  rw [hsplit] at hs
  obtain ⟨semicolon, after, rfl, hsemi, hfilter⟩ : ∃ semicolon after, rest = semicolon ++ after ∧
      (semicolon = [] ∨ semicolon = [';']) ∧ (rest.take 1).filter (· == ';') = semicolon := by
    cases rest with
    | nil => exact ⟨[], [], rfl, Or.inl rfl, rfl⟩
    | cons c rest =>
      by_cases hc : c = ';'
      · exact ⟨[';'], rest, by rw [hc]; rfl, Or.inr rfl, by simp [hc]⟩
      · exact ⟨[], c :: rest, rfl, Or.inl rfl, by simp [hc]⟩
  have hne : line ≠ [] := List.ne_nil_of_length_pos (by omega)
  simp only [hfilter, Option.pure_def, Option.some.injEq] at hs
  refine ⟨unread.takeWhile Text.isWhiteSpace, line, semicolon, after, ?_, ?_, hne, hsemi⟩
  · rw [← ht, ← hw, ← hd, ← hs]
    simp
  · rw [← hs]
    simp

/-- An import statement is the start of its text. -/
theorem exists_append_of_importStatement? {text statement : Text}
    (h : importStatement? text = some statement) : ∃ after, text = statement ++ after := by
  obtain ⟨-, -, -, after, ht, -⟩ := exists_eq_of_importStatement? h
  exact ⟨after, ht⟩

theorem literal_prefix_of_importStatement? {text statement : Text}
    (h : importStatement? text = some statement) : Mark.importKeyword.literal <+: statement := by
  obtain ⟨blanks, line, semicolon, -, -, rfl, -⟩ := exists_eq_of_importStatement? h
  exact ⟨blanks ++ urlOpen ++ line ++ ')' :: semicolon, by simp⟩

/-- An import statement holds its keyword, `url(`, a character and a parenthesis. -/
theorem byteSize_of_importStatement? {text statement : Text}
    (h : importStatement? text = some statement) : 13 ≤ statement.byteSize := by
  obtain ⟨blanks, line, semicolon, -, -, rfl, hl, -⟩ := exists_eq_of_importStatement? h
  obtain ⟨c, line, rfl⟩ := List.exists_cons_of_ne_nil hl
  have hc := c.utf8Size_pos
  have hk : Text.byteSize Mark.importKeyword.literal = 7 := rfl
  have hu : Text.byteSize urlOpen = 4 := rfl
  have hp : (')' : Char).utf8Size = 1 := rfl
  simp only [Text.byteSize_append, Text.byteSize_cons, hk, hu, hp]
  omega

theorem ne_nil_of_importStatement? {text statement : Text}
    (h : importStatement? text = some statement) : statement ≠ [] := by
  rintro rfl
  exact absurd (byteSize_of_importStatement? h) (by simp)

/-- No mark reaches out of an import statement. -/
theorem cleanCut_of_importStatement? {text statement : Text}
    (h : importStatement? text = some statement) (b : Text) : Text.CleanCut statement b := by
  obtain ⟨blanks, line, semicolon, -, -, rfl, -, hs⟩ := exists_eq_of_importStatement? h
  rcases hs with rfl | rfl
  · exact Text.cleanCut_of_getLast? (c := ')') (by simp) (by simp [Mark.joined_iff]) b
  · exact Text.cleanCut_of_getLast? (c := ';') (by simp) (by simp [Mark.joined_iff]) b

end CssOutline
