import CssOutline.Proofs.Outline.Resumed

/-!
# Texts joined by a line end

If the scanner rests at the end of a text, another text can be joined to it by a `\n`, and the
outline of the whole is that of the first text followed by that of the second. The rules of the
second text are shifted by what is in front of them, and keep everything else: the prelude of the
first one gains the `\n`, but that is stripped again.

## Main definitions

* `Rule.shift`: a rule further down in a text

## Main results

* `Rule.Stands.append`: a rule of the first text stands in the whole
* `movesRule_between`: the rules of the second text are completed to shifted rules, whatever is
  behind them
* `parse_joined`: the outline of the whole
-/

namespace CssOutline

/-- A rule that many bytes and that many lines further down. -/
def Rule.shift (bytes lines : Nat) (rule : Rule) : Rule :=
  { rule with
    start := rule.start + bytes
    bodyStart := rule.bodyStart + bytes
    stop := rule.stop + bytes
    line := rule.line.map (· + lines) }

section Stands

variable {text a b before raw behind : Text} {rule rule' : Rule}

/-! ## Rules of the first text -/

/-- A rule stands in a text with more behind it. -/
theorem Rule.Stands.append (h : rule.Stands before raw behind) (more : Text) :
    rule.Stands before raw (behind ++ more) := by
  obtain ⟨c, hc, hblank⟩ := h.solid
  refine ⟨h.start_eq, h.bodyStart_eq, c, ?_, hblank⟩
  rw [← List.append_assoc, Option.mem_def, List.head?_append, hc, Option.some_or]

/-- A rule is completed alike in a text with more behind it. -/
theorem Rule.Stands.complete_append (h : rule.Stands before raw behind)
    (ha : a = before ++ (raw ++ behind)) (more : Text) :
    rule.complete (a ++ more) = rule.complete a := by
  obtain ⟨front, hf, -⟩ := Prelude.exists_front raw
  have htext : a ++ more = before ++ (raw ++ (behind ++ more)) := by
    rw [ha, List.append_assoc, List.append_assoc]
  rw [(h.append more).complete_eq htext hf, h.complete_eq ha hf]

/-- The rules of the first text are completed as they were. -/
theorem map_complete_append (a more : Text) :
    (scan a).top.map (Rule.complete (a ++ more)) = (parse a).top := by
  rw [parse_top_eq]
  apply Forest.map_congr
  intro rule hrule
  rw [← Forest.map_snd_entries] at hrule
  obtain ⟨⟨id, rule⟩, hentry, rfl⟩ := List.mem_map.mp hrule
  obtain ⟨before, raw, behind, ha, hstands⟩ := exists_stands_of_mem_scan hentry
  exact hstands.complete_append ha more

/-! ## Rules of the second text -/

/-- A blank in front of its prelude leaves a rule where it stands. -/
theorem Rule.Stands.of_isBlank {c : Char} (hc : Text.isBlank c)
    (h : rule.Stands (before ++ [c]) raw behind) :
    Rule.Stands { rule with start := before.byteSize } before (c :: raw) behind := by
  refine ⟨rfl, ?_, ?_⟩
  · rw [List.append_cons]
    exact h.bodyStart_eq
  · rw [Prelude.strip_cons_of_isBlank hc]
    exact h.solid

/-- A blank in front of its prelude changes nothing about a rule. -/
theorem Rule.Stands.complete_of_isBlank {c : Char} (hc : Text.isBlank c)
    (h : rule.Stands (before ++ [c]) raw behind)
    (ht : text = before ++ [c] ++ (raw ++ behind)) :
    Rule.complete text { rule with start := before.byteSize } = rule.complete text := by
  obtain ⟨front, hf, -⟩ := Prelude.exists_front raw
  have hstrip : Prelude.strip (c :: raw) = Prelude.strip raw := Prelude.strip_cons_of_isBlank hc raw
  have hcons : c :: raw = c :: front ++ Prelude.strip (c :: raw) := by
    rw [hstrip, List.cons_append, ← hf]
  have ht' : text = before ++ (c :: raw ++ behind) := by
    rw [ht, List.append_assoc, List.singleton_append, List.cons_append]
  rw [(h.of_isBlank hc).complete_eq ht' hcons, h.complete_eq ht hf, hstrip, List.append_cons]

/-- A rule of the second text stands further down in the whole. -/
theorem Rule.Stands.shift (h : rule.Stands before raw behind) (a : Text) (lines : Nat) :
    (rule.shift (a.byteSize + 1) lines).Stands (a ++ '\n' :: before) raw behind := by
  have hnewline : '\n'.utf8Size = 1 := rfl
  refine ⟨?_, ?_, h.solid⟩
  · show rule.start + (a.byteSize + 1) = _
    rw [h.start_eq, Text.byteSize_append, Text.byteSize_cons, hnewline]
    omega
  · show rule.bodyStart + (a.byteSize + 1) = _
    rw [h.bodyStart_eq, List.append_assoc, Text.byteSize_append a, List.cons_append,
      Text.byteSize_cons, hnewline]
    omega

/-- **A rule of the second text is completed to the shifted rule.** -/
theorem Rule.Stands.complete_shift (h : rule.Stands before raw behind)
    (hb : b = before ++ (raw ++ behind)) (hcut : ∀ b, ¬ Text.SplitsLineEnd a b) :
    (rule.shift (a.byteSize + 1) (LineIndex.ofText a).size).complete (a ++ '\n' :: b) =
      (rule.complete b).shift (a.byteSize + 1) (LineIndex.ofText a).size := by
  obtain ⟨front, hf, -⟩ := Prelude.exists_front raw
  have htext : a ++ '\n' :: b = a ++ '\n' :: before ++ (raw ++ behind) := by
    rw [hb, List.append_assoc, List.cons_append]
  have hplace : a ++ '\n' :: before ++ front = a ++ '\n' :: (before ++ front) := by
    rw [List.append_assoc, List.cons_append]
  have hsize : Text.byteSize (a ++ '\n' :: (before ++ front)) =
      (before ++ front).byteSize + (a.byteSize + 1) := by
    have hnewline : '\n'.utf8Size = 1 := rfl
    rw [Text.byteSize_append a, Text.byteSize_cons, hnewline]
    omega
  have hlines : Text.lineEnds (a ++ '\n' :: (before ++ front)) + 1 =
      (before ++ front).lineEnds + 1 + (LineIndex.ofText a).size := by
    have hends : Text.EndsLine '\n' (before ++ front) := Or.inl rfl
    rw [Text.lineEnds_append (hcut _), Text.lineEnds, if_pos hends, LineIndex.size_ofText]
    omega
  rw [(h.shift a _).complete_eq htext hf, h.complete_eq hb hf, hplace, hsize, hlines]
  rfl

/-- A rule of the second text is completed to the shifted rule with more behind it. -/
theorem Rule.Stands.complete_shift_append (h : rule.Stands before raw behind)
    (hb : b = before ++ (raw ++ behind)) (hcut : ∀ b, ¬ Text.SplitsLineEnd a b) (more : Text) :
    (rule.shift (a.byteSize + 1) (LineIndex.ofText a).size).complete (a ++ '\n' :: (b ++ more)) =
      (rule.complete b).shift (a.byteSize + 1) (LineIndex.ofText a).size := by
  have htext : a ++ '\n' :: b = a ++ '\n' :: before ++ (raw ++ behind) := by
    rw [hb, List.append_assoc, List.cons_append]
  have hmore := (h.shift a (LineIndex.ofText a).size).complete_append htext more
  rw [List.append_assoc, List.cons_append] at hmore
  rw [hmore, h.complete_shift hb hcut]

end Stands

/-! ## The outline of the whole -/

section Joined

variable {a : Text}

/-- A landmark of the second text begins a rule of the whole that is completed to a shifted
rule, whatever else is behind. -/
theorem movesRule_between (hcut : ∀ b, ¬ Text.SplitsLineEnd a b) {b : Text} (more : Text)
    {before after : List Landmark} {l : Landmark} (hls : landmarks b = before ++ l :: after) :
    l.MovesRule (fun rule rule' => rule'.complete (a ++ '\n' :: (b ++ more)) =
        (rule.complete b).shift (a.byteSize + 1) (LineIndex.ofText a).size)
      (· + (a.byteSize + 1)) (before.foldl Builder.read {}).pending
      ((before.map (Landmark.move (· + (a.byteSize + 1)))).foldl Builder.read
        { pending := a.byteSize }).pending := by
  rw [pending_foldl_read, Builder.pending_foldl_read, List.getLast?_map]
  cases l with
  | opening brace =>
    intro stop
    obtain ⟨pre, raw, behind, hb, hstands⟩ := exists_stands_of_opening hls stop
    rw [← hstands.complete_shift_append hb hcut more]
    cases hlast : before.getLast? with
    | none =>
      have hstart := hstands.start_eq
      rw [lastStop, hlast] at hstart
      obtain rfl : pre = [] := Text.byteSize_eq_zero_iff.mp hstart.symm
      have hblank : Text.isBlank '\n' := by decide
      have htext : a ++ '\n' :: (b ++ more) = a ++ ['\n'] ++ (raw ++ (behind ++ more)) := by
        rw [hb, List.nil_append, List.append_assoc, List.append_assoc, List.singleton_append]
      have hshift := (hstands.shift a (LineIndex.ofText a).size).append more
      have hmoved := hshift.complete_of_isBlank hblank htext
      exact hmoved
    | some m =>
      have hstart : lastStop before + (a.byteSize + 1) =
          (m.move (· + (a.byteSize + 1))).stop := by
        rw [lastStop, hlast, m.stop_move_add]
        rfl
      rw [Rule.shift, hstart]
      rfl
  | closing brace => trivial
  | statement start stop =>
    have hmem : .statement start stop ∈ landmarks b := by simp [hls]
    obtain ⟨pre, raw, behind, hb, hstands⟩ := exists_stands_of_statement hmem
    have hshift := hstands.complete_shift_append hb hcut more
    rw [Rule.shift, Nat.add_right_comm start] at hshift
    exact hshift

/-- A landmark of the second text begins a rule of the whole that is completed to a shifted
rule. -/
theorem movesRule_joined (hcut : ∀ b, ¬ Text.SplitsLineEnd a b) {b : Text}
    {before after : List Landmark} {l : Landmark} (hls : landmarks b = before ++ l :: after) :
    l.MovesRule (fun rule rule' => rule'.complete (a ++ '\n' :: b) =
        (rule.complete b).shift (a.byteSize + 1) (LineIndex.ofText a).size)
      (· + (a.byteSize + 1)) (before.foldl Builder.read {}).pending
      ((before.map (Landmark.move (· + (a.byteSize + 1)))).foldl Builder.read
        { pending := a.byteSize }).pending := by
  have h := movesRule_between hcut [] hls
  rw [List.append_nil] at h
  exact h

/-- **Two texts joined by a line end.** If at the end of a text no block and no comment is open and
the prelude of the next rule would begin there, then the outline of the text, a `\n` and any other
text is the outline of the first text followed by that of the second. The rules of the second text
have their offsets moved behind the `\n` and their lines behind those of the first text, and are
the same rules in the same blocks otherwise. -/
theorem parse_joined (h : Scanner.Rests a) (b : Text) :
    (parse (a ++ '\n' :: b)).top = (parse a).top ++
      (parse b).top.map (Rule.shift (a.byteSize + 1) (LineIndex.ofText a).size) := by
  have halike : Builder.Alike (fun rule rule' => rule'.complete (a ++ '\n' :: b) =
      (rule.complete b).shift (a.byteSize + 1) (LineIndex.ofText a).size)
      (· + (a.byteSize + 1)) {} { pending := a.byteSize } := ⟨.nil, .nil⟩
  have hlater := (halike.foldl_read fun before l after hls =>
    movesRule_joined h.not_splitsLineEnd hls).finish b.byteSize
  rw [parse_top_eq, h.scan_top_append, Forest.map_append, map_complete_append, parse_top_eq b,
    scan_top_eq b, Forest.map_map]
  exact congrArg _ (hlater.map_eq_map fun _ _ hrule => hrule.symm).symm

/-- A text that ends with an import statement, and one with a stray brace. -/
theorem parse_joined_import :
    let a : Text := ['p', '{', '}', '@', 'i', 'm', 'p', 'o', 'r', 't', ' ', 'u', 'r', 'l', '(', 'a',
      ')']
    let b : Text := ['}', ' ', 'b', '{', 'c', '{']
    Scanner.Rests a ∧ (parse b).size = 2 ∧ (parse (a ++ '\n' :: b)).size = 4 := by
  intro a b
  have hrests : Scanner.Rests a := by decide
  have hsize : ((parse a).top ++
      (parse b).top.map (Rule.shift (a.byteSize + 1) (LineIndex.ofText a).size)).size = 4 := by
    decide
  refine ⟨hrests, by decide, ?_⟩
  rw [RuleTree.size, parse_joined hrests b, hsize]

end Joined

end CssOutline
