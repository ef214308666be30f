import CssOutline.Proofs.Forest.Nested
import CssOutline.Proofs.Outline.Extent
import CssOutline.Stylesheet

/-!
# The outline of a stylesheet is well nested

While an outline grows, its finished rules are nested in front of the next prelude, and its open
blocks stand one inside the other. Whatever the landmarks are, this is so behind each of them, and
the blocks still open at the end of the text stop there without crossing another rule.

## Main definitions

* `OpenBlock.Nested`, `Builder.Nested`: an outline under construction that is well nested
* `RuleTree.WellNested`: the rules of a tree are nested parts of a text

## Main results

* `Builder.Nested.read`, `nested_foldl_read`: landmarks keep an outline well nested
* `wellNested_parse`: the outline of every text is well nested
-/

namespace CssOutline

/-- Where the rules right inside the innermost of the given blocks can begin. -/
def floorOf : List OpenBlock → Nat
  | [] => 0
  | block :: _ => block.bodyStart + 1

/-- Open blocks that stand one inside the other, each behind the finished rules before it. -/
inductive OpenBlock.Nested : List OpenBlock → Prop
  | nil : Nested []
  | cons {block : OpenBlock} {outer : List OpenBlock}
      (before : (Forest.ofNewest block.before).Nested (floorOf outer) block.start)
      (le_start : floorOf outer ≤ block.start) (start_le : block.start ≤ block.bodyStart)
      (around : Nested outer) : Nested (block :: outer)

/-- An outline under construction with nested rules, all in front of the next prelude. -/
structure Builder.Nested (b : Builder) : Prop where
  opened : OpenBlock.Nested b.opened
  finished : (Forest.ofNewest b.finished).Nested (floorOf b.opened) b.pending
  floor_le : floorOf b.opened ≤ b.pending

/-! ## One landmark -/

section Step

variable {b : Builder} {block : OpenBlock} {outer : List OpenBlock} {inside : FinishedRules}

/-- Nested rules with one more behind them. -/
theorem nested_ofNewest_cons {before : FinishedRules} {lo mid hi : Nat} {rule : Rule}
    {below : Forest Rule} (hbefore : (Forest.ofNewest before).Nested lo mid) (hlo : lo ≤ mid)
    (hr : rule.LiesIn mid hi) (hbelow : below.Nested (rule.bodyStart + 1) rule.stop) :
    (Forest.ofNewest ((rule, below) :: before)).Nested lo hi := by
  have hmid : mid ≤ hi :=
    hr.le_start.trans (hr.start_le.trans (hr.bodyStart_lt.le.trans hr.stop_le))
  rw [Forest.ofNewest_cons]
  exact hbefore.append (.cons hr hbelow (.nil _ _)) hlo hmid

/-- A block that stops behind the rules inside it joins the rules around it. -/
theorem nested_close {stop : Nat} (hb : OpenBlock.Nested (block :: outer))
    (hin : (Forest.ofNewest inside).Nested (block.bodyStart + 1) stop)
    (hlt : block.bodyStart < stop) :
    (Forest.ofNewest (block.close stop inside)).Nested (floorOf outer) stop := by
  cases hb with
  | cons before le_start start_le _ =>
    exact nested_ofNewest_cons before le_start ⟨le_rfl, start_le, hlt, le_rfl⟩ hin

variable {pre gap body rest : Text} {l : Landmark}

/-- **A landmark keeps an outline well nested.** -/
theorem Builder.Nested.read (h : b.Nested) {start : Nat} (hs : l.Spans start body rest)
    (hle : b.pending ≤ start) :
    (b.read l).Nested ∧ (b.read l).pending = l.stop := by
  obtain ⟨pending, opened, finished⟩ := b
  obtain ⟨hopened, hfinished, hfloor⟩ := h
  simp only at hopened hfinished hfloor hle
  cases hs with
  | opening =>
    exact ⟨⟨.cons hfinished hfloor hle hopened, .nil _ _, le_rfl⟩, rfl⟩
  | closing =>
    cases opened with
    | nil =>
      refine ⟨⟨.nil, ?_, Nat.zero_le _⟩, rfl⟩
      exact hfinished.mono le_rfl (hle.trans (Nat.le_succ _))
    | cons block outer =>
      have hlt : block.bodyStart < start := hfloor.trans hle
      have hclosed := nested_close hopened (hfinished.mono le_rfl hle) hlt
      cases hopened with
      | cons before le_start start_le houter =>
        refine ⟨⟨houter, hclosed.mono le_rfl (Nat.le_succ _), ?_⟩, rfl⟩
        exact le_start.trans (start_le.trans (hlt.le.trans (Nat.le_succ _)))
  | statement found =>
    have hsize := byteSize_of_importStatement? found
    have hkeyword : Mark.importKeyword.byteSize = 7 := rfl
    refine ⟨⟨hopened, ?_, hfloor.trans (hle.trans (Nat.le_add_right _ _))⟩, rfl⟩
    refine nested_ofNewest_cons (hfinished.mono le_rfl hle) (hfloor.trans hle) ?_ (.nil _ _)
    exact ⟨le_rfl, Nat.le_add_right _ _, by simp only [hkeyword]; omega, le_rfl⟩

end Step

/-! ## All landmarks of a text -/

/-- An outline stays well nested, and the next prelude begins in the text that has been read. -/
theorem nested_foldl_read {text pre suf : Text} {ls : List Landmark} (hc : Charted text pre suf ls)
    {b : Builder} (h : b.Nested) (hle : b.pending ≤ pre.byteSize) :
    (ls.foldl Builder.read b).Nested ∧
      (ls.foldl Builder.read b).pending ≤ (pre ++ suf).byteSize := by
  induction hc generalizing b with
  | last =>
    refine ⟨h, hle.trans ?_⟩
    rw [Text.byteSize_append]
    exact Nat.le_add_right _ _
  | @next pre gap body rest l ls _ _ spans _ ih =>
    have hgap : b.pending ≤ (pre ++ gap).byteSize := by
      rw [Text.byteSize_append]
      exact hle.trans (Nat.le_add_right _ _)
    obtain ⟨hread, hpending⟩ := h.read spans hgap
    rw [spans.stop_eq, ← Text.byteSize_append] at hpending
    simpa using ih hread hpending.le

/-- The blocks that are open where the text ends stop there. -/
theorem nested_foldl_close {opened : List OpenBlock} {stop : Nat} {inside : FinishedRules}
    (ho : OpenBlock.Nested opened) (hin : (Forest.ofNewest inside).Nested (floorOf opened) stop)
    (hle : floorOf opened ≤ stop) :
    (Forest.ofNewest (opened.foldl (fun inside block => block.close stop inside) inside)).Nested
      0 stop := by
  induction ho generalizing inside with
  | nil => exact hin
  | @cons block outer before le_start start_le houter ih =>
    have hlt : block.bodyStart < stop := hle
    refine ih (nested_close (.cons before le_start start_le houter) hin hlt) ?_
    exact le_start.trans (start_le.trans hlt.le)

/-- The rules of a text are nested in it. -/
theorem nested_scan (text : Text) : (scan text).top.Nested 0 text.byteSize := by
  have hstart : Builder.Nested {} := ⟨.nil, .nil _ _, le_rfl⟩
  obtain ⟨h, hpending⟩ := nested_foldl_read (charted_landmarks text) hstart le_rfl
  rw [scan_top_eq]
  exact nested_foldl_close h.opened (h.finished.mono le_rfl hpending) (h.floor_le.trans hpending)

/-! ## The full outline -/

/-- The rules of a tree are parts of a text, and they are well nested. -/
structure RuleTree.WellNested (text : Text) (tree : RuleTree) : Prop where
  liesIn : ∀ entry ∈ tree.rules, entry.2.LiesIn 0 text.byteSize
  fits : ∀ entry ∈ tree.rules, entry.2.Fits text
  /-- The body of a block begins behind its brace. -/
  isBoundary_body : ∀ entry ∈ tree.rules, entry.2.IsBlock text →
    text.IsBoundary (entry.2.bodyStart + 1)
  /-- A rule stands inside the body of the rule around it. The root, which spans nothing, is around
  the others. -/
  child : ∀ up parent id child, (up, parent) ∈ tree.rules → (id, child) ∈ tree.rules →
    tree.parent? id = some up → parent.bodyStart < child.start ∧ child.stop ≤ parent.stop
  /-- A rule ends before those behind it in the same block, or outside of all blocks, start. -/
  siblings : ∀ id, (tree.children id).Pairwise fun x y => ∀ elder younger,
    (x, elder) ∈ tree.rules → (y, younger) ∈ tree.rules → elder.stop ≤ younger.start
  /-- In document order the starts increase. -/
  increasing : tree.rules.Pairwise fun earlier later => earlier.2.start < later.2.start

namespace RuleTree

variable {text : Text} {tree : RuleTree}

theorem wellNested_of_nested (h : tree.top.Nested 0 text.byteSize)
    (hfits : ∀ entry ∈ tree.rules, entry.2.Fits text) : tree.WellNested text := by
  have hlist : tree.rules.map (·.2) = tree.top.toList := Forest.map_snd_entries tree.top
  refine ⟨fun entry he => ?_, hfits, ?_, ?_, ?_, ?_⟩
  · refine h.liesIn_of_mem_toList ?_
    rw [← hlist]
    exact List.mem_map_of_mem he
  · rintro entry - ⟨hbrace, -⟩
    exact (Text.IsBoundary.of_slice? hbrace).2
  · intro up parent id child hp hc hup
    rw [parent?_of_mem_rules hc, Option.some.injEq] at hup
    have hid := (mem_rules_iff.mp hc).1
    rw [← List.dropLast_append_getLast hid, hup] at hc
    have hin := h.liesIn_parent (Forest.mem_entries_iff.mp hp) (Forest.mem_entries_iff.mp hc)
    exact ⟨hin.le_start, hin.stop_le⟩
  · intro id
    unfold children
    split
    · refine List.pairwise_map.mpr (List.pairwise_lt_range.imp ?_)
      intro i j hij elder younger he hy
      exact h.stop_le_start hij (Forest.mem_entries_iff.mp he) (Forest.mem_entries_iff.mp hy)
    · exact .nil
  · have hstarts := h.pairwise_toList
    rwa [← hlist, List.pairwise_map] at hstarts

end RuleTree

/-- The stages behind the scan keep the rules nested. -/
theorem nested_parse (text : Text) : (parse text).top.Nested 0 text.byteSize :=
  ((nested_scan text).map (Rule.le_readPrelude_start text) (fun _ => rfl) fun _ => rfl).map
    (fun _ => ⟨le_rfl, le_max_left _ _⟩) (fun _ => rfl) fun _ => rfl

/-- A rule whose offsets fit the text is named after its own prelude. -/
theorem Rule.readPrelude_of_slice? {text raw : Text} {rule : Rule}
    (h : text.slice? rule.start rule.bodyStart = some raw) :
    rule.prelude text = raw ∧ rule.readPrelude text =
      { rule with
        start := rule.start + Prelude.leadingSize raw
        selector := some (Selector.normalize (Prelude.strip raw)) } := by
  have hprelude : rule.prelude text = raw := by rw [prelude, h, Option.getD_some]
  exact ⟨hprelude, by rw [readPrelude, hprelude]⟩

/-- Every rule that is scanned has its prelude in the text. -/
theorem exists_slice?_of_mem_scan {text : Text} {entry : Address × Rule}
    (h : entry ∈ (scan text).rules) :
    ∃ raw, text.slice? entry.2.start entry.2.bodyStart = some raw := by
  have hlies := (RuleTree.wellNested_of_nested (nested_scan text)
    fun _ => fits_of_mem_scan).liesIn entry h
  have hfits := fits_of_mem_scan h
  exact Option.isSome_iff_exists.mp (Text.isSome_slice?_iff.mpr ⟨hlies.start_le,
    hfits.isBoundary_start, hfits.isBoundary_bodyStart⟩)

/-- **The outline of every text is well nested.** Its offsets cut the text between characters, so
every rule has a text. The prelude of every rule is found, so no rule is named after the empty text
in its place; and the root stays empty. -/
theorem wellNested_parse (text : Text) :
    (parse text).WellNested text ∧
      (∀ id, (parse text).contains id → ((Stylesheet.ofText text).ruleText? id).isSome) ∧
      (∀ entry ∈ (scan text).rules, ∃ raw,
        text.slice? entry.2.start entry.2.bodyStart = some raw ∧ entry.2.prelude text = raw ∧
          entry.2.readPrelude text =
            { entry.2 with
              start := entry.2.start + Prelude.leadingSize raw
              selector := some (Selector.normalize (Prelude.strip raw)) }) ∧
      (parse text).get? RuleTree.root = some {} := by
  have hnested := RuleTree.wellNested_of_nested (nested_parse text) fun _ => fits_of_mem_parse
  refine ⟨hnested, ?_, ?_, rfl⟩
  · intro id hid
    obtain ⟨rule, hr⟩ := RuleTree.exists_get?_of_contains hid
    have htext : (Stylesheet.ofText text).ruleText? id = text.slice? rule.start rule.stop := by
      rw [Stylesheet.ruleText?, Stylesheet.ofText, hr]
      rfl
    rw [htext]
    by_cases hroot : id = RuleTree.root
    · subst hroot
      obtain rfl := Option.some.inj hr
      exact Text.isSome_slice?_iff.mpr ⟨le_rfl, Text.isBoundary_zero _, Text.isBoundary_zero _⟩
    · have hm := RuleTree.mem_rules_iff.mpr ⟨hroot, hr⟩
      have hlies := hnested.liesIn _ hm
      have hfits := fits_of_mem_parse hm
      exact Text.isSome_slice?_iff.mpr ⟨hlies.start_le.trans hlies.bodyStart_lt.le,
        hfits.isBoundary_start, hfits.isBoundary_stop⟩
  · intro entry he
    obtain ⟨raw, hraw⟩ := exists_slice?_of_mem_scan he
    exact ⟨raw, hraw, Rule.readPrelude_of_slice? hraw⟩

end CssOutline
