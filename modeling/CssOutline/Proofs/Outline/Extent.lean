import CssOutline.Outline.Parse
import CssOutline.Proofs.Outline.Chart
import CssOutline.Proofs.Outline.Reading
import CssOutline.Proofs.Prelude.Strip

/-!
# What stands at the offsets of a rule

The offsets of a rule fall between characters of its text, and the characters there tell blocks
from import statements. Stripping the prelude moves the start of a rule, but only to another
such place in front of the body.

## Main definitions

* `Rule.IsBlock`, `Rule.IsStatement`: what stands at the offsets of a rule
* `Rule.Fits`: a rule whose offsets fit a text

## Main results

* `fits_of_mem_scan`: the rules of a text fit it
* `Rule.Fits.readPrelude`, `fits_of_mem_parse`: they still do once their preludes are read
* `exists_mem_scan_of_mem_parse`: the rules of the full outline by those of the scan
-/

namespace CssOutline

namespace Rule

/-- A block: an opening brace at the start of the body, and a closing one where it stops, unless
the text ends there. -/
def IsBlock (text : Text) (rule : Rule) : Prop :=
  text.slice? rule.bodyStart (rule.bodyStart + 1) = some ['{'] ∧
    (rule.stop < text.byteSize → text.slice? rule.stop (rule.stop + 1) = some ['}'])

/-- An import statement, from its start through its stop; its body starts behind the keyword. A
blank or `url(` stands there, so a rule is not a block as well. -/
def IsStatement (text : Text) (rule : Rule) : Prop :=
  (text.dropBytes? rule.start).bind importLength? = some (rule.stop - rule.start) ∧
    rule.bodyStart = rule.start + Mark.importKeyword.byteSize

/-- A rule whose offsets fit a text. -/
structure Fits (text : Text) (rule : Rule) : Prop where
  isBoundary_start : text.IsBoundary rule.start
  isBoundary_bodyStart : text.IsBoundary rule.bodyStart
  isBoundary_stop : text.IsBoundary rule.stop
  block_or_statement : rule.IsBlock text ∨ rule.IsStatement text

end Rule

/-! ## The rules of a scan -/

namespace Landmark.Spans

variable {text : Text} {l : Landmark} {gap body rest : Text}

theorem isBoundary_start (h : l.Spans gap.byteSize body rest) (ht : text = gap ++ (body ++ rest)) :
    text.IsBoundary l.start := by
  rw [h.start_eq, ht]
  exact Text.isBoundary_append _ _

theorem isBoundary_stop (h : l.Spans gap.byteSize body rest) (ht : text = gap ++ (body ++ rest)) :
    text.IsBoundary l.stop := by
  rw [h.stop_eq, ht, ← Text.byteSize_append, ← List.append_assoc]
  exact Text.isBoundary_append _ _

end Landmark.Spans

section Scan

variable {text : Text}

/-- Where a landmark of a text stands. -/
theorem exists_spans_of_mem_landmarks {l : Landmark} (hl : l ∈ landmarks text) :
    ∃ gap body rest, text = gap ++ (body ++ rest) ∧ l.Spans gap.byteSize body rest :=
  (charted_landmarks text).exists_spans hl

/-- The start of a block is a boundary in front of its brace. -/
theorem lastStop_le_start {before after : List Landmark} {l : Landmark}
    (hls : landmarks text = before ++ l :: after) :
    text.IsBoundary (lastStop before) ∧ lastStop before ≤ l.start := by
  rcases List.eq_nil_or_concat before with rfl | ⟨before, m, rfl⟩
  · exact ⟨Text.isBoundary_zero text, Nat.zero_le _⟩
  · rw [List.concat_eq_append] at hls ⊢
    rw [lastStop_concat]
    have hm : m ∈ landmarks text := by simp [hls]
    obtain ⟨gap, body, rest, ht, hs⟩ := exists_spans_of_mem_landmarks hm
    have hp := (charted_landmarks text).pairwise
    rw [hls] at hp
    exact ⟨hs.isBoundary_stop ht, (List.pairwise_append.mp hp).2.2 m (by simp) l (by simp)⟩

theorem slice?_of_opening {brace : Nat} (h : .opening brace ∈ landmarks text) :
    text.slice? brace (brace + 1) = some ['{'] := by
  obtain ⟨gap, body, rest, ht, hs⟩ := exists_spans_of_mem_landmarks h
  cases hs
  exact Text.slice?_eq_some_iff.mpr ⟨gap, rest, ht, rfl, rfl⟩

theorem slice?_of_closing {brace : Nat} (h : .closing brace ∈ landmarks text) :
    text.slice? brace (brace + 1) = some ['}'] := by
  obtain ⟨gap, body, rest, ht, hs⟩ := exists_spans_of_mem_landmarks h
  cases hs
  exact Text.slice?_eq_some_iff.mpr ⟨gap, rest, ht, rfl, rfl⟩

/-- A block that begins at a heading and stops at a boundary fits the text. -/
theorem fits_block {before after : List Landmark} {brace stop : Nat}
    (hls : landmarks text = before ++ .opening brace :: after) (hb : text.IsBoundary stop)
    (hc : stop < text.byteSize → text.slice? stop (stop + 1) = some ['}']) :
    Rule.Fits text { start := lastStop before, bodyStart := brace, stop } := by
  have hopen : text.slice? brace (brace + 1) = some ['{'] := slice?_of_opening (by simp [hls])
  exact ⟨(lastStop_le_start hls).1, (Text.IsBoundary.of_slice? hopen).1, hb, Or.inl ⟨hopen, hc⟩⟩

/-- An import statement among the landmarks stands where its rule says. -/
theorem isStatement_of_mem_landmarks {start stop : Nat}
    (h : .statement start stop ∈ landmarks text) :
    Rule.IsStatement text
      { start, bodyStart := start + Mark.importKeyword.byteSize, stop } := by
  obtain ⟨gap, body, rest, ht, hs⟩ := exists_spans_of_mem_landmarks h
  cases hs with
  | statement found =>
    refine ⟨?_, rfl⟩
    rw [ht, Text.dropBytes?_append, Option.bind_some, importLength?, found, Option.map_some,
      Nat.add_sub_cancel_left]

/-- An import statement has its keyword between characters. -/
theorem fits_statement {start stop : Nat} (h : .statement start stop ∈ landmarks text) :
    Rule.Fits text { start, bodyStart := start + Mark.importKeyword.byteSize, stop } := by
  obtain ⟨gap, body, rest, ht, hs⟩ := exists_spans_of_mem_landmarks h
  refine ⟨hs.isBoundary_start ht, ?_, hs.isBoundary_stop ht,
    Or.inr (isStatement_of_mem_landmarks h)⟩
  cases hs with
  | statement found =>
    obtain ⟨tail, rfl⟩ := literal_prefix_of_importStatement? found
    rw [ht]
    simpa [Mark.byteSize] using
      Text.isBoundary_append (gap ++ Mark.importKeyword.literal) (tail ++ rest)

/-- **The rules of a text fit it.** -/
theorem fits_of_mem_scan {entry : Address × Rule} (hr : entry ∈ (scan text).rules) :
    entry.2.Fits text := by
  obtain ⟨h, hm, hbegins⟩ := exists_heading_of_mem_rules hr
  have hls : landmarks text = h.before ++ h.landmark :: h.after := eq_of_mem_headings hm
  revert hbegins
  generalize entry.2 = rule
  intro hbegins
  cases hbegins with
  | statement before after start stop => exact fits_statement (by simp [hls])
  | @closedBlock before after brace stop closed =>
    obtain ⟨inside, rest, rfl, -⟩ := closed
    have hclose : text.slice? stop (stop + 1) = some ['}'] := slice?_of_closing (by simp [hls])
    exact fits_block hls (Text.IsBoundary.of_slice? hclose).1 fun _ => hclose
  | openBlock before brace _ =>
    exact fits_block hls (Text.isBoundary_byteSize text) fun h => absurd h (Nat.lt_irrefl _)

end Scan

/-! ## Reading the prelude -/

namespace Rule

variable {text : Text} {rule : Rule}

/-- The start moves past the front of the prelude, if there is a prelude. -/
theorem readPrelude_start {raw front : Text}
    (hs : text.slice? rule.start rule.bodyStart = some raw)
    (hf : raw = front ++ Prelude.strip raw) :
    (rule.readPrelude text).start = rule.start + front.byteSize := by
  rw [readPrelude, prelude, hs, Option.getD_some, Prelude.leadingSize_eq hf]

/-- The start moves forward, but not past the start of the body. -/
theorem le_readPrelude_start (text : Text) (rule : Rule) :
    rule.start ≤ (rule.readPrelude text).start ∧
      (rule.readPrelude text).start ≤ max rule.start rule.bodyStart := by
  refine ⟨Nat.le_add_right _ _, ?_⟩
  cases hs : text.slice? rule.start rule.bodyStart with
  | none =>
    have hempty : rule.prelude text = [] := by rw [prelude, hs, Option.getD_none]
    rw [readPrelude, hempty]
    exact Nat.le_max_left _ _
  | some raw =>
    obtain ⟨front, hf, -⟩ := Prelude.exists_front raw
    obtain ⟨a, b, -, ha, hsize⟩ := Text.slice?_eq_some_iff.mp hs
    have hfront := congrArg Text.byteSize hf
    rw [Text.byteSize_append] at hfront
    rw [readPrelude_start hs hf]
    omega

/-- An import statement starts at its keyword. -/
theorem IsStatement.exists_append (h : rule.IsStatement text) :
    ∃ before behind, text = before ++ (Mark.importKeyword.literal ++ behind) ∧
      before.byteSize = rule.start := by
  obtain ⟨suf, hdrop, hlength⟩ := Option.bind_eq_some_iff.mp h.1
  obtain ⟨⟨before, _⟩, hsplit, rfl⟩ := Option.map_eq_some_iff.mp hdrop
  obtain ⟨statement, hs, -⟩ := Option.map_eq_some_iff.mp hlength
  obtain ⟨htext, hbefore⟩ := Text.splitAt?_eq_some_iff.mp hsplit
  obtain ⟨after, hafter⟩ := exists_append_of_importStatement? hs
  obtain ⟨tail, rfl⟩ := literal_prefix_of_importStatement? hs
  simp only at htext hafter
  exact ⟨before, tail ++ after, by rw [htext, hafter, List.append_assoc], hbefore⟩

/-- The prelude of an import statement is its keyword. -/
theorem IsStatement.slice?_eq (h : rule.IsStatement text) :
    text.slice? rule.start rule.bodyStart = some Mark.importKeyword.literal := by
  obtain ⟨before, behind, ht, hb⟩ := h.exists_append
  refine Text.slice?_eq_some_iff.mpr ⟨before, behind, ht, hb, ?_⟩
  rw [h.2, hb]
  rfl

theorem IsStatement.prelude_eq (h : rule.IsStatement text) :
    rule.prelude text = Mark.importKeyword.literal := by
  rw [prelude, h.slice?_eq, Option.getD_some]

/-- Nothing is stripped from an import statement. -/
theorem IsStatement.readPrelude_start_eq (h : rule.IsStatement text) :
    (rule.readPrelude text).start = rule.start := by
  have hfront : Mark.importKeyword.literal = [] ++ Prelude.strip Mark.importKeyword.literal := rfl
  exact readPrelude_start h.slice?_eq hfront

/-- A rule still fits its text once its prelude is read. -/
theorem Fits.readPrelude (h : rule.Fits text) : (rule.readPrelude text).Fits text := by
  refine ⟨?_, h.isBoundary_bodyStart, h.isBoundary_stop, ?_⟩
  · cases hs : text.slice? rule.start rule.bodyStart with
    | none =>
      have hempty : rule.prelude text = [] := by rw [prelude, hs, Option.getD_none]
      have hstart : (rule.readPrelude text).start = rule.start := by
        simp [Rule.readPrelude, hempty, Prelude.leadingSize]
      rw [hstart]
      exact h.isBoundary_start
    | some raw =>
      obtain ⟨front, hf, -⟩ := Prelude.exists_front raw
      obtain ⟨a, b, ht, ha, -⟩ := Text.slice?_eq_some_iff.mp hs
      rw [readPrelude_start hs hf, ← ha, ← Text.byteSize_append, ht, hf, List.append_assoc,
        ← List.append_assoc]
      exact Text.isBoundary_append _ _
  · rcases h.block_or_statement with hb | hs
    · exact Or.inl hb
    · refine Or.inr ⟨?_, ?_⟩
      · rw [hs.readPrelude_start_eq]
        exact hs.1
      · rw [hs.readPrelude_start_eq]
        exact hs.2

theorem Fits.placeLine (h : rule.Fits text) (index : LineIndex) :
    (rule.placeLine index).Fits text :=
  ⟨h.isBoundary_start, h.isBoundary_bodyStart, h.isBoundary_stop, h.block_or_statement⟩

end Rule

/-- A rule of the full outline comes from the rule of the scan at its address. -/
theorem exists_mem_scan_of_mem_parse {text : Text} {id : Address} {final : Rule}
    (h : (id, final) ∈ (parse text).rules) :
    ∃ rule, (id, rule) ∈ (scan text).rules ∧
      final = (rule.readPrelude text).placeLine (LineIndex.ofText text) := by
  rw [parse, RuleTree.placeLines, RuleTree.rules_map, RuleTree.readPreludes,
    RuleTree.rules_map] at h
  obtain ⟨named, hn, he⟩ := List.mem_map.mp h
  obtain ⟨scanned, hs, rfl⟩ := List.mem_map.mp hn
  obtain ⟨rfl, rfl⟩ := Prod.mk.inj he
  exact ⟨scanned.2, hs, rfl⟩

theorem fits_of_mem_parse {text : Text} {entry : Address × Rule}
    (hr : entry ∈ (parse text).rules) : entry.2.Fits text := by
  obtain ⟨rule, hrule, hfinal⟩ := exists_mem_scan_of_mem_parse hr
  rw [hfinal]
  exact (fits_of_mem_scan hrule).readPrelude.placeLine _

end CssOutline
