import CssOutline.Proofs.Forest.Alike
import CssOutline.Proofs.LineIndex
import CssOutline.Proofs.Outline.Beginning

/-!
# Completed rules

The stages behind the scan complete a rule: its prelude gives the selector and the start proper,
and the start gives the line. All three depend on the text in front of the rule and on its prelude
only, as long as something that is no blank comes next. So a rule that stands in two texts is
completed alike in both.

## Main definitions

* `Rule.complete`: a rule with its prelude read and its line known
* `Rule.Stands`: a rule between the parts of a text

## Main results

* `parse_top_eq`: the full outline holds the completed rules of the scan
* `Rule.Stands.complete_eq`: what a rule is completed to
* `exists_stands_of_mem_scan`: every rule of a text stands in it
* `prelude_of_mem_parse`: a rule of the full outline is named after its prelude
-/

namespace CssOutline

/-- A rule with its prelude read and its line known. -/
def Rule.complete (text : Text) (rule : Rule) : Rule :=
  (rule.readPrelude text).placeLine (LineIndex.ofText text)

/-- The full outline holds the completed rules of the scan. -/
theorem parse_top_eq (text : Text) :
    (parse text).top = (scan text).top.map (Rule.complete text) :=
  Forest.map_map _ _ _

/-- A rule with its prelude between two parts of a text. What is left of the prelude, or else the
text behind it, begins with a character that is no blank. -/
structure Rule.Stands (rule : Rule) (before raw behind : Text) : Prop where
  start_eq : rule.start = before.byteSize
  bodyStart_eq : rule.bodyStart = (before ++ raw).byteSize
  solid : ∃ c ∈ (Prelude.strip raw ++ behind).head?, Text.isBlank c = false

namespace Rule.Stands

variable {text before raw behind front : Text} {rule : Rule}

theorem slice?_eq (h : rule.Stands before raw behind) (ht : text = before ++ (raw ++ behind)) :
    text.slice? rule.start rule.bodyStart = some raw := by
  rw [h.start_eq, h.bodyStart_eq]
  exact Text.slice?_eq_some_iff.mpr ⟨before, behind, ht, rfl, (Text.byteSize_append _ _).symm⟩

/-- No line end stands across the start proper of a rule. -/
theorem head?_ne_newline (h : rule.Stands before raw behind) :
    (Prelude.strip raw ++ behind).head? ≠ some '\n' := by
  obtain ⟨c, hc, hblank⟩ := h.solid
  intro hn
  obtain rfl : c = '\n' := Option.some.inj (hc.symm.trans hn)
  exact absurd hblank (by decide)

/-- **What a rule is completed to.** It starts behind the front of its prelude, on the line behind
the line ends in front of that, and it is named after the rest of the prelude. -/
theorem complete_eq (h : rule.Stands before raw behind) (ht : text = before ++ (raw ++ behind))
    (hf : raw = front ++ Prelude.strip raw) :
    rule.complete text =
      { rule with
        start := (before ++ front).byteSize
        line := some ((before ++ front).lineEnds + 1)
        selector := some (Selector.normalize (Prelude.strip raw)) } := by
  have hslice := h.slice?_eq ht
  have hstart : (rule.readPrelude text).start = (before ++ front).byteSize := by
    rw [Rule.readPrelude_start hslice hf, h.start_eq, Text.byteSize_append]
  have hcut : text = (before ++ front) ++ (Prelude.strip raw ++ behind) := by
    rw [List.append_assoc, ← List.append_assoc front, ← hf, ht]
  have hline := LineIndex.lineOf_append
    (Text.not_splitsLineEnd_of_head? h.head?_ne_newline (before ++ front))
  rw [← hcut, ← hstart] at hline
  have hprelude : rule.prelude text = raw := by
    rw [Rule.prelude, hslice, Option.getD_some]
  rw [Rule.complete, Rule.placeLine, hline, hstart, Rule.readPrelude, hprelude]

end Rule.Stands

/-! ## The rules of a text -/

section Scan

variable {text pre gap body rest : Text} {read : List Token} {id : Address} {rule : Rule}

/-- A block that opens at a brace has the gap in front of it as its prelude. -/
theorem Landmark.Reached.stands_block {brace : Nat}
    (h : (Landmark.opening brace).Reached text pre gap body rest read) (stop : Nat) :
    Rule.Stands { start := pre.byteSize, bodyStart := brace, stop } pre gap (body ++ rest) := by
  have hne : Prelude.strip gap ++ (body ++ rest) ≠ [] := by
    intro hnil
    rw [List.append_eq_nil_iff, List.append_eq_nil_iff] at hnil
    exact h.spans.body_ne_nil hnil.2.1
  obtain ⟨c, left, hleft⟩ := List.exists_cons_of_ne_nil hne
  have hblank := h.left_of_strip.1
  rw [hleft] at hblank
  refine ⟨rfl, h.spans.start_eq, c, ?_, hblank c rfl⟩
  rw [hleft]
  rfl

/-- An import statement has its keyword as its prelude. -/
theorem Rule.stands_statement {before tail : Text} (stop : Nat) :
    Rule.Stands
      { start := before.byteSize, bodyStart := before.byteSize + Mark.importKeyword.byteSize, stop }
      before Mark.importKeyword.literal tail := by
  refine ⟨rfl, ?_, '@', rfl, by decide⟩
  rw [Text.byteSize_append]
  rfl

/-- A block stands in the text, wherever it stops. -/
theorem exists_stands_of_opening {before after : List Landmark} {brace : Nat}
    (hls : landmarks text = before ++ .opening brace :: after) (stop : Nat) :
    ∃ pre raw behind, text = pre ++ (raw ++ behind) ∧
      Rule.Stands { start := lastStop before, bodyStart := brace, stop } pre raw behind := by
  obtain ⟨pre, gap, body, rest, read, hreached, hsize⟩ :=
    (charted_landmarks text).exists_reached (Scanner.reaches_nil text) hls
  have hstart : lastStop before = pre.byteSize := hsize.symm
  rw [hstart]
  exact ⟨pre, gap, body ++ rest, hreached.reaches.text_eq, hreached.stands_block stop⟩

/-- An import statement stands in the text. -/
theorem exists_stands_of_statement {start stop : Nat}
    (h : .statement start stop ∈ landmarks text) :
    ∃ pre raw behind, text = pre ++ (raw ++ behind) ∧ Rule.Stands
      { start, bodyStart := start + Mark.importKeyword.byteSize, stop } pre raw behind := by
  obtain ⟨before, tail, ht, hbefore⟩ := (isStatement_of_mem_landmarks h).exists_append
  simp only at hbefore
  rw [← hbefore]
  exact ⟨before, _, tail, ht, Rule.stands_statement stop⟩

/-- **Every rule of a text stands in it.** -/
theorem exists_stands_of_mem_scan (hr : (id, rule) ∈ (scan text).rules) :
    ∃ before raw behind, text = before ++ (raw ++ behind) ∧ rule.Stands before raw behind := by
  obtain ⟨l, pre, gap, body, rest, read, hreached, hrule⟩ := exists_reached_of_mem_scan hr
  rcases hrule with ⟨rfl, hstart⟩ | ⟨rfl, hstatement⟩
  · have hstands := hreached.stands_block rule.stop
    exact ⟨pre, gap, body ++ rest, hreached.reaches.text_eq, hstart, hstands.bodyStart_eq,
      hstands.solid⟩
  · obtain ⟨before, tail, ht, hbefore⟩ := hstatement.exists_append
    have hstands : Rule.Stands _ before Mark.importKeyword.literal tail :=
      Rule.stands_statement rule.stop
    refine ⟨before, _, tail, ht, hbefore.symm, ?_, hstands.solid⟩
    rw [hstatement.2, ← hbefore]
    exact hstands.bodyStart_eq

/-- **Every rule of the full outline stands behind what was stripped in front of it**: from its
start up to its body is what is left of its prelude, and that names it. -/
theorem exists_prelude_of_mem_parse (hr : (id, rule) ∈ (parse text).rules) :
    ∃ raw, text.slice? rule.start rule.bodyStart = some (Prelude.strip raw) ∧
      rule.selector = some (Selector.normalize (Prelude.strip raw)) := by
  obtain ⟨scanned, hscan, rfl⟩ := exists_mem_scan_of_mem_parse hr
  obtain ⟨before, raw, behind, ht, hstands⟩ := exists_stands_of_mem_scan hscan
  obtain ⟨front, hf, -⟩ := Prelude.exists_front raw
  have hcomplete := hstands.complete_eq ht hf
  refine ⟨raw, ?_, congrArg Rule.selector hcomplete⟩
  rw [show (scanned.readPrelude text).placeLine _ = _ from hcomplete, hstands.bodyStart_eq]
  refine Text.slice?_eq_some_iff.mpr ⟨before ++ front, behind, ?_, rfl, ?_⟩
  · rw [List.append_assoc, ← List.append_assoc front, ← hf, ht]
  · rw [← Text.byteSize_append, List.append_assoc, ← hf]

/-- A rule of the full outline is named after its prelude. -/
theorem prelude_of_mem_parse (hr : (id, rule) ∈ (parse text).rules) :
    text.slice? rule.start rule.bodyStart = some (rule.prelude text) ∧
      rule.selector = some (Selector.normalize (rule.prelude text)) := by
  obtain ⟨raw, hslice, hselector⟩ := exists_prelude_of_mem_parse hr
  have hprelude : rule.prelude text = Prelude.strip raw := by
    rw [Rule.prelude, hslice, Option.getD_some]
  rw [hprelude]
  exact ⟨hslice, hselector⟩

end Scan

end CssOutline
