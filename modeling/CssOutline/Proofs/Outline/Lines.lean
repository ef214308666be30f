import CssOutline.Proofs.Outline.Completed
import CssOutline.Proofs.Outline.Nesting

/-!
# The lines of rules

A rule begins with no blank, so no line end stands across its start. Its line therefore counts
the line ends in front of it, and as the starts of the rules increase in document order, their
lines do not fall.

## Main results

* `RuleTree.ruleAt?_eq`: the rules in no block, by position
* `line_of_mem_parse`: the line of a rule counts the line ends in front of it
* `lineForIndex?_mono`: the lines of rules in no block do not fall
* `lines_count_line_ends`: both, for all rules of a text
-/

namespace CssOutline

variable {text : Text} {id : Address} {final : Rule}

/-- **A rule stands on the line behind the line ends in front of it**, and no line end stands
across its start. -/
theorem line_of_mem_parse (hr : (id, final) ∈ (parse text).rules) :
    final.isResolved ∧ ∃ before behind, text = before ++ behind ∧
      before.byteSize = final.start ∧ ¬ Text.SplitsLineEnd before behind ∧
      final.line = some (before.lineEnds + 1) := by
  obtain ⟨rule, hscan, rfl⟩ := exists_mem_scan_of_mem_parse hr
  obtain ⟨before, raw, behind, ht, hstands⟩ := exists_stands_of_mem_scan hscan
  obtain ⟨front, hf, -⟩ := Prelude.exists_front raw
  have hcomplete := hstands.complete_eq ht hf
  refine ⟨rfl, before ++ front, Prelude.strip raw ++ behind, ?_, ?_,
    Text.not_splitsLineEnd_of_head? hstands.head?_ne_newline _, ?_⟩
  · rw [List.append_assoc, ← List.append_assoc front, ← hf]
    exact ht
  · exact (congrArg Rule.start hcomplete).symm
  · exact congrArg Rule.line hcomplete

/-- The line of a rule is that of its start. -/
theorem line_eq_lineOf_of_mem_parse (hr : (id, final) ∈ (parse text).rules) :
    final.line = some ((LineIndex.ofText text).lineOf final.start) := by
  obtain ⟨rule, -, rfl⟩ := exists_mem_scan_of_mem_parse hr
  rfl

/-! ## Rules in no block -/

/-- **The positions with a rule** are those below the number of rules in no block, and a rule in no
block has its position as its address. -/
theorem RuleTree.ruleAt?_eq (tree : RuleTree) (index : Nat) :
    tree.ruleAt? index = if index < tree.top.width then some [index] else none := by
  have hchildren : tree.children root = (List.range tree.top.width).map fun i => [i] := rfl
  rw [ruleAt?, hchildren, List.getElem?_map]
  split
  · next h =>
    rw [List.getElem?_range h]
    rfl
  · next h =>
    rw [List.getElem?_eq_none (by simpa using h)]
    rfl

theorem RuleTree.isSome_ruleAt?_iff {tree : RuleTree} {index : Nat} :
    (tree.ruleAt? index).isSome ↔ index < tree.top.width := by
  rw [ruleAt?_eq]
  split
  · next h => exact iff_of_true rfl h
  · next h => exact iff_of_false Bool.false_ne_true h

/-- What is found at a position is a rule of the tree. -/
theorem RuleTree.exists_of_ruleAt? {tree : RuleTree} {index : Nat}
    (h : tree.ruleAt? index = some id) : id = [index] ∧ ∃ rule, (id, rule) ∈ tree.rules := by
  obtain ⟨-, rule, -, hr⟩ := mem_children_iff.mp (List.mem_of_getElem? h)
  rw [ruleAt?_eq] at h
  split at h
  · exact ⟨(Option.some.inj h).symm, rule, hr⟩
  · cases h

/-- A position with a rule has a line, the line of that rule. -/
theorem lineForIndex?_of_ruleAt? {index : Nat} (h : (parse text).ruleAt? index = some id) :
    ∃ rule, ([index], rule) ∈ (parse text).rules ∧
      (Stylesheet.ofText text).lineForIndex? index = rule.line := by
  obtain ⟨rfl, rule, hr⟩ := RuleTree.exists_of_ruleAt? h
  refine ⟨rule, hr, ?_⟩
  have hline : (Stylesheet.ofText text).lineForIndex? index =
      ((parse text).ruleAt? index).bind (parse text).line? := rfl
  rw [hline, h, Option.bind_some, RuleTree.line?, (RuleTree.mem_rules_iff.mp hr).2,
    Option.bind_some]

/-- A position with a line has a rule. -/
theorem exists_ruleAt?_of_mem_lineForIndex? {index line : Nat}
    (h : line ∈ (Stylesheet.ofText text).lineForIndex? index) :
    ∃ id, (parse text).ruleAt? index = some id := by
  obtain ⟨id, hid, -⟩ := Option.bind_eq_some_iff.mp h
  exact ⟨id, hid⟩

/-- The rules in no block are on lines that do not fall. -/
theorem lineForIndex?_mono {i j line line' : Nat} (hij : i ≤ j)
    (hi : line ∈ (Stylesheet.ofText text).lineForIndex? i)
    (hj : line' ∈ (Stylesheet.ofText text).lineForIndex? j) : line ≤ line' := by
  obtain ⟨id, hid⟩ := exists_ruleAt?_of_mem_lineForIndex? hi
  obtain ⟨id', hid'⟩ := exists_ruleAt?_of_mem_lineForIndex? hj
  obtain ⟨rule, hr, hline⟩ := lineForIndex?_of_ruleAt? hid
  obtain ⟨rule', hr', hline'⟩ := lineForIndex?_of_ruleAt? hid'
  rw [hline, line_eq_lineOf_of_mem_parse hr] at hi
  rw [hline', line_eq_lineOf_of_mem_parse hr'] at hj
  obtain rfl := Option.some.inj hi
  obtain rfl := Option.some.inj hj
  apply LineIndex.lineOf_mono
  rcases hij.eq_or_lt with rfl | hlt
  · have hget := (Forest.mem_entries_iff.mp hr).symm.trans (Forest.mem_entries_iff.mp hr')
    rw [Option.some.inj hget]
  · have hlies := (nested_parse text).liesIn_of_mem_toList
      (RuleTree.mem_toList_of_mem_rules hr)
    have hi : (parse text).top.get? ([] ++ [i]) = some rule := Forest.mem_entries_iff.mp hr
    have hj : (parse text).top.get? ([] ++ [j]) = some rule' := Forest.mem_entries_iff.mp hr'
    have hstop := (nested_parse text).stop_le_start hlt hi hj
    exact hlies.start_le.trans (hlies.bodyStart_lt.le.trans hstop)

/-! ## All rules -/

/-- Lines do not fall in document order. -/
theorem pairwise_line_parse (text : Text) :
    (parse text).rules.Pairwise fun earlier later =>
      ∀ line ∈ earlier.2.line, ∀ line' ∈ later.2.line, line ≤ line' := by
  have hstarts := (nested_parse text).pairwise_toList
  rw [← Forest.map_snd_entries, List.pairwise_map] at hstarts
  refine hstarts.imp_of_mem ?_
  intro earlier later he hl hlt line hline line' hline'
  rw [line_eq_lineOf_of_mem_parse he] at hline
  rw [line_eq_lineOf_of_mem_parse hl] at hline'
  obtain rfl := Option.some.inj hline
  obtain rfl := Option.some.inj hline'
  exact LineIndex.lineOf_mono text hlt.le

/-- **The line of a rule counts the line ends in front of it.** Every rule is resolved, and its
line is one more than the number of line ends in the text in front of its start, which is the
number of lines of that text; no line end stands across the start. So the lines of rules are lines
of the text, and do not fall in document order or from one position to the next. The positions with
a line are those below the number of rules in no block. -/
theorem lines_count_line_ends (text : Text) :
    (∀ entry ∈ (parse text).rules, entry.2.isResolved ∧
        ∃ before behind, text = before ++ behind ∧ before.byteSize = entry.2.start ∧
          ¬ Text.SplitsLineEnd before behind ∧ entry.2.line = some (before.lineEnds + 1) ∧
          (LineIndex.ofText before).size = before.lineEnds + 1) ∧
      (∀ entry ∈ (parse text).rules, ∀ line ∈ entry.2.line,
        1 ≤ line ∧ line ≤ (LineIndex.ofText text).size) ∧
      ((parse text).rules.Pairwise fun earlier later =>
        ∀ line ∈ earlier.2.line, ∀ line' ∈ later.2.line, line ≤ line') ∧
      (∀ index, (((Stylesheet.ofText text).lineForIndex? index).isSome ↔
        ((parse text).ruleAt? index).isSome) ∧
        (((parse text).ruleAt? index).isSome ↔ index < (parse text).top.width)) ∧
      ∀ i j, i ≤ j → ∀ line ∈ (Stylesheet.ofText text).lineForIndex? i,
        ∀ line' ∈ (Stylesheet.ofText text).lineForIndex? j, line ≤ line' := by
  refine ⟨?_, ?_, pairwise_line_parse text, ?_, ?_⟩
  · intro entry he
    obtain ⟨hresolved, before, behind, htext, hsize, hcut, hline⟩ := line_of_mem_parse he
    exact ⟨hresolved, before, behind, htext, hsize, hcut, hline, LineIndex.size_ofText before⟩
  · intro entry he line hline
    rw [line_eq_lineOf_of_mem_parse he] at hline
    obtain rfl := Option.some.inj hline
    exact ⟨LineIndex.one_le_lineOf _ _, LineIndex.lineOf_le_size _ _⟩
  · intro index
    refine ⟨⟨?_, ?_⟩, RuleTree.isSome_ruleAt?_iff⟩
    · intro h
      obtain ⟨line, hline⟩ := Option.isSome_iff_exists.mp h
      obtain ⟨id, hid⟩ := exists_ruleAt?_of_mem_lineForIndex? hline
      rw [hid, Option.isSome_some]
    · intro h
      obtain ⟨id, hid⟩ := Option.isSome_iff_exists.mp h
      obtain ⟨rule, hr, hline⟩ := lineForIndex?_of_ruleAt? hid
      rw [hline, line_eq_lineOf_of_mem_parse hr, Option.isSome_some]
  · intro i j hij line hi line' hj
    exact lineForIndex?_mono hij hi hj

end CssOutline
