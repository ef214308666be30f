import CssOutline.Proofs.Lookup
import CssOutline.Proofs.RuleTree.Walk
import CssOutline.View.Margin

/-!
# Markers and the rules in document order

The markers of a tree are collected level by level, with the depth counted on the way down. The walk
down the tree meets the rules in the same order, and climbing up from a rule counts the same depth.
A rule whose line is not known has no marker, but those inside it have theirs.

## Main results

* `RuleTree.markers_eq`: the markers are read off the listing of the rules
* `RuleTree.markers_eq_visit`: they are read off the walk down and the ways up as well
-/

namespace CssOutline

/-- The markers of trees number `i` and on are read off their listing. -/
theorem Forest.markersFrom_eq (above : Address) (i : Nat) (f : Forest Rule) :
    f.markersFrom above i above.length =
      (f.entriesFrom above i).filterMap fun entry =>
        entry.2.line.map fun line => ⟨entry.1, line, entry.1.length - 1⟩ := by
  induction f generalizing above i with
  | nil => rfl
  | cons rule below after ih₁ ih₂ =>
    have hlength : (above ++ [i]).length = above.length + 1 := List.length_append
    have hbelow := ih₁ (above ++ [i]) 0
    rw [hlength] at hbelow
    rw [markersFrom, entriesFrom, List.filterMap_cons, List.filterMap_append, hbelow, ih₂]
    cases rule.line with
    | none => rfl
    | some line => simp

namespace RuleTree

variable {tree : RuleTree}

/-- **The markers are read off the listing of the rules**: one for each rule whose line is known,
with that line and the depth of the rule. -/
theorem markers_eq (tree : RuleTree) :
    tree.markers = tree.rules.filterMap fun entry =>
      entry.2.line.map fun line => ⟨entry.1, line, tree.depth entry.1⟩ := by
  rw [markers, rules, Forest.entries]
  refine (Forest.markersFrom_eq root 0 tree.top).trans (List.filterMap_congr fun entry hentry => ?_)
  have hr : (entry.1, entry.2) ∈ tree.rules := hentry
  rw [depth_of_mem_rules hr]

/-- There is a marker at a line and a depth exactly if there is a rule. -/
theorem mem_markers_iff {marker : Marker} :
    marker ∈ tree.markers ↔ ∃ rule, (marker.rule, rule) ∈ tree.rules ∧
      rule.line = some marker.line ∧ tree.depth marker.rule = marker.depth := by
  rw [markers_eq, List.mem_filterMap]
  constructor
  · rintro ⟨⟨id, rule⟩, hr, h⟩
    obtain ⟨line, hline, rfl⟩ := Option.map_eq_some_iff.mp h
    exact ⟨rule, hr, hline, rfl⟩
  · rintro ⟨rule, hr, hline, hdepth⟩
    refine ⟨(marker.rule, rule), hr, Option.map_eq_some_iff.mpr ⟨marker.line, hline, ?_⟩⟩
    rw [hdepth]

/-- **Two walks lead to the same markers.** On every tree of rules, whatever is known of them, the
markers that are collected level by level are those of the rules in document order: one for each
rule whose line is known and none for the others, with the address of the rule, its line and its
depth. The walk with a stack meets the rules in this order behind the root, and the way up from a
rule has one step more than its depth. -/
theorem markers_eq_visit (tree : RuleTree) :
    (tree.markers = tree.rules.filterMap fun entry =>
      entry.2.line.map fun line => ⟨entry.1, line, tree.depth entry.1⟩) ∧
    tree.visit [root] = root :: tree.rules.map (·.1) ∧
    tree.markers = (tree.visit [root]).tail.filterMap fun id =>
      (tree.line? id).map fun line => ⟨id, line, (tree.climb id).length - 1⟩ := by
  have hvisit : tree.visit [root] = root :: tree.rules.map (·.1) := by
    rw [visit_eq, List.flatMap_singleton, walk_root]
  refine ⟨tree.markers_eq, hvisit, ?_⟩
  rw [hvisit, List.tail_cons, List.filterMap_map, markers_eq]
  refine List.filterMap_congr fun entry hentry => ?_
  have hr : (entry.1, entry.2) ∈ tree.rules := hentry
  rw [Function.comp_apply, line?_of_mem_rules hr, climb_eq_ancestors, depth_eq_length_ancestors]

end RuleTree

end CssOutline
