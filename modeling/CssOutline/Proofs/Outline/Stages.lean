import CssOutline.Proofs.Outline.Completed

/-!
# Stages that are run again

Each stage behind the scan changes the rules of a tree one by one and moves none of them. Reading
preludes looks at the offsets that it has moved itself, and finds nothing left to strip there; so it
may be run again, and so may placing lines. The first stage does not look at lines, and the second
one only looks at starts. All that matters of the order in which they are run is that lines are
placed behind the last start that moves.

## Main definitions

* `RuleTree.SamePlaces`: trees with their rules at the same places
* `Stage`, `Stage.run`: the stages behind the scan

## Main results

* `Rule.prelude_readPrelude`: what is left of a prelude is the prelude of the rule that was read
* `RuleTree.readPreludes_readPreludes`: preludes are read once and for all
* `foldl_run_of_sublist`: stages in any order, with lines placed behind preludes
* `stages_settle`: what the stages leave alone, and where they lead
-/

namespace CssOutline

/-! ## Preludes that were read -/

namespace Rule

variable (text : Text) (index : LineIndex) (rule : Rule)

/-- What is left of a prelude is the prelude of the rule that was read. -/
theorem prelude_readPrelude :
    (rule.readPrelude text).prelude text = Prelude.strip (rule.prelude text) := by
  cases hslice : text.slice? rule.start rule.bodyStart with
  | none =>
    have hempty : rule.prelude text = [] := by rw [prelude, hslice, Option.getD_none]
    have hstart : (rule.readPrelude text).start = rule.start := by
      rw [readPrelude, hempty]
      rfl
    have hbodyStart : (rule.readPrelude text).bodyStart = rule.bodyStart := rfl
    rw [prelude, hstart, hbodyStart, hslice, hempty, Option.getD_none, Prelude.strip_nil]
  | some raw =>
    have hraw : rule.prelude text = raw := by rw [prelude, hslice, Option.getD_some]
    obtain ⟨front, hfront, -⟩ := Prelude.exists_front raw
    obtain ⟨before, behind, htext, hbefore, hsize⟩ := Text.slice?_eq_some_iff.mp hslice
    have hleft : text.slice? (rule.readPrelude text).start rule.bodyStart =
        some (Prelude.strip raw) := by
      apply Text.slice?_eq_some_iff.mpr
      refine ⟨before ++ front, behind, ?_, ?_, ?_⟩
      · rw [List.append_assoc, ← List.append_assoc front, ← hfront]
        exact htext
      · rw [readPrelude_start hslice hfront, ← hbefore, Text.byteSize_append]
      · rw [Text.byteSize_append, Nat.add_assoc, ← Text.byteSize_append, ← hfront]
        exact hsize
    rw [hraw]
    show (text.slice? (rule.readPrelude text).start rule.bodyStart).getD [] = Prelude.strip raw
    rw [hleft, Option.getD_some]

/-- A prelude is read once and for all. -/
theorem readPrelude_readPrelude :
    (rule.readPrelude text).readPrelude text = rule.readPrelude text := by
  have hprelude := prelude_readPrelude text rule
  unfold readPrelude at hprelude ⊢
  rw [hprelude, Prelude.leadingSize_strip, Prelude.strip_strip, Nat.add_zero]

/-- Reading a prelude does not look at the line. -/
theorem readPrelude_placeLine :
    (rule.placeLine index).readPrelude text =
      { rule.readPrelude text with line := some (index.lineOf rule.start) } := rfl

/-- A prelude that was read may be read again behind the line. -/
theorem readPrelude_placeLine_readPrelude :
    ((rule.readPrelude text).placeLine index).readPrelude text =
      (rule.readPrelude text).placeLine index := by
  rw [readPrelude_placeLine, readPrelude_readPrelude]
  rfl

end Rule

/-! ## Stages of a tree -/

namespace RuleTree

/-- Two trees with their rules at the same places, below the same root. -/
structure SamePlaces (tree tree' : RuleTree) : Prop where
  children_eq : ∀ id, tree'.children id = tree.children id
  parent?_eq : ∀ id, tree'.parent? id = tree.parent? id
  root_eq : tree'.get? root = tree.get? root

variable (text : Text) (index : LineIndex) (tree : RuleTree)

/-- Changing rules moves none of them. -/
theorem samePlaces_map (change : Rule → Rule) : tree.SamePlaces (tree.map change) :=
  ⟨children_map change tree, parent?_map change tree, rfl⟩

/-- What holds of every rule and the changed rule holds of the listings. -/
theorem forall₂_rules_map {R : Rule → Rule → Prop} {change : Rule → Rule}
    (h : ∀ rule, R rule (change rule)) :
    List.Forall₂ (fun entry entry' => entry'.1 = entry.1 ∧ R entry.2 entry'.2) tree.rules
      (tree.map change).rules := by
  rw [rules_map, List.forall₂_map_right_iff]
  apply List.forall₂_same.mpr
  intro entry _
  exact ⟨rfl, h entry.2⟩

/-- Changing rules twice is one change. -/
theorem map_map (first second : Rule → Rule) :
    (tree.map first).map second = tree.map fun rule => second (first rule) :=
  congrArg RuleTree.mk (Forest.map_map first second tree.top)

/-- Preludes are read once and for all. -/
theorem readPreludes_readPreludes :
    (tree.readPreludes text).readPreludes text = tree.readPreludes text := by
  unfold readPreludes
  rw [map_map]
  exact congrArg tree.map (funext fun rule => rule.readPrelude_readPrelude text)

/-- Lines are placed once and for all. -/
theorem placeLines_placeLines :
    (tree.placeLines index).placeLines index = tree.placeLines index := by
  unfold placeLines
  rw [map_map]
  rfl

/-- Lines that were placed in front of the preludes are placed anew behind them. -/
theorem placeLines_readPreludes_placeLines :
    ((tree.placeLines index).readPreludes text).placeLines index =
      (tree.readPreludes text).placeLines index := by
  unfold readPreludes placeLines
  rw [map_map, map_map, map_map]
  rfl

/-- Preludes may be read again behind the lines. -/
theorem readPreludes_placeLines_readPreludes :
    ((tree.readPreludes text).placeLines index).readPreludes text =
      (tree.readPreludes text).placeLines index := by
  unfold readPreludes placeLines
  rw [map_map, map_map, map_map]
  apply congrArg tree.map
  funext rule
  exact rule.readPrelude_placeLine_readPrelude text index

end RuleTree

/-- The stages behind the scan. -/
inductive Stage
  | readPreludes
  | placeLines
  deriving DecidableEq, Repr

/-- Runs a stage on a tree of rules of a text. -/
def Stage.run (text : Text) (tree : RuleTree) : Stage → RuleTree
  | readPreludes => tree.readPreludes text
  | placeLines => tree.placeLines (LineIndex.ofText text)

section Runs

variable {text : Text} {tree : RuleTree} {stages : List Stage}

/-- Once preludes are read and lines are placed behind them, no stage changes anything. -/
theorem foldl_run_completed (text : Text) (tree : RuleTree) (stages : List Stage) :
    stages.foldl (Stage.run text)
        ((tree.readPreludes text).placeLines (LineIndex.ofText text)) =
      (tree.readPreludes text).placeLines (LineIndex.ofText text) := by
  induction stages with
  | nil => rfl
  | cons stage stages ih =>
    rw [List.foldl_cons]
    cases stage with
    | readPreludes =>
      rw [Stage.run, RuleTree.readPreludes_placeLines_readPreludes]
      exact ih
    | placeLines =>
      rw [Stage.run, RuleTree.placeLines_placeLines]
      exact ih

/-- Once preludes are read, it is left to place the lines. -/
theorem foldl_run_of_mem (h : .placeLines ∈ stages) :
    stages.foldl (Stage.run text) (tree.readPreludes text) =
      (tree.readPreludes text).placeLines (LineIndex.ofText text) := by
  induction stages with
  | nil => cases h
  | cons stage stages ih =>
    rw [List.foldl_cons]
    cases stage with
    | readPreludes =>
      rw [Stage.run, RuleTree.readPreludes_readPreludes]
      exact ih ((List.mem_cons.mp h).resolve_left Stage.noConfusion)
    | placeLines => exact foldl_run_completed text tree stages

/-- **Stages in any order** complete the rules if lines are placed at some time behind the
preludes. -/
theorem foldl_run_of_sublist (h : List.Sublist [.readPreludes, .placeLines] stages) :
    stages.foldl (Stage.run text) tree =
      (tree.readPreludes text).placeLines (LineIndex.ofText text) := by
  induction stages generalizing tree with
  | nil => cases h
  | cons stage stages ih =>
    rw [List.foldl_cons]
    cases stage with
    | readPreludes =>
      have hlater : List.Sublist [.placeLines] stages := List.cons_sublist_cons.mp h
      exact foldl_run_of_mem (List.singleton_sublist.mp hlater)
    | placeLines =>
      have hlater : List.Sublist [.readPreludes, .placeLines] stages := by
        cases h with
        | cons _ hlater => exact hlater
      rw [ih hlater]
      exact RuleTree.placeLines_readPreludes_placeLines text _ tree

end Runs

/-- **Stages may be run again and in any order.** On every tree of rules, whatever their offsets,
each of the two stages does the second time what it did the first time, and leaves all rules at
their places. Reading preludes changes the start and the selector of a rule alone, and moves the
start forward, at most up to the body. Placing lines changes the line alone. So every sequence of
stages that places lines at some time behind the preludes leads from the scan of a text to its full
outline. -/
theorem stages_settle (text : Text) :
    (∀ tree : RuleTree,
        (tree.readPreludes text).readPreludes text = tree.readPreludes text ∧
        tree.SamePlaces (tree.readPreludes text) ∧
        List.Forall₂ (fun entry entry' => entry'.1 = entry.1 ∧
            entry'.2 = { entry.2 with
              start := entry'.2.start
              selector := entry'.2.selector } ∧
            entry.2.start ≤ entry'.2.start ∧
            entry'.2.start ≤ max entry.2.start entry.2.bodyStart)
          tree.rules (tree.readPreludes text).rules) ∧
      (∀ (tree : RuleTree) (index : LineIndex),
        (tree.placeLines index).placeLines index = tree.placeLines index ∧
        tree.SamePlaces (tree.placeLines index) ∧
        List.Forall₂ (fun entry entry' => entry'.1 = entry.1 ∧
            entry'.2 = { entry.2 with line := entry'.2.line })
          tree.rules (tree.placeLines index).rules) ∧
      ∀ stages : List Stage, List.Sublist [.readPreludes, .placeLines] stages →
        stages.foldl (Stage.run text) (scan text) = parse text := by
  refine ⟨fun tree => ⟨?_, ?_, ?_⟩, fun tree index => ⟨?_, ?_, ?_⟩, fun stages h => ?_⟩
  · exact tree.readPreludes_readPreludes text
  · exact tree.samePlaces_map _
  · apply tree.forall₂_rules_map (R := fun rule rule' =>
      rule' = { rule with start := rule'.start, selector := rule'.selector } ∧
        rule.start ≤ rule'.start ∧ rule'.start ≤ max rule.start rule.bodyStart)
    intro rule
    exact ⟨rfl, rule.le_readPrelude_start text⟩
  · exact tree.placeLines_placeLines index
  · exact tree.samePlaces_map _
  · apply tree.forall₂_rules_map (R := fun rule rule' =>
      rule' = { rule with line := rule'.line })
    intro rule
    rfl
  · exact foldl_run_of_sublist h

/-- Lines that are placed too early, and preludes that are read again. -/
theorem stages_settle_repeated :
    let text : Text := ['/', '*', '\n', '*', '/', 'a', '{', '}']
    [Stage.placeLines, .readPreludes, .readPreludes, .placeLines, .readPreludes].foldl
      (Stage.run text) (scan text) = parse text := by
  intro text
  apply (stages_settle text).2.2
  decide

end CssOutline
