import CssOutline.Forest.Address
import CssOutline.Rule
import CssOutline.Selector

/-!
# Rule trees

The rules of a stylesheet form a tree: an import statement or block belongs to the innermost
block around it, or to the root. A rule is named by its address, and the root by the empty one.
An address at which there is no rule has no parent and no children and is at depth 0.

## Main definitions

* `RuleTree`: the rules of a stylesheet
* `RuleTree.get?`, `RuleTree.parent?`, `RuleTree.children`, `RuleTree.ancestors`,
  `RuleTree.depth`: a rule and its place
* `RuleTree.walk`, `RuleTree.rules`: the rules in document order
* `RuleTree.insert?`: a tree with one rule more
* `RuleTree.map`: the same tree of changed rules
* `RuleTree.find?`, `RuleTree.findAll?`, `RuleTree.ruleAt?`: rules by selector and by position

## Main results

* `RuleTree.depth_eq_length_ancestors`: the depth of a rule counts its ancestors but the root
* `RuleTree.rules_map`, `RuleTree.parent?_map`, `RuleTree.depth_map`: changing rules moves none
-/

namespace CssOutline

/-- The rules of a stylesheet. -/
structure RuleTree where
  /-- The rules that are in no block, each over the rules of its block. -/
  top : Forest Rule := .nil
  deriving DecidableEq, Repr

namespace RuleTree

/-- The address of the root. -/
def root : Address := []

/-- The rule at an address. The root spans nothing and has neither selector nor line. -/
def get? (tree : RuleTree) (id : Address) : Option Rule :=
  if id = root then some {} else tree.top.get? id

/-- Whether there is a rule at an address. -/
def contains (tree : RuleTree) (id : Address) : Bool := (tree.top.below? id).isSome

/-- The rule around a rule. -/
def parent? (tree : RuleTree) (id : Address) : Option Address :=
  if id ≠ root ∧ tree.contains id then some id.dropLast else none

/-- The rules right inside a rule, in document order. -/
def children (tree : RuleTree) (id : Address) : List Address :=
  match tree.top.below? id with
  | some below => (List.range below.width).map fun i => id ++ [i]
  | none => []

/-- The rules around a rule, from its parent up to the root. -/
def ancestors (tree : RuleTree) (id : Address) : List Address :=
  if tree.contains id then (List.range id.length).reverse.map fun n => id.take n else []

/-- The number of blocks around a rule. -/
def depth (tree : RuleTree) (id : Address) : Nat := if tree.contains id then id.length - 1 else 0

/-- The blocks around a rule are its ancestors without the root. -/
theorem depth_eq_length_ancestors (tree : RuleTree) (id : Address) :
    tree.depth id = (tree.ancestors id).length - 1 := by
  by_cases h : tree.contains id <;> simp [depth, ancestors, h]

/-- A rule and all rules inside it, in document order. -/
def walk (tree : RuleTree) (id : Address) : List Address :=
  match tree.top.below? id with
  | some below => id :: (below.entriesFrom id 0).map (·.1)
  | none => []

/-- The rules with their addresses in document order, without the root. -/
def rules (tree : RuleTree) : List (Address × Rule) := tree.top.entries

/-- The number of rules, without the root. -/
def size (tree : RuleTree) : Nat := tree.top.size

/-- Whether there is no rule besides the root. -/
def isEmpty (tree : RuleTree) : Bool := tree.size == 0

/-- The tree with a new last rule right inside the rule at `parent`, and the address of the new
rule. -/
def insert? (tree : RuleTree) (parent : Address) (rule : Rule) : Option (RuleTree × Address) := do
  let below ← tree.top.below? parent
  let top ← tree.top.insert? rule parent
  return (⟨top⟩, parent ++ [below.width])

/-- The tree with every rule but the root changed. -/
def map (change : Rule → Rule) (tree : RuleTree) : RuleTree := ⟨tree.top.map change⟩

@[simp] theorem rules_map (change : Rule → Rule) (tree : RuleTree) :
    (tree.map change).rules = tree.rules.map fun (id, rule) => (id, change rule) :=
  Forest.entries_map change tree.top

@[simp] theorem contains_map (change : Rule → Rule) (tree : RuleTree) (id : Address) :
    (tree.map change).contains id = tree.contains id := by
  simp [contains, map, Forest.below?_map]

@[simp] theorem parent?_map (change : Rule → Rule) (tree : RuleTree) (id : Address) :
    (tree.map change).parent? id = tree.parent? id := by
  simp [parent?]

@[simp] theorem depth_map (change : Rule → Rule) (tree : RuleTree) (id : Address) :
    (tree.map change).depth id = tree.depth id := by
  simp [depth]

/-- The selector of a rule. -/
def selector? (tree : RuleTree) (id : Address) : Option Text := (tree.get? id).bind (·.selector)

/-- The line of a rule. -/
def line? (tree : RuleTree) (id : Address) : Option Nat := (tree.get? id).bind (·.line)

/-- The rules right inside a rule that have the given selector; `none` if there are none. -/
def find? (tree : RuleTree) (id : Address) (selector : Text) : Option (List Address) :=
  let wanted := Selector.normalize selector
  let found := (tree.children id).filter fun child => tree.selector? child == some wanted
  if found.isEmpty then none else some found

/-- All rules that have the given selector, in document order; `none` if there are none. -/
def findAll? (tree : RuleTree) (selector : Text) : Option (List Address) :=
  let wanted := Selector.normalize selector
  let found := (tree.rules.filter fun (_, rule) => rule.selector == some wanted).map (·.1)
  if found.isEmpty then none else some found

/-- The rule at a position among those in no block, counted from 0. -/
def ruleAt? (tree : RuleTree) (index : Nat) : Option Address := (tree.children root)[index]?

end RuleTree

end CssOutline
