import CssOutline.RuleTree
import CssOutline.Text.Decimal

/-!
# A listing of an outline

The listing has one line for each rule, in document order: two spaces for each block around the
rule, its selector, its line and its offsets. What is not known yet is shown as `?`.

## Main definitions

* `Rule.listing`: the line of a rule
* `RuleTree.listingLines`, `RuleTree.listing`: the listing of a tree
-/

namespace CssOutline

/-- The line of a rule at a depth. -/
def Rule.listing (depth : Nat) (rule : Rule) : Text :=
  List.replicate (2 * depth) ' ' ++ rule.selector.getD ['?'] ++ " (line ".toList ++
    (rule.line.map decimal).getD ['?'] ++ ") [".toList ++ decimal rule.start ++ "..".toList ++
    decimal rule.stop ++ "]".toList

/-- The lines of the listing of a tree. -/
def RuleTree.listingLines (tree : RuleTree) : List Text :=
  tree.rules.map fun (id, rule) => rule.listing (tree.depth id)

/-- The listing of a tree. -/
def RuleTree.listing (tree : RuleTree) : Text := ['\n'].intercalate tree.listingLines

end CssOutline
