import CssOutline.LineIndex
import CssOutline.Outline.Scanner
import CssOutline.Prelude

/-!
# Outlining a stylesheet

The full outline of a text comes from its scan in two stages: the prelude of each rule gives its
selector and moves its start past blanks and comments, and then the start gives the line.

## Main definitions

* `RuleTree.readPreludes`, `RuleTree.placeLines`: the two stages
* `parse`: the full outline of a text
-/

namespace CssOutline

/-- Names a rule after its prelude, and starts it behind the blanks and comments at its front. -/
def Rule.readPrelude (text : Text) (rule : Rule) : Rule :=
  { rule with
    start := rule.start + Prelude.leadingSize (rule.prelude text)
    selector := some (Selector.normalize (Prelude.strip (rule.prelude text))) }

/-- Puts a rule on the line of its start. -/
def Rule.placeLine (index : LineIndex) (rule : Rule) : Rule :=
  { rule with line := some (index.lineOf rule.start) }

/-- Names all rules of a tree after their preludes. -/
def RuleTree.readPreludes (text : Text) (tree : RuleTree) : RuleTree :=
  tree.map (Rule.readPrelude text)

/-- Puts all rules of a tree on their lines. -/
def RuleTree.placeLines (index : LineIndex) (tree : RuleTree) : RuleTree :=
  tree.map (Rule.placeLine index)

/-- The outline of a text. -/
def parse (text : Text) : RuleTree :=
  ((scan text).readPreludes text).placeLines (LineIndex.ofText text)

end CssOutline
