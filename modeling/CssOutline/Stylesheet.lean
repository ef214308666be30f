import CssOutline.Outline.Parse

/-!
# Stylesheets

A stylesheet is a text together with its outline: the offsets of rules mean something in that
text only.

## Main definitions

* `Stylesheet`, `Stylesheet.ofText`: a text with its outline
* `Stylesheet.ruleText?`: the text that a rule covers
* `Stylesheet.lineFor?`, `Stylesheet.lineForIndex?`: the line of a rule, by selector and by
  position
-/

namespace CssOutline

/-- A text with its outline. -/
structure Stylesheet where
  source : Text
  tree : RuleTree
  deriving DecidableEq, Repr

namespace Stylesheet

/-- The stylesheet of a text. -/
def ofText (source : Text) : Stylesheet := ⟨source, parse source⟩

/-- The text that a rule covers. -/
def ruleText? (sheet : Stylesheet) (id : Address) : Option Text :=
  (sheet.tree.get? id).bind fun rule => rule.text? sheet.source

/-- The rules in no block that have the given selector; `none` if there are none. -/
def find? (sheet : Stylesheet) (selector : Text) : Option (List Address) :=
  sheet.tree.find? RuleTree.root selector

/-- The line of one of the given rules, by its position among them; the last one stands in for
positions past the end. -/
def lineAmong? (sheet : Stylesheet) (found : List Address) (position : Nat) : Option Nat :=
  found[min position (found.length - 1)]?.bind sheet.tree.line?

/-- The line of a rule in no block by its selector, where `occurrence` such rules precede it;
the last one stands in for occurrences past the end. -/
def lineFor? (sheet : Stylesheet) (selector : Text) (occurrence : Nat) : Option Nat :=
  (sheet.find? selector).bind fun found => sheet.lineAmong? found occurrence

/-- The line of a rule in no block by its position, counted from 0. -/
def lineForIndex? (sheet : Stylesheet) (index : Nat) : Option Nat :=
  (sheet.tree.ruleAt? index).bind sheet.tree.line?

end Stylesheet

end CssOutline
