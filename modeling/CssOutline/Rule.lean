import CssOutline.Text.Bytes

/-!
# Rules

A rule is a block `prelude { body }` or an import statement. It is recorded by byte offsets into
the text of its stylesheet; its selector and its line are filled in once they are known.

## Main definitions

* `Rule`: a rule of a stylesheet
* `Rule.prelude`, `Rule.body`, `Rule.text?`: the parts of the stylesheet that it covers
* `Rule.isAtRule`, `Rule.isImport`, `Rule.isResolved`: what is known of a rule
-/

namespace CssOutline

/-- A rule of a stylesheet. The rule with all values left out is the root of a rule tree. -/
structure Rule where
  /-- Where the rule starts: the first byte of its prelude. -/
  start : Nat := 0
  /-- The opening brace of a block; for an import statement the end of the keyword. -/
  bodyStart : Nat := 0
  /-- The closing brace of a block, or the end of the text if it is never closed; for an import
  statement its end. -/
  stop : Nat := 0
  /-- The line of `start`, counted from 1. -/
  line : Option Nat := none
  /-- The normalized prelude. -/
  selector : Option Text := none
  deriving DecidableEq, Repr, Inhabited

namespace Rule

/-- The selector that every import statement has. -/
def importSelector : Text := ['@', 'i', 'm', 'p', 'o', 'r', 't']

/-- Whether a rule is an import statement. -/
def isImport (rule : Rule) : Bool := rule.selector == some importSelector

/-- Whether the selector of a rule names an at-rule. -/
def isAtRule (rule : Rule) : Bool := rule.selector.any fun selector => selector.head? == some '@'

/-- Whether the selector and the line of a rule are known. -/
def isResolved (rule : Rule) : Bool := rule.selector.isSome && rule.line.isSome

/-- The text before the body; empty where the offsets do not fit the text. -/
def prelude (rule : Rule) (text : Text) : Text :=
  (text.slice? rule.start rule.bodyStart).getD []

/-- The text between the braces of a block; empty for an import statement and where the offsets
do not fit the text. -/
def body (rule : Rule) (text : Text) : Text :=
  if rule.isImport then [] else (text.slice? (rule.bodyStart + 1) rule.stop).getD []

/-- The text from the first character of a rule up to its closing brace or its end. -/
def text? (rule : Rule) (text : Text) : Option Text := text.slice? rule.start rule.stop

end Rule

end CssOutline
