import CssOutline.Text.Blank

/-!
# Preludes

The prelude of a rule is the text from the end of what precedes the rule up to its opening brace
or to the end of its keyword. The rule proper starts behind the blanks and whole comments at the
front of the prelude. A comment that is never closed is left in place.

## Main definitions

* `Prelude.commentClose?`: the end of a comment
* `Prelude.leadingComment?`: a whole comment at the start of a text
* `Prelude.strip`: a prelude without the blanks and comments at its front
-/

namespace CssOutline.Prelude

/-- The number of characters through the first `*/`. -/
def commentClose? : Text → Option Nat
  | [] => none
  | '*' :: '/' :: _ => some 2
  | _ :: rest => (commentClose? rest).map (· + 1)

/-- The number of characters of the whole comment at the start of a text. -/
def leadingComment? : Text → Option Nat
  | '/' :: '*' :: body => (commentClose? body).map (· + 2)
  | _ => none

/-- The text without blanks and whole comments at its front, where the first `skip` characters
belong to a comment already found. -/
def stripAfter : (skip : Nat) → Text → Text
  | _, [] => []
  | skip + 1, _ :: rest => stripAfter skip rest
  | 0, c :: rest =>
    if Text.isBlank c then stripAfter 0 rest
    else match leadingComment? (c :: rest) with
      | some length => stripAfter (length - 1) rest
      | none => c :: rest

/-- A text without the blanks and whole comments at its front. -/
def strip (text : Text) : Text := stripAfter 0 text

/-- The number of bytes that `strip` removes. -/
def leadingSize (text : Text) : Nat := Text.byteSize text - Text.byteSize (strip text)

example : strip [' ', '/', '*', '/', '*', '/', '\n', 'a', ' '] = ['a', ' '] := by decide

end CssOutline.Prelude
