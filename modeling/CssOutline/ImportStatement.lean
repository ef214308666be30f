import CssOutline.Text.Blank
import CssOutline.Token

/-!
# Import statements

An import statement is the keyword `@import`, blanks, `url(`, an argument on one line, a closing
parenthesis, and a semicolon if one follows at once. The argument holds at least one character.
Where it begins with a quote and a parenthesis can still close it behind a further character,
that one does, so `url(')')` is closed by the second parenthesis.

## Main definitions

* `closeFrom?`: the first closing parenthesis of a line from some character on
* `argumentClose?`: the closing parenthesis of the argument of `url(`
* `importStatement?`: the import statement at the start of a text
* `importLength?`: its length in bytes
-/

namespace CssOutline

/-- The index of the first closing parenthesis among the characters from index `skip` on;
`none` if the line ends before it. -/
def closeFrom? : (skip : Nat) → Text → Option Nat
  | _, [] => none
  | 0, c :: rest =>
    if c = ')' then some 0 else if c = '\n' then none else (closeFrom? 0 rest).map (· + 1)
  | skip + 1, c :: rest => if c = '\n' then none else (closeFrom? skip rest).map (· + 1)

/-- Whether a text begins with a quote, single or double. -/
def startsQuoted : Text → Bool
  | [] => false
  | c :: _ => c == '\'' || c == '"'

/-- The index of the parenthesis that closes the argument of `url(`. A quoted argument has a
character between its quote and the parenthesis if it can. -/
def argumentClose? (argument : Text) : Option Nat :=
  (if startsQuoted argument then closeFrom? 2 argument else none) <|> closeFrom? 1 argument

/-- How the argument of an import statement is opened. -/
def urlOpen : Text := ['u', 'r', 'l', '(']

/-- The import statement at the start of a text. -/
def importStatement? (text : Text) : Option Text := do
  let unread ← Mark.importKeyword.literal.isPrefixOf? text
  let blanks := unread.takeWhile Text.isWhiteSpace
  let argument ← urlOpen.isPrefixOf? (unread.dropWhile Text.isWhiteSpace)
  let close ← argumentClose? argument
  let (closed, after) := argument.splitAt (close + 1)
  let semicolon := (after.take 1).filter (· == ';')
  return Mark.importKeyword.literal ++ blanks ++ urlOpen ++ closed ++ semicolon

/-- The length in bytes of the import statement at the start of a text. -/
def importLength? (text : Text) : Option Nat := (importStatement? text).map Text.byteSize

end CssOutline
