import CssOutline.Text.Blank

/-!
# Selectors

Selectors are compared as texts, so the selectors of rules and those that are asked for are
brought to one form first: line breaks become spaces, and blanks go from both ends and from
around the commas of a selector list.

## Main definitions

* `Selector.unbreak`: a character with line breaks turned into spaces
* `Selector.normalize`: the form in which selectors are compared
-/

namespace CssOutline.Selector

/-- A space for a line break, and any other character itself. -/
def unbreak (c : Char) : Char := if c = '\n' ∨ c = '\r' then ' ' else c

/-- The form in which selectors are compared: line breaks become spaces, the whole list is trimmed,
and then each of its items. -/
def normalize (selector : Text) : Text :=
  let list := Text.trim Text.isBlank (selector.map unbreak)
  [','].intercalate ((list.splitOn ',').map (Text.trim Text.isBlank))

example : normalize [' ', 'a', ' ', ',', '\n', 'b', '>', '\r', 'c', '\ufeff'] =
    ['a', ',', 'b', '>', ' ', 'c'] := by decide

end CssOutline.Selector
