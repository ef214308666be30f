import CssOutline.Text.Bytes

/-!
# Blanks

Two classes of blank characters: the Unicode property `White_Space`, and the blanks around a
selector, which also hold the byte order mark so that a mark at the top of a stylesheet never
becomes part of its first selector.

## Main definitions

* `Text.whiteSpace`: the ranges of `White_Space`
* `Text.isWhiteSpace`, `Text.isBlank`: the two classes
* `Text.trimStart`, `Text.trimEnd`, `Text.trim`: a text without the characters of a class at
  its ends
-/

namespace CssOutline.Text

/-- The code points with the Unicode property `White_Space`, as closed ranges in order. -/
def whiteSpace : List (Nat × Nat) :=
  [(0x09, 0x0D), (0x20, 0x20), (0x85, 0x85), (0xA0, 0xA0), (0x1680, 0x1680), (0x2000, 0x200A),
    (0x2028, 0x2029), (0x202F, 0x202F), (0x205F, 0x205F), (0x3000, 0x3000)]

example : (whiteSpace.map fun (first, last) => last + 1 - first).sum = 25 := rfl

/-- Whether a character has the property `White_Space`. -/
def isWhiteSpace (c : Char) : Bool :=
  whiteSpace.any fun (first, last) => first ≤ c.toNat && c.toNat ≤ last

/-- Whether a character is blank around a selector: white space or the byte order mark. -/
def isBlank (c : Char) : Bool := isWhiteSpace c || c == '\ufeff'

/-- A text without the characters of a class at its start. -/
def trimStart (drop : Char → Bool) (text : Text) : Text := text.dropWhile drop

/-- A text without the characters of a class at its end. -/
def trimEnd (drop : Char → Bool) (text : Text) : Text := (text.reverse.dropWhile drop).reverse

/-- A text without the characters of a class at either end. -/
def trim (drop : Char → Bool) (text : Text) : Text := trimEnd drop (trimStart drop text)

end CssOutline.Text
