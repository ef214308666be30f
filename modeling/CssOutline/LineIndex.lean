import CssOutline.Text.Bytes

/-!
# Lines

A line ends at `\n`, at `\r` or at both together, and a text has one line more than line ends.
The index of a text holds where its lines start; the line of an offset is found by bisection.

## Main definitions

* `lineStartsAfter`: the starts of all lines but the first
* `LineIndex`, `LineIndex.ofText`: the index of a text
* `LineIndex.countUpTo`: the number of lines that start up to an offset
* `LineIndex.lineOf`: the line of an offset
-/

namespace CssOutline

/-- The starts of all lines but the first of a text that begins at offset `start`. -/
def lineStartsAfter (start : Nat) : Text → List Nat
  | [] => []
  | '\r' :: '\n' :: rest => (start + 2) :: lineStartsAfter (start + 2) rest
  | c :: rest =>
    if c = '\r' ∨ c = '\n' then (start + 1) :: lineStartsAfter (start + 1) rest
    else lineStartsAfter (start + c.utf8Size) rest

/-- Where the lines of a text start, in order. -/
structure LineIndex where
  starts : Array Nat
  deriving DecidableEq, Repr

namespace LineIndex

/-- The index of a text. -/
def ofText (text : Text) : LineIndex := ⟨(0 :: lineStartsAfter 0 text).toArray⟩

/-- The number of lines. -/
def size (index : LineIndex) : Nat := index.starts.size

/-- Whether there is no line; the index of a text has one at least. -/
def isEmpty (index : LineIndex) : Bool := index.starts.isEmpty

/-- The number of lines that start up to an offset, when `found` of them are known to and fewer
than `1 <<< bits` others do. -/
def countFrom (index : LineIndex) (offset : Nat) : (bits found : Nat) → Nat
  | 0, found => found
  | bits + 1, found =>
    match index.starts[found + 1 <<< bits - 1]? with
    | some start =>
      if start ≤ offset then index.countFrom offset bits (found + 1 <<< bits)
      else index.countFrom offset bits found
    | none => index.countFrom offset bits found

/-- The number of lines that start up to an offset. -/
def countUpTo (index : LineIndex) (offset : Nat) : Nat :=
  index.countFrom offset (index.size.log2 + 1) 0

/-- The line of an offset, counted from 1. An offset past the end is on the last line. -/
def lineOf (index : LineIndex) (offset : Nat) : Nat := max 1 (index.countUpTo offset)

example : ((ofText ['a', '\r', '\n', '\r', 'b']).lineOf <$> [0, 1, 2, 3, 4, 9]) =
    [1, 1, 1, 2, 3, 3] := by decide

end LineIndex

end CssOutline
