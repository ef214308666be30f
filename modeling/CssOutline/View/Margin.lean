import CssOutline.LineIndex
import CssOutline.RuleTree
import CssOutline.Text.Blank
import CssOutline.Text.Decimal

/-!
# A text with marks in its margin

The margin view numbers the lines of a text and marks, in one column per depth, where rules
start.

## Main definitions

* `Marker`, `RuleTree.markers`: the lines on which rules start, with the depths of the rules
* `marginOf?`, `lineText?`: the marks for a line and the line itself
* `marginRows?`, `renderMargin?`, `renderMargin`: the view
-/

namespace CssOutline

/-- A rule that starts on a line at a depth. -/
structure Marker where
  rule : Address
  line : Nat
  depth : Nat
  deriving DecidableEq, Repr

/-- The markers of trees number `i` and on at a depth below the address `above`. -/
def Forest.markersFrom (above : Address) (i depth : Nat) : Forest Rule → List Marker
  | nil => []
  | cons rule below after =>
    (rule.line.map fun line => ⟨above ++ [i], line, depth⟩).toList ++
      below.markersFrom (above ++ [i]) 0 (depth + 1) ++ after.markersFrom above (i + 1) depth

/-- A marker for each rule whose line is known, in document order. Rules in no block are at
depth 0. -/
def RuleTree.markers (tree : RuleTree) : List Marker := tree.top.markersFrom RuleTree.root 0 0

/-- The number of columns that markers need. -/
def marginColumns (markers : List Marker) : Nat :=
  (markers.map fun marker => marker.depth + 1).foldl max 0

/-- Columns with a mark in the one of a depth; `none` if there is no such column. -/
def markColumn? (columns : Text) (depth : Nat) : Option Text :=
  if depth < columns.length then some (columns.set depth '>') else none

/-- The columns of a line: spaces, and a mark for each rule that starts there. -/
def marginOf? (markers : List Marker) (columns line : Nat) : Option Text :=
  (markers.filter fun marker => marker.line == line).foldlM
    (fun margin marker => markColumn? margin marker.depth) (List.replicate columns ' ')

/-- Whether a character ends a line. -/
def isLineEnd (c : Char) : Bool := c == '\r' || c == '\n'

/-- The line that starts at number `i` of the index of a text, without its end; `none` if the index
does not fit the text. -/
def lineText? (text : Text) (index : LineIndex) (i : Nat) : Option Text := do
  let start ← index.starts[i]?
  let line ← text.slice? start (index.starts.getD (i + 1) text.byteSize)
  return Text.trimEnd isLineEnd line

/-- The rows of the margin view of a text: the number of the line, its columns and its text, a
space between them and no white space at the end. -/
def marginRows? (text : Text) (tree : RuleTree) : Option (List Text) :=
  let index := LineIndex.ofText text
  let markers := tree.markers
  let columns := marginColumns markers
  let numberWidth := (decimal index.size).length
  (List.range index.size).mapM fun i => do
    let margin ← marginOf? markers columns (i + 1)
    let line ← lineText? text index i
    let number := (decimal (i + 1)).leftpad numberWidth ' '
    return Text.trimEnd Text.isWhiteSpace (number ++ ' ' :: margin ++ ' ' :: line)

/-- The margin view of a text, if every mark has its column and every line its text. -/
def renderMargin? (text : Text) (tree : RuleTree) : Option Text :=
  (marginRows? text tree).map ['\n'].intercalate

/-- The margin view of a text. There is one for every text and every tree. -/
def renderMargin (text : Text) (tree : RuleTree) : Text := (renderMargin? text tree).getD []

end CssOutline
