import CssOutline.Forest.Basic
import CssOutline.Rule

/-!
# Building an outline

An outline grows from left to right. The builder holds the blocks that are open, the rules that
are finished at each level, and where the prelude of the next rule begins. A closing brace ends
the innermost open block, or is passed over if no block is open.

## Main definitions

* `OpenBlock`: a block whose closing brace is not read yet
* `Builder`: an outline under construction
* `Builder.openBlock`, `Builder.closeBlock`, `Builder.addStatement`: what a brace and an import
  statement do to it
* `Builder.finish`: the outline at the end of the text
-/

namespace CssOutline

/-- Finished rules, each with the rules inside it, the last one first. -/
abbrev FinishedRules := List (Rule × Forest Rule)

/-- A block whose closing brace is not read yet. -/
structure OpenBlock where
  start : Nat
  bodyStart : Nat
  /-- The finished rules before the block, in the block around it. -/
  before : FinishedRules

/-- The finished rules from the given block on, once it stops with `inside` in it. -/
def OpenBlock.close (block : OpenBlock) (stop : Nat) (inside : FinishedRules) : FinishedRules :=
  ({ start := block.start, bodyStart := block.bodyStart, stop }, .ofNewest inside) :: block.before

/-- An outline under construction. -/
structure Builder where
  /-- Where the prelude of the next rule begins. -/
  pending : Nat := 0
  /-- The open blocks, the innermost first. -/
  opened : List OpenBlock := []
  /-- The finished rules right inside the innermost open block. -/
  finished : FinishedRules := []

namespace Builder

/-- Reads an opening brace: a block opens with what is pending as its prelude. -/
def openBlock (b : Builder) (brace : Nat) : Builder :=
  { pending := brace + 1
    opened := ⟨b.pending, brace, b.finished⟩ :: b.opened
    finished := [] }

/-- Reads a closing brace: the innermost open block, if there is one, stops there. -/
def closeBlock (b : Builder) (brace : Nat) : Builder :=
  match b.opened with
  | [] => { b with pending := brace + 1 }
  | block :: outer =>
    { pending := brace + 1
      opened := outer
      finished := block.close brace b.finished }

/-- Reads an import statement, whose keyword stops at `bodyStart`. -/
def addStatement (b : Builder) (start bodyStart stop : Nat) : Builder :=
  { b with
    pending := stop
    finished := ({ start, bodyStart, stop }, .nil) :: b.finished }

/-- The outline of a text that ends at offset `stop`: the blocks still open end there. -/
def finish (b : Builder) (stop : Nat) : Forest Rule :=
  .ofNewest (b.opened.foldl (fun inside block => block.close stop inside) b.finished)

end Builder

end CssOutline
