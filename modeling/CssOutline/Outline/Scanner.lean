import CssOutline.ImportStatement
import CssOutline.Outline.Builder
import CssOutline.RuleTree

/-!
# Scanning a stylesheet

The scanner reads the tokens of a text from left to right. Comment marks change the comment
depth, which never falls below zero, so comments nest. Braces and import statements count at
depth zero only. The tokens inside an import statement count for nothing at all.

## Main definitions

* `Scanner`: what the scanner has read so far
* `Scanner.step`, `Scanner.run`: reading one token, and all tokens of a text
* `scan`: the rules of a text with their offsets
-/

namespace CssOutline

/-- What the scanner has read so far. -/
structure Scanner where
  /-- The number of comments that are open. -/
  commentDepth : Nat := 0
  /-- The end of the last import statement; tokens before it are part of the statement. -/
  resume : Nat := 0
  outline : Builder := {}

namespace Scanner

/-- Reads an import keyword at an offset. Without a statement there it counts for nothing. -/
def readImport (text : Text) (s : Scanner) (start : Nat) : Scanner :=
  match (text.dropBytes? start).bind importLength? with
  | some length =>
    { s with
      resume := start + length
      outline :=
        s.outline.addStatement start (start + Mark.importKeyword.byteSize) (start + length) }
  | none => s

/-- Reads one token of a text. -/
def step (text : Text) (s : Scanner) (token : Token) : Scanner :=
  if token.start < s.resume then s
  else match token.mark with
    | .commentOpen => { s with commentDepth := s.commentDepth + 1 }
    | .commentClose => { s with commentDepth := s.commentDepth - 1 }
    | .importKeyword => if s.commentDepth = 0 then s.readImport text token.start else s
    | .blockOpen =>
      if s.commentDepth = 0 then { s with outline := s.outline.openBlock token.start } else s
    | .blockClose =>
      if s.commentDepth = 0 then { s with outline := s.outline.closeBlock token.start } else s
    | .slash | .star | .atSign => s

/-- The state after the given tokens of a text. -/
def readTokens (text : Text) (read : List Token) : Scanner := read.foldl (step text) {}

theorem readTokens_concat (text : Text) (read : List Token) (token : Token) :
    readTokens text (read ++ [token]) = (readTokens text read).step text token := by
  simp [readTokens]

/-- The state at the end of a text. -/
def run (text : Text) : Scanner := readTokens text (tokens text)

end Scanner

/-- The rules of a text with their offsets, without selectors and lines. It always succeeds:
stray braces are passed over, and open blocks end with the text. -/
def scan (text : Text) : RuleTree := ⟨(Scanner.run text).outline.finish text.byteSize⟩

end CssOutline
