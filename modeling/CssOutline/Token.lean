import CssOutline.Text.Bytes

/-!
# Structural marks and tokens

The outline of a stylesheet hangs on eight marks: the two ends of a comment, the keyword
`@import`, the two braces, and the characters `/`, `*` and `@` where they form none of the
longer marks. Reading goes from left to right and takes the longest mark at each place; every
other character is passed over.

## Main definitions

* `Mark`, `Mark.literal`: the marks and how they are written
* `Mark.leading?`: the longest mark at the start of a text
* `Token`: a mark at a place
* `tokensFrom`, `tokens`: the tokens of a text

## Main results

* `tokensAfter_append`: a token that is read covers its characters
-/

namespace CssOutline

/-- A mark that matters for the outline of a stylesheet. -/
inductive Mark
  | commentOpen
  | commentClose
  | importKeyword
  | blockOpen
  | blockClose
  | slash
  | star
  | atSign
  deriving DecidableEq, Repr

namespace Mark

/-- How a mark is written. -/
def literal : Mark → Text
  | commentOpen => ['/', '*']
  | commentClose => ['*', '/']
  | importKeyword => ['@', 'i', 'm', 'p', 'o', 'r', 't']
  | blockOpen => ['{']
  | blockClose => ['}']
  | slash => ['/']
  | star => ['*']
  | atSign => ['@']

/-- The marks, each before those that are a start of it. -/
def longestFirst : List Mark :=
  [commentOpen, commentClose, importKeyword, blockOpen, blockClose, slash, star, atSign]

/-- The longest mark at the start of a text. -/
def leading? (text : Text) : Option Mark :=
  longestFirst.find? fun mark => mark.literal.isPrefixOf text

theorem mem_longestFirst (mark : Mark) : mark ∈ longestFirst := by
  cases mark <;> decide

/-- The number of bytes of a mark. -/
def byteSize (mark : Mark) : Nat := Text.byteSize mark.literal

end Mark

/-- A mark at a place of a text. -/
structure Token where
  mark : Mark
  /-- The offset of the first byte. -/
  start : Nat
  deriving DecidableEq, Repr

/-- The offset just past a token. -/
def Token.stop (token : Token) : Nat := token.start + token.mark.byteSize

/-- The tokens of a text that begins at offset `start`, of which the first `skip` characters
belong to a token already read. -/
def tokensAfter (start : Nat) : (skip : Nat) → Text → List Token
  | _, [] => []
  | skip + 1, c :: rest => tokensAfter (start + c.utf8Size) skip rest
  | 0, c :: rest =>
    match Mark.leading? (c :: rest) with
    | some mark =>
      ⟨mark, start⟩ :: tokensAfter (start + c.utf8Size) (mark.literal.length - 1) rest
    | none => tokensAfter (start + c.utf8Size) 0 rest

@[simp] theorem tokensAfter_nil (start skip : Nat) : tokensAfter start skip [] = [] := by
  cases skip <;> rfl

/-- Characters that belong to a token already read are passed over. -/
theorem tokensAfter_append (start : Nat) (read text : Text) :
    tokensAfter start read.length (read ++ text) =
      tokensAfter (start + read.byteSize) 0 text := by
  induction read generalizing start with
  | nil => rfl
  | cons c rest ih =>
    rw [List.length_cons, List.cons_append, tokensAfter, ih, Text.byteSize_cons, Nat.add_assoc]

/-- The tokens of a text that begins at offset `start`. -/
def tokensFrom (start : Nat) (text : Text) : List Token := tokensAfter start 0 text

/-- The tokens of a text. -/
def tokens (text : Text) : List Token := tokensFrom 0 text

example : tokens ['/', '*', '/'] = [⟨.commentOpen, 0⟩, ⟨.slash, 2⟩] := by decide

end CssOutline
