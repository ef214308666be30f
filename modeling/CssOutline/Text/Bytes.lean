/-!
# Texts and their byte offsets

A text is a list of Unicode scalars. Every offset in this library counts the bytes of the
text's UTF-8 encoding, so an offset may fall inside a character; cutting there fails.

## Main definitions

* `Text`: the text of a stylesheet, of a selector, of a rendered outline
* `Text.byteSize`: the length of a text in bytes
* `Text.splitAt?`: a text cut at a byte offset
* `Text.slice?`: the part of a text between two byte offsets

## Main results

* `Text.splitAt?_eq_some_iff`: the pieces of a cut are the only ones that fit
-/

namespace CssOutline

/-- The text of a stylesheet or of a part of one. -/
abbrev Text := List Char

namespace Text

/-- The length of a text in bytes of UTF-8. -/
def byteSize : Text → Nat
  | [] => 0
  | c :: rest => c.utf8Size + byteSize rest

@[simp] theorem byteSize_nil : byteSize [] = 0 := rfl

@[simp] theorem byteSize_cons (c : Char) (rest : Text) :
    byteSize (c :: rest) = c.utf8Size + byteSize rest := rfl

@[simp] theorem byteSize_append (a b : Text) : byteSize (a ++ b) = byteSize a + byteSize b := by
  induction a with
  | nil => simp
  | cons c rest ih => simp [ih, Nat.add_assoc]

/-- The text before a byte offset and the text from it on; `none` past the end or inside a
character. -/
def splitAt? : Nat → Text → Option (Text × Text)
  | 0, text => some ([], text)
  | _ + 1, [] => none
  | n + 1, c :: rest =>
    if c.utf8Size ≤ n + 1 then
      (splitAt? (n + 1 - c.utf8Size) rest).map fun (before, after) => (c :: before, after)
    else none

@[simp] theorem splitAt?_zero (text : Text) : splitAt? 0 text = some ([], text) := by
  cases text <;> rfl

theorem splitAt?_cons {c : Char} {n : Nat} (h : c.utf8Size ≤ n) (rest : Text) :
    splitAt? n (c :: rest) =
      (splitAt? (n - c.utf8Size) rest).map fun (before, after) => (c :: before, after) := by
  obtain _ | n := n
  · exact absurd h (Nat.not_le.mpr c.utf8Size_pos)
  · simp [splitAt?, h]

theorem splitAt?_append (a b : Text) : splitAt? (byteSize a) (a ++ b) = some (a, b) := by
  induction a with
  | nil => simp
  | cons c rest ih =>
    rw [List.cons_append, splitAt?_cons (by simp), byteSize_cons, Nat.add_sub_cancel_left, ih]
    rfl

/-- A cut succeeds exactly where the text is made of two pieces, the first as long as asked. -/
theorem splitAt?_eq_some_iff {n : Nat} {text a b : Text} :
    splitAt? n text = some (a, b) ↔ text = a ++ b ∧ byteSize a = n := by
  constructor
  · intro h
    induction text generalizing n a b with
    | nil =>
      obtain _ | n := n
      · obtain ⟨rfl, rfl⟩ := by simpa using h
        simp
      · simp [splitAt?] at h
    | cons c rest ih =>
      obtain _ | n := n
      · obtain ⟨rfl, rfl⟩ := by simpa using h
        simp
      · by_cases hc : c.utf8Size ≤ n + 1
        · rw [splitAt?_cons hc] at h
          obtain ⟨⟨a', b'⟩, hs, he⟩ := Option.map_eq_some_iff.mp h
          obtain ⟨hr, hn⟩ := ih hs
          simp only [Prod.mk.injEq] at he
          obtain ⟨rfl, rfl⟩ := he
          exact ⟨by simp [hr], by rw [byteSize_cons, hn]; omega⟩
        · simp [splitAt?, hc] at h
  · rintro ⟨rfl, rfl⟩
    exact splitAt?_append a b

/-- The text from a byte offset on. -/
def dropBytes? (offset : Nat) (text : Text) : Option Text :=
  (splitAt? offset text).map (·.2)

/-- The text between two byte offsets; `none` if they are reversed, past the end or inside a
character. -/
def slice? (text : Text) (start stop : Nat) : Option Text := do
  guard (start ≤ stop)
  let rest ← text.dropBytes? start
  let (inside, _) ← rest.splitAt? (stop - start)
  return inside

end Text

end CssOutline
