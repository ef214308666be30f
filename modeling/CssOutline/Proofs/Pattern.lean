import CssOutline.Text.Bytes
import Mathlib.Data.List.Basic

/-!
# Patterns

A pattern is tried at a place of a text, and ends at other places. The order of its ends is the
order of its preferences: of two alternatives the first one is preferred, of the runs of a greedy
repetition the longest, of a lazy one the shortest. What the pattern takes is settled by the first
end from which everything behind it fits as well.

## Main definitions

* `Pattern`: words, characters of a class, repetitions, alternatives, a group and its repetition
* `Pattern.ends`: the ends of a pattern, the preferred ones first
* `Pattern.run`: the first end from which what is behind it succeeds
* `Pattern.length?`: the length in bytes of what a pattern takes at the start of a text

## Main results

* `Pattern.run_many`: a greedy repetition takes all it can where no shorter run is of use
-/

namespace CssOutline

/-- A place that a pattern has reached. -/
structure Place where
  /-- What the last group took. -/
  group : Text
  /-- The text behind the place. -/
  rest : Text

/-- The texts behind the runs of a class, behind the longest run first. -/
def Text.behindLongest (p : Char → Bool) : Text → List Text
  | [] => [[]]
  | c :: rest => if p c then behindLongest p rest ++ [c :: rest] else [c :: rest]

/-- The texts behind the runs of a class that are not empty, behind the shortest run first. -/
def Text.behindShortest (p : Char → Bool) : Text → List Text
  | [] => []
  | c :: rest => if p c then rest :: behindShortest p rest else []

/-- A pattern of which parts are preferred to others. -/
inductive Pattern
  /-- These characters. -/
  | word (text : Text)
  /-- A run of characters of a class, as long as possible. -/
  | many (p : Char → Bool)
  /-- A run of characters of a class, at least one of them and as few as possible. -/
  | few (p : Char → Bool)
  /-- One pattern behind another. -/
  | seq (first second : Pattern)
  /-- One of two patterns, the first one if possible. -/
  | either (preferred other : Pattern)
  /-- A pattern whose text is kept. -/
  | group (inside : Pattern)
  /-- The text that was kept. -/
  | again

namespace Pattern

/-- A pattern, or nothing if it must be. -/
def optional (pattern : Pattern) : Pattern := either pattern (word [])

/-- The places behind a word. -/
def wordEnds (text : Text) (place : Place) : List Place :=
  ((text.isPrefixOf? place.rest).map fun rest => { place with rest }).toList

/-- The places where a pattern may end, the preferred ones first. -/
def ends : Pattern → Place → List Place
  | word text, place => wordEnds text place
  | many p, place => (place.rest.behindLongest p).map fun rest => { place with rest }
  | few p, place => (place.rest.behindShortest p).map fun rest => { place with rest }
  | seq first second, place => (first.ends place).flatMap second.ends
  | either preferred other, place => preferred.ends place ++ other.ends place
  | group inside, place => (inside.ends place).map fun behind =>
    { behind with group := place.rest.take (place.rest.length - behind.rest.length) }
  | again, place => wordEnds place.group place

/-- The length in bytes of what a pattern takes at the start of a text. -/
def length? (pattern : Pattern) (text : Text) : Option Nat :=
  (pattern.ends ⟨[], text⟩).head?.map fun place => text.byteSize - place.rest.byteSize

/-! ## What is behind a pattern -/

section Run

variable {α : Type} (next : Place → Option α) (place : Place)

/-- What the first end leads to from which the next step succeeds. -/
def run (pattern : Pattern) : Option α := (pattern.ends place).findSome? next

theorem findSome?_wordEnds (text : Text) :
    (wordEnds text place).findSome? next =
      (text.isPrefixOf? place.rest).bind fun rest => next { place with rest } := by
  unfold wordEnds
  cases text.isPrefixOf? place.rest <;> simp

theorem run_word (text : Text) :
    (word text).run next place =
      (text.isPrefixOf? place.rest).bind fun rest => next { place with rest } :=
  findSome?_wordEnds next place text

theorem run_again :
    again.run next place =
      (place.group.isPrefixOf? place.rest).bind fun rest => next { place with rest } :=
  findSome?_wordEnds next place place.group

/-- Behind one pattern comes the other. -/
theorem run_seq (first second : Pattern) :
    (first.seq second).run next place = first.run (fun behind => second.run next behind) place := by
  unfold run
  rw [ends]
  induction first.ends place with
  | nil => rfl
  | cons behind behinds ih =>
    rw [List.flatMap_cons, List.findSome?_append, ih, List.findSome?_cons]
    cases (second.ends behind).findSome? next <;> rfl

theorem run_either (preferred other : Pattern) :
    (preferred.either other).run next place =
      (preferred.run next place).or (other.run next place) := by
  unfold run
  rw [ends]
  exact List.findSome?_append

theorem run_optional (pattern : Pattern) :
    pattern.optional.run next place = (pattern.run next place).or (next place) := by
  unfold optional
  rw [run_either, run_word]
  rfl

theorem run_group (inside : Pattern) :
    (group inside).run next place = inside.run (fun behind => next { behind with
      group := place.rest.take (place.rest.length - behind.rest.length) }) place := by
  unfold run
  rw [ends, List.findSome?_map]
  rfl

theorem run_few (p : Char → Bool) :
    (few p).run next place =
      (place.rest.behindShortest p).findSome? fun rest => next { place with rest } := by
  unfold run
  rw [ends, List.findSome?_map]
  rfl

/-- **A greedy repetition takes all it can** if what is behind it does not begin with one of its
characters. -/
theorem run_many {p : Char → Bool} {place : Place}
    (h : ∀ c rest, p c → next { place with rest := c :: rest } = none) :
    (many p).run next place = next { place with rest := place.rest.dropWhile p } := by
  have hrest : ∀ rest : Text, (rest.behindLongest p).findSome?
      (fun rest => next { place with rest }) =
        next { place with rest := rest.dropWhile p } := by
    intro rest
    induction rest with
    | nil => simp [Text.behindLongest]
    | cons c rest ih =>
      rw [Text.behindLongest, List.dropWhile_cons]
      split
      · next hc =>
        rw [List.findSome?_append, ih, List.findSome?_singleton, h c rest hc, Option.or_none]
      · exact List.findSome?_singleton
  unfold run
  rw [ends, List.findSome?_map]
  exact hrest place.rest

/-- A pattern takes all that is in front of its first end. -/
theorem length?_eq_run (pattern : Pattern) (text : Text) :
    pattern.length? text =
      (pattern.run (fun behind => some behind.rest) ⟨[], text⟩).map fun rest =>
        text.byteSize - rest.byteSize := by
  unfold length? run
  cases pattern.ends ⟨[], text⟩ <;> rfl

end Run

end Pattern

end CssOutline
