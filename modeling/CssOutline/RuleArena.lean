import CssOutline.Rule
import Std.Data.HashMap

/-!
# Rules in an arena

Rules can be kept in the order in which they come up, each named by its key: the number of rules
that were there before it. Their places are kept beside them, in a map from each rule to those right
inside it and in a map from each rule to the one around it. The maps are followed upwards and
downwards without looking at anything else.

## Main definitions

* `RuleArena`, `RuleArena.empty`: rules with maps for their places
* `RuleArena.insertChild?`, `RuleArena.modify`: an arena with one rule more, and with one changed
* `RuleArena.get?`, `RuleArena.parent?`, `RuleArena.children`: what is kept for a key
* `RuleArena.Climbs`, `RuleArena.depthOf`: the way up
* `RuleArena.Visits`, `RuleArena.entriesOf`: the way down
-/

namespace CssOutline

/-- The name of a rule in an arena. -/
abbrev Key := Nat

/-- Rules by key, with maps for their places. -/
structure RuleArena where
  nodes : Array Rule
  /-- The rules right inside a rule, in document order. -/
  childKeys : Std.HashMap Key (List Key)
  /-- The rule around a rule; the root has none. -/
  parentKeys : Std.HashMap Key Key
  root : Key

namespace RuleArena

/-- The arena that holds the root and nothing else. -/
def empty : RuleArena where
  nodes := #[{}]
  childKeys := (∅ : Std.HashMap Key (List Key)).insert 0 []
  parentKeys := ∅
  root := 0

/-- Whether there is a rule with a key. -/
def contains (arena : RuleArena) (key : Key) : Bool := key < arena.nodes.size

/-- The rule with a key. -/
def get? (arena : RuleArena) (key : Key) : Option Rule := arena.nodes[key]?

/-- The rule around a rule. -/
def parent? (arena : RuleArena) (key : Key) : Option Key := arena.parentKeys[key]?

/-- The rules right inside a rule, in document order. -/
def children (arena : RuleArena) (key : Key) : List Key := arena.childKeys.getD key []

/-- The arena with a new last rule right inside the rule with the key `parent`, and the key of the
new rule. -/
def insertChild? (arena : RuleArena) (parent : Key) (rule : Rule) : Option (RuleArena × Key) :=
  if arena.contains parent then
    let key := arena.nodes.size
    let childKeys := arena.childKeys.insert key []
    some ({ arena with
      nodes := arena.nodes.push rule
      childKeys := match childKeys[parent]? with
        | some siblings => childKeys.insert parent (siblings ++ [key])
        | none => childKeys
      parentKeys := arena.parentKeys.insert key parent }, key)
  else none

/-- The arena with the rule of a key changed. -/
def modify (arena : RuleArena) (key : Key) (change : Rule → Rule) : RuleArena :=
  { arena with nodes := arena.nodes.modify key change }

/-! ## Ways up and down

Both ways end where the maps lead nowhere. Maps that lead around in a circle have no way that ends. -/

/-- The way up from a rule to its parent, from there to the next one, and so on, ends and meets the
given keys. -/
inductive Climbs (arena : RuleArena) : Key → List Key → Prop
  | stop {key : Key} (last : arena.parent? key = none) : Climbs arena key []
  | up {key above : Key} {met : List Key} (next : arena.parent? key = some above)
      (more : Climbs arena above met) : Climbs arena key (above :: met)

/-- Taking keys off a stack one at a time ends and meets the given keys. A key with a rule is met,
and its children come on top of the stack, the first one uppermost; other keys are passed over. -/
inductive Visits (arena : RuleArena) : List Key → List Key → Prop
  | done : Visits arena [] []
  | pass {key : Key} {stack met : List Key} (free : ¬ arena.contains key)
      (more : Visits arena stack met) : Visits arena (key :: stack) met
  | meet {key : Key} {stack met : List Key} (found : arena.contains key)
      (more : Visits arena (arena.children key ++ stack) met) :
      Visits arena (key :: stack) (key :: met)

/-- The number of blocks around a rule, of which the way up meets the given keys. -/
def depthOf (met : List Key) : Nat := met.length - 1

/-- The listing of the rules, of which the way down from the root meets the given keys. -/
def entriesOf (arena : RuleArena) (met : List Key) : List (Key × Rule) :=
  (met.drop 1).filterMap fun key => (arena.get? key).map fun rule => (key, rule)

/-- The number of rules, without the root. -/
def size (arena : RuleArena) : Nat := arena.nodes.size - 1

end RuleArena

end CssOutline
