import CssOutline.Source.Loader
import CssOutline.Stylesheet

/-!
# The stylesheet cache

The cache outlines the text of each href once. A failed load leaves no trace among the
stylesheets, so it is tried again at the next request. Every question that the cache puts to a
loader is recorded.

## Main definitions

* `Fetch`: a question put to a loader
* `Cache`: the stylesheets so far and the questions asked for them
* `Cache.get?`, `Cache.load`: a stylesheet without and with the help of a loader
* `Cache.insert`, `Cache.invalidate`: stylesheets put in and taken out by hand
-/

namespace CssOutline

/-- A question put to a loader. -/
structure Fetch where
  href : String
  /-- Whether the loader had a text. -/
  found : Bool
  deriving DecidableEq, Repr

/-- The stylesheets outlined so far. -/
structure Cache where
  sheets : Std.HashMap String Stylesheet := ∅
  /-- The questions put to loaders, the last one first. -/
  fetches : List Fetch := []

namespace Cache

/-- The stylesheet kept under an href. -/
def get? (cache : Cache) (href : String) : Option Stylesheet := cache.sheets[href]?

/-- The number of stylesheets kept. -/
def size (cache : Cache) : Nat := cache.sheets.size

/-- Whether no stylesheet is kept. -/
def isEmpty (cache : Cache) : Bool := cache.sheets.isEmpty

/-- Keeps the stylesheet of a text under an href, in place of an earlier one. -/
def insert (cache : Cache) (href : String) (source : Text) : Cache :=
  { cache with sheets := cache.sheets.insert href (.ofText source) }

/-- Records a question put to a loader. -/
def record (cache : Cache) (href : String) (found : Bool) : Cache :=
  { cache with fetches := ⟨href, found⟩ :: cache.fetches }

/-- The stylesheet of an href: the one kept, or else the one of the loader's text, which is then
kept. -/
def load (loader : Loader) (cache : Cache) (href : String) :
    Except LoadError Stylesheet × Cache :=
  match cache.get? href with
  | some sheet => (.ok sheet, cache)
  | none =>
    match loader href with
    | .ok source => (.ok (.ofText source), (cache.record href true).insert href source)
    | .error error => (.error error, cache.record href false)

/-- Gives up the stylesheet of an href, and tells whether there was one. -/
def invalidate (cache : Cache) (href : String) : Bool × Cache :=
  (cache.sheets.contains href, { cache with sheets := cache.sheets.erase href })

/-- The line of a rule in no block, by the href of its stylesheet and its position. -/
def lineForIndex? (loader : Loader) (cache : Cache) (href : String) (index : Nat) :
    Option Nat × Cache :=
  match cache.load loader href with
  | (.ok sheet, cache) => (sheet.lineForIndex? index, cache)
  | (.error _, cache) => (none, cache)

end Cache

end CssOutline
