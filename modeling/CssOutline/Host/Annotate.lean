import CssOutline.Host.Cache
import CssOutline.Text.Decimal

/-!
# Lines for reported rules

A host reports the rules that apply to an element by selector and href. Where a selector occurs
several times in a stylesheet, its first report stands for the first occurrence, the second for
the second, and so on.

## Main definitions

* `Config`: how rules are annotated
* `ReportedRule`: a rule as the host reports it
* `Annotator.place`: the line of the next reported rule
* `annotate`: the lines of all reported rules
* `Config.linkTitle`: the title of a link to a line
-/

namespace CssOutline

/-- How rules are annotated. -/
structure Config where
  /-- Reports past the last occurrence of a selector stand for the last one. -/
  clampRepeated : Bool := true
  /-- Titles of links show the whole URL. -/
  fullUrlTitles : Bool := false
  deriving DecidableEq, Repr

/-- The title of a link to a line of a stylesheet. -/
def Config.linkTitle (config : Config) (url : String) (line : Nat) : String :=
  (if config.fullUrlTitles then url else Url.displayName url) ++ ":" ++ String.ofList (decimal line)

/-- A rule as the host reports it. -/
structure ReportedRule where
  /-- The stylesheet of the rule; an inline rule has none. -/
  href : Option String
  selector : Text
  deriving DecidableEq, Repr

/-- The lines found for reported rules. -/
structure Annotated where
  /-- A line, or none, for each rule in the order of the report. -/
  lines : List (Option Nat)
  /-- Whether a rule with a stylesheet has no line. -/
  hasUnmatched : Bool
  deriving DecidableEq, Repr

/-- The line for the report number `nth` of a selector, counted from 0. -/
def Stylesheet.lineForReport? (config : Config) (sheet : Stylesheet) (selector : Text)
    (nth : Nat) : Option Nat :=
  (sheet.find? selector).bind fun found =>
    if nth < found.length || config.clampRepeated then sheet.lineAmong? found nth else none

/-- Selectors are hashed as strings. -/
instance : Hashable Text := ⟨fun text => hash (String.ofList text)⟩

/-- What is carried from one reported rule to the next. -/
structure Annotator where
  /-- How often each selector of a stylesheet has been reported. -/
  seen : Std.HashMap (String × Text) Nat := ∅
  cache : Cache
  /-- Whether a rule with a stylesheet got no line. -/
  hasUnmatched : Bool := false

namespace Annotator

/-- The line of the next reported rule. A rule counts as reported even if its stylesheet cannot
be loaded. -/
def place (config : Config) (loader : Loader) (a : Annotator) (rule : ReportedRule) :
    Option Nat × Annotator :=
  match rule.href with
  | none => (none, a)
  | some href =>
    let selector := Selector.normalize rule.selector
    let nth := a.seen.getD (href, selector) 0
    let seen := a.seen.insert (href, selector) (nth + 1)
    let (loaded, cache) := a.cache.load loader href
    let line := match loaded with
      | .ok sheet => sheet.lineForReport? config selector nth
      | .error _ => none
    (line, { seen, cache, hasUnmatched := a.hasUnmatched || line.isNone })

/-- The lines of reported rules. -/
def placeAll (config : Config) (loader : Loader) :
    Annotator → List ReportedRule → List (Option Nat) × Annotator
  | a, [] => ([], a)
  | a, rule :: rules =>
    let (line, a) := a.place config loader rule
    let (lines, a) := a.placeAll config loader rules
    (line :: lines, a)

end Annotator

/-- The lines of reported rules. Stylesheets are loaded through the cache; one that cannot be
loaded leaves its rules without a line. -/
def annotate (config : Config) (loader : Loader) (cache : Cache) (rules : List ReportedRule) :
    Annotated × Cache :=
  let (lines, a) := Annotator.placeAll config loader { cache } rules
  ({ lines, hasUnmatched := a.hasUnmatched }, a.cache)

end CssOutline
