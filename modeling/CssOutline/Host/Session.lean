import CssOutline.Host.Annotate

/-!
# Sessions with a host

A session answers the requests of a host one after the other. It keeps a shelf of texts, a cache
of the stylesheets loaded from the shelf, and the configuration for annotating rules.

## Main definitions

* `Request`, `Answer`: what a host asks for and gets
* `Session`, `Session.step`: one request
* `Session.run`: a sequence of requests
-/

namespace CssOutline

/-- A request of a host. -/
inductive Request
  /-- Puts a text on the shelf. -/
  | provide (href : String) (text : Text)
  /-- Changes the configuration. -/
  | configure (config : Config)
  /-- Asks for a stylesheet that is in the cache. -/
  | get (href : String)
  /-- Asks for a stylesheet, loading it if it is not in the cache. -/
  | load (href : String)
  /-- Asks for a text on the shelf, past the cache. -/
  | loadText (href : String)
  /-- Puts the stylesheet of a text into the cache. -/
  | insert (href : String) (text : Text)
  /-- Takes a stylesheet out of the cache. -/
  | invalidate (href : String)
  /-- Asks for the lines of reported rules. -/
  | annotate (rules : List ReportedRule)
  /-- Asks for the line of a rule by its position. -/
  | lineForIndex (href : String) (index : Nat)
  /-- Asks for the title of a link. -/
  | title (url : String) (line : Nat)

/-- An answer to a request. -/
inductive Answer
  | provided
  | configured (config : Config)
  | kept (sheet : Option Stylesheet)
  | loaded (sheet : Except LoadError Stylesheet)
  | text (text : Except LoadError Text)
  | inserted (sheet : Stylesheet)
  | invalidated (wasKept : Bool)
  | annotated (report : Annotated)
  | line (line : Option Nat)
  | title (title : String)

/-- The state of a session. -/
structure Session where
  shelf : Shelf := {}
  cache : Cache := {}
  config : Config := {}

namespace Session

/-- Answers one request. -/
def step (s : Session) : Request → Answer × Session
  | .provide href text => (.provided, { s with shelf := s.shelf.provide href text })
  | .configure config => (.configured config, { s with config })
  | .get href => (.kept (s.cache.get? href), s)
  | .load href =>
    let (sheet, cache) := s.cache.load s.shelf.load href
    (.loaded sheet, { s with cache })
  | .loadText href => (.text (s.shelf.load href), s)
  | .insert href text => (.inserted (.ofText text), { s with cache := s.cache.insert href text })
  | .invalidate href =>
    let (wasKept, cache) := s.cache.invalidate href
    (.invalidated wasKept, { s with cache })
  | .annotate rules =>
    let (report, cache) := CssOutline.annotate s.config s.shelf.load s.cache rules
    (.annotated report, { s with cache })
  | .lineForIndex href index =>
    let (line, cache) := s.cache.lineForIndex? s.shelf.load href index
    (.line line, { s with cache })
  | .title url line => (.title (s.config.linkTitle url line), s)

/-- The state after a sequence of requests. -/
def run (s : Session) (requests : List Request) : Session :=
  requests.foldl (fun s request => (s.step request).2) s

end Session

end CssOutline
