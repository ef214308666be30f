import CssOutline.Source.FileView
import CssOutline.Source.Url
import Std.Data.HashMap

/-!
# Loaders

A loader gives the text of a stylesheet for an href. One loader serves texts from a shelf in
memory; another reads files below a folder.

## Main definitions

* `Loader`: texts by href
* `Shelf`, `Shelf.load`: texts kept in memory
* `Folder`, `Folder.resolve`, `Folder.load`: texts of files
-/

namespace CssOutline

/-- Gives the text of a stylesheet for an href. -/
abbrev Loader := String → Except LoadError Text

/-- Texts kept in memory by href. -/
structure Shelf where
  sheets : Std.HashMap String Text := ∅

namespace Shelf

/-- Puts a text on the shelf, in place of an earlier one under the same href. -/
def provide (shelf : Shelf) (href : String) (text : Text) : Shelf :=
  ⟨shelf.sheets.insert href text⟩

/-- Serves the texts of a shelf. -/
def load (shelf : Shelf) : Loader := fun href =>
  match shelf.sheets[href]? with
  | some text => .ok text
  | none => .error (.notFound href)

end Shelf

/-- A directory against which relative hrefs are resolved. -/
structure Folder where
  root : String

namespace Folder

/-- The path of the file for an href. A `file://` URL names a path of its own; other schemes are
refused; query and fragment do not count. -/
def resolve (folder : Folder) (href : String) : Except LoadError String :=
  match "file://".toList.isPrefixOf? (Url.path href) with
  | some path => .ok (String.ofList path)
  | none =>
    if Url.hasPart "://".toList (Url.path href) then .error (.unsupportedScheme href)
    else .ok (Url.joinPath folder.root (String.ofList (Url.path href)))

/-- Serves the files below a folder. -/
def load (folder : Folder) (view : FileView) : Loader := fun href => do
  let path ← folder.resolve href
  match view.read path with
  | .ok text => .ok text
  | .error .absent => .error (.notFound href)
  | .error fault => .error (.unreadable path fault)

end Folder

end CssOutline
