import CssOutline.Source.LoadError
import CssOutline.Text.Bytes

/-!
# Files

A view of a file system says what there is at each place of a directory tree. A path is followed
name by name, and only through directories.

## Main definitions

* `FileEntry`, `FileView`: what there is at a place
* `FileView.follow`: the text at the end of a path
* `FileView.read`: the text of a file
-/

namespace CssOutline

/-- What there is at a place of a file system. -/
inductive FileEntry
  | directory
  | file (text : Text)

/-- A view of a file system. Places are lists of names, from the top directory down. -/
structure FileView where
  entryAt : List Text → Option FileEntry
  /-- The directory in which relative paths start. -/
  workingDirectory : List Text

namespace FileView

/-- The text at the end of a path that starts at a place. The names `.` and the empty one stay
at the place, and `..` goes one directory up. -/
def follow (view : FileView) (place : List Text) : List Text → Except ReadFault Text
  | [] =>
    match view.entryAt place with
    | none => .error .absent
    | some .directory => .error .isDirectory
    | some (.file text) => .ok text
  | name :: rest =>
    match view.entryAt place with
    | none => .error .absent
    | some (.file _) => .error .notDirectory
    | some .directory =>
      if name = [] ∨ name = ['.'] then view.follow place rest
      else if name = ['.', '.'] then view.follow place.dropLast rest
      else view.follow (place ++ [name]) rest

/-- The text of the file at a path. A NUL character is refused before anything is looked up. -/
def read (view : FileView) (path : String) : Except ReadFault Text :=
  let chars := path.toList
  if chars.contains '\x00' then .error .nulInName
  else if chars = [] then .error .absent
  else
    let start := if chars.head? = some '/' then [] else view.workingDirectory
    view.follow start (chars.splitOn '/')

end FileView

end CssOutline
