/-!
# Failures to load a stylesheet

## Main definitions

* `ReadFault`: why a file cannot be read
* `LoadError`: why a stylesheet cannot be loaded
* `LoadError.message`: the wording for a reader
-/

namespace CssOutline

/-- Why a file cannot be read. -/
inductive ReadFault
  /-- There is no such file. -/
  | absent
  /-- The path leads to a directory. -/
  | isDirectory
  /-- The path goes on below a file. -/
  | notDirectory
  /-- The path holds a NUL character. -/
  | nulInName
  deriving DecidableEq, Repr

/-- The wording of the operating system for a fault. -/
def ReadFault.message : ReadFault → String
  | absent => "No such file or directory (os error 2)"
  | isDirectory => "Is a directory (os error 21)"
  | notDirectory => "Not a directory (os error 20)"
  | nulInName => "file name contained an unexpected NUL byte"

/-- Why a stylesheet cannot be loaded. -/
inductive LoadError
  /-- There is no stylesheet under the href. -/
  | notFound (href : String)
  /-- The href names a scheme that is not served. -/
  | unsupportedScheme (href : String)
  /-- The file of the stylesheet cannot be read. -/
  | unreadable (path : String) (fault : ReadFault)
  deriving DecidableEq, Repr

/-- The wording for a reader. -/
def LoadError.message : LoadError → String
  | notFound href => s!"stylesheet not found: {href}"
  | unsupportedScheme href => s!"unsupported stylesheet url: {href}"
  | unreadable path fault => s!"failed to read stylesheet '{path}': {fault.message}"

end CssOutline
