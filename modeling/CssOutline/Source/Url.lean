import CssOutline.Text.Blank

/-!
# URLs of stylesheets

## Main definitions

* `Url.path`: a URL without its query and fragment
* `Url.displayName`: a short name for a URL
* `Url.joinPath`: a path below a directory
-/

namespace CssOutline.Url

/-- A URL without its query and fragment. -/
def path (url : String) : Text := url.toList.takeWhile fun c => c != '?' && c != '#'

/-- The last segment of the path of a URL. A URL whose last segment is empty or ends in a colon
is its own name. -/
def displayName (url : String) : String :=
  let segments := (Text.trimEnd (· == '/') (path url)).splitOn '/'
  let name := segments.getLastD []
  if name.isEmpty || name.getLast? == some ':' then url else String.ofList name

/-- Whether a text holds another one as a contiguous part. -/
def hasPart (part : Text) : Text → Bool
  | [] => part.isEmpty
  | c :: rest => part.isPrefixOf (c :: rest) || hasPart part rest

/-- A path below a directory. An absolute path stays as it is. -/
def joinPath (directory path : String) : String :=
  if path.toList.head? = some '/' then path
  else if directory.isEmpty || directory.toList.getLast? == some '/' then directory ++ path
  else directory ++ "/" ++ path

end CssOutline.Url
