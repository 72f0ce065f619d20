/-
# Host.Location — paths to template files

A path is a text whose parts are separated by slashes; joining two paths changes
neither of them. A template's file lies in one directory and is named by the
template and an extension. Names that could lead out of the directory are
refused.
-/
import Inlay.Text.Cut

namespace Inlay.Host

set_option autoImplicit false

namespace Location

/-- A path seen from a directory: an absolute path stays, any other goes behind
the directory and a slash. -/
def join (directory path : String) : String :=
  if path.toList.head? = some '/' then path
  else if directory = "" ∨ directory.toList.getLast? = some '/' then directory ++ path
  else directory ++ "/" ++ path

end Location

/-- The directory of template files, and their extension without its dot. -/
structure Shelf where
  directory : String
  extension : String := "html"
  deriving DecidableEq

namespace Shelf

/-- The shelf with another extension, whose leading dots do not count. -/
def withExtension (shelf : Shelf) (extension : String) : Shelf :=
  { shelf with extension := String.ofList (extension.toList.dropWhile (· = '.')) }

/-- A character that may not stand in a template's name. -/
def isSeparator (c : Char) : Bool := c == '/' || c == '\\' || c == '\x00'

/-- A template's name that stays in the directory. -/
def isName (name : String) : Bool :=
  name != "" && name != "." && name != ".." && !name.toList.any isSeparator

/-- The path of a template's file. -/
def path? (shelf : Shelf) (name : String) : Option String :=
  if isName name then some (Location.join shelf.directory (name ++ "." ++ shelf.extension))
  else none

end Shelf

end Inlay.Host
