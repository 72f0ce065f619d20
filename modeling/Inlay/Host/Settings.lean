/-
# Host.Settings — the settings file

Settings are an object with the members `templateDir`, `extension` and
`defaultDelayMs`, or an array of their values in that order; what is missing has
a default. A member with another name is passed over; one of these three may
not come twice. The extension is given without a dot.
-/
import Inlay.Host.Fault
import Inlay.Host.Location
import Inlay.Json.Quote
import Inlay.Json.Reader

namespace Inlay.Host

set_option autoImplicit false

open Inlay.Text

structure Settings where
  /-- The directory of template files. -/
  templateDir : String := "templates"
  extension : String := "html"
  /-- How long a display request waits for others, in milliseconds. -/
  defaultDelay : Nat := 16
  deriving DecidableEq

namespace Settings

/-- Why settings are refused. -/
inductive Flaw where
  /-- No JSON, or not of the form of settings. -/
  | malformed
  | badExtension (extension : String)
  | unreadable (path : String) (flaw : FileFlaw)
  deriving DecidableEq

def Flaw.message : Flaw → String
  | malformed => "<json>"
  | badExtension extension =>
    s!"extension must be non-empty and given without a dot, got {quoted extension}"
  | unreadable path flaw => s!"{path}: {flaw.message}"

/-- The names of the members. -/
def memberNames : List String := ["templateDir", "extension", "defaultDelayMs"]

/-- A text value. -/
def textOf : Json → Except Flaw String
  | .string text => .ok text
  | _ => .error .malformed

/-- A delay: an integer of at most sixty-four bits. -/
def delayOf : Json → Except Flaw Nat
  | .number (.whole n) => if 0 ≤ n ∧ n.toNat < Nat.pow 2 64 then .ok n.toNat else .error .malformed
  | _ => .error .malformed

/-- What a value means, the default when there is none. -/
def orDefault {α : Type} (default : α) (read : Json → Except Flaw α) : Option Json → Except Flaw α
  | none => .ok default
  | some value => read value

/-- The settings of three values that may be missing. -/
def ofValues (templateDir extension delay : Option Json) : Except Flaw Settings := do
  let defaults : Settings := {}
  return {
    templateDir := ← orDefault defaults.templateDir textOf templateDir
    extension := ← orDefault defaults.extension textOf extension
    defaultDelay := ← orDefault defaults.defaultDelay delayOf delay }

/-- The member comes more than once. -/
def comesTwice (members : List (String × Json)) (name : String) : Bool :=
  1 < (members.filter (·.1 = name)).length

def ofJson : Json → Except Flaw Settings
  | .object members =>
    if memberNames.any (comesTwice members) then .error .malformed
    else ofValues (members.lookup "templateDir") (members.lookup "extension")
      (members.lookup "defaultDelayMs")
  | .array items =>
    if items.length ≤ 3 then ofValues items[0]? items[1]? items[2]? else .error .malformed
  | _ => .error .malformed

/-- Settings whose extension is none or has a dot in front are refused. -/
def checked (settings : Settings) : Except Flaw Settings :=
  if settings.extension = "" ∨ settings.extension.toList.head? = some '.' then
    .error (.badExtension settings.extension)
  else .ok settings

/-- Reads settings. -/
def read (content : String) : Except Flaw Settings :=
  match Json.readMembers? (memberNames.contains ·) content with
  | none => .error .malformed
  | some json => ofJson json >>= checked

/-- The settings as JSON, members in order. -/
def text (settings : Settings) : String :=
  String.join ["\x7b\"templateDir\":", Json.quote settings.templateDir,
    ",\"extension\":", Json.quote settings.extension,
    ",\"defaultDelayMs\":", toString settings.defaultDelay, "\x7d"]

/-- The directory of template files, seen from a working directory. -/
def directory (settings : Settings) (workingDirectory : String) : String :=
  Location.join workingDirectory settings.templateDir

/-- Where template files lie. -/
def shelf (settings : Settings) (workingDirectory : String) : Shelf :=
  Shelf.withExtension ⟨settings.directory workingDirectory, ""⟩ settings.extension

/-- The name of the settings file. -/
def fileName : String := "stencil.config.json"

/-- The settings of a directory, the defaults when it has no settings file. -/
def load (files : Files) : Except Flaw Settings :=
  let path := Location.join files.root fileName
  if files.holds path then
    match files.read path with
    | .ok content => read content
    | .error flaw => .error (.unreadable path flaw)
  else .ok {}

end Settings

namespace Shelf

/-- The path of a template's file, or why there is none. -/
def path (shelf : Shelf) (name : String) : Except Fault String :=
  match shelf.path? name with
  | some path => .ok path
  | none => .error (.load name .badName)

/-- The markup of a template. -/
def fetch (shelf : Shelf) (files : Files) (name : String) : Except Fault String := do
  let path ← shelf.path name
  match files.read path with
  | .ok markup => return markup
  | .error flaw => throw (.load name (.unreadable path flaw))

end Shelf

end Inlay.Host
