/-
# Host.Files — files below a directory

`Files` are the files and directories below a root. A path is walked part by
part: a part that is missing, or that is looked for in a file, ends the walk
with a flaw, and so does one that is too long. Above the root nothing is found.
-/
import Inlay.Text.Cut

namespace Inlay.Host

set_option autoImplicit false

/-- Why a file cannot be read. -/
inductive FileFlaw where
  | missing
  | notDirectory
  | isDirectory
  | tooLong
  | nulInPath
  | notText
  deriving DecidableEq

def FileFlaw.message : FileFlaw → String
  | missing => "No such file or directory (os error 2)"
  | notDirectory => "Not a directory (os error 20)"
  | isDirectory => "Is a directory (os error 21)"
  | tooLong => "File name too long (os error 36)"
  | nulInPath => "file name contained an unexpected NUL byte"
  | notText => "stream did not contain valid UTF-8"

inductive FileEntry where
  | file (content : ByteArray)
  | directory

/-- The parts of a path. -/
abbrev Parts := List String

structure Files where
  /-- The path of the root. -/
  root : String
  /-- What lies below the root, by the parts of its path. -/
  entries : List (Parts × FileEntry)

namespace Files

/-- The parts between slashes. -/
def partsOf (path : String) : Parts := (Text.splitAt '/' path.toList).map String.ofList

/-- The longest name of a file, in bytes. -/
def longestName : Nat := 255

/-- The longest path, in bytes. -/
def longestPath : Nat := 4095

/-- What lies at the parts of a path; a directory is there also when only
something inside it is listed. -/
def entry? (files : Files) (parts : Parts) : Option FileEntry :=
  match files.entries.lookup parts with
  | some entry => some entry
  | none =>
    if parts.isEmpty || files.entries.any (fun e => parts.isPrefixOf e.1) then some .directory
    else none

/-- Where a walk stands: at parts below the root, or above the root. -/
inductive Place where
  | below (parts : Parts)
  | above

/-- One step of a walk. -/
def step (files : Files) (place : Place) (part : String) : Except FileFlaw Place :=
  match place with
  | .above =>
    if part = "" ∨ part = "." ∨ part = ".." then .ok .above
    else if longestName < part.utf8ByteSize then .error .tooLong
    else .error .missing
  | .below parts =>
    match files.entry? parts with
    | none => .error .missing
    | some (.file _) => .error .notDirectory
    | some .directory =>
      if part = "" ∨ part = "." then .ok (.below parts)
      else if part = ".." then .ok (if parts.isEmpty then .above else .below parts.dropLast)
      else if longestName < part.utf8ByteSize then .error .tooLong
      else if (files.entry? (parts ++ [part])).isSome then .ok (.below (parts ++ [part]))
      else .error .missing

/-- Where a path begins, and its parts from there. -/
def start (files : Files) (path : String) : Place × Parts :=
  match Text.dropWord? files.root.toList path.toList with
  | some rest => (.below [], partsOf (String.ofList rest))
  | none => (.above, partsOf path)

/-- What a path leads to. -/
def find (files : Files) (path : String) : Except FileFlaw FileEntry := do
  if path.toList.contains '\x00' then throw .nulInPath
  if longestPath < path.utf8ByteSize then throw .tooLong
  let (place, parts) := files.start path
  match ← parts.foldlM files.step place with
  | .above => return .directory
  | .below parts =>
    match files.entry? parts with
    | some entry => return entry
    | none => throw .missing

/-- There is something at a path. -/
def holds (files : Files) (path : String) : Bool := (files.find path).isOk

/-- The text of a file. -/
def read (files : Files) (path : String) : Except FileFlaw String := do
  match ← files.find path with
  | .directory => throw .isDirectory
  | .file content =>
    match String.fromUTF8? content with
    | some text => return text
    | none => throw .notText

end Files

end Inlay.Host
