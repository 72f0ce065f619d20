/-
# Data.Value — what placeholders read

A value is a datum in which something else stands in place of every template:
in a `Value` that has been rendered, the nodes that show it. `text` is what lands in a text or an attribute;
`isPresent` tells whether an attribute that is one placeholder stays.
`find?` follows a path of fields and indices. The last step of a path may ask
for the `length` of a list or, counted in characters, of a string.
-/
import Inlay.Document.Node
import Inlay.Json.Basic
import Inlay.Number.Text
import Inlay.Text.Cut

namespace Inlay

set_option autoImplicit false

inductive ValueOf (α : Type) where
  | null
  | bool (flag : Bool)
  | number (value : Number)
  | string (content : String)
  | list (items : List (ValueOf α))
  | map (fields : List (String × ValueOf α))
  /-- What stands for a template. -/
  | nodes (shown : α)

/-- A value in which the top-level nodes of a rendered template stand for it. -/
abbrev Value := ValueOf (List NodeId)

namespace Value

mutual

/-- Plain JSON as a value. -/
def ofJson : Json → Value
  | .null => .null
  | .bool flag => .bool flag
  | .number numeral => .number numeral.toNumber
  | .string content => .string content
  | .array items => .list (ofJsonItems items)
  | .object members => .map (Fields.ofList (ofJsonMembers members))

def ofJsonItems : List Json → List Value
  | [] => []
  | item :: rest => ofJson item :: ofJsonItems rest

def ofJsonMembers : List (String × Json) → List (String × Value)
  | [] => []
  | (key, value) :: rest => (key, ofJson value) :: ofJsonMembers rest

end

end Value

namespace ValueOf

variable {α : Type}

/-- Neither null nor false. -/
def isPresent : ValueOf α → Bool
  | null => false
  | bool flag => flag
  | _ => true

mutual

/-- The text of a value; the items of a list are joined by commas. -/
def text : ValueOf α → String
  | .null => ""
  | .bool flag => if flag then "true" else "false"
  | .number x => x.display
  | .string content => content
  | .list items => Text.join "," (itemTexts items)
  | .map _ => ""
  | .nodes _ => ""

def itemTexts : List (ValueOf α) → List String
  | [] => []
  | item :: rest => text item :: itemTexts rest

end

/-- The index a path segment stands for: a run of decimal digits. -/
def index? (segment : String) : Option Nat :=
  if segment ≠ "" ∧ segment.toList.all Char.isDigit then
    some (segment.toList.foldl (fun n c => n * 10 + (c.toNat - '0'.toNat)) 0)
  else none

/-- One step of a path; `last` when nothing follows it. -/
def step? (last : Bool) (segment : String) : ValueOf α → Option (ValueOf α)
  | .map fields => Fields.get? segment fields
  | .list items =>
    if last ∧ segment = "length" then some (.number (.ofNat items.length))
    else (index? segment).bind (items[·]?)
  | .string content =>
    if last ∧ segment = "length" then some (.number (.ofNat content.length)) else none
  | _ => none

/-- Where a path leads. -/
def find? : (segments : List String) → ValueOf α → Option (ValueOf α)
  | [], value => some value
  | segment :: rest, value => (step? rest.isEmpty segment value).bind (find? rest)

end ValueOf

end Inlay
