/-
# Data.Datum — the data a render is given

A datum is plain data in which any object may select a named template. In JSON
the selection is a member `$template` whose value is a string; with any other
value it is a field like the others. Fields are kept in the order of their
names, and of two with one name the later counts.

`ofJson` and `toJson` go from JSON to data and back. A number without a JSON
form becomes null.
-/
import Inlay.Fields
import Inlay.Json.Basic

namespace Inlay

set_option autoImplicit false

inductive Datum where
  | null
  | bool (flag : Bool)
  | number (value : Number)
  | text (content : String)
  | list (items : List Datum)
  | record (fields : List (String × Datum))
  /-- Fields for the template of a name. -/
  | template (name : String) (fields : List (String × Datum))

namespace Datum

/-- The member that selects a template. -/
def selector : String := "$template"

/-- The datum of an object's fields. -/
def ofFields (fields : Fields Datum) : Datum :=
  match fields.get? selector with
  | some (.text name) => .template name (fields.drop selector)
  | _ => .record fields

mutual

def ofJson : Json → Datum
  | .null => .null
  | .bool flag => .bool flag
  | .number numeral => .number numeral.toNumber
  | .string content => .text content
  | .array items => .list (ofJsonItems items)
  | .object members => ofFields (Fields.ofList (ofJsonMembers members))

def ofJsonItems : List Json → List Datum
  | [] => []
  | item :: rest => ofJson item :: ofJsonItems rest

def ofJsonMembers : List (String × Json) → List (String × Datum)
  | [] => []
  | (key, value) :: rest => (key, ofJson value) :: ofJsonMembers rest

end

/-- The JSON form of a number. -/
def numberToJson (x : Number) : Json :=
  if finite : x.isFinite = true then .number (.real x finite) else .null

mutual

def toJson : Datum → Json
  | .null => .null
  | .bool flag => .bool flag
  | .number x => numberToJson x
  | .text content => .string content
  | .list items => .array (toJsonItems items)
  | .record fields => .object (toJsonFields fields)
  | .template name fields => .object (Fields.put selector (.string name) (toJsonFields fields))

def toJsonItems : List Datum → List Json
  | [] => []
  | item :: rest => toJson item :: toJsonItems rest

def toJsonFields : List (String × Datum) → List (String × Json)
  | [] => []
  | (name, value) :: rest => (name, toJson value) :: toJsonFields rest

end

/-- The name of a kind of datum. -/
def kind : Datum → String
  | null => "null"
  | bool _ => "bool"
  | number _ => "number"
  | text _ => "text"
  | list _ => "list"
  | record _ => "record"
  | template _ _ => "template"

mutual

/-- The two data are the same; a number is never the same as one that is
undefined, and the two zeros are. -/
def same : Datum → Datum → Bool
  | .null, .null => true
  | .bool a, .bool b => a == b
  | .number x, .number y => x.equals y
  | .text a, .text b => a == b
  | .list a, .list b => sameItems a b
  | .record a, .record b => sameFields a b
  | .template n a, .template m b => n == m && sameFields a b
  | _, _ => false

def sameItems : List Datum → List Datum → Bool
  | [], [] => true
  | a :: as, b :: bs => same a b && sameItems as bs
  | _, _ => false

def sameFields : List (String × Datum) → List (String × Datum) → Bool
  | [], [] => true
  | (n, a) :: as, (m, b) :: bs => n == m && same a b && sameFields as bs
  | _, _ => false

end

/-- Going to JSON and back gives the same datum. -/
def survivesJson (datum : Datum) : Bool := same (ofJson datum.toJson) datum

end Datum

end Inlay
