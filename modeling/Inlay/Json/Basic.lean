/-
# Json.Basic — JSON values

A `Json` value keeps the members of an object in the order they were read,
repeated keys included; what a repeated key means is up to whoever reads the
object. A numeral is an integer that fits sixty-four bits (signed or unsigned)
or else a finite binary64 number.
-/
import Inlay.Number.Basic

namespace Inlay

set_option autoImplicit false

/-- The value of a JSON numeral. -/
inductive Numeral where
  | whole (n : Int) {fits : -0x8000000000000000 ≤ n ∧ n ≤ 0xFFFFFFFFFFFFFFFF}
  | real (x : Number) (finite : x.isFinite = true)
  deriving DecidableEq

/-- The nearest binary64 number. -/
def Numeral.toNumber : Numeral → Number
  | .whole n => .ofInt n
  | .real x _ => x

inductive Json where
  | null
  | bool (flag : Bool)
  | number (numeral : Numeral)
  | string (text : String)
  | array (items : List Json)
  | object (members : List (String × Json))

namespace Json

/-- The value of a key; the last of several members with that key counts. -/
def member? (key : String) : Json → Option Json
  | .object members => members.reverse.lookup key
  | _ => none

end Json

end Inlay
