/-
# Json.Numeral — reading the numerals of JSON

A numeral is an optional minus sign, an integer part without superfluous
zeros, and optionally a fraction and an exponent. An integer that fits
sixty-four bits keeps its value, with the exception of minus zero, which is a
binary64 number. Everything else is scaled: the digits are collected while
they fit sixty-four bits, the digits behind them only count as places, and the
collected integer is rounded and then multiplied or divided once by a power of
ten (`scale`). A numeral beyond the largest number is refused.
-/
import Inlay.Json.Basic

namespace Inlay.Numeral

set_option autoImplicit false

/-- The number nearest to a power of ten. -/
def powerOfTen (k : Nat) : Number := .ofNat (Nat.pow 10 k)

/-- `significand * 10 ^ exponent`, with one rounded step for the significand
and one for every 308 places of the exponent; nothing beyond the largest
number. -/
def scaleNumber (x : Number) (exponent : Int) : Option Number :=
  if x.mantissa = 0 then some x
  else if h : exponent < -308 then scaleNumber (x.div (powerOfTen 308)) (exponent + 308)
  else if exponent < 0 then some (x.div (powerOfTen exponent.natAbs))
  else if exponent ≤ 308 then
    let scaled := x.mul (powerOfTen exponent.toNat)
    if scaled.isFinite then some scaled else none
  else none
termination_by exponent.natAbs

/-- The finite number of a significand and an exponent. -/
def scale (negative : Bool) (significand : Nat) (exponent : Int) : Option Numeral :=
  match scaleNumber (.ofNat significand) exponent with
  | none => none
  | some x =>
    let x := if negative then x.neg else x
    if finite : x.isFinite = true then some (.real x finite) else none

def digit (c : Char) : Nat := c.toNat - '0'.toNat

/-- The digits collected while they fit sixty-four bits, and how many follow
them. -/
def collect (significand : Nat) : List Char → Nat × Nat
  | [] => (significand, 0)
  | c :: rest =>
    let next := significand * 10 + digit c
    if next < Nat.pow 2 64 then collect next rest else (significand, rest.length + 1)

/-- The integer a signed numeral without fraction and exponent stands for;
minus zero and integers of more than sixty-four bits are binary64 numbers. -/
def ofWhole (negative : Bool) (n : Nat) : Option Numeral :=
  if negative then
    if fits : 0 < n ∧ n ≤ 0x8000000000000000 then some (@whole (-(n : Int)) (by omega)) else scale true n 0
  else if fits : n ≤ 0xFFFFFFFFFFFFFFFF then some (@whole n (by omega)) else scale false n 0

/-- The exponent of a numeral; one of ten digits or more is held at a bound no
significand can make up for. -/
def boundedExponent (digits : List Char) : Nat :=
  min (digits.foldl (fun n c => n * 10 + digit c) 0) (Nat.pow 2 31)

/-- The value of a numeral from its parts: the integer digits, the digits of
the fraction if there is one, and the exponent if there is one, as its sign
(`true` for a negative one) and its digits. -/
def ofParts (negative : Bool) (whole : List Char) (fraction : Option (List Char))
    (power : Option (Bool × List Char)) : Option Numeral :=
  let (significand, dropped) := collect 0 whole
  if fraction.isNone ∧ power.isNone ∧ dropped = 0 then ofWhole negative significand
  else
    let places := fraction.getD []
    let (significand, unread) := collect significand places
    let shift : Int := (dropped : Int) - ((places.length - unread : Nat) : Int)
    match power with
    | none => scale negative significand shift
    | some (true, digits) => scale negative significand (shift - boundedExponent digits)
    | some (false, digits) => scale negative significand (shift + boundedExponent digits)

end Inlay.Numeral
