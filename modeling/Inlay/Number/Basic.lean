/-
# Number.Basic — binary64 numbers, computed exactly

A `Number` is the 64 bits of a binary floating point number: a sign, eleven
bits of exponent and fifty-two of fraction. A finite number is
`mantissa * 2 ^ exponent` up to its sign. Every operation here computes the
exact result on natural numbers and rounds it once, to the nearest number and
at a tie to the even one (`roundRatio`).
-/

namespace Inlay

set_option autoImplicit false

/-- A binary64 number, kept as its bits: equal bits, equal numbers. -/
structure Number where
  bits : UInt64
  deriving DecidableEq

namespace Number

/-- The sign bit is set. -/
def isNegative (x : Number) : Bool := x.bits.toNat / Nat.pow 2 63 == 1

/-- The eleven bits of the exponent. -/
def exponentField (x : Number) : Nat := x.bits.toNat / Nat.pow 2 52 % Nat.pow 2 11

/-- The fifty-two bits of the fraction. -/
def fraction (x : Number) : Nat := x.bits.toNat % Nat.pow 2 52

/-- Neither an infinity nor an undefined value. -/
def isFinite (x : Number) : Bool := x.exponentField != 2047

/-- Neither number is undefined, and they have the same value: equal bits, or
both are zero. -/
def equals (x y : Number) : Bool :=
  let defined (z : Number) : Bool := z.isFinite || z.fraction == 0
  let isZero (z : Number) : Bool := z.exponentField == 0 && z.fraction == 0
  defined x && defined y && (x == y || (isZero x && isZero y))

/-- The integer significand of a finite number. -/
def mantissa (x : Number) : Nat :=
  if x.exponentField = 0 then x.fraction else Nat.pow 2 52 + x.fraction

/-- The power of two that scales the significand. -/
def exponent (x : Number) : Int :=
  if x.exponentField = 0 then -1074 else (x.exponentField : Int) - 1075

/-- The number of a sign and the other sixty-three bits. -/
def ofMagnitude (negative : Bool) (magnitude : Nat) : Number :=
  ⟨UInt64.ofNat (if negative then Nat.pow 2 63 + magnitude else magnitude)⟩

/-- The magnitude of the infinities. -/
def infinityMagnitude : Nat := 2047 * Nat.pow 2 52

/-- `num / den` in units of `2 ^ e`, rounded to the nearest integer and at a
tie to the even one. -/
def roundUnits (num den : Nat) (e : Int) : Nat :=
  let num := num * Nat.pow 2 (-e).toNat
  let den := den * Nat.pow 2 e.toNat
  let whole := num / den
  match compare (2 * (num % den)) den with
  | .lt => whole
  | .gt => whole + 1
  | .eq => if whole % 2 = 0 then whole else whole + 1

/-- The exponent at which `num / den` has fifty-three significant bits, but at
least that of the smallest numbers. -/
def unitExponent (num den : Nat) : Int :=
  let guess : Int := (num.log2 : Int) - (den.log2 : Int) - 52
  let guess :=
    if num * Nat.pow 2 (-guess).toNat < Nat.pow 2 52 * (den * Nat.pow 2 guess.toNat) then guess - 1
    else guess
  max guess (-1074)

/-- The number nearest to `num / den` with the given sign; a ratio beyond the
largest number becomes an infinity. -/
def roundRatio (negative : Bool) (num den : Nat) : Number :=
  if num = 0 then ofMagnitude negative 0
  else
    let e := unitExponent num den
    let magnitude := (e + 1074).toNat * Nat.pow 2 52 + roundUnits num den e
    ofMagnitude negative (min magnitude infinityMagnitude)

/-- The number nearest to a natural number. -/
def ofNat (n : Nat) : Number := roundRatio false n 1

/-- The number nearest to an integer. -/
def ofInt (n : Int) : Number := roundRatio (n < 0) n.natAbs 1

/-- The magnitude of `m * 2 ^ e` as a ratio. -/
def ratio (m : Nat) (e : Int) : Nat × Nat := (m * Nat.pow 2 e.toNat, Nat.pow 2 (-e).toNat)

/-- The product of two finite numbers, rounded once. -/
def mul (x y : Number) : Number :=
  let (num, den) := ratio (x.mantissa * y.mantissa) (x.exponent + y.exponent)
  roundRatio (x.isNegative != y.isNegative) num den

/-- The quotient of two finite numbers, rounded once; the second is not zero. -/
def div (x y : Number) : Number :=
  let (num, den) := ratio x.mantissa (x.exponent - y.exponent)
  roundRatio (x.isNegative != y.isNegative) num (den * y.mantissa)

/-- The number with the other sign. -/
def neg (x : Number) : Number :=
  ofMagnitude (!x.isNegative) (x.bits.toNat % Nat.pow 2 63)

example : (ofNat 1).bits = 0x3FF0000000000000 := by decide +kernel
example : ofNat (2 ^ 53 + 1) = ofNat (2 ^ 53) := by decide +kernel
example : (div (ofNat 1) (ofNat 10)).bits = 0x3FB999999999999A := by decide +kernel

end Number

end Inlay
