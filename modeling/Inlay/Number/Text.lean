/-
# Number.Text — a number in the fewest digits that read back

`shortest` selects the decimal that is written for a finite number: among the
decimals that round to the number, those with the fewest digits, and of these
the nearest; at a tie the upper one. `text` lays it out positionally, never
with an exponent and without a fraction when there is none. `display` is the
text that lands in a page, where the sign of zero is not shown.
-/
import Inlay.Number.Basic

namespace Inlay

set_option autoImplicit false

/-- `digits * 10 ^ exponent`. -/
structure Decimal where
  digits : Nat
  exponent : Int
  deriving DecidableEq

namespace Number

/-- Compares `a * 10 ^ i` with `n * 2 ^ j`. -/
def compareScaled (a : Nat) (i : Int) (n : Nat) (j : Int) : Ordering :=
  compare (a * Nat.pow 10 i.toNat * Nat.pow 2 (-j).toNat) (n * Nat.pow 2 j.toNat * Nat.pow 10 (-i).toNat)

/-- The gap to the number below is half the gap to the number above. -/
def narrowBelow (x : Number) : Bool := x.fraction == 0 && 1 < x.exponentField

/-- The decimal lies among those that round to `x`: from half way to the number
below up to half way to the number above, the ends included when the
significand is even. -/
def readsBack (x : Number) (d : Decimal) : Bool :=
  let low := if x.narrowBelow then 4 * x.mantissa - 1 else 4 * x.mantissa - 2
  let high := 4 * x.mantissa + 2
  let even := x.mantissa % 2 == 0
  let toLow := compareScaled d.digits d.exponent low (x.exponent - 2)
  let toHigh := compareScaled d.digits d.exponent high (x.exponent - 2)
  (toLow == .gt || (even && toLow == .eq)) && (toHigh == .lt || (even && toHigh == .eq))

/-- The two multiples of `10 ^ grid` next to `x`, the lower one first. -/
def neighbours (x : Number) (grid : Int) : Nat × Nat :=
  let num := x.mantissa * Nat.pow 2 x.exponent.toNat * Nat.pow 10 (-grid).toNat
  let den := Nat.pow 2 (-x.exponent).toNat * Nat.pow 10 grid.toNat
  (num / den, num / den + 1)

/-- Of two decimals on one grid the nearer to `x`, at a tie the upper. -/
def nearer (x : Number) (grid : Int) (low high : Nat) : Nat :=
  if compareScaled (low + high) grid (2 * x.mantissa) x.exponent == .gt then low else high

/-- A decimal on one grid that reads back, if there is one. -/
def onGrid (x : Number) (grid : Int) : Option Decimal :=
  let (low, high) := x.neighbours grid
  match x.readsBack ⟨low, grid⟩, x.readsBack ⟨high, grid⟩ with
  | true, true => some ⟨x.nearer grid low high, grid⟩
  | true, false => some ⟨low, grid⟩
  | false, true => some ⟨high, grid⟩
  | false, false => none

/-- The number of digits before the point: the least `k` with `x < 10 ^ k`,
found from a guess that is at most three too small. -/
def leadingPlace (x : Number) : Int :=
  let guess : Int := ((x.mantissa.log2 : Int) + x.exponent) * 1233 / 4096 - 1
  let below (k : Int) : Bool := compareScaled 1 k x.mantissa x.exponent == .gt
  if below guess then guess
  else if below (guess + 1) then guess + 1
  else if below (guess + 2) then guess + 2
  else guess + 3

/-- Drops trailing zeros of the digits, at most `fuel` of them. -/
def dropZeros : (fuel : Nat) → Decimal → Decimal
  | 0, d => d
  | fuel + 1, d =>
    if d.digits ≠ 0 ∧ d.digits % 10 = 0 then dropZeros fuel ⟨d.digits / 10, d.exponent + 1⟩ else d

/-- The exact value as a decimal. -/
def exact (x : Number) : Decimal :=
  if 0 ≤ x.exponent then ⟨x.mantissa * Nat.pow 2 x.exponent.toNat, 0⟩
  else ⟨x.mantissa * Nat.pow 5 (-x.exponent).toNat, x.exponent⟩

/-- The decimal with the fewest digits that reads back, grids tried from the
coarsest; seventeen digits suffice. -/
def shortest (x : Number) : Decimal :=
  let place := x.leadingPlace
  let found := (List.range 17).findSome? fun (n : Nat) => x.onGrid (place - (n : Int) - 1)
  let d := found.getD x.exact
  dropZeros (Nat.toDigits 10 d.digits).length d

/-- A decimal in positional notation. -/
def layout (d : Decimal) : String :=
  let digits := Nat.toDigits 10 d.digits
  if 0 ≤ d.exponent then
    if d.digits = 0 then "0" else String.ofList (digits ++ List.replicate d.exponent.toNat '0')
  else
    let places := (-d.exponent).toNat
    if digits.length ≤ places then
      String.ofList ('0' :: '.' :: List.replicate (places - digits.length) '0' ++ digits)
    else
      let whole := digits.length - places
      String.ofList (digits.take whole ++ '.' :: digits.drop whole)

/-- The text of a number; the sign of zero is written. -/
def text (x : Number) : String :=
  if x.isFinite then
    (if x.isNegative then "-" else "") ++ (if x.mantissa = 0 then "0" else layout x.shortest)
  else if x.fraction = 0 then (if x.isNegative then "-inf" else "inf")
  else "NaN"

/-- The text of a number on a page: as `text`, and zero has no sign. -/
def display (x : Number) : String :=
  if x.isFinite ∧ x.mantissa = 0 then "0" else x.text

example : (div (ofNat 1) (ofNat 10)).text = "0.1" := by decide +kernel
example : (ofNat (10 ^ 23)).text = "100000000000000000000000" := by decide +kernel
example : (div (ofNat 1) (ofNat (2 ^ 25))).text = "0.000000029802322387695313" := by decide +kernel

end Number

end Inlay
