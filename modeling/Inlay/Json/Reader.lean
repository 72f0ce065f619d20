/-
# Json.Reader — reading JSON text

The grammar is that of the standard: four blank characters, no superfluous
zeros, no control character inside a string, one value and nothing behind it.
A value is read in one of two ways. Read `exactly`, every string must be
sequences of characters (no half of a surrogate pair) and every numeral must
have a value. When it is only `skipped`, its form is checked and its strings
and numerals are not. `Json.read?` reads a whole text exactly;
`Json.readMembers?` skips the members nobody asked for.

The reader takes as fuel the length of the text: each step down or forward
takes a character.
-/
import Inlay.Json.Numeral
import Inlay.Text.Cut

namespace Inlay.Json

set_option autoImplicit false

/-- How much of a value is wanted: all of it, or only that it is well formed. -/
inductive Care where
  | exactly
  | skipped
  deriving DecidableEq

/-- Space, tab, line feed and carriage return. -/
def isBlank (c : Char) : Bool := c == ' ' || c == '\t' || c == '\n' || c == '\r'

def skipBlanks (text : List Char) : List Char := text.dropWhile isBlank

/-! ## Strings -/

def hexDigit? (c : Char) : Option Nat :=
  if c.isDigit then some (c.toNat - '0'.toNat)
  else if 'a' ≤ c ∧ c ≤ 'f' then some (c.toNat - 'a'.toNat + 10)
  else if 'A' ≤ c ∧ c ≤ 'F' then some (c.toNat - 'A'.toNat + 10)
  else none

/-- The value of four hexadecimal digits, and what follows them. -/
def unit? : List Char → Option (Nat × List Char)
  | a :: b :: c :: d :: rest => do
    let a ← hexDigit? a
    let b ← hexDigit? b
    let c ← hexDigit? c
    let d ← hexDigit? d
    return (((a * 16 + b) * 16 + c) * 16 + d, rest)
  | _ => none

/-- A character given by one or two sixteen-bit units. The halves of a
surrogate pair make one character; a lone half is refused, or dropped when the
string is only skipped. -/
def unitChar? (care : Care) (unit : Nat) (rest : List Char) : Option (List Char × List Char) :=
  if care = .skipped then some ([], rest)
  else if 0xDC00 ≤ unit ∧ unit ≤ 0xDFFF then none
  else if 0xD800 ≤ unit ∧ unit ≤ 0xDBFF then
    match rest with
    | '\\' :: 'u' :: rest =>
      match unit? rest with
      | some (low, rest) =>
        if 0xDC00 ≤ low ∧ low ≤ 0xDFFF then
          some ([Char.ofNat (0x10000 + (unit - 0xD800) * 0x400 + (low - 0xDC00))], rest)
        else none
      | none => none
    | _ => none
  else some ([Char.ofNat unit], rest)

/-- The characters an escape stands for, from behind its backslash. -/
def escape? (care : Care) : List Char → Option (List Char × List Char)
  | '"' :: rest => some (['"'], rest)
  | '\\' :: rest => some (['\\'], rest)
  | '/' :: rest => some (['/'], rest)
  | 'b' :: rest => some (['\x08'], rest)
  | 'f' :: rest => some (['\x0c'], rest)
  | 'n' :: rest => some (['\n'], rest)
  | 'r' :: rest => some (['\r'], rest)
  | 't' :: rest => some (['\t'], rest)
  | 'u' :: rest => (unit? rest).bind fun (unit, rest) => unitChar? care unit rest
  | _ => none

/-- The rest of a string behind its opening quote. -/
def string? (care : Care) : (fuel : Nat) → List Char → Option (List Char × List Char)
  | 0, _ => none
  | _ + 1, [] => none
  | _ + 1, '"' :: rest => some ([], rest)
  | fuel + 1, '\\' :: rest => do
    let (chars, rest) ← escape? care rest
    let (tail, rest) ← string? care fuel rest
    return (chars ++ tail, rest)
  | fuel + 1, c :: rest =>
    if c.toNat < 0x20 then none
    else (string? care fuel rest).map fun (tail, rest) => (c :: tail, rest)

/-! ## Numerals -/

/-- Digits in front of a text, at least one, and what follows them. -/
def digits? (text : List Char) : Option (List Char × List Char) :=
  match text.span Char.isDigit with
  | ([], _) => none
  | (digits, rest) => some (digits, rest)

/-- An integer part: a zero alone, or digits that do not start with one. -/
def wholePart? : List Char → Option (List Char × List Char)
  | '0' :: c :: rest => if c.isDigit then none else some (['0'], c :: rest)
  | text => digits? text

def fraction? : List Char → Option (Option (List Char) × List Char)
  | '.' :: rest => (digits? rest).map fun (digits, rest) => (some digits, rest)
  | text => some (none, text)

def power? : List Char → Option (Option (Bool × List Char) × List Char)
  | [] => some (none, [])
  | c :: rest =>
    if c = 'e' ∨ c = 'E' then
      let (down, rest) := match rest with
        | '+' :: rest => (false, rest)
        | '-' :: rest => (true, rest)
        | rest => (false, rest)
      (digits? rest).map fun (digits, rest) => (some (down, digits), rest)
    else some (none, c :: rest)

/-- A numeral in front of a text. -/
def numeral? (care : Care) (text : List Char) : Option (Json × List Char) := do
  let (negative, text) := match text with
    | '-' :: rest => (true, rest)
    | text => (false, text)
  let (whole, text) ← wholePart? text
  let (fraction, text) ← fraction? text
  let (power, text) ← power? text
  if care = .skipped then return (.null, text)
  let numeral ← Numeral.ofParts negative whole fraction power
  return (.number numeral, text)

/-! ## Values -/

mutual

/-- A value in front of a text. -/
def value? (care : Care) : (fuel : Nat) → List Char → Option (Json × List Char)
  | 0, _ => none
  | fuel + 1, text =>
    match skipBlanks text with
    | 'n' :: 'u' :: 'l' :: 'l' :: rest => some (.null, rest)
    | 't' :: 'r' :: 'u' :: 'e' :: rest => some (.bool true, rest)
    | 'f' :: 'a' :: 'l' :: 's' :: 'e' :: rest => some (.bool false, rest)
    | '"' :: rest => (string? care fuel rest).map fun (s, rest) => (.string (String.ofList s), rest)
    | '[' :: rest =>
      match skipBlanks rest with
      | ']' :: rest => some (.array [], rest)
      | rest => (items? care fuel rest).map fun (items, rest) => (.array items, rest)
    | '\x7b' :: rest =>
      match skipBlanks rest with
      | '\x7d' :: rest => some (.object [], rest)
      | rest =>
        (members? care (fun _ => care) fuel rest).map fun (members, rest) => (.object members, rest)
    | text => numeral? care text

/-- The items of an array up to its closing bracket; there is at least one. -/
def items? (care : Care) : (fuel : Nat) → List Char → Option (List Json × List Char)
  | 0, _ => none
  | fuel + 1, text =>
    match value? care fuel text with
    | none => none
    | some (item, rest) =>
      match skipBlanks rest with
      | ']' :: rest => some ([item], rest)
      | ',' :: rest => (items? care fuel rest).map fun (items, rest) => (item :: items, rest)
      | _ => none

/-- The members of an object up to its closing brace; there is at least one.
`wanted` says how carefully the value of a key is read. -/
def members? (care : Care) (wanted : String → Care) :
    (fuel : Nat) → List Char → Option (List (String × Json) × List Char)
  | 0, _ => none
  | fuel + 1, text =>
    match skipBlanks text with
    | '"' :: rest =>
      match string? care fuel rest with
      | none => none
      | some (key, rest) =>
        let key := String.ofList key
        match skipBlanks rest with
        | ':' :: rest =>
          match value? (wanted key) fuel rest with
          | none => none
          | some (value, rest) =>
            match skipBlanks rest with
            | '\x7d' :: rest => some ([(key, value)], rest)
            | ',' :: rest =>
              (members? care wanted fuel rest).map fun (members, rest) =>
                ((key, value) :: members, rest)
            | _ => none
        | _ => none
    | _ => none

end

/-- The value, when nothing but blanks follows it. -/
def whole? : Option (Json × List Char) → Option Json
  | some (json, rest) => if (skipBlanks rest).isEmpty then some json else none
  | none => none

/-- The value of a JSON text. -/
def read? (text : String) : Option Json :=
  let chars := text.toList
  whole? (value? .exactly (2 * chars.length + 2) chars)

/-- The value of a JSON text of whose object members only the wanted ones are
read exactly; the others are checked and come out without content. -/
def readMembers? (wanted : String → Bool) (text : String) : Option Json :=
  let chars := text.toList
  let fuel := 2 * chars.length + 2
  match skipBlanks chars with
  | '\x7b' :: rest =>
    match skipBlanks rest with
    | '\x7d' :: _ => read? text
    | rest =>
      let care key := if wanted key then Care.exactly else Care.skipped
      whole? ((members? .exactly care fuel rest).map fun (members, rest) => (.object members, rest))
  | _ => read? text

end Inlay.Json
