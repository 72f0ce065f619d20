/-
# Markup.Reference — character references and escaping

A reference is `&`, a body of at most nine bytes and `;`. The body is one of six
names, or `#` and a decimal numeral, or `#x` and a hexadecimal one, of a Unicode
scalar value; a numeral may start with a plus sign. `decode` replaces every
reference by its character and keeps everything else; what a reference gave is
not read again. `escapeText` and `escapeAttribute` write a text so that `decode`
gives it back.
-/
import Inlay.Text.Cut

namespace Inlay.Markup

set_option autoImplicit false

open Inlay.Text

/-- The references with a name. -/
def namedReference? (body : List Char) : Option Char :=
  match String.ofList body with
  | "amp" => some '&'
  | "lt" => some '<'
  | "gt" => some '>'
  | "quot" => some '"'
  | "apos" => some '\x27'
  | "nbsp" => some '\u00a0'
  | _ => none

/-- The value of a digit in a base of at most sixteen. -/
def digitIn? (base : Nat) (c : Char) : Option Nat :=
  let value? :=
    if c.isDigit then some (c.toNat - '0'.toNat)
    else if 'a' ≤ c ∧ c ≤ 'f' then some (c.toNat - 'a'.toNat + 10)
    else if 'A' ≤ c ∧ c ≤ 'F' then some (c.toNat - 'A'.toNat + 10)
    else none
  value?.filter (· < base)

/-- The value of a run of digits. -/
def digitsIn? (base : Nat) (digits : List Char) : Option Nat :=
  digits.foldlM (fun n c => (digitIn? base c).map (n * base + ·)) 0

/-- A numeral in a base: digits, at least one, behind at most one plus sign. -/
def numeralIn? (base : Nat) : List Char → Option Nat
  | [] => none
  | ['+'] => none
  | '+' :: digits => digitsIn? base digits
  | digits => digitsIn? base digits

/-- The character of a Unicode scalar value. -/
def scalar? (code : Nat) : Option Char :=
  if code.isValidChar then some (Char.ofNat code) else none

/-- The character that the body of a reference stands for. -/
def referenced? (body : List Char) : Option Char :=
  match namedReference? body with
  | some c => some c
  | none =>
    match body with
    | '#' :: 'x' :: digits => (numeralIn? 16 digits).bind scalar?
    | '#' :: 'X' :: digits => (numeralIn? 16 digits).bind scalar?
    | '#' :: digits => (numeralIn? 10 digits).bind scalar?
    | _ => none

/-- The most bytes between the `&` and the `;` of a reference. -/
def longestBody : Nat := 9

/-- The reference whose `&` stands right before the text: its character and what
follows its `;`. -/
def reference? (text : List Char) : Option (Char × List Char) :=
  let body := text.takeWhile (· ≠ ';')
  match text.dropWhile (· ≠ ';') with
  | [] => none
  | _ :: rest => if bytes body ≤ longestBody then (referenced? body).map (·, rest) else none

theorem length_of_reference? {text rest : List Char} {c : Char}
    (found : reference? text = some (c, rest)) : rest.length < text.length := by
  unfold reference? at found
  simp only at found
  split at found
  · cases found
  · next x tail dropped =>
    split at found
    · obtain ⟨_, _, same⟩ := Option.map_eq_some_iff.mp found
      cases same
      have := (List.dropWhile_suffix (l := text) (· ≠ ';')).length_le
      rw [dropped] at this
      simp only [List.length_cons] at this
      omega
    · cases found

/-- The text with its references replaced. -/
def decode : List Char → List Char
  | [] => []
  | c :: text =>
    if c = '&' then
      match _found : reference? text with
      | some (c, rest) => c :: decode rest
      | none => '&' :: decode text
    else c :: decode text
termination_by text => text.length
decreasing_by
  · have := length_of_reference? _found
    simp only [List.length_cons]
    omega
  · simp
  · simp

/-- The text with its references replaced. -/
def decodeReferences (text : String) : String := String.ofList (decode text.toList)

/-- One character of a text between tags. -/
def escapeTextChar (c : Char) : String :=
  match c with
  | '&' => "&amp;"
  | '<' => "&lt;"
  | '>' => "&gt;"
  | '\u00a0' => "&nbsp;"
  | c => c.toString

/-- One character of an attribute value. -/
def escapeAttributeChar (c : Char) : String :=
  match c with
  | '&' => "&amp;"
  | '"' => "&quot;"
  | '\u00a0' => "&nbsp;"
  | c => c.toString

/-- A text as it is written between tags. -/
def escapeText (text : String) : String := String.join (text.toList.map escapeTextChar)

/-- A text as it is written between the quotes of an attribute. -/
def escapeAttribute (text : String) : String := String.join (text.toList.map escapeAttributeChar)

end Inlay.Markup
