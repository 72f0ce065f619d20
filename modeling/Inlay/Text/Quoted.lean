/-
# Text.Quoted — a text between quotes, as messages show it

A quote and a backslash are written behind a backslash; line feed, tab,
carriage return and the null character have letters of their own; every other
character that cannot be read where it stands is written by its code point.
-/
import Inlay.Text.Unprintable

namespace Inlay.Text

set_option autoImplicit false

/-- One character inside a quoted text. -/
def quoteChar (c : Char) : List Char :=
  match c with
  | '\x00' => ['\\', '0']
  | '\t' => ['\\', 't']
  | '\n' => ['\\', 'n']
  | '\r' => ['\\', 'r']
  | '"' => ['\\', '"']
  | '\\' => ['\\', '\\']
  | c =>
    if isUnprintable c then '\\' :: 'u' :: '\x7b' :: Nat.toDigits 16 c.toNat ++ ['\x7d']
    else [c]

/-- The text between quotes. -/
def quoted (text : String) : String :=
  String.ofList ('"' :: text.toList.flatMap quoteChar ++ ['"'])

end Inlay.Text
