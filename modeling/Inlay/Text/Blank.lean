/-
# Text.Blank — white space and trimming

`isBlank` is the property White_Space (25 characters). `trimStart` and `trim`
drop blanks at the start, or at both ends, of a text. The narrower set of
`isAsciiBlank` separates the parts of a tag and ends an unquoted attribute
value.
-/
import Inlay.Text.Ranges

namespace Inlay.Text

set_option autoImplicit false

/-- The property White_Space. -/
def blankRanges : Ranges :=
  [(0x9, 0xD), (0x20, 0x20), (0x85, 0x85), (0xA0, 0xA0), (0x1680, 0x1680), (0x2000, 0x200A),
   (0x2028, 0x2029), (0x202F, 0x202F), (0x205F, 0x205F), (0x3000, 0x3000)]

example : blankRanges.count = 25 := by decide

/-- White space of any script. -/
def isBlank (c : Char) : Bool := blankRanges.has c

/-- Space, tab, line feed, form feed and carriage return. -/
def isAsciiBlank (c : Char) : Bool :=
  c == ' ' || c == '\t' || c == '\n' || c == '\x0c' || c == '\r'

/-- The text without its leading blanks. -/
def trimStart (text : List Char) : List Char := text.dropWhile isBlank

/-- The text without its trailing blanks. -/
def trimEnd (text : List Char) : List Char := (text.reverse.dropWhile isBlank).reverse

/-- The text without the blanks at its two ends. -/
def trim (text : List Char) : List Char := trimEnd (trimStart text)

end Inlay.Text
