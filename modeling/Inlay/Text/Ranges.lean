/-
# Text.Ranges — sets of characters as closed ranges of code points

A character property of the Unicode standard (version 17.0 throughout the
library) is kept as an ascending list of closed ranges; `Ranges.has` decides
membership.
-/

namespace Inlay.Text

set_option autoImplicit false

/-- Closed ranges of code points, ascending and apart. -/
abbrev Ranges := List (Nat × Nat)

/-- Some range of the list holds the character. -/
def Ranges.has (ranges : Ranges) (c : Char) : Bool :=
  ranges.any fun range => range.1 ≤ c.toNat && c.toNat ≤ range.2

/-- How many code points the ranges hold. -/
def Ranges.count (ranges : Ranges) : Nat :=
  ranges.foldr (fun range n => range.2 + 1 - range.1 + n) 0

end Inlay.Text
