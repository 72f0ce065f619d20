/-
# Markup.Attribute — the attributes of an opening tag

Behind the name of an opening tag come words, each a name, with or without a
value behind `=`. A value is quoted, or runs up to an ASCII blank or `>`; its
character references are decoded. Names are put in lower case and the first
attribute of a name wins. A slash inside the tag is passed over. The tag ends
with `>`, or with `/>` when the element has no content.

`OpenTag.read` takes the tag in front of a text. Positions in faults are what is
left of the source taken from its size.
-/
import Inlay.Markup.Fault
import Inlay.Markup.Reference
import Inlay.Markup.Token

namespace Inlay.Markup

set_option autoImplicit false

open Inlay.Text

structure Attribute where
  name : String
  value : String
  deriving DecidableEq

namespace Attribute

/-- The value of the attribute of a name. -/
def find? (name : String) (attributes : List Attribute) : Option String :=
  (attributes.find? (·.name = name)).map (·.value)

/-- The list with one more attribute, unless its name is taken. -/
def add (attributes : List Attribute) (name value : String) : List Attribute :=
  if attributes.any (·.name = name) then attributes else attributes ++ [⟨name, value⟩]

end Attribute

/-- What an opening tag says behind its name, and the text behind it. -/
structure OpenTag where
  attributes : List Attribute
  /-- The tag ends with `/>`. -/
  closed : Bool
  rest : List Char

/-- A character of an unquoted value. -/
def isBareChar (c : Char) : Bool := !(isAsciiBlank c || c == '>')

/-- An unquoted value at the start of a text, and what follows it. -/
def bareValue (input : List Char) : List Char × List Char :=
  (input.takeWhile isBareChar, input.dropWhile isBareChar)

/-- The value behind an `=`, decoded, and what follows it; `none` when a quote
is opened and no quoted text can be read. -/
def value? (input : List Char) : Option (List Char × List Char) :=
  let bare := trimStart input
  match bare.head? with
  | some '"' | some '\x27' =>
    match TagToken.next? input with
    | some (.quoted content, rest) => some (decode content, rest)
    | _ => none
  | _ =>
    let (content, rest) := bareValue bare
    some (decode content, rest)

theorem length_of_value? {input value rest : List Char} (found : value? input = some (value, rest)) :
    rest.length ≤ input.length := by
  have quotedCase : ∀ {value rest : List Char},
      (match TagToken.next? input with
        | some (.quoted content, rest) => some (decode content, rest)
        | _ => none) = some (value, rest) → rest.length ≤ input.length := by
    intro value rest found
    split at found
    · next taken =>
      have := TagToken.length_of_next? taken
      cases found
      omega
    · cases found
  unfold value? at found
  simp only at found
  split at found
  · exact quotedCase found
  · exact quotedCase found
  · cases found
    exact Nat.le_trans (Token.length_dropWhile_le _ _) (Token.length_dropWhile_le _ _)

namespace OpenTag

/-- The attributes read so far with the one whose name has been read. -/
def settle (pending : Option String) (attributes : List Attribute) : List Attribute :=
  match pending with
  | some name => Attribute.add attributes name ""
  | none => attributes

/-- Reads on inside the opening tag `tag` that starts at `start` of a source of
`size` bytes. `pending` is a name whose value may still come. -/
def readFrom (size start : Nat) (tag : String) (pending : Option String)
    (attributes : List Attribute) (input : List Char) : Except Fault OpenTag :=
  let here := size - bytes (input.dropWhile TagToken.isGap)
  match _found : TagToken.next? input with
  | none => .error (.openTag start tag)
  | some (.finish, rest) => .ok ⟨settle pending attributes, false, rest⟩
  | some (.selfFinish, rest) => .ok ⟨settle pending attributes, true, rest⟩
  | some (.slash, rest) => readFrom size start tag pending attributes rest
  | some (.word word, rest) =>
    readFrom size start tag (some (String.ofList (lower word))) (settle pending attributes) rest
  | some (.equals, rest) =>
    match pending with
    | none => .error (.unexpected here tag "=")
    | some name =>
      match _valued : value? rest with
      | none => .error (.openTag start tag)
      | some (value, rest) =>
        readFrom size start tag none (Attribute.add attributes name (String.ofList value)) rest
  | some (.quoted found, _) => .error (.unexpected here tag (String.ofList found))
  | some (.broken found, _) => .error (.unexpected here tag (String.ofList found))
termination_by input.length
decreasing_by
  · exact TagToken.length_of_next? _found
  · exact TagToken.length_of_next? _found
  · exact Nat.lt_of_le_of_lt (length_of_value? _valued) (TagToken.length_of_next? _found)

/-- Reads the opening tag `tag`, which starts at `start` of a source of `size`
bytes, from behind its name. -/
def read (size start : Nat) (tag : String) (input : List Char) : Except Fault OpenTag :=
  readFrom size start tag none [] input

theorem length_of_readFrom {size start : Nat} {tag : String} {pending : Option String}
    {attributes : List Attribute} {input : List Char} {result : OpenTag}
    (done : readFrom size start tag pending attributes input = .ok result) :
    result.rest.length < input.length := by
  fun_induction readFrom size start tag pending attributes input with
  | case1 => cases done
  | case2 _ _ _ _ found => cases done; exact TagToken.length_of_next? found
  | case3 _ _ _ _ found => cases done; exact TagToken.length_of_next? found
  | case4 _ _ _ _ found ih => exact Nat.lt_trans (ih done) (TagToken.length_of_next? found)
  | case5 _ _ _ _ _ found ih => exact Nat.lt_trans (ih done) (TagToken.length_of_next? found)
  | case6 => cases done
  | case7 => cases done
  | case8 _ _ _ found _ _ _ valued ih =>
    exact Nat.lt_of_lt_of_le (ih done)
      (Nat.le_of_lt (Nat.lt_of_le_of_lt (length_of_value? valued) (TagToken.length_of_next? found)))
  | case9 => cases done
  | case10 => cases done

/-- A tag takes at least one character. -/
theorem length_of_read {size start : Nat} {tag : String} {input : List Char} {result : OpenTag}
    (done : read size start tag input = .ok result) : result.rest.length < input.length :=
  length_of_readFrom done

end OpenTag

end Inlay.Markup
