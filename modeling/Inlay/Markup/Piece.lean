/-
# Markup.Piece — a source as a sequence of pieces

Reading a source gives pieces in the order of their appearance: decoded text,
comments, opening tags with their attributes, elements that are complete where
they stand (void, closed by `/>`, or raw with their text), and closing tags.
Declarations leave nothing. Raw content ends at the first `</` followed by the
tag in any case of its letters, and its closing tag at the next `>`.

`Reading.ofSource` reads until the end of the source or the first fault; the
pieces in front of a fault are kept.
-/
import Inlay.Markup.Attribute
import Inlay.Markup.Vocabulary

namespace Inlay.Markup

set_option autoImplicit false

open Inlay.Text

inductive Piece where
  /-- Character data with its references decoded; neighbours belong together. -/
  | text (content : String)
  | comment (body : String)
  /-- An element that stays open. -/
  | opening (tag : String) (attributes : List Attribute)
  /-- An element without content. -/
  | empty (tag : String) (attributes : List Attribute)
  /-- An element with one text, which may be empty. -/
  | raw (tag : String) (attributes : List Attribute) (content : String)
  | closing (tag : String)
  deriving DecidableEq

/-- The pieces of a source up to the first fault, or all of them. -/
structure Reading where
  pieces : List Piece
  fault : Option Fault

namespace Reading

/-- A reading with one more piece in front. -/
def push (piece : Piece) (reading : Reading) : Reading :=
  { reading with pieces := piece :: reading.pieces }

end Reading

/-- What follows the first `>` of a text, nothing without one. -/
def behindFinish (input : List Char) : List Char :=
  match untilFinish? input with
  | some (_, rest) => rest
  | none => []

/-- Raw content at the start of a text, and what follows its closing tag; the
content goes to the end when it is never closed. -/
def rawContent (tag : String) (input : List Char) : List Char × List Char :=
  match cutAt? ('<' :: '/' :: tag.toList) (lower input) with
  | some (before, _) =>
    (input.take before.length, behindFinish (input.drop before.length))
  | none => (input, [])

/-- The text of raw content: its references are decoded unless the element
keeps it verbatim. -/
def rawText (tag : String) (content : List Char) : String :=
  String.ofList (if isVerbatim tag then content else decode content)

theorem length_behindFinish (input : List Char) : (behindFinish input).length ≤ input.length := by
  unfold behindFinish
  split
  · next found => exact Nat.le_of_lt (Token.length_of_untilFinish? found)
  · exact Nat.zero_le _

theorem length_rawContent (tag : String) (input : List Char) :
    (rawContent tag input).2.length ≤ input.length := by
  unfold rawContent
  split
  · next before _ _ =>
    have := length_behindFinish (input.drop before.length)
    rw [List.length_drop] at this
    exact Nat.le_trans this (Nat.sub_le _ _)
  · exact Nat.zero_le _

namespace Reading

/-- The piece of an opening tag, and what follows it. -/
def ofOpenTag (tag : String) (opened : OpenTag) : Piece × List Char :=
  if opened.closed ∨ isVoid tag then (.empty tag opened.attributes, opened.rest)
  else if isRaw tag then
    let (content, rest) := rawContent tag opened.rest
    (.raw tag opened.attributes (rawText tag content), rest)
  else (.opening tag opened.attributes, opened.rest)

theorem length_ofOpenTag (tag : String) (opened : OpenTag) :
    (ofOpenTag tag opened).2.length ≤ opened.rest.length := by
  unfold ofOpenTag
  split
  · exact Nat.le_refl _
  split
  · exact length_rawContent _ _
  · exact Nat.le_refl _

/-- The fault of a broken token at a position. -/
def brokenFault (start : Nat) (slice : List Char) : Fault :=
  if slice.take 4 = ['<', '!', '-', '-'] then .openComment start
  else .openMarkup start (String.ofList slice)

/-- Reads the rest of a source of `size` bytes. -/
def readFrom (size : Nat) (input : List Char) : Reading :=
  let start := size - bytes input
  match _found : Token.next? input with
  | none => ⟨[], none⟩
  | some (.text content, rest) => (readFrom size rest).push (.text (String.ofList (decode content)))
  | some (.less, rest) => (readFrom size rest).push (.text "<")
  | some (.declaration, rest) => readFrom size rest
  | some (.comment body, rest) => (readFrom size rest).push (.comment (String.ofList body))
  | some (.closing name, rest) => (readFrom size rest).push (.closing (String.ofList (lower name)))
  | some (.broken slice, _) => ⟨[], some (brokenFault start slice)⟩
  | some (.opening name, rest) =>
    let tag := String.ofList (lower name)
    match _opened : OpenTag.read size start tag rest with
    | .error fault => ⟨[], some fault⟩
    | .ok opened => (readFrom size (ofOpenTag tag opened).2).push (ofOpenTag tag opened).1
termination_by input.length
decreasing_by
  · exact Token.length_of_next? _found
  · exact Token.length_of_next? _found
  · exact Token.length_of_next? _found
  · exact Token.length_of_next? _found
  · exact Token.length_of_next? _found
  · exact Nat.lt_of_le_of_lt (length_ofOpenTag _ _)
      (Nat.lt_trans (OpenTag.length_of_read _opened) (Token.length_of_next? _found))

/-- Reads a source. -/
def ofSource (source : String) : Reading := readFrom source.utf8ByteSize source.toList

end Reading

end Inlay.Markup
