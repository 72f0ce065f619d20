/-
# Template.Pattern — text with placeholders

A placeholder is a path between `${` and the next `}`. `Chunk.scan` cuts a text
at its placeholders without reading the paths and loses nothing; `Pattern.read?`
reads them, from left to right. A text without `${` is no pattern.
-/
import Inlay.Data.Value
import Inlay.Template.Fault

namespace Inlay

set_option autoImplicit false

open Inlay.Text

namespace Template

/-- The start of a placeholder. -/
def opener : List Char := ['$', '\x7b']

/-- The end of a placeholder. -/
def closer : List Char := ['\x7d']

/-- The text holds a placeholder, or at least its start. -/
def hasPlaceholder (text : String) : Bool := occurs opener text.toList

/-- A stretch of a text with placeholders. -/
inductive Chunk where
  | literal (content : List Char)
  /-- What stands between `${` and `}`. -/
  | place (body : List Char)
  /-- What stands behind a `${` that is never closed. -/
  | unclosed (rest : List Char)
  deriving DecidableEq

namespace Chunk

/-- A literal, unless it is empty. -/
def literals (content : List Char) : List Chunk :=
  if content.isEmpty then [] else [.literal content]

/-- Cuts a text at its placeholders. -/
def scan (text : List Char) : List Chunk :=
  match _opened : cutAt? opener text with
  | none => literals text
  | some (before, inside) =>
    match _closed : cutAt? closer inside with
    | none => literals before ++ [.unclosed inside]
    | some (body, rest) => literals before ++ .place body :: scan rest
termination_by text.length
decreasing_by
  have := length_of_cutAt? _opened
  have := length_of_cutAt? _closed
  simp only [opener, closer, List.length_cons, List.length_nil] at *
  omega

end Chunk

/-- A part of a pattern. -/
inductive Part where
  | literal (content : String)
  | place (path : Path)
  deriving DecidableEq

end Template

open Template

structure Pattern where
  parts : List Part
  deriving DecidableEq

namespace Pattern

/-- The path in the source of a placeholder. -/
def readPath (source : List Char) : Except Fault Path :=
  match Path.read? source with
  | .ok path => .ok path
  | .error flaw => .error (.badPath (String.ofList source) flaw)

/-- The part that a chunk of a text stands for. -/
def readChunk (text : String) : Chunk → Except Fault Part
  | .literal content => .ok (.literal (String.ofList content))
  | .place body => (readPath body).map .place
  | .unclosed _ => .error (.openPlaceholder text)

/-- Reads a text with a placeholder. -/
def read (text : String) : Except Fault Pattern :=
  ((Chunk.scan text.toList).mapM (readChunk text)).map Pattern.mk

/-- Reads a text; nothing when it has no placeholder. -/
def read? (text : String) : Except Fault (Option Pattern) :=
  if hasPlaceholder text then (read text).map some else .ok none

/-- The path of a pattern that is one placeholder. -/
def whole? (pattern : Pattern) : Option Path :=
  match pattern.parts with
  | [.place path] => some path
  | _ => none

variable {α : Type}

/-- The text of a part; nothing for a path that leads nowhere. -/
def partText (context : ValueOf α) : Part → String
  | .literal content => content
  | .place path =>
    match context.find? path.segments with
    | some value => value.text
    | none => ""

/-- The text of a pattern. -/
def render (pattern : Pattern) (context : ValueOf α) : String :=
  String.join (pattern.parts.map (partText context))

end Pattern

end Inlay
