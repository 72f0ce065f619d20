/-
# Data.Path — the expressions of placeholders

A path is written as segments between dots, with blanks allowed around each. A
segment is a run of decimal digits, or a letter, `_` or `$` followed by letters,
numerals, `_`, `$` and `-`. `read?` reads a path or says what is wrong with it;
`text` writes one without blanks.
-/
import Inlay.Text.Blank
import Inlay.Text.Cut
import Inlay.Text.Letter
import Inlay.Text.Quoted

namespace Inlay

set_option autoImplicit false

open Inlay.Text

structure Path where
  segments : List String
  deriving DecidableEq

namespace Path

/-- What is wrong with a path. -/
inductive Flaw where
  | empty
  | emptySegment
  | badSegment (segment : String)
  deriving DecidableEq

def Flaw.message : Flaw → String
  | .empty => "empty expression"
  | .emptySegment => "empty path segment"
  | .badSegment segment => s!"{quoted segment} is not a field name or index"

def isHeadChar (c : Char) : Bool := isLetter c || c == '_' || c == '$'

def isTailChar (c : Char) : Bool := isLetterOrNumeral c || c == '_' || c == '$' || c == '-'

/-- A field name or an index. -/
def isSegment : List Char → Bool
  | [] => false
  | c :: rest => (c :: rest).all Char.isDigit || (isHeadChar c && rest.all isTailChar)

/-- One segment between dots. -/
def readSegment (piece : List Char) : Except Flaw String :=
  let segment := trim piece
  if segment.isEmpty then .error .emptySegment
  else if isSegment segment then .ok (String.ofList segment)
  else .error (.badSegment (String.ofList segment))

/-- Reads a path; of several flaws the leftmost is given. -/
def read? (source : List Char) : Except Flaw Path :=
  let trimmed := trim source
  if trimmed.isEmpty then .error .empty
  else ((splitAt '.' trimmed).mapM readSegment).map Path.mk

/-- The written form of a path. -/
def text (path : Path) : String := join "." path.segments

end Path

end Inlay
