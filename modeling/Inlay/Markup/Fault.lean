/-
# Markup.Fault — why markup cannot be read

A fault names the construct that is wrong and its position in bytes; `span` is
the stretch of the source that shows it and `message` its wording.
-/
import Inlay.Text.Quoted

namespace Inlay.Markup

set_option autoImplicit false

open Inlay.Text

inductive Fault where
  /-- A comment without its end. -/
  | openComment (start : Nat)
  /-- An opening tag without its end. -/
  | openTag (start : Nat) (tag : String)
  /-- Something that may not stand where it stands in an opening tag. -/
  | unexpected (start : Nat) (tag found : String)
  /-- A closing tag or declaration without its end. -/
  | openMarkup (start : Nat) (slice : String)
  deriving DecidableEq

namespace Fault

def message : Fault → String
  | openComment start => s!"Unterminated comment starting at {start}"
  | openTag start tag => s!"Unterminated <{tag}> tag starting at {start}"
  | unexpected start tag found => s!"Unexpected {quoted found} in <{tag}> at {start}"
  | openMarkup start slice => s!"Lexer error at {start}: Unexpected input {quoted slice}"

/-- The first byte of the fault and the one behind its last. -/
def span : Fault → Nat × Nat
  | openComment start => (start, start + 4)
  | openTag start tag => (start, start + tag.utf8ByteSize + 1)
  | unexpected start _ found => (start, start + max found.utf8ByteSize 1)
  | openMarkup start _ => (start, start + 1)

/-- The line that heads a report of the fault. -/
def headline (fault : Fault) : String := s!"Error: {fault.message}"

end Fault

end Inlay.Markup
