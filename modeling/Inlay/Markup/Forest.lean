/-
# Markup.Forest — the trees that pieces build

Pieces build trees from left to right. An opening tag starts an element that
takes what follows; a closing tag ends the innermost open element of its name
together with the elements inside it, or nothing when no such element is open;
the end of the pieces ends what is still open. Text pieces gather until
something else comes, so that a run of them makes one text.

`forest?` reads a source into trees.
-/
import Inlay.Markup.Piece
import Inlay.Markup.Tree

namespace Inlay.Markup

set_option autoImplicit false

/-- An element that is still open: its tag and attributes, and its parent's
children in front of it, the nearest first. -/
structure OpenElement where
  tag : String
  attributes : List Attribute
  before : List Tree

/-- Trees under construction: the open elements, innermost first; the children
of the innermost, the last one first; and gathered text. -/
structure Growth where
  opened : List OpenElement
  children : List Tree
  gathered : String

namespace Growth

def start : Growth := ⟨[], [], ""⟩

/-- The gathered text as a child. -/
def flush (growth : Growth) : Growth :=
  if growth.gathered = "" then growth
  else { growth with children := .text growth.gathered :: growth.children, gathered := "" }

/-- One more child. -/
def add (tree : Tree) (growth : Growth) : Growth :=
  let growth := growth.flush
  { growth with children := tree :: growth.children }

/-- Ends the innermost `count` elements. -/
def close : (count : Nat) → Growth → Growth
  | 0, growth => growth
  | count + 1, growth =>
    match growth.opened with
    | [] => growth
    | element :: outer =>
      let tree := Tree.element element.tag element.attributes growth.children.reverse
      close count { growth with opened := outer, children := tree :: element.before }

/-- The children of a raw element. -/
def rawChildren (content : String) : List Tree := if content = "" then [] else [.text content]

def step (growth : Growth) : Piece → Growth
  | .text content => { growth with gathered := growth.gathered ++ content }
  | .comment body => growth.add (.comment body)
  | .empty tag attributes => growth.add (.element tag attributes [])
  | .raw tag attributes content => growth.add (.element tag attributes (rawChildren content))
  | .opening tag attributes =>
    let growth := growth.flush
    { growth with opened := ⟨tag, attributes, growth.children⟩ :: growth.opened, children := [] }
  | .closing tag =>
    let growth := growth.flush
    match growth.opened.findIdx? (·.tag = tag) with
    | some inner => growth.close (inner + 1)
    | none => growth

/-- The finished trees. -/
def finish (growth : Growth) : List Tree :=
  let growth := growth.flush
  (growth.close growth.opened.length).children.reverse

end Growth

/-- The trees of a sequence of pieces. -/
def forestOf (pieces : List Piece) : List Tree := (pieces.foldl Growth.step .start).finish

/-- The trees of a source. -/
def forest? (source : String) : Except Fault (List Tree) :=
  let reading := Reading.ofSource source
  match reading.fault with
  | some fault => .error fault
  | none => .ok (forestOf reading.pieces)

end Inlay.Markup
