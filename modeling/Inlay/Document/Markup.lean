/-
# Document.Markup — markup into nodes and nodes into markup

`parse` reads a source into a new detached fragment. Nodes are made in the order
of the pieces, and a text when something else ends it: the element or comment
that does so is made before the text. When the source has a fault, what was
made for the pieces in front of it is freed again.

`outerMarkup`, `innerMarkup` and `visibleMarkup` write nodes as HTML.
-/
import Inlay.Document.Copy
import Inlay.Markup.Forest

namespace Inlay.Document

set_option autoImplicit false

open Inlay.Markup

/-! ## Reading -/

/-- Pieces being read into a fragment: the fragment, the open elements with their
tags, innermost first, and gathered text. -/
structure Seedbed where
  fragment : NodeId
  opened : List (NodeId × String)
  gathered : String

namespace Seedbed

/-- The node that takes children now. -/
def innermost (bed : Seedbed) : NodeId :=
  match bed.opened with
  | (id, _) :: _ => id
  | [] => bed.fragment

/-- The gathered text becomes a node. -/
def flush (bed : Seedbed) : Edit Seedbed := do
  if bed.gathered = "" then return bed
  let id ← Edit.always (create (.text bed.gathered))
  append bed.innermost id
  return { bed with gathered := "" }

/-- A new node behind the gathered text. -/
def add (content : Content) (bed : Seedbed) : Edit (NodeId × Seedbed) := do
  let id ← Edit.always (create content)
  let bed ← bed.flush
  append bed.innermost id
  return (id, bed)

/-- A new element with one text, or none when that is empty. -/
def addRaw (element : Element) (content : String) (bed : Seedbed) : Edit Seedbed := do
  let (id, bed) ← bed.add (.element element)
  if content = "" then return bed
  let text ← Edit.always (create (.text content))
  append id text
  return bed

def step (bed : Seedbed) : Piece → Edit Seedbed
  | .text content => return { bed with gathered := bed.gathered ++ content }
  | .comment body => return (← bed.add (.comment body)).2
  | .empty tag attributes => return (← bed.add (.element (.plain tag attributes))).2
  | .raw tag attributes content => bed.addRaw (.plain tag attributes) content
  | .opening tag attributes => do
    let (id, bed) ← bed.add (.element (.plain tag attributes))
    return { bed with opened := (id, tag) :: bed.opened }
  | .closing tag => do
    let bed ← bed.flush
    match bed.opened.findIdx? (·.2 = tag) with
    | some inner => return { bed with opened := bed.opened.drop (inner + 1) }
    | none => return bed

/-- Reads pieces in order. -/
def steps (bed : Seedbed) : List Piece → Edit Seedbed
  | [] => return bed
  | piece :: rest => do (← bed.step piece).steps rest

end Seedbed

/-- Reads pieces into a fragment; a fault behind them is given as the answer. -/
def readPieces (reading : Reading) (fragment : NodeId) : Edit (Option Markup.Fault) := do
  let bed ← Seedbed.steps ⟨fragment, [], ""⟩ reading.pieces
  match reading.fault with
  | some fault => return some fault
  | none =>
    let _ ← bed.flush
    return none

/-- Reads a source into a new detached fragment, or frees what it made and
gives the fault. -/
def parse (source : String) : Edit (Except Markup.Fault NodeId) := do
  let fragment ← Edit.always (create .fragment)
  let read := tryCatch (readPieces (Reading.ofSource source) fragment) fun fault => do
    discard fragment
    throw fault
  match ← read with
  | none => return .ok fragment
  | some fault =>
    discard fragment
    return .error fault

/-! ## Writing -/

/-- The HTML of a node's children. -/
def childMarkup (d : Document) (id : NodeId) (comments : Bool) : String :=
  Tree.writeAll comments (d.tag? id) (d.forest id)

/-- The HTML of a node's children. -/
def innerMarkup (d : Document) (id : NodeId) : String := d.childMarkup id true

/-- The HTML of a node's children without comments. -/
def visibleMarkup (d : Document) (id : NodeId) : String := d.childMarkup id false

/-- The HTML of a node; of a fragment, that of its children. -/
def outerMarkup (d : Document) (id : NodeId) : String :=
  match d.tree? id with
  | some tree => Tree.write true ((d.parent? id).bind d.tag?) tree
  | none => d.innerMarkup id

end Inlay.Document
