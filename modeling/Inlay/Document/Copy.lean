/-
# Document.Copy — trees out of a document and into it

`tree?` reads the tree of a node off the document, live properties left out;
`plant` makes the nodes of a tree, each before the ones below it and behind it.
A deep copy is one after the other, within a document or from one into another.
-/
import Inlay.Document.Edit
import Inlay.Markup.Tree

namespace Inlay.Document

set_option autoImplicit false

open Inlay.Markup

/-! ## Reading trees -/

/-- The tree of a node at most `fuel` levels deep; a fragment is no tree. -/
def treeWithin (d : Document) : (fuel : Nat) → NodeId → Option Tree
  | 0, _ => none
  | fuel + 1, id =>
    match d.get? id with
    | none => none
    | some node =>
      match node.content with
      | .text data => some (.text data)
      | .comment data => some (.comment data)
      | .fragment => none
      | .element e => some (.element e.tag e.attributes ((d.children id).filterMap (d.treeWithin fuel)))

/-- The tree of a node that is no fragment. -/
def tree? (d : Document) (id : NodeId) : Option Tree := d.treeWithin d.slots.size id

/-- The trees of a node's children. -/
def forest (d : Document) (id : NodeId) : List Tree := (d.children id).filterMap d.tree?

/-! ## Planting trees -/

/-- A new node at the end of a parent, if there is one. -/
def createIn (parent : Option NodeId) (content : Content) : Edit NodeId := do
  let id ← Edit.always (create content)
  match parent with
  | none => return id
  | some parent =>
    link parent id none
    return id

mutual

/-- Makes the nodes of a tree at the end of a parent, if there is one. -/
def plant (parent : Option NodeId) : Tree → Edit NodeId
  | .text data => createIn parent (.text data)
  | .comment data => createIn parent (.comment data)
  | .element tag attributes children => do
    let id ← createIn parent (.element (.plain tag attributes))
    plantAll id children
    return id

/-- Makes the nodes of trees at the end of a parent, in order. -/
def plantAll (parent : NodeId) : List Tree → Edit Unit
  | [] => return
  | tree :: rest => do
    let _ ← plant (some parent) tree
    plantAll parent rest

end

/-- Makes a fragment with the nodes of trees. -/
def plantFragment (trees : List Tree) : Edit NodeId := do
  let id ← Edit.always (create .fragment)
  plantAll id trees
  return id

/-! ## Copies -/

/-- What there is to copy: a fragment with its trees, or a tree. -/
def likeness (source : Document) (id : NodeId) : Except Fault (List Tree ⊕ Tree) :=
  match source.live id with
  | .error fault => .error fault
  | .ok _ =>
    match source.tree? id with
    | some tree => .ok (.inr tree)
    | none => .ok (.inl (source.forest id))

/-- Makes a copy of what was read. -/
def plantLikeness : List Tree ⊕ Tree → Edit NodeId
  | .inl trees => plantFragment trees
  | .inr tree => plant none tree

/-- A detached deep copy of a node of this document. -/
def copy (id : NodeId) : Edit NodeId := do
  plantLikeness (← Edit.require (·.likeness id))

/-- A detached deep copy of a node of another document. -/
def copyFrom (source : Document) (id : NodeId) : Edit NodeId := do
  plantLikeness (← Edit.require fun _ => source.likeness id)

end Inlay.Document
