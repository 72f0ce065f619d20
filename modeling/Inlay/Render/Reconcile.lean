/-
# Render.Reconcile — one list of siblings in place of another

`reconcile` makes a list of nodes stand at a position. Nodes of the previous
list that are not in the new one are detached, unless somebody claimed them.
The new nodes are claimed and moved only when they are not where they belong
already. Behind a node that is itself detached, nothing can stand: the new nodes
are then detached too.
-/
import Inlay.Render.Stage

namespace Inlay.Render

set_option autoImplicit false

/-- Where a list of nodes begins. -/
inductive Position where
  /-- Right behind a node, in its parent. -/
  | behind (node : NodeId)
  /-- At the start of a container. -/
  | within (container : NodeId)
  deriving DecidableEq

namespace Position

/-- The container of the list. -/
def parent? (position : Position) (d : Document) : Option NodeId :=
  match position with
  | behind node => d.parent? node
  | within container => some container

/-- The node in front of the list. -/
def cursor? : Position → Option NodeId
  | behind node => some node
  | within _ => none

end Position

/-- Detaches the nodes of the previous list that nobody keeps. -/
def detachOld (next : List NodeId) : (previous : List NodeId) → Act Unit
  | [] => pure ()
  | node :: rest => do
    let claimed ← Act.isClaimed node
    let alive ← Act.ask (·.contains node)
    if !next.contains node && !claimed && alive then Act.edit (Document.remove node)
    detachOld next rest

/-- Detaches a node that has a parent. -/
def detachPlaced (node : NodeId) : Act Unit := do
  if (← Act.ask (·.parent? node)).isSome then Act.edit (Document.remove node)

/-- What stands right behind a cursor in a container, or first without one. -/
def behindCursor (parent : NodeId) (cursor : Option NodeId) (d : Document) : Option NodeId :=
  match cursor with
  | some cursor => d.nextSibling? cursor
  | none => d.firstChild? parent

/-- Puts a node behind a cursor; a node that stands there is not moved. -/
def placeOne (parent : NodeId) (cursor : Option NodeId) (node : NodeId) : Act Unit := do
  let here ← Act.ask (behindCursor parent cursor)
  if here ≠ some node then Act.edit (Document.insertBefore parent node here)

/-- Puts nodes into a container behind a cursor, or at the start without one. -/
def placeIn (parent : NodeId) : (cursor : Option NodeId) → List NodeId → Act Unit
  | _, [] => pure ()
  | cursor, node :: rest => do
    Act.claim node
    placeOne parent cursor node
    placeIn parent (some node) rest

/-- Claims nodes that have nowhere to stand. -/
def placeNowhere : List NodeId → Act Unit
  | [] => pure ()
  | node :: rest => do
    Act.claim node
    detachPlaced node
    placeNowhere rest

/-- Makes `next` stand at a position in place of `previous`. -/
def reconcile (position : Position) (previous next : List NodeId) : Act Unit := do
  detachOld next previous
  match ← Act.ask position.parent? with
  | some parent => placeIn parent position.cursor? next
  | none => placeNowhere next

end Inlay.Render
