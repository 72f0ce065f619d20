/-
# Document.Snapshot — copies without recursion

A snapshot lists the nodes of a subtree in document order: of each the content, live
properties left out, and the position of its parent in the list. The nodes still to list are
kept on a stack. Making the nodes of the list one after the other, each at the end of the
one that was made for its parent, copies the subtree.

`Document.copy` does the same by way of trees.
-/
import Inlay.Document.Copy

namespace Inlay

set_option autoImplicit false

/-- The content of a copy: live properties are left out. -/
def Content.bare : Content → Content
  | .element e => .element (.plain e.tag e.attributes)
  | content => content

namespace Document

/-- The contents of nodes with the positions of their parents, if these are listed. -/
abbrev Snapshot := List (Content × Option Nat)

/-- The children of the node at a position are put on the stack, the last one first. -/
def stacked (position : Nat) (children : List NodeId) (stack : List (NodeId × Option Nat)) :
    List (NodeId × Option Nat) :=
  children.reverse.foldl (fun stack child => (child, some position) :: stack) stack

/-- Lists what is on a stack, and what is below it, behind what is listed already. -/
def snapshotFrom (d : Document) :
    (fuel : Nat) → (stack : List (NodeId × Option Nat)) → (listed : Snapshot) → Except Fault Snapshot
  | 0, _, listed => .ok listed
  | _ + 1, [], listed => .ok listed
  | fuel + 1, (id, above) :: stack, listed =>
    match d.live id with
    | .error fault => .error fault
    | .ok node =>
      d.snapshotFrom fuel (stacked listed.length (d.children id) stack) (listed ++ [(node.content.bare, above)])

/-- The subtree of a node. No node is listed twice, so that there are no more steps than slots. -/
def snapshot (d : Document) (id : NodeId) : Except Fault Snapshot := d.snapshotFrom d.slots.size [(id, none)] []

/-- Makes the nodes of a snapshot; `made` are those made already. -/
def buildFrom (made : List NodeId) : Snapshot → Edit (List NodeId)
  | [] => return made
  | (content, above) :: rest => do
    let id ← createIn (above.bind (made[·]?)) content
    buildFrom (made ++ [id]) rest

/-- Makes the nodes of a snapshot, and gives the first one. -/
def build (snapshot : Snapshot) : Edit (Option NodeId) := do
  return (← buildFrom [] snapshot).head?

/-- A detached deep copy of a node of a document, by way of a snapshot. -/
def copySnapshot (source : Document) (id : NodeId) : Edit (Option NodeId) := do
  build (← Edit.require fun _ => source.snapshot id)

end Document

end Inlay
