/-
# Document.Fault — edits a document refuses
-/
import Inlay.Document.Node

namespace Inlay.Document

set_option autoImplicit false

inductive Fault where
  /-- The id names no live node. -/
  | stale (id : NodeId)
  | notContainer (id : NodeId)
  | notChild (parent child : NodeId)
  /-- The node would come to stand below itself, or it is the body. -/
  | cycle (parent node : NodeId)
  | notElement (id : NodeId)
  | notCharacterData (id : NodeId)
  | bodyRemoval
  deriving DecidableEq

namespace Fault

def message : Fault → String
  | stale id => s!"Node {id.text} no longer exists"
  | notContainer id => s!"Node {id.text} cannot have children"
  | notChild parent child => s!"Node {child.text} is not a child of {parent.text}"
  | cycle parent node => s!"Inserting {node.text} into {parent.text} would create a cycle"
  | notElement id => s!"Node {id.text} is not an element"
  | notCharacterData id => s!"Node {id.text} is not a text or comment node"
  | bodyRemoval => "The document body cannot be removed"

end Fault

end Inlay.Document
