/-
# Document.Journal — what an observer of the body is told

A record tells of one change of the connected tree, the one below the body. A
`Tally` counts: nodes made and freed anywhere, and changes of the connected
tree. `Tally.since` is the difference of two tallies.
-/
import Inlay.Document.Node

namespace Inlay

set_option autoImplicit false

inductive Record where
  | childList (target : NodeId) (added removed : List NodeId)
  | characterData (target : NodeId)
  | attribute (target : NodeId) (name : String)
  | property (target : NodeId) (name : String)
  deriving DecidableEq

structure Tally where
  created : Nat := 0
  discarded : Nat := 0
  inserted : Nat := 0
  removed : Nat := 0
  textWrites : Nat := 0
  attributeWrites : Nat := 0
  propertyWrites : Nat := 0
  deriving DecidableEq

namespace Tally

/-- Changes of the connected tree, of any kind. -/
def writes (t : Tally) : Nat :=
  t.inserted + t.removed + t.textWrites + t.attributeWrites + t.propertyWrites

/-- What was counted after an earlier tally of the same document. -/
def since (now earlier : Tally) : Tally where
  created := now.created - earlier.created
  discarded := now.discarded - earlier.discarded
  inserted := now.inserted - earlier.inserted
  removed := now.removed - earlier.removed
  textWrites := now.textWrites - earlier.textWrites
  attributeWrites := now.attributeWrites - earlier.attributeWrites
  propertyWrites := now.propertyWrites - earlier.propertyWrites

end Tally

end Inlay
