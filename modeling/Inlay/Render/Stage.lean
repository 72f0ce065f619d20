/-
# Render.Stage — what rendering works on

While data are rendered, a document is edited and nodes are claimed. A node is
claimed by whoever places it; nobody who placed it earlier takes it away then.
An act gives an answer or fails, and leaves a stage in both cases: what was
edited before a fault stays edited.
-/
import Inlay.Document.Edit
import Inlay.Render.Fault

namespace Inlay.Render

set_option autoImplicit false

/-- Nodes claimed by whoever placed them. -/
abbrev Claims := List NodeId

/-- The claims with one more. -/
def Claims.add (node : NodeId) (claims : Claims) : Claims :=
  if claims.contains node then claims else node :: claims

structure Stage where
  document : Document
  claims : Claims

abbrev Act := EStateM Fault Stage

namespace Act

/-- An edit of the document. -/
def edit {α : Type} (e : Document.Edit α) : Act α := fun stage =>
  match e stage.document with
  | .ok answer document => .ok answer { stage with document := document }
  | .error fault document => .error (.document fault) { stage with document := document }

/-- What the document says. -/
def ask {α : Type} (f : Document → α) : Act α := fun stage => .ok (f stage.document) stage

def isClaimed (node : NodeId) : Act Bool := fun stage => .ok (stage.claims.contains node) stage

def claim (node : NodeId) : Act Unit := fun stage =>
  .ok () { stage with claims := stage.claims.add node }

end Act

end Inlay.Render
