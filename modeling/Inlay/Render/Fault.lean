/-
# Render.Fault — why data cannot be rendered

Two faults come from the data and are found before anything is changed; one
comes from a binding whose place is gone, and one from the document.
-/
import Inlay.Document.Fault
import Inlay.Template.Basic

namespace Inlay.Render

set_option autoImplicit false

open Inlay.Text

inductive Fault where
  /-- The data select a template that is not defined. -/
  | unknown (template name : String)
  /-- The root of the data is neither a record nor selects a template. -/
  | badRoot (kind : String)
  /-- A binding leads to no node of an instance. -/
  | misplaced (label : String) (path : List Nat)
  | document (fault : Document.Fault)
  deriving DecidableEq

namespace Fault

def message : Fault → String
  | unknown template name => s!"Template {quoted template} has no sub-template named {quoted name}"
  | badRoot kind => s!"The root of a render must be a record or a template node, found {kind}"
  | misplaced label path =>
    s!"Binding path {path} does not resolve in an instance of {label}"
  | document fault => fault.message

end Fault

/-- The prototype that data select, or the root for no name. -/
def selected (template : Template) (name : Option String) : Except Fault Template.Prototype :=
  match template.prototype? name with
  | some prototype => .ok prototype
  | none => .error (.unknown template.name (name.getD ""))

end Inlay.Render
