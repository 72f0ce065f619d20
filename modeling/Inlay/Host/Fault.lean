/-
# Host.Fault — what can go wrong around a render

A template may fail to load or to compile, a component may fail to say what it
displays, its data may fail to render, and settings may be wrong.
-/
import Inlay.Host.Files
import Inlay.Render.Fault

namespace Inlay.Host

set_option autoImplicit false

open Inlay.Text

/-- Why a template's markup cannot be had. -/
inductive LoadFlaw where
  | badName
  | notFound
  | unreadable (path : String) (flaw : FileFlaw)
  deriving DecidableEq

def LoadFlaw.message : LoadFlaw → String
  | badName => "invalid template name"
  | notFound => "not found"
  | unreadable path flaw => s!"{path}: {flaw.message}"

inductive Fault where
  | load (name : String) (flaw : LoadFlaw)
  | compile (fault : Template.Fault)
  | render (fault : Render.Fault)
  | display (reason : String)
  | settings (reason : String)
  deriving DecidableEq

namespace Fault

def message : Fault → String
  | load name flaw => s!"Failed to load template {quoted name}: {flaw.message}"
  | compile fault => s!"Failed to compile template: {fault.message}"
  | render fault => s!"Failed to render: {fault.message}"
  | display reason => s!"Display failed: {reason}"
  | settings reason => s!"Invalid configuration: {reason}"

end Fault

end Inlay.Host
