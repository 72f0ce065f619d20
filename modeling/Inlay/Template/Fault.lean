/-
# Template.Fault — why a template cannot be compiled
-/
import Inlay.Data.Path
import Inlay.Markup.Fault

namespace Inlay.Template

set_option autoImplicit false

open Inlay.Text

inductive Fault where
  /-- The source is no markup. -/
  | markup (template : String) (fault : Markup.Fault)
  /-- A text with a placeholder that does not end. -/
  | openPlaceholder (text : String)
  | badPath (source : String) (flaw : Path.Flaw)
  /-- A definition without an id. -/
  | nameless (template : String)
  /-- Two definitions with one id. -/
  | duplicate (template name : String)
  deriving DecidableEq

namespace Fault

def message : Fault → String
  | markup template fault => s!"Failed to parse template {template}: {fault.message}"
  | openPlaceholder text => s!"Unterminated placeholder in {quoted text}"
  | badPath source flaw => s!"Invalid expression {quoted source}: {flaw.message}"
  | nameless template => s!"<template> element without an id in {template}"
  | duplicate template name => s!"Sub-template {quoted name} is declared twice in {template}"

end Fault

end Inlay.Template
