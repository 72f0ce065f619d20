/-
# Template.Definition — named templates inside a template

Every `<template>` element defines a template by its id; its content is the
definition's and not that of the template around it. `kept` is what stays of a
list of siblings: the definitions leave, together with the blank text right in
front of each and the one right behind it. `forestDefinitions` lists the definitions
of trees, an outer one before those inside it.
-/
import Inlay.Markup.Tree
import Inlay.Text.Blank

namespace Inlay.Template

set_option autoImplicit false

open Inlay.Markup

/-- The tag of definitions. -/
def definitionTag : String := "template"

def isDefinition : Tree → Bool
  | .element tag _ _ => tag = definitionTag
  | _ => false

def isBlankText : Tree → Bool
  | .text content => (Text.trim content.toList).isEmpty
  | _ => false

/-- The siblings without a blank text in front. -/
def dropBlank : List Tree → List Tree
  | tree :: rest => if isBlankText tree then rest else tree :: rest
  | [] => []

mutual

/-- The tree without the definitions inside it. -/
def keptTree : Tree → Tree
  | .element tag attributes children => .element tag attributes (kept children)
  | .text content => .text content
  | .comment body => .comment body

/-- The siblings without definitions. -/
def kept : List Tree → List Tree
  | [] => []
  | tree :: rest =>
    if isDefinition tree then dropBlank (kept rest)
    else if isBlankText tree && rest.head?.any isDefinition then kept rest
    else keptTree tree :: kept rest

end

/-- A named template: its id, if it has one, and its content. -/
structure Definition where
  id : Option String
  content : List Tree

/-- The id of a definition; an empty one does not count. -/
def definedId (attributes : List Attribute) : Option String :=
  (Attribute.find? "id" attributes).filter (· ≠ "")

mutual

/-- The definitions at and inside a tree. -/
def treeDefinitions : Tree → List Definition
  | .element tag attributes children =>
    if tag = definitionTag then ⟨definedId attributes, kept children⟩ :: forestDefinitions children
    else forestDefinitions children
  | .text _ => []
  | .comment _ => []

/-- The definitions of trees, in document order. -/
def forestDefinitions : List Tree → List Definition
  | [] => []
  | tree :: rest => treeDefinitions tree ++ forestDefinitions rest

end

end Inlay.Template
