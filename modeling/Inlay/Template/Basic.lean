/-
# Template.Basic — compiled templates

A template is a root prototype and the prototypes of its definitions, by name.
`compile` reads the markup, takes the definitions out and lists the bindings of
every prototype. A definition inside another one is compiled before it, and of
two at the same level the one further behind: this order tells which of several
faults is given.
-/
import Inlay.Markup.Forest
import Inlay.Template.Binding
import Inlay.Template.Definition

namespace Inlay

set_option autoImplicit false

open Inlay.Markup

namespace Template

/-- What instances are made from. -/
structure Prototype where
  /-- The name of the definition; the root has none. -/
  name : Option String
  content : List Tree
  bindings : List Binding

namespace Prototype

/-- What a prototype is called in messages. -/
def label (prototype : Prototype) : String := prototype.name.getD "<root>"

/-- The HTML of a prototype. -/
def markup (prototype : Prototype) : String := Tree.writeAll true none prototype.content

/-- Clears the placeholders of trees and lists what they bind. -/
def compile (name : Option String) (content : List Tree) : Except Fault Prototype := do
  return ⟨name, cleared content, ← Template.bindings none [] 0 content⟩

end Prototype

/-- The definitions with their names; each must have one. -/
def named (template : String) : List Definition → Except Fault (List (String × List Tree))
  | [] => return []
  | definition :: rest =>
    match definition.id with
    | none => throw (.nameless template)
    | some id => return (id, definition.content) :: (← named template rest)

/-- Adds the prototypes of definitions to those compiled before. -/
def compileNamed (template : String) (done : Fields Prototype) :
    List (String × List Tree) → Except Fault (Fields Prototype)
  | [] => return done
  | (name, content) :: rest => do
    if (done.get? name).isSome then throw (.duplicate template name)
    let prototype ← Prototype.compile (some name) content
    compileNamed template (done.put name prototype) rest

end Template

open Template

structure Template where
  name : String
  root : Prototype
  definitions : Fields Prototype

namespace Template

/-- Compiles the trees of a source. -/
def ofForest (name : String) (forest : List Tree) : Except Fault Template := do
  let definitions ← named name (forestDefinitions forest).reverse
  let root ← Prototype.compile none (kept forest)
  return ⟨name, root, ← compileNamed name [] definitions⟩

/-- Compiles a source. -/
def compile (name source : String) : Except Fault Template :=
  match forest? source with
  | .error fault => .error (.markup name fault)
  | .ok forest => ofForest name forest

/-- The prototype of a definition, or the root for no name. -/
def prototype? (template : Template) : Option String → Option Prototype
  | none => some template.root
  | some name => template.definitions.get? name

/-- The template defines the name. -/
def defines (template : Template) (name : String) : Bool :=
  (template.definitions.get? name).isSome

end Template

end Inlay
