/-
# Render.Instance — a prototype made into nodes

An instance is a copy of a prototype in a document, with every binding led to
its node. `update` writes a context to the bindings in document order; a binder
changes only what differs. A fault stops an update where it stands.

`discard` frees an instance. Nodes below it that belong to survivors are taken
out first.
-/
import Inlay.Render.Anchor

namespace Inlay.Render

set_option autoImplicit false

open Inlay.Template

/-- A binding at a node. -/
inductive Slot where
  | text (node : NodeId) (content : Pattern)
  /-- The value of a `<textarea>`. -/
  | textareaValue (element : NodeId) (content : Pattern)
  | attribute (element : NodeId) (name : String) (content : Pattern) (property : Option LiveProperty)
  | anchor (path : Path) (anchor : Anchor)

structure Instance where
  /-- The fragment the nodes were made in. -/
  fragment : NodeId
  /-- The top-level nodes of the prototype. -/
  tops : List NodeId
  slots : List Slot

namespace Slot

/-- The anchor of a comment. -/
def anchorAt? (comment : NodeId) : Slot → Option Anchor
  | .anchor _ a => if a.comment = comment then some a else none
  | _ => none

/-- The node that child indices lead to. -/
def resolve? (d : Document) (fragment : NodeId) (path : List Nat) : Option NodeId :=
  path.foldlM (fun node index => d.childAt? node index) fragment

/-- Leads a binding to its node. -/
def bind? (d : Document) (fragment : NodeId) (binding : Binding) : Option Slot := do
  let node ← resolve? d fragment binding.path
  match binding.target with
  | .text content => return .text node content
  | .textareaValue content => return .textareaValue (← d.parent? node) content
  | .attribute index _ content property =>
    let a ← (← d.element? node).attributes[index]?
    return .attribute node a.name content property
  | .anchor path => return .anchor path (.new node)

/-- The text of an attribute, none when it is to be absent: a single placeholder
decides by its value, where true stands for an empty text. -/
def attributeText {α : Type} (content : Pattern) (context : ValueOf α) : Option String :=
  match content.whole? with
  | none => some (content.render context)
  | some path =>
    match context.find? path.segments with
    | none => none
    | some (.bool true) => some ""
    | some value => if value.isPresent then some value.text else none

/-- The value of a property that follows an attribute. -/
def propertyValue (text : Option String) : LiveProperty → Property
  | .value => .text (text.getD "")
  | .checked => .flag text.isSome
  | .selected => .flag text.isSome

/-- Sets an attribute, or removes it for no text. -/
def putOrRemove (element : NodeId) (name : String) : (text : Option String) → Act Bool
  | some value => Act.edit (Document.setAttribute element name value)
  | none => Act.edit (Document.removeAttribute element name)

/-- Writes the property that follows an attribute, if there is one. -/
def follow (element : NodeId) (text : Option String) : Option LiveProperty → Act Unit
  | none => return
  | some property => do
    let _ ← Act.edit (Document.setProperty element property.name (propertyValue text property))

/-- Sets or removes an attribute, then writes the property that follows it. -/
def writeAttribute (element : NodeId) (name : String) (property : Option LiveProperty)
    (text : Option String) : Act Unit := do
  let _ ← putOrRemove element name text
  follow element text property

/-- Writes a context. -/
def write (context : Value) : Slot → Act Slot
  | .text node content => do
    let _ ← Act.edit (Document.setText node (content.render context))
    return .text node content
  | .textareaValue element content => do
    let _ ← Act.edit (Document.setProperty element "value" (.text (content.render context)))
    return .textareaValue element content
  | .attribute element name content property => do
    writeAttribute element name property (attributeText content context)
    return .attribute element name content property
  | .anchor path a => return .anchor path (← a.update (context.find? path.segments))

/-- A slot that could not be written. -/
def spoiled : Slot → Slot
  | .anchor path a => .anchor path a.spoiled
  | slot => slot

/-- Writes a context to slots in order, up to a fault. -/
def writeAll (context : Value) : List Slot → Stage → (Option Fault × List Slot) × Stage
  | [], stage => ((none, []), stage)
  | slot :: rest, stage =>
    match slot.write context stage with
    | .error fault stage => ((some fault, slot.spoiled :: rest), stage)
    | .ok slot stage =>
      let ((fault, rest), stage) := writeAll context rest stage
      ((fault, slot :: rest), stage)

end Slot

namespace Instance

/-- Leads bindings to their nodes. -/
def bindAll (label : String) (d : Document) (fragment : NodeId) :
    List Binding → Except Fault (List Slot)
  | [] => .ok []
  | binding :: rest => do
    match Slot.bind? d fragment binding with
    | none => throw (.misplaced label binding.path)
    | some slot => return slot :: (← bindAll label d fragment rest)

/-- A new instance of a prototype, in a fragment of its own. -/
def ofPrototype (prototype : Prototype) : Act Instance := do
  let fragment ← Act.edit (Document.plantFragment prototype.content)
  let tops ← Act.ask (·.children fragment)
  match ← Act.ask fun d => bindAll prototype.label d fragment prototype.bindings with
  | .ok slots => return ⟨fragment, tops, slots⟩
  | .error fault => throw fault

/-- The top-level nodes, each anchor with the nodes behind it. -/
def nodes (inst : Instance) : List NodeId :=
  inst.tops.flatMap fun node =>
    match inst.slots.findSome? (Slot.anchorAt? node) with
    | some anchor => node :: anchor.current
    | none => [node]

/-- Writes a context. -/
def update (context : Value) (inst : Instance) (stage : Stage) :
    (Option Fault × Instance) × Stage :=
  let ((fault, slots), stage) := Slot.writeAll context inst.slots stage
  ((fault, { inst with slots := slots }), stage)

/-- The survivors below nodes that are not below another survivor. -/
def outermost (survivors : List NodeId) (d : Document) : (fuel : Nat) → List NodeId → List NodeId
  | 0, _ => []
  | _ + 1, [] => []
  | fuel + 1, node :: rest =>
    if survivors.contains node then node :: outermost survivors d fuel rest
    else outermost survivors d fuel (d.children node ++ rest)

/-- Frees a node that is alive and no survivor, and takes survivors out of it. -/
def discardNode (survivors : List NodeId) (node : NodeId) : Act Unit := do
  let alive ← Act.ask (·.contains node)
  if alive && !survivors.contains node then
    let rescued ← Act.ask fun d => outermost survivors d d.slots.size (d.children node)
    rescued.forM fun id => Act.edit (Document.remove id)
    Act.edit (Document.discard node)

/-- Frees an instance. -/
def discard (survivors : List NodeId) (inst : Instance) : Act Unit := do
  inst.nodes.forM (discardNode survivors)
  if ← Act.ask (·.contains inst.fragment) then Act.edit (Document.discard inst.fragment)

end Instance

end Inlay.Render
