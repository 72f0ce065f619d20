/-
# Template.Assembly — compiling a template in a document

A template is compiled in a document of its own, in which a prototype is a
fragment. The source is read into a fragment. Then the definitions are taken out,
the last one in document order first, so that one inside another leaves before
it: its children move into a new fragment, and it is freed with the blank texts
next to it. In the end each fragment is toured from node to node along the links;
a tour lists the bindings and clears the placeholders.

Every step edits the document, which may refuse an edit. `Template.compile` says
the same of trees.
-/
import Inlay.Document.Markup
import Inlay.Template.Basic

namespace Inlay.Template

set_option autoImplicit false

open Inlay.Markup

/-- Why compiling in a document stops. -/
inductive Stop where
  | fault (fault : Fault)
  /-- The document refuses an edit. -/
  | document (fault : Document.Fault)
  deriving DecidableEq

/-- Work on the document of a template. -/
abbrev Work := EStateM Stop Document

namespace Work

variable {α : Type}

def edit (e : Document.Edit α) : Work α := fun d =>
  match e d with
  | .ok answer d => .ok answer d
  | .error fault d => .error (.document fault) d

/-- What the document says. -/
def ask (f : Document → α) : Work α := fun d => .ok (f d) d

/-- Goes on with an answer, or stops at a fault. -/
def require (answer : Except Fault α) : Work α := fun d =>
  match answer with
  | .ok found => .ok found d
  | .error fault => .error (.fault fault) d

end Work

/-! ## Taking definitions out -/

/-- The definitions below a node, in document order. -/
def definitionNodes (root : NodeId) (d : Document) : List NodeId :=
  (d.descendants root).filter fun node => d.tag? node = some definitionTag

def isBlankNode (d : Document) (node : NodeId) : Bool :=
  match d.content? node with
  | some (.text data) => (Text.trim data.toList).isEmpty
  | _ => false

/-- Frees a neighbour of a definition if it is a blank text. -/
def discardBlank : (neighbour : Option NodeId) → Work Unit
  | none => return
  | some node => do
    if ← Work.ask (isBlankNode · node) then Work.edit (Document.discard node)

/-- Moves nodes to the end of a fragment, in order. -/
def gather (fragment : NodeId) : List NodeId → Work Unit
  | [] => return
  | node :: rest => do
    Work.edit (Document.append fragment node)
    gather fragment rest

/-- The name of a definition; an empty one does not count. -/
def nameOf (template : String) (given : Option String) : Except Fault String :=
  match given.filter (· ≠ "") with
  | some name => .ok name
  | none => .error (.nameless template)

/-- Takes a definition out: its name, and a new fragment with its content. -/
def takeOut (template : String) (node : NodeId) : Work (String × NodeId) := do
  let given ← Work.ask (·.attribute? node "id")
  let name ← Work.require (nameOf template given)
  let fragment ← Work.edit (Document.Edit.always (Document.create .fragment))
  let children ← Work.ask (·.children node)
  gather fragment children
  let before ← Work.ask (·.previousSibling? node)
  let behind ← Work.ask (·.nextSibling? node)
  discardBlank before
  discardBlank behind
  Work.edit (Document.discard node)
  return (name, fragment)

/-- Takes definitions out, in order. -/
def takeOutAll (template : String) : List NodeId → Work (List (String × NodeId))
  | [] => return []
  | node :: rest => do
    let definition ← takeOut template node
    let others ← takeOutAll template rest
    return definition :: others

/-! ## Touring a fragment -/

/-- Clears the data of a node that is bound. -/
def clearBound (node : NodeId) (found : List Binding) : Work (List Binding) := do
  if found ≠ [] then
    let _ ← Work.edit (Document.setText node "")
  return found

/-- The bindings of attributes, which are cleared, the first of which has an
index. -/
def visitAttributes (node : NodeId) (tag : String) (path : List Nat) :
    (index : Nat) → List Attribute → Work (List Binding)
  | _, [] => return []
  | index, a :: rest => do
    match ← Work.require (Pattern.read? a.value) with
    | none => visitAttributes node tag path (index + 1) rest
    | some content =>
      let _ ← Work.edit (Document.setAttribute node a.name "")
      let others ← visitAttributes node tag path (index + 1) rest
      return ⟨path, .attribute index a.name content (LiveProperty.following? tag a.name)⟩ :: others

/-- The bindings of a node, which is cleared. -/
def visit (node : NodeId) (path : List Nat) : Work (List Binding) := do
  match ← Work.ask (·.content? node) with
  | some (.text content) =>
    let parent ← Work.ask fun d => (d.parent? node).bind d.tag?
    let found ← Work.require (textBindings parent path content)
    clearBound node found
  | some (.comment body) =>
    let found ← Work.require (commentBindings path body)
    clearBound node found
  | some (.element e) => visitAttributes node e.tag path 0 e.attributes
  | some .fragment => return []
  | none => return []

/-- The node behind a node and all that is below it, in a fragment. The trail has
the child indices that lead there, the last one in front. -/
def advance (d : Document) (fragment : NodeId) :
    (node : NodeId) → (trail : List Nat) → Option (NodeId × List Nat)
  | _, [] => none
  | node, index :: trail =>
    match d.nextSibling? node with
    | some next => some (next, (index + 1) :: trail)
    | none =>
      match d.parent? node with
      | some parent => if parent = fragment then none else advance d fragment parent trail
      | none => none

/-- The node to visit after a node: its first child, if it has one. -/
def onward (fragment node : NodeId) (trail : List Nat) (d : Document) : Option (NodeId × List Nat) :=
  match (d.element? node).bind fun _ => d.firstChild? node with
  | some child => some (child, 0 :: trail)
  | none => advance d fragment node trail

/-- Visits nodes of a fragment in order, at most `fuel` of them. -/
def tour (fragment : NodeId) : (fuel : Nat) → Option (NodeId × List Nat) → Work (List Binding)
  | 0, _ => return []
  | _ + 1, none => return []
  | fuel + 1, some (node, trail) => do
    let here ← visit node trail.reverse
    let next ← Work.ask (onward fragment node trail)
    let others ← tour fragment fuel next
    return here ++ others

/-! ## Prototypes in a document -/

/-- A prototype that is a fragment of a document. -/
structure Factory where
  name : Option String
  fragment : NodeId
  bindings : List Binding

namespace Factory

/-- The prototype that the fragment holds. -/
def prototype (d : Document) (factory : Factory) : Prototype :=
  ⟨factory.name, d.forest factory.fragment, factory.bindings⟩

/-- Makes a prototype of the content of a fragment. -/
def make (name : Option String) (fragment : NodeId) : Work Factory := do
  let start ← Work.ask fun d => (d.firstChild? fragment).map (·, [0])
  let fuel ← Work.ask (·.slots.size)
  let bindings ← tour fragment fuel start
  return ⟨name, fragment, bindings⟩

end Factory

/-- Adds the prototypes of definitions to those made before. -/
def makeNamed (template : String) (done : Fields Factory) :
    List (String × NodeId) → Work (Fields Factory)
  | [] => return done
  | (name, fragment) :: rest => do
    if (done.get? name).isSome then Work.require (.error (.duplicate template name))
    let factory ← Factory.make (some name) fragment
    makeNamed template (done.put name factory) rest

/-- A template in a document. -/
structure Assembly where
  root : Factory
  definitions : Fields Factory

/-- The template that a document holds. -/
def Assembly.template (assembly : Assembly) (name : String) (d : Document) : Template :=
  ⟨name, assembly.root.prototype d, assembly.definitions.mapValues (·.prototype d)⟩

/-- Compiles a source in a document. -/
def assemble (name source : String) : Work Assembly := do
  match ← Work.edit (Document.parse source) with
  | .error fault => Work.require (.error (.markup name fault))
  | .ok fragment =>
    let nodes ← Work.ask (definitionNodes fragment)
    let definitions ← takeOutAll name nodes.reverse
    let root ← Factory.make none fragment
    let all ← makeNamed name [] definitions
    return ⟨root, all⟩

end Inlay.Template
