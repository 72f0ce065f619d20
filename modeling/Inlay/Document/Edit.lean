/-
# Document.Edit — editing a document

An edit either gives an answer or is refused with a fault; in both cases it
leaves a document. Edits are checked before anything is changed (`admits`,
`admitsNode`, `admitsRemoval`); what follows changes links one by one and is
refused only where a link leads to no live node. The one edit of several moves
is inserting a fragment, which moves its children one by one.

Changes below the body are counted in the tally and told to the journal;
changes of detached trees are not.
-/
import Inlay.Document.Basic
import Inlay.Document.Fault

namespace Inlay.Document

set_option autoImplicit false

open Inlay.Markup

/-- An edit of a document that may be refused. -/
abbrev Edit := EStateM Fault Document

namespace Edit

/-- The edit that cannot be refused. -/
def always {α : Type} (f : Document → α × Document) : Edit α := fun d =>
  let (answer, d) := f d
  .ok answer d

/-- What the document says. -/
def ask {α : Type} (f : Document → α) : Edit α := fun d => .ok (f d) d

/-- What a check finds; refused when it finds a fault. -/
def require {α : Type} (check : Document → Except Fault α) : Edit α := fun d =>
  match check d with
  | .error fault => .error fault d
  | .ok found => .ok found d

/-- The edit that is refused or else goes ahead with what the check found. -/
def checked {α β : Type} (check : Document → Except Fault α) (f : α → Document → β × Document) :
    Edit β := fun d =>
  match check d with
  | .error fault => .error fault d
  | .ok found =>
    let (answer, d) := f found d
    .ok answer d

end Edit

/-! ## Parts of an edit -/

/-- Changes a live node. -/
def modify (d : Document) (id : NodeId) (f : Node → Node) : Document :=
  { d with
    slots := d.slots.modify id.index fun slot =>
      if slot.generation = id.generation then { slot with node := slot.node.map f } else slot }

/-- Counts something. -/
def count (d : Document) (f : Tally → Tally) : Document := { d with tally := f d.tally }

/-- Keeps a record, if records are kept. -/
def log (d : Document) (record : Record) : Document :=
  { d with journal := d.journal.map (· ++ [record]) }

/-- Counts a change and keeps its record, if the node is connected. -/
def report (d : Document) (connected : Bool) (f : Tally → Tally) (record : Record) : Document :=
  if connected then (d.count f).log record else d

/-- The node of an id, or that there is none. -/
def live (d : Document) (id : NodeId) : Except Fault Node :=
  match d.get? id with
  | some node => .ok node
  | none => .error (.stale id)

/-- The element of an id. -/
def liveElement (d : Document) (id : NodeId) : Except Fault Element := do
  match (← d.live id).content with
  | .element e => return e
  | _ => throw (.notElement id)

/-- Changes a node that must be live. -/
def change (id : NodeId) (f : Node → Node) : Edit Unit :=
  Edit.checked (fun d => d.live id) fun _ d => ((), d.modify id f)

/-! ## Making nodes -/

/-- A new detached node in the slot freed last, or else in a new one. -/
def create (content : Content) (d : Document) : NodeId × Document :=
  let node : Node := .loose content
  let d := d.count fun t => { t with created := t.created + 1 }
  match d.free with
  | index :: free =>
    let generation := match d.slots[index]? with
      | some slot => slot.generation
      | none => 0
    (⟨index, generation⟩, { d with slots := d.slots.setIfInBounds index ⟨generation, some node⟩, free := free })
  | [] => (⟨d.slots.size, 0⟩, { d with slots := d.slots.push ⟨0, some node⟩ })

/-! ## Links -/

/-- In a parent, `next` stands behind `previous`, or first when that is none. -/
def linkForth (parent : NodeId) (previous next : Option NodeId) : Edit Unit :=
  match previous with
  | some id => change id fun n => { n with nextSibling := next }
  | none => change parent fun n => { n with firstChild := next }

/-- In a parent, `previous` stands in front of `next`, or last when that is
none. -/
def linkBack (parent : NodeId) (previous next : Option NodeId) : Edit Unit :=
  match next with
  | some id => change id fun n => { n with previousSibling := previous }
  | none => change parent fun n => { n with lastChild := previous }

/-- Takes a node out of its parent: its neighbours are linked to each other. -/
def unlink (node : NodeId) : Edit Unit := do
  let n ← Edit.require (·.live node)
  match n.parent with
  | none => return
  | some parent =>
    let connected ← Edit.ask (·.isConnected parent)
    linkForth parent n.previousSibling n.nextSibling
    linkBack parent n.previousSibling n.nextSibling
    change node fun n => { n with parent := none, previousSibling := none, nextSibling := none }
    Edit.always fun d =>
      ((), d.report connected (fun t => { t with removed := t.removed + 1 })
        (.childList parent [] [node]))

/-- What stands in front of a place among the children of a parent: the place of
one of them, or the end. -/
def liveBefore (d : Document) (parent : NodeId) (reference : Option NodeId) :
    Except Fault (Option NodeId) :=
  match reference with
  | some child => (d.live child).map (·.previousSibling)
  | none => (d.live parent).map (·.lastChild)

/-- Links a parentless node into a parent, in front of one of its children or
at the end. -/
def link (parent node : NodeId) (reference : Option NodeId) : Edit Unit := do
  let previous ← Edit.require (·.liveBefore parent reference)
  change node fun n =>
    { n with parent := some parent, previousSibling := previous, nextSibling := reference }
  linkForth parent previous (some node)
  linkBack parent (some node) reference

/-! ## Moving nodes -/

/-- Moves a node into a parent, in front of one of its children or at the end;
in front of itself means where it is. -/
def move (parent node : NodeId) (reference : Option NodeId) : Edit Unit := do
  let reference ← Edit.ask fun d =>
    if reference = some node then d.nextSibling? node else reference
  unlink node
  link parent node reference
  let connected ← Edit.ask (·.isConnected parent)
  Edit.always fun d =>
    ((), d.report connected (fun t => { t with inserted := t.inserted + 1 })
      (.childList parent [node] []))

/-- The parent takes children, and the reference is one of them. -/
def admits (d : Document) (parent : NodeId) (reference : Option NodeId) : Except Fault Unit := do
  if !(← d.live parent).content.isContainer then throw (.notContainer parent)
  match reference with
  | none => return
  | some child => if (← d.live child).parent ≠ some parent then throw (.notChild parent child)

/-- The node may be moved into the parent. -/
def admitsNode (d : Document) (parent node : NodeId) : Except Fault Unit :=
  if node = d.body ∨ d.isInclusiveAncestor node parent then .error (.cycle parent node) else .ok ()

/-- Moves a node that is no fragment. -/
def insertNode (parent node : NodeId) (reference : Option NodeId) : Edit Unit := do
  Edit.require fun d => do
    d.admits parent reference
    let _ ← d.live node
    d.admitsNode parent node
  move parent node reference

/-- Moves nodes in order, until one is refused. -/
def insertNodes (parent : NodeId) (reference : Option NodeId) : List NodeId → Edit Unit
  | [] => pure ()
  | node :: rest => do
    insertNode parent node reference
    insertNodes parent reference rest

/-- The nodes that inserting a node moves: a fragment gives its children instead
of itself. -/
def carried (d : Document) (node : NodeId) : List NodeId :=
  if d.isFragment node then d.children node else [node]

/-- Moves a node, or the children of a fragment, into a parent, in front of one
of its children or at the end. -/
def insertBefore (parent node : NodeId) (reference : Option NodeId) : Edit Unit := do
  let nodes ← Edit.require fun d => do
    d.admits parent reference
    let _ ← d.live node
    return d.carried node
  insertNodes parent reference nodes

/-- Moves a node to the end of a parent. -/
def append (parent node : NodeId) : Edit Unit := insertBefore parent node none

/-! ## Removing nodes -/

/-- The node may be taken out of its tree. -/
def admitsRemoval (d : Document) (node : NodeId) : Except Fault Unit :=
  if node = d.body then .error .bodyRemoval else (d.live node).map fun _ => ()

/-- Takes a node out of its parent; it stays alive. -/
def remove (node : NodeId) : Edit Unit := do
  Edit.require (·.admitsRemoval node)
  unlink node

/-- Frees the slot of a node. -/
def release (d : Document) (id : NodeId) : Document :=
  let d := d.count fun t => { t with discarded := t.discarded + 1 }
  { d with
    slots := d.slots.modify id.index fun slot => ⟨slot.generation + 1, none⟩
    free := id.index :: d.free }

/-- Frees a parentless node and everything below it, in document order. -/
def releaseTree (node : NodeId) (d : Document) : Document := (d.descendants node).foldl release d

/-- Takes a node out of its parent and frees it with everything below it. -/
def discard (node : NodeId) : Edit Unit := do
  remove node
  Edit.always fun d => ((), d.releaseTree node)

/-! ## Writing content

A write answers whether it changed anything; one that does not is not counted. -/

/-- The data of a text or a comment. -/
def liveData (d : Document) (id : NodeId) : Except Fault String := do
  match (← d.live id).content with
  | .text data => return data
  | .comment data => return data
  | _ => throw (.notCharacterData id)

/-- The node with other character data. -/
def withData (value : String) (node : Node) : Node :=
  match node.content with
  | .text _ => { node with content := .text value }
  | .comment _ => { node with content := .comment value }
  | _ => node

/-- The node with its element changed. -/
def withElement (f : Element → Element) (node : Node) : Node :=
  match node.content with
  | .element e => { node with content := .element (f e) }
  | _ => node

/-- Replaces the data of a text or a comment. -/
def setText (id : NodeId) (value : String) : Edit Bool :=
  Edit.checked (fun d => d.liveData id) fun data d =>
    if data = value then (false, d)
    else
      let connected := d.isConnected id
      let d := d.modify id (withData value)
      (true, d.report connected (fun t => { t with textWrites := t.textWrites + 1 }) (.characterData id))

/-- The list with the first attribute of a name changed, or with a new one. -/
def putAttribute (name value : String) : List Attribute → List Attribute
  | [] => [⟨name, value⟩]
  | a :: rest => if a.name = name then ⟨a.name, value⟩ :: rest else a :: putAttribute name value rest

def setAttribute (id : NodeId) (name value : String) : Edit Bool :=
  Edit.checked (fun d => d.liveElement id) fun element d =>
    if element.attribute? name = some value then (false, d)
    else
      let connected := d.isConnected id
      let d := d.modify id <| withElement fun e =>
        { e with attributes := putAttribute name value e.attributes }
      (true, d.report connected (fun t => { t with attributeWrites := t.attributeWrites + 1 })
        (.attribute id name))

def removeAttribute (id : NodeId) (name : String) : Edit Bool :=
  Edit.checked (fun d => d.liveElement id) fun element d =>
    if element.hasAttribute name then
      let connected := d.isConnected id
      let d := d.modify id <| withElement fun e =>
        { e with attributes := e.attributes.filter (·.name ≠ name) }
      (true, d.report connected (fun t => { t with attributeWrites := t.attributeWrites + 1 })
        (.attribute id name))
    else (false, d)

/-- Writes a property. It counts as written even if it already has the value,
so that it no longer follows the attributes. -/
def setProperty (id : NodeId) (name : String) (value : Property) : Edit Bool :=
  Edit.checked (fun d => d.liveElement id) fun _ d =>
    let same : Bool := d.property? id name = some value
    let connected := d.isConnected id
    let d := d.modify id <| withElement fun e => { e with properties := e.properties.put name value }
    if same then (false, d)
    else
      (true, d.report connected (fun t => { t with propertyWrites := t.propertyWrites + 1 })
        (.property id name))

end Inlay.Document
