/-
# Document.Basic — the document and what can be asked of it

A document is a row of slots. A slot holds a node or is free; freeing it moves
on its generation, and free slots are reused from the one freed last. Nodes are
linked to their parent, to the first and the last of their children and to the
siblings next to them; the children of a node are met on the way along the next
siblings from the first. Walks along links take the number of slots as fuel,
which no path without repetition exceeds; the walk at and below a node, which
leaves every node it comes to, takes twice that.

The body is the root of the connected tree; every other tree is detached.
-/
import Inlay.Document.Journal

namespace Inlay

set_option autoImplicit false

open Inlay.Markup

structure Slot where
  generation : UInt32
  node : Option Node

structure Document where
  slots : Array Slot
  /-- Indices of the free slots, the one freed last in front. -/
  free : List Nat
  body : NodeId
  /-- The records kept since recording began, the first in front. -/
  journal : Option (List Record)
  tally : Tally

namespace Document

/-- A document that holds its body only. -/
def new : Document where
  slots := #[⟨0, some (.loose (.element (.plain "body" [])))⟩]
  free := []
  body := ⟨0, 0⟩
  journal := none
  tally := {}

/-! ## Nodes and links -/

def get? (d : Document) (id : NodeId) : Option Node :=
  d.slots[id.index]?.bind fun slot => if slot.generation = id.generation then slot.node else none

/-- The id names a live node. -/
def contains (d : Document) (id : NodeId) : Bool := (d.get? id).isSome

/-- The number of live nodes. -/
def size (d : Document) : Nat := d.slots.size - d.free.length

def content? (d : Document) (id : NodeId) : Option Content := (d.get? id).map (·.content)

def element? (d : Document) (id : NodeId) : Option Element :=
  match d.content? id with
  | some (.element e) => some e
  | _ => none

def tag? (d : Document) (id : NodeId) : Option String := (d.element? id).map (·.tag)

/-- The data of a text or a comment. -/
def data? (d : Document) (id : NodeId) : Option String :=
  match d.content? id with
  | some (.text data) => some data
  | some (.comment data) => some data
  | _ => none

def isComment (d : Document) (id : NodeId) : Bool :=
  match d.content? id with
  | some (.comment _) => true
  | _ => false

def isFragment (d : Document) (id : NodeId) : Bool :=
  match d.content? id with
  | some .fragment => true
  | _ => false

def parent? (d : Document) (id : NodeId) : Option NodeId := (d.get? id).bind (·.parent)

def firstChild? (d : Document) (id : NodeId) : Option NodeId := (d.get? id).bind (·.firstChild)

def lastChild? (d : Document) (id : NodeId) : Option NodeId := (d.get? id).bind (·.lastChild)

def nextSibling? (d : Document) (id : NodeId) : Option NodeId := (d.get? id).bind (·.nextSibling)

def previousSibling? (d : Document) (id : NodeId) : Option NodeId :=
  (d.get? id).bind (·.previousSibling)

/-- The nodes met along the next siblings, at most `fuel` of them. -/
def row (d : Document) : (fuel : Nat) → Option NodeId → List NodeId
  | 0, _ => []
  | _ + 1, none => []
  | fuel + 1, some id => id :: d.row fuel (d.nextSibling? id)

def children (d : Document) (id : NodeId) : List NodeId := d.row d.slots.size (d.firstChild? id)

def childAt? (d : Document) (id : NodeId) (index : Nat) : Option NodeId := (d.children id)[index]?

/-- The position of a node among its parent's children. -/
def indexInParent? (d : Document) (id : NodeId) : Option Nat :=
  (d.parent? id).bind fun parent => (d.children parent).idxOf? id

/-! ## Walks -/

/-- Where a walk at and below a node stands: it comes to a node, it leaves one with
everything below it, or it has ended. -/
inductive Stance where
  | entering (id : NodeId)
  | leaving (id : NodeId)
  | ended
  deriving DecidableEq

/-- A walk at and below `root` goes from a node to its first child, and without
children leaves it; from there it goes to the next sibling, or else leaves the
parent. It ends when it leaves `root`. -/
def advance (d : Document) (root : NodeId) : Stance → Stance
  | .entering id =>
    match d.firstChild? id with
    | some child => .entering child
    | none => .leaving id
  | .leaving id =>
    if id = root then .ended
    else
      match d.nextSibling? id with
      | some sibling => .entering sibling
      | none =>
        match d.parent? id with
        | some parent => .leaving parent
        | none => .ended
  | .ended => .ended

/-- The nodes that a walk at and below `root` comes to from where it stands, in at
most `fuel` steps. -/
def walkFrom (d : Document) (root : NodeId) : (fuel : Nat) → Stance → List NodeId
  | 0, _ => []
  | _ + 1, .ended => []
  | fuel + 1, .entering id => id :: d.walkFrom root fuel (d.advance root (.entering id))
  | fuel + 1, .leaving id => d.walkFrom root fuel (d.advance root (.leaving id))

/-- Where the walk at and below a node starts. -/
def startAt (d : Document) (id : NodeId) : Stance := if d.contains id then .entering id else .ended

/-- A node and everything below it, in document order; nothing for an id that
names no node. The walk comes to each node once and leaves it once. -/
def descendants (d : Document) (id : NodeId) : List NodeId :=
  d.walkFrom id (2 * d.slots.size) (d.startAt id)

/-- `target` is met on the way up from a node, the node included. -/
def climbs (d : Document) (target : NodeId) : (fuel : Nat) → NodeId → Bool
  | 0, id => id = target
  | fuel + 1, id =>
    id = target ||
      match d.parent? id with
      | some parent => d.climbs target fuel parent
      | none => false

/-- `ancestor` is the node or above it. -/
def isInclusiveAncestor (d : Document) (ancestor id : NodeId) : Bool :=
  d.climbs ancestor d.slots.size id

/-- The node is the body or below it. -/
def isConnected (d : Document) (id : NodeId) : Bool := d.isInclusiveAncestor d.body id

/-- The data of the texts at and below a node, joined. -/
def textContent (d : Document) (id : NodeId) : String :=
  String.join ((d.descendants id).filterMap fun node =>
    match d.content? node with
    | some (.text data) => some data
    | _ => none)

/-! ## Attributes and properties -/

def attribute? (d : Document) (id : NodeId) (name : String) : Option String :=
  (d.element? id).bind (·.attribute? name)

/-- What a property is while it was never written. -/
def defaultProperty? (d : Document) (id : NodeId) (element : Element) (name : String) :
    Option Property :=
  if name = "value" then
    if element.tag = "textarea" then some (.text (d.textContent id))
    else some (.text ((element.attribute? "value").getD ""))
  else if name = "checked" ∨ name = "selected" ∨ name = "disabled" then
    some (.flag (element.hasAttribute name))
  else none

/-- The live value of a property. -/
def property? (d : Document) (id : NodeId) (name : String) : Option Property :=
  (d.element? id).bind fun element =>
    match element.properties.get? name with
    | some value => some value
    | none => d.defaultProperty? id element name

/-! ## The journal -/

/-- Begins to keep records; goes on when it is doing so already. -/
def startRecording (d : Document) : Document := { d with journal := some (d.journal.getD []) }

/-- The records kept, and the document without a journal. -/
def stopRecording (d : Document) : List Record × Document :=
  (d.journal.getD [], { d with journal := none })

/-- The records kept; from here on new ones are kept. -/
def takeRecords (d : Document) : List Record × Document :=
  (d.journal.getD [], { d with journal := d.journal.map fun _ => [] })

end Document

end Inlay
