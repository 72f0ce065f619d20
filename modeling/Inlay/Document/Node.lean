/-
# Document.Node — what a document holds

A node is an element with attributes and live properties, a text, a comment, or
a fragment that carries nodes from one place to another. Nodes are named by a
`NodeId`: the index of a slot and the generation of what lives in it, so that
the id of a node that is gone never names another.
-/
import Inlay.Fields
import Inlay.Markup.Attribute
import Inlay.Markup.Vocabulary

namespace Inlay

set_option autoImplicit false

open Inlay.Markup

structure NodeId where
  index : Nat
  generation : UInt32
  deriving DecidableEq

namespace NodeId

/-- The written form of an id. -/
def text (id : NodeId) : String := s!"#{id.index}v{id.generation}"

/-- Ids in the order of their slots, then of their generations. -/
def le (a b : NodeId) : Bool :=
  a.index < b.index || (a.index == b.index && a.generation ≤ b.generation)

end NodeId

/-- A live property: a text or a flag. -/
inductive Property where
  | text (value : String)
  | flag (value : Bool)
  deriving DecidableEq

structure Element where
  tag : String
  attributes : List Attribute
  /-- Properties that were written; the others derive from attributes. -/
  properties : Fields Property

namespace Element

/-- An element without properties. -/
def plain (tag : String) (attributes : List Attribute) : Element := ⟨tag, attributes, []⟩

def attribute? (element : Element) (name : String) : Option String :=
  Attribute.find? name element.attributes

def hasAttribute (element : Element) (name : String) : Bool :=
  element.attributes.any (·.name = name)

end Element

inductive Content where
  | element (element : Element)
  | text (data : String)
  | comment (data : String)
  /-- Carries children; inserting it moves them instead. -/
  | fragment

namespace Content

/-- Only elements and fragments may have children. -/
def isContainer : Content → Bool
  | element _ => true
  | fragment => true
  | _ => false

/-- The name of the kind of node; an element's is its tag. -/
def name : Content → String
  | element e => e.tag
  | text _ => "#text"
  | comment _ => "#comment"
  | fragment => "#document-fragment"

end Content

/-- A node knows its parent, the first and the last of its children, and the
siblings next to it. -/
structure Node where
  content : Content
  parent : Option NodeId
  firstChild : Option NodeId
  lastChild : Option NodeId
  previousSibling : Option NodeId
  nextSibling : Option NodeId

/-- A node without links. -/
def Node.loose (content : Content) : Node := ⟨content, none, none, none, none, none⟩

end Inlay
