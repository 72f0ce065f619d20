/-
# Render.Anchor — the nodes behind a comment

An anchor is a comment with a list of nodes behind it that follows a value. The
value is flattened to items: nodes stand for themselves, a string is markup, a
flag or a number is text; nothing else is shown. Markup and text are made into
nodes once and reused, occurrence by occurrence, as long as the same item keeps
coming; what does not come again is discarded. Markup that cannot be read is
shown as text.
-/
import Inlay.Data.Value
import Inlay.Document.Markup
import Inlay.Render.Reconcile

namespace Inlay.Render

set_option autoImplicit false

/-- What nodes were made from. -/
inductive Key where
  | markup (source : String)
  | text (content : String)
  deriving DecidableEq

/-- What an anchor shows in one place: a template, or what is made for it. -/
inductive ItemOf (α : Type) where
  | nodes (shown : α)
  | made (key : Key)
  deriving DecidableEq

abbrev Item := ItemOf (List NodeId)

section Items

variable {α : Type}

mutual

/-- The items of a value, lists of any depth flattened. -/
def itemsOf : ValueOf α → List (ItemOf α)
  | .null => []
  | .bool flag => [.made (.text (ValueOf.text (.bool flag : ValueOf α)))]
  | .number x => [.made (.text (ValueOf.text (.number x : ValueOf α)))]
  | .string source => [.made (.markup source)]
  | .list values => itemsOfAll values
  | .map _ => []
  | .nodes shown => [.nodes shown]

def itemsOfAll : List (ValueOf α) → List (ItemOf α)
  | [] => []
  | value :: rest => itemsOf value ++ itemsOfAll rest

end

end Items

/-- Nodes and what they were made from. -/
structure Made where
  key : Key
  nodes : List NodeId

structure Anchor where
  comment : NodeId
  /-- The nodes that stand behind the comment. -/
  current : List NodeId
  /-- Those of them that were made for items, in order. -/
  made : List Made

namespace Anchor

/-- An anchor with nothing behind it. -/
def new (comment : NodeId) : Anchor := ⟨comment, [], []⟩

/-- The nodes of the first entry of a key, and the other entries. -/
def takeMade (key : Key) : List Made → Option (List NodeId × List Made)
  | [] => none
  | entry :: rest =>
    if entry.key = key then some (entry.nodes, rest)
    else (takeMade key rest).map fun (nodes, rest) => (nodes, entry :: rest)

/-- Takes the children out of a fragment and frees it. -/
def unwrap (fragment : NodeId) : Act (List NodeId) := do
  let nodes ← Act.ask (·.children fragment)
  nodes.forM fun node => Act.edit (Document.remove node)
  Act.edit (Document.discard fragment)
  return nodes

/-- A new detached text. -/
def makeText (content : String) : Act (List NodeId) := do
  return [← Act.edit (Document.Edit.always (Document.create (.text content)))]

/-- New detached nodes for an item. -/
def make : Key → Act (List NodeId)
  | .text content => makeText content
  | .markup source => do
    match ← Act.edit (Document.parse source) with
    | .ok fragment => unwrap fragment
    | .error _ => makeText source

/-- What items give: the nodes in order, the entries among them, and the entries
of before that were not used again. -/
structure Layout where
  nodes : List NodeId
  made : List Made
  unused : List Made

/-- Finds or makes the nodes of items. -/
def layOut : List Item → (unused : List Made) → Act Layout
  | [], unused => return ⟨[], [], unused⟩
  | .nodes ids :: rest, unused => do
    let others ← layOut rest unused
    return { others with nodes := ids ++ others.nodes }
  | .made key :: rest, unused => do
    let (nodes, unused) ← match takeMade key unused with
      | some found => pure found
      | none => do pure (← make key, unused)
    let others ← layOut rest unused
    return ⟨nodes ++ others.nodes, ⟨key, nodes⟩ :: others.made, others.unused⟩

/-- Frees the nodes that are alive and that nobody claimed. -/
def discardUnclaimed : List NodeId → Act Unit
  | [] => pure ()
  | node :: rest => do
    let claimed ← Act.isClaimed node
    let alive ← Act.ask (·.contains node)
    if alive && !claimed then Act.edit (Document.discard node)
    discardUnclaimed rest

/-- Shows a value behind the comment, nothing for no value. -/
def update (value : Option Value) (anchor : Anchor) : Act Anchor := do
  let layout ← layOut (itemsOf (value.getD .null)) anchor.made
  reconcile (.behind anchor.comment) anchor.current layout.nodes
  discardUnclaimed (layout.unused.flatMap (·.nodes))
  return { anchor with current := layout.nodes, made := layout.made }

/-- An anchor whose update failed: the nodes it made earlier are forgotten. -/
def spoiled (anchor : Anchor) : Anchor := { anchor with made := [] }

end Anchor

end Inlay.Render
