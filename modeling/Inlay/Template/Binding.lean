/-
# Template.Binding — the places a template writes to

A prototype is the content of a template with every placeholder cleared. A
`Binding` remembers where one stood, as the child indices that lead to its node,
and what it writes there: a text, the value of a `<textarea>`, an attribute, or
the nodes behind a comment that is a single placeholder.

`cleared` clears trees; `bindings` lists the bindings in document order, those
of an element's attributes before those of its children.
-/
import Inlay.Markup.Tree
import Inlay.Template.Pattern

namespace Inlay.Template

set_option autoImplicit false

open Inlay.Markup Inlay.Text

/-- Live properties that follow an attribute of an interactive element. -/
inductive LiveProperty where
  | value
  | checked
  | selected
  deriving DecidableEq

namespace LiveProperty

def name : LiveProperty → String
  | value => "value"
  | checked => "checked"
  | selected => "selected"

/-- The property that follows an attribute. -/
def following? (tag name : String) : Option LiveProperty :=
  if isInteractive tag then [value, checked, selected].find? (·.name = name) else none

end LiveProperty

/-- What a binding writes. -/
inductive Target where
  | text (content : Pattern)
  /-- The text inside a `<textarea>`, written to the element's value. -/
  | textareaValue (content : Pattern)
  /-- The attribute of an index and a name, with the property that follows it. -/
  | attribute (index : Nat) (name : String) (content : Pattern) (property : Option LiveProperty)
  /-- The nodes that stand behind a comment. -/
  | anchor (path : Path)
  deriving DecidableEq

structure Binding where
  /-- Child indices from the top of the prototype down to the node. -/
  path : List Nat
  target : Target
  deriving DecidableEq

/-! ## Comments that are anchors -/

/-- The text before a word at its end. -/
def dropWordEnd? (word text : List Char) : Option (List Char) :=
  (dropWord? word.reverse text.reverse).map List.reverse

/-- The source of the path in a comment that is a single placeholder, blanks
around it aside. -/
def anchorSource? (body : String) : Option (List Char) :=
  ((dropWord? opener (trim body.toList)).bind (dropWordEnd? closer)).filter fun source =>
    !(occurs closer source || occurs opener source)

/-! ## The cleared prototype -/

def clearText (content : String) : String := if hasPlaceholder content then "" else content

def clearComment (body : String) : String := if (anchorSource? body).isSome then "" else body

def clearAttribute (a : Attribute) : Attribute := ⟨a.name, clearText a.value⟩

mutual

def clearedTree : Tree → Tree
  | .text content => .text (clearText content)
  | .comment body => .comment (clearComment body)
  | .element tag attributes children =>
    .element tag (attributes.map clearAttribute) (cleared children)

/-- The trees with every placeholder cleared. -/
def cleared : List Tree → List Tree
  | [] => []
  | tree :: rest => clearedTree tree :: cleared rest

end

/-! ## The bindings -/

/-- The binding of a text, which stands in an element of tag `parent`. -/
def textBindings (parent : Option String) (path : List Nat) (content : String) :
    Except Fault (List Binding) := do
  match ← Pattern.read? content with
  | none => return []
  | some pattern =>
    return [⟨path, if parent = some "textarea" then .textareaValue pattern else .text pattern⟩]

/-- The binding of a comment. -/
def commentBindings (path : List Nat) (body : String) : Except Fault (List Binding) := do
  match anchorSource? body with
  | none => return []
  | some source => return [⟨path, .anchor (← Pattern.readPath source)⟩]

/-- The bindings of attributes, the first of which has an index. -/
def attributeBindings (tag : String) (path : List Nat) :
    (index : Nat) → List Attribute → Except Fault (List Binding)
  | _, [] => return []
  | index, a :: rest => do
    let here ← Pattern.read? a.value
    let others ← attributeBindings tag path (index + 1) rest
    match here with
    | none => return others
    | some content =>
      return ⟨path, .attribute index a.name content (LiveProperty.following? tag a.name)⟩ :: others

mutual

/-- The bindings at and inside a tree. -/
def treeBindings (parent : Option String) (path : List Nat) : Tree → Except Fault (List Binding)
  | .text content => textBindings parent path content
  | .comment body => commentBindings path body
  | .element tag attributes children => do
    let own ← attributeBindings tag path 0 attributes
    let inner ← bindings (some tag) path 0 children
    return own ++ inner

/-- The bindings of siblings, the first of which has an index below `path`. -/
def bindings (parent : Option String) (path : List Nat) :
    (index : Nat) → List Tree → Except Fault (List Binding)
  | _, [] => return []
  | index, tree :: rest => do
    let here ← treeBindings parent (path ++ [index]) tree
    let others ← bindings parent path (index + 1) rest
    return here ++ others

end

end Inlay.Template
