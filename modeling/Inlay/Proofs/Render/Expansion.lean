/-
# Proofs.Render.Expansion — what data expand to

The pure reading of a template: the trees that data stand for, without nodes and
without a past. A `Library` gives the content of every selection; the content is
copied, every placeholder is replaced by what it evaluates to, and behind every
comment that is an anchor follow the trees of its value (`expanded`). A value in
which every template is replaced by its trees is a `ValueOf (List Tree)`.

The second half says which anchors reach which templates of the data. The
templates a context holds are numbered in the order of the data (`outline`), and
an anchor reaches those that its value lists, at any depth of lists.
-/
import Inlay.Data.Datum
import Inlay.Data.Value
import Inlay.Markup.Forest
import Inlay.Template.Binding
import Inlay.Template.Definition

namespace Inlay.Render

set_option autoImplicit false

open Inlay.Markup Inlay.Template

/-- The content of the root, for no name, and of every definition. -/
abbrev Library := Option String → List Tree

/-- The contents that the trees of a source define; nothing for other names. -/
def libraryOf (forest : List Tree) : Library
  | none => kept forest
  | some name => (((forestDefinitions forest).find? (·.id = some name)).map (·.content)).getD []

/-- The contents that a source defines; nothing when it cannot be read. -/
def Library.ofSource (source : String) : Library :=
  match forest? source with
  | .ok forest => libraryOf forest
  | .error _ => fun _ => []

/-! ## Values -/

/-- The trees of markup, or its text when it cannot be read. -/
def markupTrees (source : String) : List Tree :=
  match forest? source with
  | .ok forest => forest
  | .error _ => [.text source]

mutual

/-- The trees that an anchor shows for a value. -/
def shown : ValueOf (List Tree) → List Tree
  | .null => []
  | .bool flag => [.text (if flag then "true" else "false")]
  | .number x => [.text x.display]
  | .string source => markupTrees source
  | .list items => shownAll items
  | .map _ => []
  | .nodes trees => trees

def shownAll : List (ValueOf (List Tree)) → List Tree
  | [] => []
  | item :: rest => shown item ++ shownAll rest

end

section Places

variable {α : Type}

/-- A text with its placeholders replaced by the texts of their values. -/
def expandedText (context : ValueOf α) (content : String) : String :=
  match Pattern.read? content with
  | .ok (some pattern) => pattern.render context
  | _ => content

/-- The text of an attribute that is one placeholder: absent for false, null and
a missing value, empty for true. -/
def wholeText : Option (ValueOf α) → Option String
  | none => none
  | some .null => none
  | some (.bool flag) => if flag then some "" else none
  | some value => some value.text

/-- An attribute with its placeholders replaced, unless it is to be absent. -/
def expandedAttribute (context : ValueOf α) (a : Attribute) : Option Attribute :=
  match Pattern.read? a.value with
  | .ok (some ⟨[.place path]⟩) => (wholeText (context.find? path.segments)).map (⟨a.name, ·⟩)
  | _ => some ⟨a.name, expandedText context a.value⟩

/-- The path of a comment that is an anchor. -/
def anchorPath? (body : String) : Option Path :=
  (anchorSource? body).bind fun source => (Pattern.readPath source).toOption

/-- The value a path leads to; null for none. -/
def valueAt (context : ValueOf α) (path : Path) : ValueOf α :=
  (context.find? path.segments).getD .null

end Places

/-! ## Trees -/

mutual

/-- What a tree becomes in an element of tag `parent`. A `<textarea>` shows a
bound text as its value and not as markup. -/
def expandedTree (context : ValueOf (List Tree)) (parent : Option String) : Tree → List Tree
  | .text content =>
    if hasPlaceholder content ∧ parent = some "textarea" then [.text ""]
    else [.text (expandedText context content)]
  | .comment body =>
    match anchorPath? body with
    | some path => .comment "" :: shown (valueAt context path)
    | none => [.comment body]
  | .element tag attributes children =>
    [.element tag (attributes.filterMap (expandedAttribute context))
      (expanded context (some tag) children)]

def expanded (context : ValueOf (List Tree)) (parent : Option String) : List Tree → List Tree
  | [] => []
  | tree :: rest => expandedTree context parent tree ++ expanded context parent rest

end

/-! ## Data -/

mutual

/-- The value of a datum, every template replaced by its trees. -/
def expandedDatum (library : Library) : Datum → ValueOf (List Tree)
  | .null => .null
  | .bool flag => .bool flag
  | .number x => .number x
  | .text content => .string content
  | .list items => .list (expandedItems library items)
  | .record fields => .map (expandedFields library fields)
  | .template name fields =>
    .nodes (expanded (.map (expandedFields library fields)) none (library (some name)))

def expandedItems (library : Library) : List Datum → List (ValueOf (List Tree))
  | [] => []
  | item :: rest => expandedDatum library item :: expandedItems library rest

def expandedFields (library : Library) :
    List (String × Datum) → List (String × ValueOf (List Tree))
  | [] => []
  | (name, datum) :: rest => (name, expandedDatum library datum) :: expandedFields library rest

end

/-- The trees of a selection with fields. -/
def expansion (library : Library) (selection : Option String) (fields : Fields Datum) : List Tree :=
  expanded (.map (expandedFields library fields)) none (library selection)

/-! ## Anchors and what they reach -/

mutual

/-- The paths of the anchors of a tree, in document order. -/
def treeAnchors : Tree → List Path
  | .text _ => []
  | .comment body => (anchorPath? body).toList
  | .element _ _ children => anchors children

def anchors : List Tree → List Path
  | [] => []
  | tree :: rest => treeAnchors tree ++ anchors rest

end

section Reached

variable {α : Type}

mutual

/-- The templates of a value, lists of any depth flattened. -/
def listed : ValueOf α → List α
  | .list items => listedAll items
  | .nodes shown => [shown]
  | _ => []

def listedAll : List (ValueOf α) → List α
  | [] => []
  | item :: rest => listed item ++ listedAll rest

end

/-- What the anchors of trees reach in a context, anchor by anchor. -/
def reached (trees : List Tree) (context : ValueOf α) : List α :=
  (anchors trees).flatMap fun path => listed (valueAt context path)

end Reached

mutual

/-- The number of templates in a datum, those inside another one not counted. -/
def templateCount : Datum → Nat
  | .list items => templateCountOfItems items
  | .record fields => templateCountOfFields fields
  | .template _ _ => 1
  | _ => 0

def templateCountOfItems : List Datum → Nat
  | [] => 0
  | item :: rest => templateCount item + templateCountOfItems rest

def templateCountOfFields : List (String × Datum) → Nat
  | [] => 0
  | (_, datum) :: rest => templateCount datum + templateCountOfFields rest

end

mutual

/-- The value of a datum, its templates replaced by their numbers. -/
def outline (first : Nat) : Datum → ValueOf Nat
  | .null => .null
  | .bool flag => .bool flag
  | .number x => .number x
  | .text content => .string content
  | .list items => .list (outlineOfItems first items)
  | .record fields => .map (outlineOfFields first fields)
  | .template _ _ => .nodes first

def outlineOfItems (first : Nat) : List Datum → List (ValueOf Nat)
  | [] => []
  | item :: rest => outline first item :: outlineOfItems (first + templateCount item) rest

def outlineOfFields (first : Nat) : List (String × Datum) → List (String × ValueOf Nat)
  | [] => []
  | (name, datum) :: rest =>
    (name, outline first datum) :: outlineOfFields (first + templateCount datum) rest

end

/-- The numbers of the templates among the fields that a content reaches. -/
def reachedNumbers (content : List Tree) (fields : Fields Datum) : List Nat :=
  reached content (.map (outlineOfFields 0 fields))

mutual

/-- What holds of a selection and its fields wherever a datum selects. -/
def Throughout (holds : Option String → Fields Datum → Prop) : Datum → Prop
  | .list items => ThroughoutItems holds items
  | .record fields => ThroughoutFields holds fields
  | .template name fields => holds (some name) fields ∧ ThroughoutFields holds fields
  | _ => True

def ThroughoutItems (holds : Option String → Fields Datum → Prop) : List Datum → Prop
  | [] => True
  | item :: rest => Throughout holds item ∧ ThroughoutItems holds rest

def ThroughoutFields (holds : Option String → Fields Datum → Prop) :
    List (String × Datum) → Prop
  | [] => True
  | (_, datum) :: rest => Throughout holds datum ∧ ThroughoutFields holds rest

end

section Decide

variable {holds : Option String → Fields Datum → Prop}
  (decideHere : ∀ selection fields, Decidable (holds selection fields))

mutual

def decideThroughout : ∀ datum, Decidable (Throughout holds datum)
  | .null => .isTrue trivial
  | .bool _ => .isTrue trivial
  | .number _ => .isTrue trivial
  | .text _ => .isTrue trivial
  | .list items => decideThroughoutItems items
  | .record fields => decideThroughoutFields fields
  | .template name fields =>
    @instDecidableAnd _ _ (decideHere (some name) fields) (decideThroughoutFields fields)

def decideThroughoutItems : ∀ items, Decidable (ThroughoutItems holds items)
  | [] => .isTrue trivial
  | item :: rest => @instDecidableAnd _ _ (decideThroughout item) (decideThroughoutItems rest)

def decideThroughoutFields : ∀ fields, Decidable (ThroughoutFields holds fields)
  | [] => .isTrue trivial
  | (_, datum) :: rest => @instDecidableAnd _ _ (decideThroughout datum) (decideThroughoutFields rest)

end

end Decide

/-- No template among the fields is reached by two anchors of the content. -/
def Disjointly (library : Library) (selection : Option String) (fields : Fields Datum) : Prop :=
  (reachedNumbers (library selection) fields).Nodup

instance (library : Library) (selection : Option String) (fields : Fields Datum) :
    Decidable (Disjointly library selection fields) :=
  inferInstanceAs (Decidable (List.Nodup _))

/-- Each template of the data is reached by at most one anchor. -/
def AtMostOnce (library : Library) (selection : Option String) (fields : Fields Datum) : Prop :=
  Disjointly library selection fields ∧ ThroughoutFields (Disjointly library) fields

instance (library : Library) (selection : Option String) (fields : Fields Datum) :
    Decidable (AtMostOnce library selection fields) :=
  @instDecidableAnd _ _ inferInstance (decideThroughoutFields (fun _ _ => inferInstance) fields)

end Inlay.Render
