/-
# Proofs.Render.Reach — the anchors of a compiled template

Which templates of some data are reached is said of the anchors in a source. A
compiled template remembers these as bindings (`anchors_of_bindings`). So it can
be said of the template itself, and be computed, that every template of the data is
reached once (`ShownOnce`).
-/
import Inlay.Proofs.Render.Leaks

namespace Inlay.Render

set_option autoImplicit false

open Inlay.Markup Inlay.Template

variable {template : Template} {library : Library} {name source : String} {root : Datum} {selection : Option String}

/-! ## Bindings of anchors -/

/-- The path of a binding that is an anchor. -/
def anchorOf? (binding : Binding) : Option Path :=
  match binding.target with
  | .anchor path => some path
  | _ => none

theorem anchorOf?_textBindings {parent : Option String} {path : List Nat} {content : String} {found : List Binding}
    (bound : textBindings parent path content = .ok found) : found.filterMap anchorOf? = [] := by
  unfold textBindings at bound
  cases read : Pattern.read? content with
  | error fault => simp [read, bind, Except.bind] at bound
  | ok pattern =>
      cases pattern with
      | none =>
          simp only [read, bind, Except.bind, pure, Except.pure, Except.ok.injEq] at bound
          subst bound
          rfl
      | some pattern =>
          simp only [read, bind, Except.bind, pure, Except.pure, Except.ok.injEq] at bound
          subst bound
          by_cases inTextarea : parent = some "textarea" <;> simp [anchorOf?, inTextarea]

theorem anchorOf?_attributeBindings {tag : String} {path : List Nat} : ∀ {attributes : List Attribute} {index : Nat}
    {found : List Binding}, attributeBindings tag path index attributes = .ok found → found.filterMap anchorOf? = []
  | [], _, _, bound => by
      cases bound
      rfl
  | a :: rest, index, found, bound => by
      rw [attributeBindings] at bound
      cases here : Pattern.read? a.value with
      | error fault => simp [here, bind, Except.bind] at bound
      | ok pattern =>
          cases others : attributeBindings tag path (index + 1) rest with
          | error fault => simp [here, others, bind, Except.bind] at bound
          | ok behind =>
              have nothing := anchorOf?_attributeBindings others
              cases pattern <;>
                simp only [here, others, bind, Except.bind, pure, Except.pure, Except.ok.injEq] at bound <;>
                subst bound
              · exact nothing
              · simpa [anchorOf?] using nothing

theorem anchorOf?_commentBindings {path : List Nat} {body : String} {found : List Binding}
    (bound : commentBindings path body = .ok found) : found.filterMap anchorOf? = (anchorPath? body).toList := by
  unfold commentBindings at bound
  unfold anchorPath?
  cases isAnchor : anchorSource? body with
  | none =>
      simp only [isAnchor, pure, Except.pure, Except.ok.injEq] at bound
      subst bound
      rfl
  | some text =>
      cases read : Pattern.readPath text with
      | error fault => simp [isAnchor, read, bind, Except.bind] at bound
      | ok path =>
          simp only [isAnchor, read, bind, Except.bind, pure, Except.pure, Except.ok.injEq] at bound
          subst bound
          simp [anchorOf?, read, Except.toOption]

mutual

theorem anchors_of_treeBindings : ∀ {tree : Tree} {parent : Option String} {path : List Nat} {found : List Binding},
    treeBindings parent path tree = .ok found → found.filterMap anchorOf? = treeAnchors tree
  | .text _, _, _, _, bound => anchorOf?_textBindings bound
  | .comment _, _, _, _, bound => anchorOf?_commentBindings bound
  | .element tag attributes children, parent, path, found, bound => by
      rw [treeBindings] at bound
      cases own : attributeBindings tag path 0 attributes with
      | error fault => simp [own, bind, Except.bind] at bound
      | ok first =>
          cases inner : bindings (some tag) path 0 children with
          | error fault => simp [own, inner, bind, Except.bind] at bound
          | ok others =>
              simp only [own, inner, bind, Except.bind, pure, Except.pure, Except.ok.injEq] at bound
              subst bound
              rw [List.filterMap_append, anchorOf?_attributeBindings own, anchors_of_bindings inner, List.nil_append,
                treeAnchors]

/-- The anchors of trees are the bindings that are anchors. -/
theorem anchors_of_bindings : ∀ {trees : List Tree} {parent : Option String} {path : List Nat} {index : Nat}
    {found : List Binding}, bindings parent path index trees = .ok found → found.filterMap anchorOf? = anchors trees
  | [], _, _, _, _, bound => by
      cases bound
      rfl
  | tree :: rest, parent, path, index, found, bound => by
      rw [bindings] at bound
      cases here : treeBindings parent (path ++ [index]) tree with
      | error fault => simp [here, bind, Except.bind] at bound
      | ok first =>
          cases behind : bindings parent path (index + 1) rest with
          | error fault => simp [here, behind, bind, Except.bind] at bound
          | ok others =>
              simp only [here, behind, bind, Except.bind, pure, Except.pure, Except.ok.injEq] at bound
              subst bound
              rw [List.filterMap_append, anchors_of_treeBindings here, anchors_of_bindings behind, anchors]

end

/-- The paths of the anchors in the content of a selection. -/
def anchorPaths (template : Template) (selection : Option String) : List Path :=
  ((template.prototype? selection).map fun prototype => prototype.bindings.filterMap anchorOf?).getD []

/-- They are those of the source. -/
theorem anchorPaths_eq {prototype : Prototype} (compiled : Compiled template library)
    (known : template.prototype? selection = some prototype) :
    anchorPaths template selection = anchors (library selection) := by
  rw [anchorPaths, known]
  exact anchors_of_bindings (compiled.of_selection known).bound

/-! ## Selections -/

mutual

/-- Whatever is shown for a datum is selected in it by name. -/
theorem selected_of_showings : ∀ {datum : Datum}, ∀ s ∈ showings datum, ∃ name ∈ selections datum, s.1 = some name
  | .list _, s, mem => selected_of_showingsOfItems s mem
  | .record _, s, mem => selected_of_showingsOfFields s mem
  | .template other fields, s, mem => by
      rw [showings, List.mem_append, List.mem_singleton] at mem
      rcases mem with inner | rfl
      · obtain ⟨name, below, same⟩ := selected_of_showingsOfFields s inner
        exact ⟨name, List.mem_cons_of_mem _ below, same⟩
      · exact ⟨other, List.mem_cons_self, rfl⟩

theorem selected_of_showingsOfItems : ∀ {items : List Datum}, ∀ s ∈ showingsOfItems items,
    ∃ name ∈ selectionsOfItems items, s.1 = some name
  | item :: rest, s, mem => by
      rw [showingsOfItems, List.mem_append] at mem
      rcases mem with first | others
      · obtain ⟨name, below, same⟩ := selected_of_showings s first
        exact ⟨name, List.mem_append_right _ below, same⟩
      · obtain ⟨name, below, same⟩ := selected_of_showingsOfItems s others
        exact ⟨name, List.mem_append_left _ below, same⟩

theorem selected_of_showingsOfFields : ∀ {fields : List (String × Datum)}, ∀ s ∈ showingsOfFields fields,
    ∃ name ∈ selectionsOfFields fields, s.1 = some name
  | (_, value) :: rest, s, mem => by
      rw [showingsOfFields, List.mem_append] at mem
      rcases mem with first | others
      · obtain ⟨name, below, same⟩ := selected_of_showings s first
        exact ⟨name, List.mem_append_right _ below, same⟩
      · obtain ⟨name, below, same⟩ := selected_of_showingsOfFields s others
        exact ⟨name, List.mem_append_left _ below, same⟩

end

/-! ## Data that are reached once -/

/-- Every template among the fields is reached by exactly one anchor of the content of a selection. -/
def ReachedOnce (template : Template) (selection : Option String) (fields : Fields Datum) : Prop :=
  ((anchorPaths template selection).flatMap fun path =>
    listed (valueAt (.map (outlineOfFields 0 fields)) path)).Perm (List.range (templateCountOfFields fields))

instance (template : Template) (selection : Option String) (fields : Fields Datum) :
    Decidable (ReachedOnce template selection fields) :=
  inferInstanceAs (Decidable (List.Perm _ _))

/-- Every template of the data, but the one of the root, is reached by exactly one anchor. -/
def ShownOnce (template : Template) (root : Datum) : Prop :=
  ∀ selection fields, rootOf root = .ok (selection, fields) →
    ReachedOnce template selection fields ∧ ThroughoutFields (ReachedOnce template) fields

instance (template : Template) (root : Datum) : Decidable (ShownOnce template root) := by
  unfold ShownOnce
  match rootOf root with
  | .error fault => exact .isTrue nofun
  | .ok (selection, fields) =>
      have here : Decidable (ReachedOnce template selection fields ∧ ThroughoutFields (ReachedOnce template) fields) :=
        @instDecidableAnd _ _ inferInstance (decideThroughoutFields (fun _ _ => inferInstance) fields)
      exact decidable_of_iff (ReachedOnce template selection fields ∧ ThroughoutFields (ReachedOnce template) fields)
        ⟨fun once _ _ same => by cases same; exact once, fun once => once selection fields rfl⟩

/-- So it is said of the source. -/
theorem ShownOnce.eachOnce (once : ShownOnce template root) (compiled : Template.compile name source = .ok template)
    (defined : ∀ name ∈ selections root, template.defines name = true) : EachOnce (.ofSource source) root := by
  intro selection fields rooted
  obtain ⟨known, inner⟩ := defined_of_root defined rooted
  refine throughoutRoot_iff.mpr fun s mem => ?_
  have prototype : ∃ prototype, template.prototype? s.1 = some prototype := by
    rcases List.mem_append.mp mem with below | top
    · obtain ⟨name, selected, same⟩ := selected_of_showingsOfFields s below
      rw [same]
      exact defines_iff.mp (inner name selected)
    · rw [List.mem_singleton.mp top]
      exact known
  obtain ⟨prototype, here⟩ := prototype
  have reached := throughoutRoot_iff.mp (once selection fields rooted) s mem
  rw [ReachedOnce, anchorPaths_eq (compiled_of_compile compiled) here] at reached
  exact reached

end Inlay.Render
