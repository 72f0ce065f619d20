/-
# Proofs.Render.Cells — the slots of a prototype write to different places

No two slots of an instance write to one cell, live properties aside: ids are
distinct, and so are the names of an element's attributes. The value of a
`<textarea>` is the one live property with two ways to it, a bound attribute and
bound content; when no `<textarea>` of the prototype has both, all slots write to
different cells (`clear_slotsAll`).
-/
import Inlay.Proofs.Markup.Tidy
import Inlay.Proofs.Render.Facts
import Inlay.Proofs.Render.Slots

namespace Inlay.Render

set_option autoImplicit false

open Inlay.Document Inlay.Document.Planted Inlay.Markup
open Inlay.Template hiding root

/-! ## One value for a `<textarea>` -/

/-- A text with a placeholder. -/
def boundText : Tree → Bool
  | .text content => hasPlaceholder content
  | _ => false

/-- The attribute `value` holds a placeholder. -/
def boundValue (attributes : List Attribute) : Bool :=
  attributes.any fun a => a.name = "value" && hasPlaceholder a.value

mutual

/-- No `<textarea>` of the tree has both a bound value attribute and bound content. -/
def oneValue : Tree → Bool
  | .element tag attributes children =>
    !(tag = "textarea" && boundValue attributes && children.any boundText) && oneValueAll children
  | .text _ => true
  | .comment _ => true

def oneValueAll : List Tree → Bool
  | [] => true
  | tree :: rest => oneValue tree && oneValueAll rest

end

/-- No `<textarea>` of a source has both a bound value attribute and bound content. -/
def oneValueOfSource (source : String) : Bool :=
  match forest? source with
  | .ok forest => oneValueAll (kept forest) && (forestDefinitions forest).all (oneValueAll ·.content)
  | .error _ => true

theorem oneValueAll_ofSource {source : String} (single : oneValueOfSource source = true)
    (selection : Option String) : oneValueAll (Library.ofSource source selection) = true := by
  unfold oneValueOfSource at single
  unfold Library.ofSource
  cases read : forest? source with
  | error fault => rfl
  | ok forest =>
      simp only [read, Bool.and_eq_true, List.all_eq_true] at single
      cases selection with
      | none => exact single.1
      | some name =>
          cases found : (forestDefinitions forest).find? (·.id = some name) with
          | none => simp [libraryOf, found, oneValueAll]
          | some definition =>
              simpa [libraryOf, found] using single.2 definition (List.mem_of_find?_eq_some found)

/-! ## The cells of slots -/

variable {memory : Memory} {slot : Slot} {cell : Cell} {id : NodeId} {strict : Prop}

theorem following?_name {tag name : String} {property : LiveProperty}
    (follows : LiveProperty.following? tag name = some property) : property.name = name := by
  unfold LiveProperty.following? at follows
  split at follows
  · have found := List.find?_some follows
    simpa using found
  · cases follows

theorem mem_cells_attribute {tag : String} {a : Attribute} (mem : slot ∈ attributeSlots id tag a)
    (inside : cell ∈ slot.cells) : cell.1 = id ∧
      (cell.2 = .attribute a.name ∨ (cell.2 = .property a.name ∧ hasPlaceholder a.value = true)) := by
  unfold attributeSlots at mem
  split at mem
  · next pattern read =>
    rw [List.mem_singleton] at mem
    subst mem
    rcases List.mem_cons.mp inside with rfl | inside
    · exact ⟨rfl, .inl rfl⟩
    · obtain ⟨p, there, rfl⟩ := List.mem_map.mp inside
      have follows : LiveProperty.following? tag a.name = some p := by simpa using there
      exact ⟨rfl, .inr ⟨by rw [following?_name follows], hasPlaceholder_of_pattern read⟩⟩
  · cases mem

theorem mem_cells_text {parent : Option (String × NodeId)} {content : String}
    (mem : slot ∈ textSlots parent id content) (inside : cell ∈ slot.cells) :
    cell.1 = id ∨ (parent = some ("textarea", cell.1) ∧ cell.2 = .property "value" ∧
      hasPlaceholder content = true) := by
  unfold textSlots at mem
  split at mem
  · next pattern read =>
    split at mem
    · next tag holder =>
      split at mem <;> rw [List.mem_singleton] at mem <;> subst mem <;>
        rw [Slot.cells, List.mem_singleton] at inside <;> subst inside
      · next area => exact .inr ⟨by rw [area], rfl, hasPlaceholder_of_pattern read⟩
      · exact .inl rfl
    · rw [List.mem_singleton] at mem
      subst mem
      rw [Slot.cells, List.mem_singleton] at inside
      exact .inl (by rw [inside])
  · cases mem

mutual

/-- A slot writes to nodes of the tree, or as bound content to the value of the
`<textarea>` around it. -/
theorem mem_cells_slots : ∀ {r : Planted} {parent : Option (String × NodeId)},
    slot ∈ slots memory parent r → cell ∈ slot.cells → cell.1 ∈ r.ids ∨
      (parent = some ("textarea", cell.1) ∧ cell.2 = .property "value" ∧ boundText r.tree = true)
  | .text id content, parent, mem, inside => by
      rcases mem_cells_text mem inside with same | value
      · exact .inl (by simp [ids, same])
      · exact .inr value
  | .comment id body, parent, mem, inside => by
      simp only [slots, commentSlots] at mem
      split at mem
      · rw [List.mem_singleton] at mem
        subst mem
        cases inside
      · cases mem
  | .element id tag attributes children, parent, mem, inside => by
      left
      rcases List.mem_append.mp mem with own | below
      · obtain ⟨a, -, here⟩ := List.mem_flatMap.mp own
        rw [(mem_cells_attribute here inside).1]
        exact List.mem_cons_self
      · rcases mem_cells_slotsAll below inside with deep | ⟨same, -, -⟩
        · exact List.mem_cons_of_mem _ deep
        · cases same
          exact List.mem_cons_self

theorem mem_cells_slotsAll : ∀ {rs : List Planted} {parent : Option (String × NodeId)},
    slot ∈ slotsAll memory parent rs → cell ∈ slot.cells → cell.1 ∈ idsAll rs ∨
      (parent = some ("textarea", cell.1) ∧ cell.2 = .property "value" ∧ (trees rs).any boundText = true)
  | [], _, mem, _ => by cases mem
  | r :: rest, parent, mem, inside => by
      rcases List.mem_append.mp mem with here | there
      · rcases mem_cells_slots here inside with own | ⟨same, place, bound⟩
        · exact .inl (List.mem_append_left _ own)
        · exact .inr ⟨same, place, by simp [trees, bound]⟩
      · rcases mem_cells_slotsAll there inside with own | ⟨same, place, bound⟩
        · exact .inl (List.mem_append_right _ own)
        · refine .inr ⟨same, place, ?_⟩
          simp only [trees, List.any_cons, bound, Bool.or_true]

end

/-- The two slots share no cell, or unless that is excluded a live property only. -/
def Clear (strict : Prop) (s t : Slot) : Prop :=
  ∀ cell ∈ s.cells, cell ∈ t.cells → ¬strict ∧ ∃ name, cell.2 = .property name

theorem clear_attributes (id : NodeId) (tag : String) {attributes : List Attribute}
    (distinct : DistinctNames attributes) :
    (attributes.flatMap (attributeSlots id tag)).Pairwise (Clear strict) := by
  refine List.pairwise_flatMap.mpr ⟨fun a _ => ?_, (List.pairwise_map.mp distinct).imp ?_⟩
  · unfold attributeSlots
    split
    · exact List.pairwise_singleton _ _
    · exact .nil
  · intro a b ne s here t there cell one two
    exfalso
    have first := (mem_cells_attribute here one).2
    have second := (mem_cells_attribute there two).2
    rcases first with first | ⟨first, -⟩ <;> rcases second with second | ⟨second, -⟩ <;>
      rw [first] at second <;> simp [ne] at second

/-- What excludes two ways to one value. -/
structure OneWay (parent : Option (String × NodeId)) (content : List Tree) : Prop where
  slim : EverywhereAll Slim content
  oneValue : oneValueAll content = true
  single : parent.map Prod.fst = some "textarea" → content.length ≤ 1

mutual

theorem clear_slots : ∀ {r : Planted} {parent : Option (String × NodeId)}, r.ids.Nodup → Tidy r.tree →
    (strict → Everywhere Slim r.tree ∧ oneValue r.tree = true) →
    (slots memory parent r).Pairwise (Clear strict)
  | .text id content, parent, _, _, _ => by
      rw [slots, textSlots]
      split
      · split
        · split <;> exact List.pairwise_singleton _ _
        · exact List.pairwise_singleton _ _
      · exact .nil
  | .comment id body, parent, _, _, _ => by
      rw [slots, commentSlots]
      split
      · exact List.pairwise_singleton _ _
      · exact .nil
  | .element id tag attributes children, parent, nodup, ⟨distinct, tidy⟩, ways => by
      obtain ⟨absent, nodup⟩ := List.nodup_cons.mp nodup
      have up : ∀ tag' holder, some (tag, id) = some (tag', holder) → holder ∉ idsAll children := by
        rintro _ _ ⟨⟩
        exact absent
      have inner : strict → OneWay (some (tag, id)) (trees children) := fun all => by
        obtain ⟨⟨slim, below⟩, one⟩ := ways all
        simp only [tree, oneValue, Bool.and_eq_true] at one
        refine ⟨below, one.2, fun area => slim ?_⟩
        have area : tag = "textarea" := Option.some.inj area
        subst area
        decide
      refine List.pairwise_append.mpr
        ⟨clear_attributes id tag distinct, clear_slotsAll nodup up tidy inner, ?_⟩
      intro s here t there cell one two
      obtain ⟨a, mem, here⟩ := List.mem_flatMap.mp here
      obtain ⟨own, place⟩ := mem_cells_attribute here one
      rcases mem_cells_slotsAll there two with below | ⟨area, value, bound⟩
      · rw [own] at below
        exact absurd below absent
      · refine ⟨fun all => ?_, _, value⟩
        have single := (ways all).2
        rw [value] at place
        rcases place with place | ⟨place, has⟩
        · cases place
        · have named : a.name = "value" := (Place.property.inj place).symm
          have own_bound : boundValue attributes = true :=
            List.any_eq_true.mpr ⟨a, mem, by simp [has, named]⟩
          cases area
          simp [tree, oneValue, own_bound, bound] at single

theorem clear_slotsAll : ∀ {rs : List Planted} {parent : Option (String × NodeId)}, (idsAll rs).Nodup →
    (∀ tag holder, parent = some (tag, holder) → holder ∉ idsAll rs) → TidyAll (trees rs) →
    (strict → OneWay parent (trees rs)) → (slotsAll memory parent rs).Pairwise (Clear strict)
  | [], _, _, _, _, _ => .nil
  | r :: rest, parent, nodup, up, ⟨tidy, others⟩, ways => by
      obtain ⟨here, there, apart⟩ := List.nodup_append.mp nodup
      have ways_r : strict → Everywhere Slim r.tree ∧ oneValue r.tree = true := fun all => by
        have one := (ways all).oneValue
        simp only [trees, oneValueAll, Bool.and_eq_true] at one
        exact ⟨(ways all).slim.1, one.1⟩
      have ways_rest : strict → OneWay parent (trees rest) := fun all => by
        have one := (ways all).oneValue
        simp only [trees, oneValueAll, Bool.and_eq_true] at one
        refine ⟨(ways all).slim.2, one.2, fun area => ?_⟩
        have short := (ways all).single area
        rw [trees, List.length_cons] at short
        omega
      have up_rest : ∀ tag holder, parent = some (tag, holder) → holder ∉ idsAll rest :=
        fun tag holder same mem => up tag holder same (List.mem_append_right _ mem)
      refine List.pairwise_append.mpr
        ⟨clear_slots here tidy ways_r, clear_slotsAll there up_rest others ways_rest, ?_⟩
      intro s mem t mem' cell one two
      rcases mem_cells_slots mem one with own | ⟨area, value, bound⟩
      · exfalso
        rcases mem_cells_slotsAll mem' two with other | ⟨area, -, -⟩
        · exact apart _ own _ other rfl
        · exact up _ _ area (List.mem_append_left _ own)
      · refine ⟨fun all => ?_, _, value⟩
        rcases mem_cells_slotsAll mem' two with other | ⟨-, -, bound'⟩
        · exact up _ _ area (List.mem_append_right _ other)
        · -- a `<textarea>` has one child only
          have short := (ways all).single (by rw [area, Option.map_some])
          rw [trees, List.length_cons] at short
          have empty : trees rest = [] := List.length_eq_zero_iff.mp (by omega)
          rw [empty] at bound'
          cases bound'

end

end Inlay.Render
