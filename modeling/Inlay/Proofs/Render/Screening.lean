/-
# Proofs.Render.Screening — which data are refused

A call refuses its data for two reasons only: they select a template that is not
defined, however deep in the data, or their root shows nothing by itself. What
comes before the first edit looks at every selection (`mem_selections`), and what
comes after it raises neither fault, so the two faults are given exactly then, and
the renderer and the document are as they were (`screened`).
-/
import Inlay.Proofs.Render.Refusal

namespace Inlay

set_option autoImplicit false

/-! ## Data inside data -/

/-- The datum itself, an item of a list or a field of an object, or what is inside
one of them. -/
inductive Datum.Within (inner : Datum) : Datum → Prop
  | itself : Within inner inner
  | item {items : List Datum} {item : Datum} : item ∈ items → Within inner item → Within inner (.list items)
  | field {fields : List (String × Datum)} {entry : String × Datum} : entry ∈ fields → Within inner entry.2 →
      Within inner (.record fields)
  | selectionField {name : String} {fields : List (String × Datum)} {entry : String × Datum} : entry ∈ fields →
      Within inner entry.2 → Within inner (.template name fields)

/-- Somewhere in the data the template of a name is selected. -/
def Datum.Selects (datum : Datum) (name : String) : Prop :=
  ∃ fields, Datum.Within (.template name fields) datum

/-- The data can stand at the root: a record, or the selection of a template. -/
def Datum.IsRoot (datum : Datum) : Prop :=
  (∃ fields, datum = .record fields) ∨ ∃ name fields, datum = .template name fields

namespace Render

variable {root datum : Datum} {name : String} {template : Template} {fault : Fault}

mutual

theorem selects_of_mem : ∀ datum : Datum, name ∈ selections datum → datum.Selects name
  | .null, mem => by cases mem
  | .bool _, mem => by cases mem
  | .number _, mem => by cases mem
  | .text _, mem => by cases mem
  | .list items, mem => by
      obtain ⟨item, member, fields, inside⟩ := selects_of_mem_items items mem
      exact ⟨fields, .item member inside⟩
  | .record fields, mem => by
      obtain ⟨entry, member, inner, inside⟩ := selects_of_mem_fields fields mem
      exact ⟨inner, .field member inside⟩
  | .template selected fields, mem => by
      rcases List.mem_cons.mp mem with rfl | below
      · exact ⟨fields, .itself⟩
      · obtain ⟨entry, member, inner, inside⟩ := selects_of_mem_fields fields below
        exact ⟨inner, .selectionField member inside⟩

theorem selects_of_mem_items : ∀ items : List Datum, name ∈ selectionsOfItems items →
    ∃ item ∈ items, item.Selects name
  | [], mem => by cases mem
  | item :: rest, mem => by
      rcases List.mem_append.mp mem with later | here
      · obtain ⟨other, member, selects⟩ := selects_of_mem_items rest later
        exact ⟨other, List.mem_cons_of_mem _ member, selects⟩
      · exact ⟨item, List.mem_cons_self, selects_of_mem item here⟩

theorem selects_of_mem_fields : ∀ fields : List (String × Datum), name ∈ selectionsOfFields fields →
    ∃ entry ∈ fields, entry.2.Selects name
  | [], mem => by cases mem
  | (label, value) :: rest, mem => by
      rcases List.mem_append.mp mem with later | here
      · obtain ⟨other, member, selects⟩ := selects_of_mem_fields rest later
        exact ⟨other, List.mem_cons_of_mem _ member, selects⟩
      · exact ⟨(label, value), List.mem_cons_self, selects_of_mem value here⟩

end

theorem mem_selectionsOfItems {items : List Datum} {item : Datum} (member : item ∈ items)
    (mem : name ∈ selections item) : name ∈ selectionsOfItems items := by
  induction member with
  | head rest => exact List.mem_append_right _ mem
  | tail first _ ih => exact List.mem_append_left _ ih

theorem mem_selectionsOfFields {fields : List (String × Datum)} {entry : String × Datum} (member : entry ∈ fields)
    (mem : name ∈ selections entry.2) : name ∈ selectionsOfFields fields := by
  induction member with
  | head rest => exact List.mem_append_right _ mem
  | tail first _ ih => exact List.mem_append_left _ ih

theorem mem_selections_of_within {fields : List (String × Datum)}
    (within : Datum.Within (.template name fields) datum) : name ∈ selections datum := by
  induction within with
  | itself => exact List.mem_cons_self
  | item member _ ih => exact mem_selectionsOfItems member ih
  | field member _ ih => exact mem_selectionsOfFields member ih
  | selectionField member _ ih => exact List.mem_cons_of_mem _ (mem_selectionsOfFields member ih)

/-- The check looks at every selection in the data. -/
theorem mem_selections : name ∈ selections datum ↔ datum.Selects name :=
  ⟨selects_of_mem datum, fun ⟨_, within⟩ => mem_selections_of_within within⟩

/-! ## The check -/

theorem rootOf_eq_error : rootOf root = .error fault ↔ ¬ root.IsRoot ∧ fault = .badRoot root.kind := by
  cases root with
  | record fields => simp [rootOf, Datum.IsRoot]
  | template name fields => simp [rootOf, Datum.IsRoot]
  | null | bool | number | text | list => simp [rootOf, Datum.IsRoot, eq_comm]

/-- A template that the check does not know is one that the data select. -/
theorem of_checked_unknown {label : String} (found : checked template root = .error (.unknown label name)) :
    label = template.name ∧ root.Selects name ∧ template.defines name = false := by
  rw [checked] at found
  cases unknown : (selections root).find? (!template.defines ·) with
  | some other =>
      rw [unknown] at found
      cases found
      exact ⟨rfl, mem_selections.mp (List.mem_of_find?_eq_some unknown), by simpa using List.find?_some unknown⟩
  | none =>
      rw [unknown] at found
      cases (rootOf_eq_error.mp found).2

/-- Data that select something undefined do not pass the check. -/
theorem checked_unknown (selects : root.Selects name) (undefined : template.defines name = false) :
    ∃ other, checked template root = .error (.unknown template.name other) := by
  have some_ : ((selections root).find? (!template.defines ·)).isSome = true :=
    List.find?_isSome.mpr ⟨name, mem_selections.mpr selects, by simpa using undefined⟩
  obtain ⟨other, found⟩ := Option.isSome_iff_exists.mp some_
  exact ⟨other, by rw [checked, found]⟩

/-- The check doubts the root only of data whose templates are all defined. -/
theorem checked_badRoot_iff {kind : String} : checked template root = .error (.badRoot kind) ↔
    (∀ name, root.Selects name → template.defines name = true) ∧ ¬ root.IsRoot ∧ kind = root.kind := by
  constructor
  · intro found
    have defined : ∀ name, root.Selects name → template.defines name = true := by
      intro name selects
      by_contra undefined
      obtain ⟨other, unknown⟩ := checked_unknown selects (Bool.not_eq_true _ ▸ undefined)
      rw [unknown] at found
      cases found
    rw [checked, List.find?_eq_none.mpr fun name mem => by simpa using defined name (mem_selections.mp mem)] at found
    obtain ⟨off, same⟩ := rootOf_eq_error.mp found
    cases same
    exact ⟨defined, off, rfl⟩
  · rintro ⟨defined, off, rfl⟩
    rw [checked, List.find?_eq_none.mpr fun name mem => by simpa using defined name (mem_selections.mp mem)]
    exact rootOf_eq_error.mpr ⟨off, rfl⟩

/-! ## Calls -/

/-- A call refuses data exactly when they select what is not defined, or else have
no root, and then leaves the renderer and the document as they were. -/
structure Screened {α : Type} (call : Rendering α) (site : Site) (root : Datum) : Prop where
  unknown_iff : (∃ label name site', call site = .error (.unknown label name) site') ↔
    ∃ name, root.Selects name ∧ site.renderer.template.defines name = false
  /-- The fault names the template that was asked, and a selection that it lacks. -/
  unknown_names : ∀ label name site', call site = .error (.unknown label name) site' →
    label = site.renderer.template.name ∧ root.Selects name ∧ site.renderer.template.defines name = false
  badRoot_iff : (∃ kind site', call site = .error (.badRoot kind) site') ↔
    (∀ name, root.Selects name → site.renderer.template.defines name = true) ∧ ¬ root.IsRoot
  badRoot_kind : ∀ kind site', call site = .error (.badRoot kind) site' → kind = root.kind
  unchanged : ∀ fault site', call site = .error fault site' → fault.OfData → site' = site

/-- A call screens its data if it gives the faults of the check, and no others
that say that data cannot be shown. -/
theorem Screened.of_checked {α : Type} {call : Rendering α} {site : Site}
    (gives : ∀ fault, checked site.renderer.template root = .error fault → call site = .error fault site)
    (only : ∀ fault site', call site = .error fault site' → fault.OfData →
      checked site.renderer.template root = .error fault ∧ site' = site) : Screened call site root where
  unknown_iff := by
    constructor
    · rintro ⟨label, name, site', refused⟩
      exact ⟨name, (of_checked_unknown (only _ _ refused trivial).1).2⟩
    · rintro ⟨name, selects, undefined⟩
      obtain ⟨other, found⟩ := checked_unknown selects undefined
      exact ⟨_, other, site, gives _ found⟩
  unknown_names := fun label name site' refused => of_checked_unknown (only _ _ refused trivial).1
  badRoot_iff := by
    constructor
    · rintro ⟨kind, site', refused⟩
      obtain ⟨defined, off, -⟩ := checked_badRoot_iff.mp (only _ _ refused trivial).1
      exact ⟨defined, off⟩
    · rintro ⟨defined, off⟩
      exact ⟨root.kind, site, gives _ (checked_badRoot_iff.mpr ⟨defined, off, rfl⟩)⟩
  badRoot_kind := fun kind site' refused => (checked_badRoot_iff.mp (only _ _ refused trivial).1).2.2
  unchanged := fun fault site' refused data => (only fault site' refused data).2

theorem render_of_checked {site : Site} (found : checked site.renderer.template root = .error fault) :
    Renderer.render root site = .error fault site := by
  rw [Renderer.render, found]

theorem renderInto_of_checked {site : Site} (host : NodeId)
    (found : checked site.renderer.template root = .error fault) :
    Renderer.renderInto host root site = .error fault site := by
  rw [Renderer.renderInto, bind_error (render_of_checked found)]

/-- Whatever the renderer has shown and whatever has become of the document, data
are refused exactly when they select what the template lacks, at any depth, or
else have no root; and then nothing is changed. -/
theorem screened (site : Site) (host : NodeId) (root : Datum) :
    Screened (Renderer.render root) site root ∧ Screened (Renderer.renderInto host root) site root :=
  ⟨.of_checked (fun _ => render_of_checked) fun _ _ => checked_of_render,
    .of_checked (fun _ => renderInto_of_checked host) fun _ _ => checked_of_renderInto⟩

end Render

end Inlay
