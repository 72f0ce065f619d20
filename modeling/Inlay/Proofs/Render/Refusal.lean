/-
# Proofs.Render.Refusal — data that are refused leave everything as it was

Two faults say that data cannot be shown (`Fault.OfData`). They are found by the
check that comes before anything else: nothing that edits the document raises
them (`Trusts`), so a call that gives one has changed nothing
(`renderInto_refused`).
-/
import Inlay.Proofs.Render.Expand

namespace Inlay.Render

set_option autoImplicit false

open Inlay.Document

/-- The fault says that the data cannot be shown. -/
def Fault.OfData : Fault → Prop
  | .unknown _ _ => True
  | .badRoot _ => True
  | _ => False

instance (fault : Fault) : Decidable fault.OfData := by
  cases fault <;> unfold Fault.OfData <;> infer_instance

section Trusts

variable {σ α β : Type}

/-- The program raises no fault that says that data cannot be shown. -/
def Trusts (e : EStateM Fault σ α) : Prop := ∀ s fault s', e s = .error fault s' → ¬ fault.OfData

namespace Trusts

theorem of_answers {e : EStateM Fault σ α} (answers : ∀ s, ∃ a s', e s = .ok a s') : Trusts e := by
  intro s fault s' raised
  obtain ⟨a, s₁, done⟩ := answers s
  rw [done] at raised
  cases raised

theorem pure (a : α) : Trusts (Pure.pure a : EStateM Fault σ α) := .of_answers fun s => ⟨a, s, rfl⟩

theorem throw {fault : Fault} (late : ¬ fault.OfData) : Trusts (throw fault : EStateM Fault σ α) := by
  intro s other s' raised
  cases raised
  exact late

theorem bind {e : EStateM Fault σ α} {f : α → EStateM Fault σ β} (first : Trusts e) (rest : ∀ a, Trusts (f a)) :
    Trusts (e >>= f) := by
  intro s fault s' raised
  cases done : e s with
  | ok a s₁ =>
      rw [bind_ok done] at raised
      exact rest a s₁ fault s' raised
  | error other s₁ =>
      rw [bind_error done] at raised
      cases raised
      exact first s fault s' done

theorem forM {f : α → EStateM Fault σ PUnit} (each : ∀ a, Trusts (f a)) : ∀ list : List α, Trusts (list.forM f)
  | [] => pure _
  | a :: rest => bind (each a) fun _ => forM each rest

end Trusts

end Trusts

/-! ## Acts -/

namespace Act

theorem trusts_edit {α : Type} (e : Edit α) : Trusts (edit e) := by
  intro stage fault stage' raised
  rw [edit] at raised
  split at raised
  · cases raised
  · cases raised
    exact id

theorem trusts_ask {α : Type} (f : Document → α) : Trusts (ask f) := .of_answers fun s => ⟨_, s, rfl⟩

theorem trusts_isClaimed (node : NodeId) : Trusts (isClaimed node) := .of_answers fun s => ⟨_, s, rfl⟩

theorem trusts_claim (node : NodeId) : Trusts (claim node) := .of_answers fun _ => ⟨_, _, rfl⟩

end Act

open Act

theorem trusts_detachOld (next : List NodeId) : ∀ previous, Trusts (detachOld next previous)
  | [] => .pure _
  | node :: rest => .bind (trusts_isClaimed node) fun _ => .bind (trusts_ask _) fun _ => by
      split
      · exact .bind (trusts_edit _) fun _ => trusts_detachOld next rest
      · exact trusts_detachOld next rest

theorem trusts_placeIn (parent : NodeId) : ∀ cursor next, Trusts (placeIn parent cursor next)
  | _, [] => .pure _
  | cursor, node :: rest => .bind (trusts_claim node) fun _ =>
      .bind (.bind (trusts_ask _) fun _ => by
        split
        · exact trusts_edit _
        · exact .pure _) fun _ => trusts_placeIn parent (some node) rest

theorem trusts_placeNowhere : ∀ next, Trusts (placeNowhere next)
  | [] => .pure _
  | node :: rest => .bind (trusts_claim node) fun _ =>
      .bind (.bind (trusts_ask _) fun _ => by
        split
        · exact trusts_edit _
        · exact .pure _) fun _ => trusts_placeNowhere rest

theorem trusts_reconcile (position : Position) (previous next : List NodeId) :
    Trusts (reconcile position previous next) := by
  refine .bind (trusts_detachOld next previous) fun _ => .bind (trusts_ask _) fun parent => ?_
  cases parent with
  | some parent => exact trusts_placeIn parent _ next
  | none => exact trusts_placeNowhere next

namespace Anchor

theorem trusts_makeText (content : String) : Trusts (makeText content) := .bind (trusts_edit _) fun _ => .pure _

theorem trusts_make : ∀ key, Trusts (make key)
  | .text content => trusts_makeText content
  | .markup source => .bind (trusts_edit _) fun read => by
      cases read with
      | ok fragment =>
          exact .bind (trusts_ask _) fun nodes => .bind (.forM (fun _ => trusts_edit _) nodes) fun _ =>
            .bind (trusts_edit _) fun _ => .pure _
      | error fault => exact trusts_makeText source

theorem trusts_layOut : ∀ items unused, Trusts (layOut items unused)
  | [], _ => .pure _
  | .nodes _ :: rest, unused => .bind (trusts_layOut rest unused) fun _ => .pure _
  | .made key :: rest, unused => by
      rw [layOut]
      have step : ∀ pair : List NodeId × List Made, Trusts (layOut rest pair.2 >>= fun others =>
          (pure ⟨pair.1 ++ others.nodes, ⟨key, pair.1⟩ :: others.made, others.unused⟩ : Act Layout)) :=
        fun pair => .bind (trusts_layOut rest pair.2) fun _ => .pure _
      cases takeMade key unused with
      | some found => exact .bind (.pure _) fun pair => step pair
      | none => exact .bind (trusts_make key) fun nodes => .bind (.pure _) fun pair => step pair

theorem trusts_discardUnclaimed : ∀ nodes, Trusts (discardUnclaimed nodes)
  | [] => .pure _
  | node :: rest => .bind (trusts_isClaimed node) fun _ => .bind (trusts_ask _) fun _ => by
      split
      · exact .bind (trusts_edit _) fun _ => trusts_discardUnclaimed rest
      · exact trusts_discardUnclaimed rest

theorem trusts_update (value : Option Value) (anchor : Anchor) : Trusts (anchor.update value) :=
  .bind (trusts_layOut _ _) fun _ => .bind (trusts_reconcile _ _ _) fun _ =>
    .bind (trusts_discardUnclaimed _) fun _ => .pure _

end Anchor

namespace Slot

theorem trusts_write (context : Value) : ∀ slot : Slot, Trusts (slot.write context)
  | .text _ _ => .bind (trusts_edit _) fun _ => .pure _
  | .textareaValue _ _ => .bind (trusts_edit _) fun _ => .pure _
  | .attribute element name content property => by
      refine .bind (.bind ?_ fun _ => ?_) fun _ => .pure _
      · cases attributeText content context <;> exact trusts_edit _
      · cases property with
        | none => exact .pure _
        | some property => exact .bind (trusts_edit _) fun _ => .pure _
  | .anchor _ a => .bind (a.trusts_update _) fun _ => .pure _

theorem trusts_writeAll (context : Value) : ∀ (slots : List Slot) (stage : Stage) (fault : Fault),
    (writeAll context slots stage).1.1 = some fault → ¬ fault.OfData
  | [], _, _, raised => by cases raised
  | slot :: rest, stage, fault, raised => by
      cases done : slot.write context stage with
      | ok slot' stage' =>
          simp only [writeAll, done] at raised
          exact trusts_writeAll context rest stage' fault raised
      | error other stage' =>
          simp only [writeAll, done] at raised
          cases raised
          exact trusts_write context slot stage fault stage' done

end Slot

namespace Instance

theorem trusts_bindAll (label : String) (d : Document) (fragment : NodeId) : ∀ (all : List Template.Binding) (fault : Fault),
    bindAll label d fragment all = .error fault → ¬ fault.OfData
  | [], _, raised => by cases raised
  | binding :: rest, fault, raised => by
      rw [bindAll] at raised
      cases bound : Slot.bind? d fragment binding with
      | none =>
          rw [bound] at raised
          cases raised
          exact id
      | some slot =>
          rw [bound] at raised
          cases others : bindAll label d fragment rest with
          | error other =>
              simp only [others, bind, Except.bind] at raised
              cases raised
              exact trusts_bindAll label d fragment rest fault others
          | ok slots =>
              simp only [others, bind, Except.bind] at raised
              cases raised

theorem trusts_ofPrototype (prototype : Template.Prototype) : Trusts (ofPrototype prototype) := by
  refine .bind (trusts_edit _) fun fragment => .bind (trusts_ask _) fun tops => ?_
  intro stage fault stage' raised
  rw [Act.bind_ask] at raised
  cases bound : bindAll prototype.label stage.document fragment prototype.bindings with
  | ok slots =>
      rw [bound] at raised
      cases raised
  | error other =>
      rw [bound] at raised
      cases raised
      exact trusts_bindAll _ _ _ _ fault bound

theorem trusts_discard (survivors : List NodeId) (inst : Instance) : Trusts (inst.discard survivors) := by
  refine .bind (.forM (fun node => .bind (trusts_ask _) fun alive => ?_) _) fun _ => .bind (trusts_ask _) fun alive => ?_
  · split
    · exact .bind (trusts_ask _) fun rescued => .bind (.forM (fun _ => trusts_edit _) rescued) fun _ => trusts_edit _
    · exact .pure _
  · cases alive with
    | true => exact trusts_edit _
    | false => exact .pure _

end Instance

/-! ## Passes -/

namespace Passing

variable {template : Template}

theorem trusts_act {α : Type} {a : Act α} (trusts : Trusts a) : Trusts (act a) := by
  intro pass fault pass' raised
  cases done : a pass.stage with
  | ok answer stage => simp [act, done] at raised
  | error other stage =>
      simp only [act, done] at raised
      cases raised
      exact trusts pass.stage fault stage done

theorem trusts_instanceAt (prototype : Template.Prototype) (name : String) (ordinal : Nat) :
    Trusts (instanceAt prototype name ordinal) := by
  refine .bind (.of_answers fun pass => ⟨_, pass, rfl⟩) fun instances => ?_
  cases instances[ordinal]? with
  | some inst => exact .pure _
  | none =>
      exact .bind (trusts_act (Instance.trusts_ofPrototype prototype)) fun _ =>
        .bind (.of_answers fun pass => ⟨_, pass, rfl⟩) fun _ => .bind (.of_answers fun _ => ⟨_, _, rfl⟩) fun _ => .pure _

theorem trusts_updateAt (name : String) (ordinal : Nat) (context : Value) (inst : Instance) :
    Trusts (updateAt name ordinal context inst) := by
  intro pass fault pass' raised
  rcases written : Slot.writeAll context inst.slots pass.stage with ⟨⟨found, slots⟩, stage⟩
  have late := Slot.trusts_writeAll context inst.slots pass.stage
  rw [written] at late
  rw [updateAt] at raised
  simp only [Instance.update, written] at raised
  cases found with
  | none => cases raised
  | some other =>
      cases raised
      exact late fault rfl

theorem trusts_showNext {name : Option String} {prototype : Template.Prototype}
    (known : template.prototype? name = some prototype) (context : Value) :
    Trusts (showNext template name context) := by
  have chosen : selected template name = .ok prototype := by simp [selected, known]
  rw [showNext, chosen]
  exact .bind (.of_answers fun _ => ⟨_, _, rfl⟩) fun ordinal =>
    .bind (trusts_instanceAt prototype _ ordinal) fun inst => trusts_updateAt _ _ _ inst

mutual

/-- Data that select defined templates only are resolved without doubt about them. -/
theorem trusts_resolve : ∀ datum : Datum, (∀ name ∈ selections datum, template.defines name = true) →
    Trusts (resolve template datum)
  | .null, _ => .pure _
  | .bool _, _ => .pure _
  | .number _, _ => .pure _
  | .text _, _ => .pure _
  | .list items, defined => .bind (trusts_resolveItems items defined) fun _ => .pure _
  | .record fields, defined => .bind (trusts_resolveFields fields defined) fun _ => .pure _
  | .template name fields, defined => by
      obtain ⟨here, below⟩ := List.forall_mem_cons.mp defined
      obtain ⟨prototype, known⟩ := defines_iff.mp here
      exact .bind (trusts_resolveFields fields below) fun _ => .bind (trusts_showNext known _) fun _ => .pure _

theorem trusts_resolveItems : ∀ items : List Datum, (∀ name ∈ selectionsOfItems items, template.defines name = true) →
    Trusts (resolveItems template items)
  | [], _ => .pure _
  | item :: rest, defined => by
      rw [selectionsOfItems, List.forall_mem_append] at defined
      exact .bind (trusts_resolve item defined.2) fun _ => .bind (trusts_resolveItems rest defined.1) fun _ => .pure _

theorem trusts_resolveFields : ∀ fields : List (String × Datum),
    (∀ name ∈ selectionsOfFields fields, template.defines name = true) → Trusts (resolveFields template fields)
  | [], _ => .pure _
  | (_, datum) :: rest, defined => by
      rw [selectionsOfFields, List.forall_mem_append] at defined
      exact .bind (trusts_resolve datum defined.2) fun _ => .bind (trusts_resolveFields rest defined.1) fun _ => .pure _

end

theorem trusts_collect : Trusts collect := by
  intro pass fault pass' raised
  exact trusts_act (.forM (Instance.trusts_discard _) (surplus pass)) { pass with pools := usedPools pass }
    fault pass' raised

theorem trusts_run {name : Option String} {prototype : Template.Prototype} {fields : Fields Datum}
    (known : template.prototype? name = some prototype)
    (defined : ∀ name ∈ selectionsOfFields fields, template.defines name = true) : Trusts (run template name fields) :=
  .bind (trusts_resolveFields fields defined) fun _ => .bind (trusts_showNext known _) fun _ =>
    .bind trusts_collect fun _ => .pure _

end Passing

/-! ## Calls -/

variable {site site' : Site} {host : NodeId} {root : Datum} {fault : Fault}

theorem defined_of_checked {template : Template} {answer : Option String × Fields Datum}
    (checks : checked template root = .ok answer) :
    (∀ name ∈ selections root, template.defines name = true) ∧ rootOf root = .ok answer := by
  rw [checked] at checks
  cases found : (selections root).find? (!template.defines ·) with
  | some name =>
      rw [found] at checks
      cases checks
  | none =>
      rw [found] at checks
      refine ⟨fun name mem => ?_, checks⟩
      simpa using List.find?_eq_none.mp found name mem

/-- A render that refuses its data does so because of the check, and has changed nothing. -/
theorem checked_of_render (refused : Renderer.render root site = .error fault site') (data : fault.OfData) :
    checked site.renderer.template root = .error fault ∧ site' = site := by
  rw [Renderer.render] at refused
  cases checks : checked site.renderer.template root with
  | error early =>
      simp only [checks] at refused
      cases refused
      exact ⟨rfl, rfl⟩
  | ok answer =>
      obtain ⟨selection, fields⟩ := answer
      obtain ⟨defined, rooted⟩ := defined_of_checked checks
      obtain ⟨⟨prototype, known⟩, inner⟩ := defined_of_root defined rooted
      cases ran : Passing.run site.renderer.template selection fields
          ⟨⟨site.document, []⟩, site.renderer.pools, []⟩ with
      | ok nodes pass => simp [checks, ran] at refused
      | error late pass =>
          simp only [checks, ran] at refused
          cases refused
          exact absurd data (Passing.trusts_run known inner _ fault pass ran)

/-- So it is with rendering into a host: placing the nodes raises no doubt about the data. -/
theorem checked_of_renderInto (refused : Renderer.renderInto host root site = .error fault site')
    (data : fault.OfData) : checked site.renderer.template root = .error fault ∧ site' = site := by
  cases shown : Renderer.render root site with
  | error other site₁ =>
      rw [Renderer.renderInto, bind_error shown] at refused
      cases refused
      exact checked_of_render shown data
  | ok nodes site₁ =>
      have later : Trusts (do
          Renderer.act (reconcile (.within host) (← get).renderer.placed nodes)
          modify fun site => { site with renderer := { site.renderer with placed := nodes } } : Rendering Unit) := by
        refine .bind (.of_answers fun site => ⟨site, site, rfl⟩) fun got => .bind (fun site fault site' raised => ?_)
          fun _ => .of_answers fun site => ⟨_, _, rfl⟩
        cases placed : reconcile (.within host) got.renderer.placed nodes ⟨site.document, []⟩ with
        | ok answer stage => simp [Renderer.act, placed] at raised
        | error other stage =>
            simp only [Renderer.act, placed] at raised
            cases raised
            exact trusts_reconcile _ _ _ _ fault stage placed
      rw [Renderer.renderInto, bind_ok shown] at refused
      exact absurd data (later site₁ fault site' refused)

/-- A call that refuses its data has changed nothing. -/
theorem renderInto_refused (refused : Renderer.renderInto host root site = .error fault site') (data : fault.OfData) :
    site' = site :=
  (checked_of_renderInto refused data).2

end Inlay.Render
