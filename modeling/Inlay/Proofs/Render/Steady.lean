/-
# Proofs.Render.Steady — what rendering leaves of a document

A program is `Steady` when the document it leaves is a sequel of the one before,
in both outcomes. All of rendering is steady: it edits a document only by edits
that are safe.

Ids tell nodes apart only as long as generations do not come back. `Within`
states what a program gives under that proviso: if the document it leaves is
within the bound, the program answers and its answer meets the postcondition.
Since steady programs never lower the count of freed nodes, the proviso at the
end of a program covers every point before it (`Within.bind`).
-/
import Inlay.Proofs.Document.Safe
import Inlay.Proofs.Render.Reconcile
import Inlay.Render.Renderer

namespace Inlay.Render

set_option autoImplicit false

open Inlay.Document

section Programs

variable {ε σ α β : Type} (document : σ → Document)

/-- The state a program leaves. -/
def left (e : EStateM ε σ α) (s : σ) : σ :=
  match e s with
  | .ok _ s' => s'
  | .error _ s' => s'

theorem left_ok {e : EStateM ε σ α} {a : α} {s s' : σ} (done : e s = .ok a s') : left e s = s' := by
  simp [left, done]

theorem left_error {e : EStateM ε σ α} {fault : ε} {s s' : σ} (refused : e s = .error fault s') :
    left e s = s' := by
  simp [left, refused]

theorem left_bind {e : EStateM ε σ α} {f : α → EStateM ε σ β} {a : α} {s s' : σ} (done : e s = .ok a s') :
    left (e >>= f) s = left (f a) s' := by
  rw [left, bind_ok done, left]

/-- In both outcomes a program leaves a sequel of the document. -/
def Steady (e : EStateM ε σ α) : Prop :=
  ∀ s, WellFormed (document s) → Sequel (document s) (document (left e s))

/-- No generation came back in the document so far. -/
def Bounded (d : Document) : Prop := d.tally.discarded < generationBound

theorem Bounded.of_aged {d d' : Document} (bounded : Bounded d') (aged : Aged d d') : Bounded d :=
  Nat.lt_of_le_of_lt aged.discarded_le bounded

/-- Unless generations came back, the program answers as the postcondition says. -/
def Within (e : EStateM ε σ α) (s : σ) (post : α → σ → Prop) : Prop :=
  Bounded (document (left e s)) → ∃ a s', e s = .ok a s' ∧ post a s'

variable {document}

namespace Steady

theorem of_same {e : EStateM ε σ α} (same : ∀ s, document (left e s) = document s) :
    Steady document e := fun s wf => by
  rw [same]
  exact .refl wf

theorem pure (a : α) : Steady document (Pure.pure a : EStateM ε σ α) := of_same fun _ => rfl

theorem throw (fault : ε) : Steady document (throw fault : EStateM ε σ α) := of_same fun _ => rfl

theorem bind {e : EStateM ε σ α} {f : α → EStateM ε σ β} (first : Steady document e)
    (rest : ∀ a, Steady document (f a)) : Steady document (e >>= f) := by
  intro s wf
  have sequel := first s wf
  cases done : e s with
  | ok a s' =>
      rw [left_ok done] at sequel
      rw [left_bind done]
      exact sequel.trans (rest a s' sequel.wellFormed)
  | error fault s' =>
      rw [left_error done] at sequel
      rw [left_error (bind_error done)]
      exact sequel

theorem forM {f : α → EStateM ε σ PUnit} (each : ∀ a, Steady document (f a)) :
    ∀ list : List α, Steady document (list.forM f)
  | [] => pure _
  | a :: rest => bind (each a) fun _ => forM each rest

end Steady

namespace Within

variable {e : EStateM ε σ α} {s s' : σ} {a : α} {post post' : α → σ → Prop}

theorem of_ok (done : e s = .ok a s') (meets : Bounded (document s') → post a s') :
    Within document e s post := by
  intro bounded
  rw [left_ok done] at bounded
  exact ⟨a, s', done, meets bounded⟩

theorem mono (within : Within document e s post) (weaker : ∀ a s', post a s' → post' a s') :
    Within document e s post' := by
  intro bounded
  obtain ⟨a, s', done, meets⟩ := within bounded
  exact ⟨a, s', done, weaker a s' meets⟩

theorem bind {f : α → EStateM ε σ β} {post : β → σ → Prop} (steady : Steady document e)
    (wf : WellFormed (document s)) (rest : ∀ a, Steady document (f a))
    (within : Within document e s fun a s' => Within document (f a) s' post) :
    Within document (e >>= f) s post := by
  intro bounded
  have sequel := steady s wf
  cases done : e s with
  | ok a s' =>
      rw [left_ok done] at sequel
      rw [left_bind done] at bounded
      have here := bounded.of_aged (rest a s' sequel.wellFormed).aged
      obtain ⟨a', s'', done', later⟩ := within (by rwa [left_ok done])
      rw [done] at done'
      cases done'
      obtain ⟨b, s₂, last, meets⟩ := later bounded
      exact ⟨b, s₂, by rw [bind_ok done, last], meets⟩
  | error fault s' =>
      rw [left_error (bind_error done)] at bounded
      obtain ⟨a, s'', done', -⟩ := within (by rwa [left_error done])
      rw [done] at done'
      cases done'

end Within

end Programs

/-! ## Acts -/

namespace Act

variable {α : Type}

abbrev Steady (a : Act α) : Prop := Render.Steady Stage.document a

theorem steady_edit {e : Edit α} (safe : Safe e) : Act.Steady (edit e) := by
  intro stage wf
  have sequel := safe stage.document wf
  cases done : e stage.document <;> simpa [left, edit, Edit.after, done] using sequel

theorem steady_ask (f : Document → α) : Act.Steady (ask f) := .of_same fun _ => rfl

theorem steady_isClaimed (node : NodeId) : Act.Steady (isClaimed node) := .of_same fun _ => rfl

theorem steady_claim (node : NodeId) : Act.Steady (claim node) := .of_same fun _ => rfl

theorem steady_remove (node : NodeId) : Act.Steady (edit (Document.remove node)) :=
  steady_edit (Safe.remove node)

theorem steady_discard (node : NodeId) : Act.Steady (edit (Document.discard node)) :=
  steady_edit (Safe.discard node)

end Act

open Act

theorem steady_detachOld (next : List NodeId) : ∀ previous, Act.Steady (detachOld next previous)
  | [] => .pure _
  | node :: rest => by
      refine .bind (steady_isClaimed node) fun claimed => .bind (steady_ask _) fun alive => ?_
      split
      · exact .bind (steady_remove node) fun _ => steady_detachOld next rest
      · exact steady_detachOld next rest

theorem steady_detachPlaced (node : NodeId) : Act.Steady (detachPlaced node) := by
  refine .bind (steady_ask _) fun up => ?_
  split
  · exact steady_remove node
  · exact .pure _

theorem steady_placeOne (parent : NodeId) (cursor : Option NodeId) (node : NodeId) :
    Act.Steady (placeOne parent cursor node) := by
  refine .bind (steady_ask _) fun here => ?_
  split
  · exact steady_edit (Safe.insertBefore parent node here)
  · exact .pure _

theorem steady_placeIn (parent : NodeId) : ∀ cursor next, Act.Steady (placeIn parent cursor next)
  | _, [] => .pure _
  | cursor, node :: rest => .bind (steady_claim node) fun _ =>
      .bind (steady_placeOne parent cursor node) fun _ => steady_placeIn parent (some node) rest

theorem steady_placeNowhere : ∀ next, Act.Steady (placeNowhere next)
  | [] => .pure _
  | node :: rest => .bind (steady_claim node) fun _ =>
      .bind (steady_detachPlaced node) fun _ => steady_placeNowhere rest

theorem steady_reconcile (position : Position) (previous next : List NodeId) :
    Act.Steady (reconcile position previous next) := by
  refine .bind (steady_detachOld next previous) fun _ => .bind (steady_ask _) fun up => ?_
  cases up with
  | none => exact steady_placeNowhere next
  | some parent => exact steady_placeIn parent _ next

namespace Anchor

theorem steady_unwrap (fragment : NodeId) : Act.Steady (unwrap fragment) :=
  .bind (steady_ask _) fun nodes => .bind (.forM steady_remove nodes) fun _ =>
    .bind (steady_discard fragment) fun _ => .pure _

theorem steady_makeText (content : String) : Act.Steady (makeText content) :=
  .bind (steady_edit (Safe.create _)) fun _ => .pure _

theorem steady_make : ∀ key, Act.Steady (make key)
  | .text content => steady_makeText content
  | .markup source => by
      refine .bind (steady_edit (Safe.parse source)) fun found => ?_
      cases found with
      | ok fragment => exact steady_unwrap fragment
      | error fault => exact steady_makeText source

theorem steady_layOut : ∀ items unused, Act.Steady (layOut items unused)
  | [], unused => .pure _
  | .nodes ids :: rest, unused => .bind (steady_layOut rest unused) fun _ => .pure _
  | .made key :: rest, unused => by
      unfold layOut
      have others : ∀ nodes unused, Act.Steady (do
          let others ← layOut rest unused
          return ⟨nodes ++ others.nodes, ⟨key, nodes⟩ :: others.made, others.unused⟩ : Act Layout) :=
        fun nodes unused => .bind (steady_layOut rest unused) fun _ => .pure _
      cases takeMade key unused with
      | some found => exact .bind (.pure found) fun taken => others taken.1 taken.2
      | none => exact .bind (steady_make key) fun nodes => .bind (.pure (nodes, unused)) fun taken =>
          others taken.1 taken.2

theorem steady_discardUnclaimed : ∀ nodes, Act.Steady (discardUnclaimed nodes)
  | [] => .pure _
  | node :: rest => by
      refine .bind (steady_isClaimed node) fun claimed => .bind (steady_ask _) fun alive => ?_
      split
      · exact .bind (steady_discard node) fun _ => steady_discardUnclaimed rest
      · exact steady_discardUnclaimed rest

theorem steady_update (value : Option Value) (anchor : Anchor) : Act.Steady (anchor.update value) :=
  .bind (steady_layOut _ _) fun _ => .bind (steady_reconcile _ _ _) fun _ =>
    .bind (steady_discardUnclaimed _) fun _ => .pure _

end Anchor

namespace Slot

theorem steady_putOrRemove (element : NodeId) (name : String) : ∀ text,
    Act.Steady (putOrRemove element name text)
  | some value => steady_edit (Safe.setAttribute element name value)
  | none => steady_edit (Safe.removeAttribute element name)

theorem steady_follow (element : NodeId) (text : Option String) : ∀ property,
    Act.Steady (follow element text property)
  | none => .pure _
  | some _ => .bind (steady_edit (Safe.setProperty element _ _)) fun _ => .pure _

theorem steady_write (context : Value) : ∀ slot : Slot, Act.Steady (slot.write context)
  | .text node _ => .bind (steady_edit (Safe.setText node _)) fun _ => .pure _
  | .textareaValue element _ =>
      .bind (steady_edit (Safe.setProperty element _ _)) fun _ => .pure _
  | .attribute element name _ property =>
      .bind (.bind (steady_putOrRemove element name _) fun _ => steady_follow element _ property)
        fun _ => .pure _
  | .anchor _ a => .bind (a.steady_update _) fun _ => .pure _

/-- Writing slots leaves a sequel, also when it stops at a fault. -/
theorem sequel_writeAll (context : Value) : ∀ (slots : List Slot) {stage : Stage},
    WellFormed stage.document →
    Sequel stage.document (writeAll context slots stage).2.document
  | [], _, wf => .refl wf
  | slot :: rest, stage, wf => by
      have sequel := steady_write context slot stage wf
      cases done : slot.write context stage with
      | ok slot' stage' =>
          rw [left_ok done] at sequel
          simp only [writeAll, done]
          exact sequel.trans (sequel_writeAll context rest sequel.wellFormed)
      | error fault stage' =>
          rw [left_error done] at sequel
          simp only [writeAll, done]
          exact sequel

end Slot

namespace Instance

theorem steady_ofPrototype (prototype : Template.Prototype) :
    Act.Steady (ofPrototype prototype) := by
  refine .bind (steady_edit ?_) fun fragment => .bind (steady_ask _) fun tops =>
    .bind (steady_ask _) fun bound => ?_
  · exact Safe.plantLikeness (.inl prototype.content)
  · cases bound with
    | ok slots => exact .pure _
    | error fault => exact .throw _

theorem steady_discardNode (survivors : List NodeId) (node : NodeId) :
    Act.Steady (discardNode survivors node) := by
  refine .bind (steady_ask _) fun alive => ?_
  split
  · exact .bind (steady_ask _) fun rescued => .bind (.forM steady_remove rescued) fun _ =>
      steady_discard node
  · exact .pure _

theorem steady_discard (survivors : List NodeId) (inst : Instance) :
    Act.Steady (inst.discard survivors) := by
  refine .bind (.forM (steady_discardNode survivors) _) fun _ => .bind (steady_ask _) fun alive => ?_
  split
  · exact Act.steady_discard _
  · exact .pure _

end Instance

/-! ## Passes -/

namespace Passing

variable {α : Type}

abbrev Steady (p : Passing α) : Prop := Render.Steady (fun pass : Pass => pass.stage.document) p

theorem steady_act {a : Act α} (steady : Act.Steady a) : Passing.Steady (act a) := by
  intro pass wf
  have sequel := steady pass.stage wf
  cases done : a pass.stage <;> simpa [left, act, done] using sequel

theorem steady_nextOrdinal (name : String) : Passing.Steady (nextOrdinal name) :=
  .of_same fun _ => rfl

theorem steady_pool (name : String) : Passing.Steady (pool name) := .of_same fun _ => rfl

theorem steady_setPool (name : String) (instances : List Instance) :
    Passing.Steady (setPool name instances) := .of_same fun _ => rfl

theorem steady_instanceAt (prototype : Template.Prototype) (name : String) (ordinal : Nat) :
    Passing.Steady (instanceAt prototype name ordinal) := by
  refine .bind (steady_pool name) fun instances => ?_
  split
  · exact .pure _
  · exact .bind (steady_act (Instance.steady_ofPrototype prototype)) fun inst =>
      .bind (steady_pool name) fun _ => .bind (steady_setPool name _) fun _ => .pure _

theorem left_updateAt (name : String) (ordinal : Nat) (context : Value) (inst : Instance) (pass : Pass) :
    (left (updateAt name ordinal context inst) pass).stage = (Slot.writeAll context inst.slots pass.stage).2 := by
  simp only [left, updateAt, Instance.update]
  cases (Slot.writeAll context inst.slots pass.stage).1.1 <;> rfl

theorem steady_updateAt (name : String) (ordinal : Nat) (context : Value) (inst : Instance) :
    Passing.Steady (updateAt name ordinal context inst) := by
  intro pass wf
  show Sequel pass.stage.document (left (updateAt name ordinal context inst) pass).stage.document
  rw [left_updateAt]
  exact Slot.sequel_writeAll context inst.slots wf

theorem steady_showNext (template : Template) (name : Option String) (context : Value) :
    Passing.Steady (showNext template name context) := by
  refine .bind (steady_nextOrdinal _) fun ordinal => ?_
  cases selected template name with
  | error fault => exact .throw _
  | ok prototype =>
      exact .bind (steady_instanceAt prototype _ ordinal) fun inst => steady_updateAt _ _ _ inst

mutual

theorem steady_resolve (template : Template) : ∀ datum, Passing.Steady (resolve template datum)
  | .null => .pure _
  | .bool _ => .pure _
  | .number _ => .pure _
  | .text _ => .pure _
  | .list items => .bind (steady_resolveItems template items) fun _ => .pure _
  | .record fields => .bind (steady_resolveFields template fields) fun _ => .pure _
  | .template _ fields => .bind (steady_resolveFields template fields) fun _ =>
      .bind (steady_showNext template _ _) fun _ => .pure _

theorem steady_resolveItems (template : Template) : ∀ items,
    Passing.Steady (resolveItems template items)
  | [] => .pure _
  | item :: rest => .bind (steady_resolve template item) fun _ =>
      .bind (steady_resolveItems template rest) fun _ => .pure _

theorem steady_resolveFields (template : Template) : ∀ fields,
    Passing.Steady (resolveFields template fields)
  | [] => .pure _
  | (_, datum) :: rest => .bind (steady_resolve template datum) fun _ =>
      .bind (steady_resolveFields template rest) fun _ => .pure _

end

theorem steady_collect : Passing.Steady collect := by
  intro pass wf
  exact steady_act (.forM (Instance.steady_discard _) (surplus pass))
    { pass with pools := usedPools pass } wf

theorem steady_run (template : Template) (name : Option String) (fields : Fields Datum) :
    Passing.Steady (run template name fields) :=
  .bind (steady_resolveFields template fields) fun _ => .bind (steady_showNext template _ _) fun _ =>
    .bind steady_collect fun _ => .pure _

end Passing

/-! ## Renderers -/

namespace Renderer

abbrev Steady {α : Type} (r : Rendering α) : Prop := Render.Steady Site.document r

theorem steady_act {α : Type} {a : Act α} (steady : Act.Steady a) : Renderer.Steady (act a) := by
  intro site wf
  have sequel := steady ⟨site.document, []⟩ wf
  cases done : a ⟨site.document, []⟩ <;> simpa [left, act, done] using sequel

theorem steady_render (root : Datum) : Renderer.Steady (render root) := by
  intro site wf
  simp only [left, render]
  cases checked site.renderer.template root with
  | error fault => exact .refl wf
  | ok selected =>
      have sequel := Passing.steady_run site.renderer.template selected.1 selected.2
        ⟨⟨site.document, []⟩, site.renderer.pools, []⟩ wf
      cases done : Passing.run site.renderer.template selected.1 selected.2
        ⟨⟨site.document, []⟩, site.renderer.pools, []⟩ <;> simpa [left, done, after] using sequel

theorem steady_renderInto (host : NodeId) (root : Datum) :
    Renderer.Steady (renderInto host root) :=
  .bind (steady_render root) fun nodes => .bind (.of_same fun _ => rfl) fun _ =>
    .bind (steady_act (steady_reconcile _ _ nodes)) fun _ => .of_same fun _ => rfl

theorem steady_clear : Renderer.Steady clear :=
  .bind (.of_same fun _ => rfl) fun _ => .bind (.of_same fun _ => rfl) fun _ =>
    .bind (steady_act (.forM (Instance.steady_discard []) _)) fun _ => .of_same fun _ => rfl

end Renderer

end Inlay.Render
