/-
# Proofs.Render.Calm — programs that neither make nor free a node

A program is `Calm` when the document it leaves, in both outcomes, has the same
slots in use as the one before. Writing and moving are calm; only making what is
shown and discarding it are not. No invariant of the document is needed for it.

The HTML of a node depends on the lists of children and on the content of nodes,
live properties aside (`innerMarkup_congr`).
-/
import Inlay.Proofs.Document.Write
import Inlay.Proofs.Render.Steady

namespace Inlay.Render

set_option autoImplicit false

open Inlay.Document Inlay.Markup

section Programs

variable {ε σ α β : Type}

/-- In both outcomes a program leaves the slots of the document as they are. -/
def Calm (document : σ → Document) (e : EStateM ε σ α) : Prop :=
  ∀ s, SameSlots (document s) (document (left e s))

variable {document : σ → Document}

namespace Calm

theorem of_same {e : EStateM ε σ α} (same : ∀ s, document (left e s) = document s) : Calm document e :=
  fun s => by
    rw [same]
    exact .refl _

theorem pure (a : α) : Calm document (Pure.pure a : EStateM ε σ α) := of_same fun _ => rfl

theorem bind {e : EStateM ε σ α} {f : α → EStateM ε σ β} (first : Calm document e)
    (rest : ∀ a, Calm document (f a)) : Calm document (e >>= f) := by
  intro s
  have here := first s
  cases done : e s with
  | ok a s' =>
      rw [left_ok done] at here
      rw [left_bind done]
      exact here.trans (rest a s')
  | error fault s' =>
      rw [left_error done] at here
      rw [left_error (bind_error done)]
      exact here

theorem of_ok {e : EStateM ε σ α} {a : α} {s s' : σ} (calm : Calm document e) (done : e s = .ok a s') :
    SameSlots (document s) (document s') := by
  have here := calm s
  rwa [left_ok done] at here

end Calm

end Programs

/-! ## Edits -/

namespace Edit

variable {α β : Type}

abbrev Calm (e : Document.Edit α) : Prop := Render.Calm (fun d : Document => d) e

theorem calm_ask (f : Document → α) : Edit.Calm (Document.Edit.ask f) := .of_same fun _ => rfl

theorem calm_require (check : Document → Except Document.Fault α) : Edit.Calm (Document.Edit.require check) := by
  refine .of_same fun d => ?_
  simp only [left, Document.Edit.require]
  cases check d <;> rfl

theorem calm_checked {check : Document → Except Document.Fault α} {f : α → Document → β × Document}
    (each : ∀ a d, SameSlots d (f a d).2) : Edit.Calm (Document.Edit.checked check f) := by
  intro d
  simp only [left, Document.Edit.checked]
  cases check d with
  | error fault => exact .refl d
  | ok a => exact each a d

theorem calm_always {f : Document → α × Document} (each : ∀ d, SameSlots d (f d).2) :
    Edit.Calm (Document.Edit.always f) :=
  each

theorem calm_change (id : NodeId) (f : Node → Node) : Edit.Calm (change id f) :=
  calm_checked fun _ _ => sameSlots_modify id f

theorem calm_linkForth (parent : NodeId) (previous next : Option NodeId) :
    Edit.Calm (linkForth parent previous next) := by
  cases previous <;> exact calm_change _ _

theorem calm_linkBack (parent : NodeId) (previous next : Option NodeId) :
    Edit.Calm (linkBack parent previous next) := by
  cases next <;> exact calm_change _ _

theorem calm_unlink (node : NodeId) : Edit.Calm (unlink node) := by
  refine .bind (calm_require _) fun n => ?_
  cases n.parent with
  | none => exact .pure _
  | some parent =>
      refine .bind (calm_ask _) fun connected => .bind (calm_linkForth _ _ _) fun _ =>
        .bind (calm_linkBack _ _ _) fun _ => .bind (calm_change _ _) fun _ => calm_always fun d => ?_
      exact sameSlots_report _ _ (fun _ => rfl) fun _ => rfl

theorem calm_link (parent node : NodeId) (reference : Option NodeId) :
    Edit.Calm (link parent node reference) :=
  .bind (calm_require _) fun _ => .bind (calm_change _ _) fun _ => .bind (calm_linkForth _ _ _) fun _ =>
    calm_linkBack _ _ _

theorem calm_move (parent node : NodeId) (reference : Option NodeId) :
    Edit.Calm (move parent node reference) := by
  refine .bind (calm_ask _) fun reference => .bind (calm_unlink node) fun _ =>
    .bind (calm_link _ _ _) fun _ => .bind (calm_ask _) fun connected => calm_always fun d => ?_
  exact sameSlots_report _ _ (fun _ => rfl) fun _ => rfl

theorem calm_insertNode (parent node : NodeId) (reference : Option NodeId) :
    Edit.Calm (insertNode parent node reference) :=
  .bind (calm_require _) fun _ => calm_move _ _ _

theorem calm_insertNodes (parent : NodeId) (reference : Option NodeId) :
    ∀ nodes, Edit.Calm (insertNodes parent reference nodes)
  | [] => .pure _
  | node :: rest => .bind (calm_insertNode _ node _) fun _ => calm_insertNodes parent reference rest

theorem calm_insertBefore (parent node : NodeId) (reference : Option NodeId) :
    Edit.Calm (insertBefore parent node reference) :=
  .bind (calm_require _) fun nodes => calm_insertNodes _ _ nodes

theorem calm_remove (node : NodeId) : Edit.Calm (remove node) :=
  .bind (calm_require _) fun _ => calm_unlink node

theorem calm_setProperty (id : NodeId) (name : String) (value : Property) :
    Edit.Calm (setProperty id name value) := by
  refine calm_checked fun _ d => ?_
  have written := sameSlots_modify (d := d) id
    (withElement fun e => { e with properties := e.properties.put name value })
  dsimp only
  split
  · exact written
  · exact written.trans (sameSlots_report _ _ (fun _ => rfl) fun _ => rfl)

end Edit

/-! ## Acts -/

namespace Act

variable {α : Type}

abbrev Calm (a : Act α) : Prop := Render.Calm Stage.document a

theorem calm_edit {e : Document.Edit α} (calm : Edit.Calm e) : Act.Calm (edit e) := by
  intro stage
  have here := calm stage.document
  cases done : e stage.document <;> simpa [left, edit, done] using here

theorem calm_ask (f : Document → α) : Act.Calm (ask f) := .of_same fun _ => rfl

theorem calm_isClaimed (node : NodeId) : Act.Calm (isClaimed node) := .of_same fun _ => rfl

theorem calm_claim (node : NodeId) : Act.Calm (claim node) := .of_same fun _ => rfl

end Act

theorem calm_detachOld (next : List NodeId) : ∀ previous, Act.Calm (detachOld next previous)
  | [] => .pure _
  | node :: rest => by
      refine .bind (Act.calm_isClaimed node) fun claimed => .bind (Act.calm_ask _) fun alive => ?_
      dsimp only
      split
      · exact .bind (Act.calm_edit (Edit.calm_remove node)) fun _ => calm_detachOld next rest
      · exact calm_detachOld next rest

theorem calm_detachPlaced (node : NodeId) : Act.Calm (detachPlaced node) := by
  refine .bind (Act.calm_ask _) fun parent => ?_
  split
  · exact Act.calm_edit (Edit.calm_remove node)
  · exact .pure _

theorem calm_placeOne (parent : NodeId) (cursor : Option NodeId) (node : NodeId) :
    Act.Calm (placeOne parent cursor node) := by
  refine .bind (Act.calm_ask _) fun here => ?_
  split
  · exact Act.calm_edit (Edit.calm_insertBefore _ _ _)
  · exact .pure _

theorem calm_placeIn (parent : NodeId) : ∀ next cursor, Act.Calm (placeIn parent cursor next)
  | [], _ => .pure _
  | node :: rest, cursor => .bind (Act.calm_claim node) fun _ => .bind (calm_placeOne parent cursor node) fun _ =>
      calm_placeIn parent rest (some node)

theorem calm_placeNowhere : ∀ next, Act.Calm (placeNowhere next)
  | [] => .pure _
  | node :: rest => .bind (Act.calm_claim node) fun _ => .bind (calm_detachPlaced node) fun _ =>
      calm_placeNowhere rest

/-- Reconciling neither makes nor frees a node. -/
theorem calm_reconcile (position : Position) (previous next : List NodeId) :
    Act.Calm (reconcile position previous next) := by
  refine .bind (calm_detachOld next previous) fun _ => .bind (Act.calm_ask _) fun parent => ?_
  cases parent with
  | some parent => exact calm_placeIn parent next _
  | none => exact calm_placeNowhere next

/-! ## The HTML of a node -/

/-- A content without live properties. -/
def bareContent : Content → Content
  | .element e => .element (.plain e.tag e.attributes)
  | content => content

/-- The two documents differ in live properties only, as far as contents go. -/
def SameBare (d d' : Document) : Prop :=
  ∀ x, (d'.content? x).map bareContent = (d.content? x).map bareContent

section Bare

variable {d d' d'' : Document} {id x : NodeId}

namespace SameBare

theorem refl (d : Document) : SameBare d d := fun _ => rfl

theorem trans (first : SameBare d d') (second : SameBare d' d'') : SameBare d d'' := fun x =>
  (second x).trans (first x)

theorem of_content (same : d'.content? = d.content?) : SameBare d d' := fun x => by rw [same]

theorem element (same : SameBare d d') {e : Element} (found : d.content? x = some (.element e)) :
    ∃ e', d'.content? x = some (.element e') ∧ e'.tag = e.tag ∧ e'.attributes = e.attributes := by
  have here := same x
  rw [found, Option.map_some] at here
  obtain ⟨c, now, bare⟩ := Option.map_eq_some_iff.mp here
  cases c with
  | element e' =>
      simp only [bareContent, Element.plain, Content.element.injEq, Element.mk.injEq, and_true] at bare
      exact ⟨e', now, bare.1, bare.2⟩
  | text data => cases bare
  | comment data => cases bare
  | fragment => cases bare

end SameBare

theorem treeWithin_congr (bare : SameBare d d') (kids : d'.children = d.children) :
    ∀ (fuel : Nat) (x : NodeId), d'.treeWithin fuel x = d.treeWithin fuel x
  | 0, _ => rfl
  | fuel + 1, x => by
      have here := bare x
      have inner : d'.treeWithin fuel = d.treeWithin fuel := funext (treeWithin_congr bare kids fuel)
      simp only [content?, Option.map_map] at here
      cases now : d'.get? x with
      | none =>
          rw [now, Option.map_none, eq_comm, Option.map_eq_none_iff] at here
          simp only [treeWithin, now, here]
      | some n' =>
          rw [now, Option.map_some, eq_comm] at here
          obtain ⟨n, before, same⟩ := Option.map_eq_some_iff.mp here
          simp only [treeWithin, now, before, kids, inner]
          simp only [Function.comp_apply] at same
          cases new : n'.content <;> cases old : n.content <;>
            simp_all [bareContent, Element.plain]

theorem tag?_congr (bare : SameBare d d') (x : NodeId) : d'.tag? x = d.tag? x := by
  have here := bare x
  simp only [tag?, element?]
  cases now : d'.content? x with
  | none =>
      rw [now, Option.map_none, eq_comm, Option.map_eq_none_iff] at here
      simp [here]
  | some c' =>
      rw [now, Option.map_some, eq_comm] at here
      obtain ⟨c, before, same⟩ := Option.map_eq_some_iff.mp here
      rw [before]
      cases c' <;> cases c <;> simp_all [bareContent, Element.plain]

/-- Documents with the same slots, the same children and the same contents but
for live properties have the same HTML. -/
theorem innerMarkup_congr (slots : SameSlots d d') (bare : SameBare d d') (kids : d'.children = d.children)
    (x : NodeId) : d'.innerMarkup x = d.innerMarkup x := by
  have trees : d'.tree? = d.tree? := by
    funext y
    rw [tree?, tree?, slots.size]
    exact treeWithin_congr bare kids _ y
  simp only [innerMarkup, childMarkup, forest, trees, kids, tag?_congr bare x]

end Bare

end Inlay.Render
