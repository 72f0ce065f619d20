/-
# Proofs.Document.Safe — no edit leaves a broken document

An edit is `Safe` when the document it leaves is a `Sequel` of the one before:
well formed if that was, and no node that was freed is alive in it. It is so
whether the edit gives an answer or is refused, and whatever ids it is given.
Edits made of safe ones are safe (`Safe.bind`, `Safe.tryCatch`); planting is not
safe by itself, since it links into a parent that it does not check, but nothing
that plants gives it another parent than a node it has just made.
-/
import Inlay.Proofs.Document.Planting
import Inlay.Proofs.Document.Write
import Inlay.Document.Markup

namespace Inlay.Document

set_option autoImplicit false

open Inlay.Markup

variable {α β : Type} {d : Document} {id node parent : NodeId} {reference : Option NodeId}

/-- The document an edit leaves. -/
def Edit.after (e : Edit α) (d : Document) : Document :=
  match e d with
  | .ok _ d' => d'
  | .error _ d' => d'

/-- A document that another one may have become. -/
structure Sequel (d d' : Document) : Prop where
  wellFormed : WellFormed d'
  aged : Aged d d'

namespace Sequel

variable {d' d'' : Document}

theorem refl (wf : WellFormed d) : Sequel d d := ⟨wf, .refl d⟩

theorem trans (first : Sequel d d') (second : Sequel d' d'') : Sequel d d'' :=
  ⟨second.wellFormed, first.aged.trans second.aged⟩

theorem of_becomes {content : NodeId → Option Content} {children : NodeId → List NodeId}
    (becomes : Becomes d d' content children) : Sequel d d' := ⟨becomes.wellFormed, becomes.aged⟩

end Sequel

/-- A safe edit leaves a sequel of a well-formed document, whether it gives an
answer or is refused. -/
def Safe (e : Edit α) : Prop := ∀ d, WellFormed d → Sequel d (e.after d)

namespace Edit

theorem after_ok {e : Edit α} {a : α} {d d' : Document} (done : e d = .ok a d') : e.after d = d' := by
  simp [after, done]

theorem after_error {e : Edit α} {fault : Fault} {d d' : Document} (refused : e d = .error fault d') :
    e.after d = d' := by
  simp [after, refused]

/-- An answer comes from an answer of the first edit. -/
theorem of_bind_ok {e : Edit α} {f : α → Edit β} {b : β} {d d'' : Document} (done : (e >>= f) d = .ok b d'') :
    ∃ a d', e d = .ok a d' ∧ f a d' = .ok b d'' := by
  cases first : e d with
  | ok a d' =>
      rw [bind_ok first] at done
      exact ⟨a, d', rfl, done⟩
  | error fault d' =>
      rw [bind_error first] at done
      cases done

theorem of_require_ok {check : Document → Except Fault α} {a : α} {d d' : Document} (done : require check d = .ok a d') :
    check d = .ok a ∧ d' = d := by
  cases found : check d with
  | error fault =>
      rw [require_error found] at done
      cases done
  | ok b =>
      rw [require_ok found] at done
      cases done
      exact ⟨rfl, rfl⟩

end Edit

/-- What an insertion has checked before anything moves. -/
theorem admits_of_check {nodes : List NodeId} (check : (do
    d.admits parent reference
    let _ ← d.live node
    return d.carried node) = .ok nodes) : d.admits parent reference = .ok () ∧ nodes = d.carried node := by
  cases admits : d.admits parent reference with
  | error fault => simp [admits, bind, Except.bind] at check
  | ok =>
      cases found : d.live node with
      | error fault => simp [admits, found, bind, Except.bind] at check
      | ok n =>
          simp [admits, found, bind, Except.bind, pure, Except.pure] at check
          exact ⟨rfl, check.symm⟩

/-- An insertion is refused, and nothing is changed, or moves what it carries. -/
theorem insertBefore_split (parent node : NodeId) (reference : Option NodeId) (d : Document) :
    (∃ fault, insertBefore parent node reference d = .error fault d) ∨
      insertBefore parent node reference d = insertNodes parent reference (d.carried node) d := by
  cases check : (do
      d.admits parent reference
      let _ ← d.live node
      return d.carried node : Except Fault (List NodeId)) with
  | error fault => exact .inl ⟨fault, by rw [insertBefore, Edit.bind_error (Edit.require_error check)]⟩
  | ok nodes =>
      right
      rw [insertBefore, Edit.bind_ok (Edit.require_ok check), (admits_of_check check).2]

namespace Safe

theorem pure (a : α) : Safe (Pure.pure a : Edit α) := fun _ wf => .refl wf

theorem bind {e : Edit α} {f : α → Edit β} (first : Safe e) (rest : ∀ a, Safe (f a)) :
    Safe (e >>= f) := by
  intro d wf
  have sequel := first d wf
  cases done : e d with
  | ok a d' =>
      rw [Edit.after_ok done] at sequel
      rw [Edit.after, Edit.bind_ok done]
      exact sequel.trans (rest a d' sequel.wellFormed)
  | error fault d' =>
      rw [Edit.after_error done] at sequel
      rw [Edit.after_error (Edit.bind_error done)]
      exact sequel

theorem throw (fault : Fault) : Safe (MonadExcept.throw fault : Edit α) := fun _ wf => .refl wf

theorem tryCatch {e : Edit α} {handler : Fault → Edit α} (first : Safe e)
    (rest : ∀ fault, Safe (handler fault)) : Safe (MonadExcept.tryCatch e handler) := by
  intro d wf
  have sequel := first d wf
  cases done : e d with
  | ok a d' =>
      have kept : MonadExcept.tryCatch e handler d = .ok a d' := by
        simp [MonadExcept.tryCatch, tryCatchThe, MonadExceptOf.tryCatch, EStateM.tryCatch, done]
      rw [Edit.after_ok done] at sequel
      rw [Edit.after_ok kept]
      exact sequel
  | error fault d' =>
      have handled : MonadExcept.tryCatch e handler d = handler fault d' := by
        simp only [MonadExcept.tryCatch, tryCatchThe, MonadExceptOf.tryCatch, EStateM.tryCatch, done]
        rfl
      rw [Edit.after_error done] at sequel
      rw [Edit.after, handled]
      exact sequel.trans (rest fault d' sequel.wellFormed)

theorem require (check : Document → Except Fault α) : Safe (Edit.require check) := by
  intro d wf
  cases found : check d <;> simpa [Edit.after, Edit.require, found] using Sequel.refl wf

theorem create (content : Content) : Safe (Edit.always (Document.create content)) := fun _ wf =>
  .of_becomes (create_becomes wf content).2

/-! ## Moving and removing -/

theorem insertNodes (parent : NodeId) (reference : Option NodeId) :
    ∀ (nodes : List NodeId) {d : Document}, WellFormed d →
      (∀ n ∈ nodes, d.content? n ≠ some .fragment) →
      Sequel d ((Document.insertNodes parent reference nodes).after d)
  | [], _, wf, _ => .refl wf
  | node :: rest, d, wf, solid => by
      rcases insertNode_cases wf parent reference
        (solid node (by simp)) with ⟨fault, refused⟩ | ⟨d', done, becomes⟩
      · rw [Document.insertNodes, Edit.after_error (Edit.bind_error refused)]
        exact .refl wf
      · rw [Document.insertNodes, Edit.after, Edit.bind_ok done]
        refine (Sequel.of_becomes becomes).trans
          (insertNodes parent reference rest becomes.wellFormed fun n mem => ?_)
        rw [becomes.content]
        exact solid n (by simp [mem])

/-- The nodes an insertion moves are no fragments. -/
theorem carried_solid (wf : WellFormed d) : ∀ n ∈ d.carried node, d.content? n ≠ some .fragment := by
  intro n mem fragment
  unfold carried at mem
  split at mem
  · have up := wf.parent_iff.mpr mem
    rw [wf.linked.placeable n fragment] at up
    cases up
  · next solid =>
      rw [List.mem_singleton] at mem
      simp [isFragment, ← mem, fragment] at solid

theorem insertBefore (parent node : NodeId) (reference : Option NodeId) :
    Safe (Document.insertBefore parent node reference) := by
  intro d wf
  rcases insertBefore_split parent node reference d with ⟨fault, refused⟩ | same
  · rw [Edit.after_error refused]
    exact .refl wf
  · rw [Edit.after, same]
    exact insertNodes parent reference _ wf (carried_solid wf)

theorem append (parent node : NodeId) : Safe (Document.append parent node) :=
  insertBefore parent node none

theorem remove (node : NodeId) : Safe (Document.remove node) := by
  intro d wf
  rcases remove_cases wf node with ⟨fault, refused⟩ | ⟨d', done, live, inner⟩
  · rw [Edit.after_error refused]
    exact .refl wf
  · obtain ⟨d'', done', becomes⟩ := remove_becomes wf live inner
    rw [Edit.after_ok done']
    exact .of_becomes becomes

theorem discard (node : NodeId) : Safe (Document.discard node) := by
  intro d wf
  rcases remove_cases wf node with ⟨fault, refused⟩ | ⟨d', done, live, inner⟩
  · rw [Document.discard, Edit.after_error (Edit.bind_error refused)]
    exact .refl wf
  · obtain ⟨d'', done', becomes⟩ := discard_becomes wf live inner
    rw [Edit.after_ok done']
    exact .of_becomes becomes

/-! ## Writing -/

theorem setText (id : NodeId) (value : String) : Safe (Document.setText id value) := by
  intro d wf
  cases data : d.liveData id with
  | error fault => simpa [Edit.after, Document.setText, Edit.checked, data] using Sequel.refl wf
  | ok old =>
      rcases content_of_liveData data with found | found
      · obtain ⟨changed, d', done, becomes⟩ := setText_text wf found value
        exact Edit.after_ok done ▸ .of_becomes becomes
      · obtain ⟨changed, d', done, becomes⟩ := setText_comment wf found value
        exact Edit.after_ok done ▸ .of_becomes becomes

theorem setAttribute (id : NodeId) (name value : String) :
    Safe (Document.setAttribute id name value) := by
  intro d wf
  cases element : d.liveElement id with
  | error fault => simpa [Edit.after, Document.setAttribute, Edit.checked, element] using Sequel.refl wf
  | ok e =>
      obtain ⟨changed, d', done, becomes⟩ :=
        setAttribute_becomes wf (content_of_liveElement element) name value
      exact Edit.after_ok done ▸ .of_becomes becomes

theorem removeAttribute (id : NodeId) (name : String) : Safe (Document.removeAttribute id name) := by
  intro d wf
  cases element : d.liveElement id with
  | error fault => simpa [Edit.after, Document.removeAttribute, Edit.checked, element] using Sequel.refl wf
  | ok e =>
      obtain ⟨changed, d', done, becomes⟩ :=
        removeAttribute_becomes wf (content_of_liveElement element) name
      exact Edit.after_ok done ▸ .of_becomes becomes

theorem setProperty (id : NodeId) (name : String) (value : Property) :
    Safe (Document.setProperty id name value) := by
  intro d wf
  cases element : d.liveElement id with
  | error fault => simpa [Edit.after, Document.setProperty, Edit.checked, element] using Sequel.refl wf
  | ok e =>
      obtain ⟨changed, d', done, becomes⟩ :=
        setProperty_becomes wf (content_of_liveElement element) name value
      exact Edit.after_ok done ▸ .of_becomes becomes

/-! ## Copies and parsed markup -/

theorem plantLikeness (likeness : List Tree ⊕ Tree) : Safe (Document.plantLikeness likeness) := by
  intro d wf
  cases likeness with
  | inl trees =>
      obtain ⟨fragment, ps, d', done, -, potted⟩ := plantFragment_potted trees wf
      rw [Document.plantLikeness, Edit.after_ok done]
      exact ⟨potted.wellFormed, potted.aged⟩
  | inr tree =>
      obtain ⟨p, d', done, -, sprouted⟩ := plant_sprouts tree wf (nofun : Takes d none)
      rw [Document.plantLikeness, Edit.after_ok done]
      exact ⟨sprouted.wellFormed, sprouted.aged⟩

theorem copy (id : NodeId) : Safe (Document.copy id) :=
  bind (require _) plantLikeness

theorem copyFrom (source : Document) (id : NodeId) : Safe (Document.copyFrom source id) :=
  bind (require _) plantLikeness

theorem flush (bed : Seedbed) : Safe bed.flush := by
  unfold Seedbed.flush
  split
  · exact pure bed
  · exact bind (create _) fun id => bind (append _ id) fun _ => pure _

theorem add (content : Content) (bed : Seedbed) : Safe (bed.add content) :=
  bind (create content) fun id => bind (flush bed) fun _ => bind (append _ id) fun _ => pure _

theorem addRaw (element : Element) (content : String) (bed : Seedbed) :
    Safe (bed.addRaw element content) := by
  refine bind (add _ bed) fun ⟨id, bed⟩ => ?_
  dsimp only
  split
  · exact pure bed
  · exact bind (create _) fun text => bind (append id text) fun _ => pure bed

theorem step (bed : Seedbed) : ∀ piece : Piece, Safe (bed.step piece)
  | .text content => pure _
  | .comment body => bind (add _ bed) fun _ => pure _
  | .empty tag attributes => bind (add _ bed) fun _ => pure _
  | .raw tag attributes content => addRaw _ content bed
  | .opening tag attributes => bind (add _ bed) fun _ => pure _
  | .closing tag => by
      refine bind (flush bed) fun bed => ?_
      split
      · exact pure _
      · exact pure _

theorem steps : ∀ (pieces : List Piece) (bed : Seedbed), Safe (bed.steps pieces)
  | [], bed => pure bed
  | piece :: rest, bed => bind (step bed piece) fun bed => steps rest bed

theorem readPieces (reading : Reading) (fragment : NodeId) :
    Safe (Document.readPieces reading fragment) := by
  refine bind (steps _ _) fun bed => ?_
  split
  · exact pure _
  · exact bind (flush bed) fun _ => pure none

theorem parse (source : String) : Safe (Document.parse source) := by
  refine bind (create _) fun fragment => ?_
  refine bind (tryCatch (readPieces _ fragment) fun fault => bind (discard fragment) fun _ =>
    throw fault) fun found => ?_
  split
  · exact pure _
  · exact bind (discard fragment) fun _ => pure _

end Safe

end Inlay.Document
