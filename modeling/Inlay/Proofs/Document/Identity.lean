/-
# Proofs.Document.Identity — an id names one node for ever

An id is a slot and a generation, and slots are used again. In any run in which no
slot is freed 2³² times (`Unrepeated`), an id is nevertheless given once: the node an
operation makes and returns has none of the ids that were alive before, be it only in
the middle of a parse that failed and freed what it had made (`Lived`). A discarded
node, with everything below it, is gone in every later state, and an operation that is
given its id is refused and changes nothing, whatever lives in its slot by then.

`ids_distinct` states this of every run. It rests on two facts about one operation:
the node it returns was dead before (`born_of_edit`), and a dead id makes it refuse
(`refused_of_dead`). What time does to ids is `Unrepeated.not_revived`.
-/
import Inlay.Proofs.Document.Forest
import Inlay.Proofs.Document.Parsing

namespace Inlay.Document

set_option autoImplicit false

open Relation Inlay.Markup

variable {d d' : Document} {x id node parent : NodeId} {reference : Option NodeId}

/-! ## Operations as edits -/

namespace Operation

/-- An operation as an edit that answers with the node it made, if it made one. -/
def edit : Operation → Edit (Option NodeId)
  | create content => do return some (← Edit.always (Document.create content))
  | append parent node => do Document.append parent node; return none
  | insertBefore parent node reference => do Document.insertBefore parent node reference; return none
  | remove node => do Document.remove node; return none
  | discard node => do Document.discard node; return none
  | setText id value => do let _ ← Document.setText id value; return none
  | setAttribute id name value => do let _ ← Document.setAttribute id name value; return none
  | removeAttribute id name => do let _ ← Document.removeAttribute id name; return none
  | setProperty id name value => do let _ ← Document.setProperty id name value; return none
  | copy id => do return some (← Document.copy id)
  | copyFrom source id => do return some (← Document.copyFrom source id)
  | parse source => do return (← Document.parse source).toOption
  | startRecording => Edit.always fun d => (none, d.startRecording)
  | stopRecording => Edit.always fun d => (none, d.stopRecording.2)
  | takeRecords => Edit.always fun d => (none, d.takeRecords.2)

/-- The nodes of the document that an operation is given: as the node it works on, as
the parent, or as the reference. -/
def names : Operation → List NodeId
  | append parent node => [parent, node]
  | insertBefore parent node reference => parent :: node :: reference.toList
  | remove node => [node]
  | discard node => [node]
  | setText id _ => [id]
  | setAttribute id _ _ => [id]
  | removeAttribute id _ => [id]
  | setProperty id _ _ => [id]
  | copy id => [id]
  | _ => []

end Operation

theorem after_bind_return {α β : Type} (e : Edit α) (f : α → β) :
    Edit.after (do return f (← e)) d = e.after d := by
  unfold Edit.after
  cases done : e d with
  | ok a d' => rw [Edit.bind_ok done]; rfl
  | error fault d' => rw [Edit.bind_error done]

/-- The edit leaves what performing the operation leaves. -/
theorem after_edit (operation : Operation) : operation.edit.after d = d.perform operation := by
  cases operation with
  | create content => rfl
  | startRecording => rfl
  | stopRecording => rfl
  | takeRecords => rfl
  | append | insertBefore | remove | discard | setText | setAttribute | removeAttribute | setProperty
  | copy | copyFrom | parse => exact after_bind_return _ _

/-! ## Ids that were alive in a run -/

/-- The document in which an operation has made everything it makes: a parse that
fails frees it again. -/
def fullest (d : Document) : Operation → Document
  | .parse source =>
      (readPieces (Reading.ofSource source) (create .fragment d).1).after (create .fragment d).2
  | operation => d.perform operation

/-- The id was alive at some time in a run: before it, behind one of its operations, or
in the middle of one. -/
def Lived (d : Document) : List Operation → NodeId → Prop
  | [], x => d.contains x = true
  | operation :: rest, x =>
      d.contains x = true ∨ (d.fullest operation).contains x = true ∨ Lived (d.perform operation) rest x

/-! ## What an operation leaves -/

theorem Safe.journal (kept : Document → Option (List Record)) :
    Safe (Edit.always fun d => ((none : Option NodeId), { d with journal := kept d })) := fun _ wf =>
  ⟨wf.of_journal _, .of_sameSlots ⟨rfl, rfl, rfl, rfl, rfl⟩⟩

theorem Safe.edit : ∀ operation : Operation, Safe operation.edit
  | .create content => bind (create content) fun _ => pure _
  | .append parent node => bind (append parent node) fun _ => pure _
  | .insertBefore parent node reference => bind (insertBefore parent node reference) fun _ => pure _
  | .remove node => bind (remove node) fun _ => pure _
  | .discard node => bind (discard node) fun _ => pure _
  | .setText id value => bind (setText id value) fun _ => pure _
  | .setAttribute id name value => bind (setAttribute id name value) fun _ => pure _
  | .removeAttribute id name => bind (removeAttribute id name) fun _ => pure _
  | .setProperty id name value => bind (setProperty id name value) fun _ => pure _
  | .copy id => bind (copy id) fun _ => pure _
  | .copyFrom source id => bind (copyFrom source id) fun _ => pure _
  | .parse source => bind (parse source) fun _ => pure _
  | .startRecording => journal _
  | .stopRecording => journal _
  | .takeRecords => journal _

theorem WellFormed.sequel_perform (wf : WellFormed d) (operation : Operation) :
    Sequel d (d.perform operation) :=
  after_edit operation ▸ Safe.edit operation d wf

theorem WellFormed.sequel_performAll (wf : WellFormed d) (run : List Operation) :
    Sequel d (d.performAll run) := by
  induction run generalizing d with
  | nil => exact .refl wf
  | cons operation rest ih =>
      have first := wf.sequel_perform operation
      exact first.trans (ih first.wellFormed)

/-- The fullest document of an operation comes between the first and the last one. -/
theorem fullest_between (wf : WellFormed d) (operation : Operation) :
    Aged d (d.fullest operation) ∧ Aged (d.fullest operation) (d.perform operation) := by
  by_cases parses : ∃ source, operation = .parse source
  · obtain ⟨source, rfl⟩ := parses
    obtain ⟨ps, d₁, done, potted, -⟩ := readPieces_raises wf (Reading.ofSource source)
    have full : d.fullest (.parse source) = d₁ := Edit.after_ok done
    rw [full]
    refine ⟨potted.aged, ?_⟩
    cases fault : (Reading.ofSource source).fault with
    | none =>
        have kept : d.perform (.parse source) = d₁ := Edit.after_ok (parse_of_read (fault ▸ done))
        exact kept ▸ .refl _
    | some found =>
        obtain ⟨d₂, freed, -⟩ := potted.discard wf
        have left : d.perform (.parse source) = d₂ := Edit.after_ok (parse_of_fault (fault ▸ done) freed)
        have sequel := Safe.discard (create .fragment d).1 d₁ potted.wellFormed
        rw [Edit.after_ok freed] at sequel
        exact left ▸ sequel.aged
  · have same : d.fullest operation = d.perform operation := by
      cases operation with
      | parse source => exact absurd ⟨source, rfl⟩ parses
      | _ => rfl
    rw [same]
    exact ⟨(wf.sequel_perform operation).aged, .refl _⟩

/-- What lived in a run was alive in some document on its way. -/
theorem Lived.exists_live : ∀ {run : List Operation} {d : Document}, WellFormed d → Lived d run x →
    ∃ m, Aged d m ∧ Aged m (d.performAll run) ∧ m.contains x = true
  | [], d, _, lived => ⟨d, .refl d, .refl d, lived⟩
  | operation :: rest, d, wf, lived => by
      have next := wf.sequel_perform operation
      have others := next.wellFormed.sequel_performAll rest
      rcases lived with before | during | later
      · exact ⟨d, .refl d, next.aged.trans others.aged, before⟩
      · obtain ⟨first, last⟩ := fullest_between wf operation
        exact ⟨_, first, last.trans others.aged, during⟩
      · obtain ⟨m, first, last, live⟩ := exists_live next.wellFormed later
        exact ⟨m, next.aged.trans first, last, live⟩

/-! ## New nodes -/

/-- The node is dead in the one document and alive in the other. -/
def Born (d d' : Document) (id : NodeId) : Prop := d.contains id = false ∧ d'.contains id = true

theorem born_of_plantLikeness (wf : WellFormed d) (likeness : List Tree ⊕ Tree)
    (done : plantLikeness likeness d = .ok id d') : Born d d' id := by
  cases likeness with
  | inl trees =>
      obtain ⟨fragment, ps, d₁, planted, -, potted⟩ := plantFragment_potted trees wf
      cases planted.symm.trans done
      exact ⟨potted.fresh _ List.mem_cons_self, contains_iff_content?.mpr ⟨_, potted.isFragment⟩⟩
  | inr tree =>
      obtain ⟨p, d₁, planted, -, sprouted⟩ := plant_sprouts tree wf (nofun : Takes d none)
      cases planted.symm.trans done
      have mem : p.root ∈ Planted.idsAll [p] := root_mem_idsAll List.mem_cons_self
      exact ⟨sprouted.fresh _ mem, sprouted.stand.contains _ mem⟩

theorem born_of_copied {check : Document → Except Fault (List Tree ⊕ Tree)} (wf : WellFormed d)
    (done : (Edit.require check >>= plantLikeness) d = .ok id d') : Born d d' id := by
  cases found : check d with
  | error fault =>
      rw [Edit.bind_error (Edit.require_error found)] at done
      cases done
  | ok likeness =>
      rw [Edit.bind_ok (Edit.require_ok found)] at done
      exact born_of_plantLikeness wf likeness done

theorem born_of_parse (wf : WellFormed d) {source : String} (done : parse source d = .ok (.ok id) d') :
    Born d d' id := by
  cases read : forest? source with
  | error fault =>
      obtain ⟨_, refused, -⟩ := parse_error wf read
      cases refused.symm.trans done
  | ok forest =>
      obtain ⟨_, _, _, parsed, -, potted⟩ := parse_ok wf read
      cases parsed.symm.trans done
      exact ⟨potted.fresh _ List.mem_cons_self, contains_iff_content?.mpr ⟨_, potted.isFragment⟩⟩

/-- An answer is what the edit in front of it made. -/
theorem of_return {α β : Type} {e : Edit α} {f : α → β} {b : β}
    (done : (do return f (← e) : Edit β) d = .ok b d') : ∃ a, e d = .ok a d' ∧ f a = b := by
  obtain ⟨a, d₁, first, last⟩ := Edit.of_bind_ok done
  cases last
  exact ⟨a, first, rfl⟩

/-- The node an operation returns is a new one. -/
theorem born_of_edit (wf : WellFormed d) {operation : Operation}
    (done : operation.edit d = .ok (some id) d') : Born d d' id := by
  cases operation with
  | create content =>
      obtain ⟨fresh, becomes⟩ := create_becomes wf content
      have alive : (create content d).2.contains (create content d).1 = true :=
        contains_iff_content?.mpr ⟨content, by rw [becomes.content]; exact if_pos rfl⟩
      have born : Born d (create content d).2 (create content d).1 := ⟨fresh, alive⟩
      obtain ⟨_, made, same⟩ := of_return done
      cases made
      cases same
      exact born
  | copy source =>
      obtain ⟨_, copied, same⟩ := of_return done
      cases same
      exact born_of_copied wf copied
  | copyFrom other source =>
      obtain ⟨_, copied, same⟩ := of_return done
      cases same
      exact born_of_copied wf copied
  | parse source =>
      obtain ⟨result, parsed, same⟩ := of_return done
      cases result with
      | error fault => cases same
      | ok fragment =>
          cases same
          exact born_of_parse wf parsed
  | append | insertBefore | remove | discard | setText | setAttribute | removeAttribute | setProperty =>
      obtain ⟨_, -, same⟩ := of_return done
      cases same
  | startRecording | stopRecording | takeRecords => cases done

/-! ## Ids that are dead -/

/-- A refused edit refuses with what follows it. -/
theorem refused_bind {α β : Type} {e : Edit α} {f : α → Edit β} (refused : ∃ fault, e d = .error fault d) :
    ∃ fault, (e >>= f) d = .error fault d := by
  obtain ⟨fault, refused⟩ := refused
  exact ⟨fault, Edit.bind_error refused⟩

theorem refused_require {α : Type} {check : Document → Except Fault α} (refused : ∃ fault, check d = .error fault) :
    ∃ fault, Edit.require check d = .error fault d := by
  obtain ⟨fault, refused⟩ := refused
  exact ⟨fault, Edit.require_error refused⟩

theorem refused_checked {α β : Type} {check : Document → Except Fault α} {f : α → Document → β × Document}
    (refused : ∃ fault, check d = .error fault) : ∃ fault, Edit.checked check f d = .error fault d := by
  obtain ⟨fault, refused⟩ := refused
  exact ⟨fault, by simp only [Edit.checked, refused]⟩

theorem error_bind {α β : Type} {e : Except Fault α} {f : α → Except Fault β} (refused : ∃ fault, e = .error fault) :
    ∃ fault, (e >>= f) = .error fault := by
  obtain ⟨fault, rfl⟩ := refused
  exact ⟨fault, rfl⟩

theorem error_then {α β : Type} {e : Except Fault α} {f : α → Except Fault β}
    (refused : ∀ a, ∃ fault, f a = .error fault) : ∃ fault, (e >>= f) = .error fault := by
  cases e with
  | error fault => exact ⟨fault, rfl⟩
  | ok a => exact refused a

section Dead

variable (dead : d.contains x = false)
include dead

theorem live_of_dead : ∃ fault, d.live x = .error fault := by
  have gone : d.get? x = none := by simpa [contains] using dead
  exact ⟨.stale x, by simp only [live, gone]⟩

theorem admits_of_dead (given : x = parent ∨ reference = some x) : ∃ fault, d.admits parent reference = .error fault := by
  unfold admits
  rcases given with rfl | rfl
  · exact error_bind (live_of_dead dead)
  · obtain ⟨fault, gone⟩ := live_of_dead dead
    refine error_then fun n => ?_
    cases container : n.content.isContainer with
    | false => exact ⟨.notContainer parent, rfl⟩
    | true => exact ⟨fault, by simp [gone, bind, Except.bind]⟩

theorem insertBefore_of_dead (given : x ∈ (Operation.insertBefore parent node reference).names) :
    ∃ fault, insertBefore parent node reference d = .error fault d := by
  refine refused_bind (refused_require ?_)
  simp only [Operation.names, List.mem_cons, Option.mem_toList] at given
  rcases given with rfl | rfl | rfl
  · exact error_bind (admits_of_dead dead (.inl rfl))
  · exact error_then fun _ => error_bind (live_of_dead dead)
  · exact error_bind (admits_of_dead dead (.inr rfl))

theorem remove_of_dead : ∃ fault, remove x d = .error fault d := by
  refine refused_bind (refused_require ?_)
  unfold admitsRemoval
  split
  · exact ⟨_, rfl⟩
  · obtain ⟨fault, gone⟩ := live_of_dead dead
    exact ⟨fault, by rw [gone]; rfl⟩

theorem likeness_of_dead : ∃ fault, d.likeness x = .error fault := by
  obtain ⟨fault, gone⟩ := live_of_dead dead
  exact ⟨fault, by simp only [likeness, gone]⟩

/-- An operation that is given a dead id is refused and changes nothing. -/
theorem refused_of_dead {operation : Operation} (given : x ∈ operation.names) :
    ∃ fault, operation.edit d = .error fault d := by
  cases operation with
  | append parent node =>
      refine refused_bind (insertBefore_of_dead dead ?_)
      simpa [Operation.names] using given
  | insertBefore parent node reference => exact refused_bind (insertBefore_of_dead dead given)
  | remove node =>
      obtain rfl := List.mem_singleton.mp given
      exact refused_bind (remove_of_dead dead)
  | discard node =>
      obtain rfl := List.mem_singleton.mp given
      exact refused_bind (refused_bind (remove_of_dead dead))
  | setText | setAttribute | removeAttribute | setProperty =>
      obtain rfl := List.mem_singleton.mp given
      exact refused_bind (refused_checked (error_bind (live_of_dead dead)))
  | copy id =>
      obtain rfl := List.mem_singleton.mp given
      exact refused_bind (refused_bind (refused_require (likeness_of_dead dead)))
  | create | copyFrom | parse | startRecording | stopRecording | takeRecords => cases given

end Dead

theorem live_of_discard (done : discard node d = .ok () d') : d.contains node = true := by
  by_contra dead
  obtain ⟨fault, refused⟩ := remove_of_dead (by simpa using dead : d.contains node = false)
  rw [discard, Edit.bind_error refused] at done
  cases done

/-- What a discard leaves alive: everything but the node and what is below it. -/
theorem contains_discard (wf : WellFormed d) (done : discard node d = .ok () d') (x : NodeId) :
    d'.contains x = true ↔ d.contains x = true ∧ ¬ Below d x node := by
  rcases remove_cases wf node with ⟨fault, refused⟩ | ⟨d₁, -, live, inner⟩
  · rw [discard, Edit.bind_error refused] at done
    cases done
  · obtain ⟨d₂, discarded, becomes⟩ := discard_becomes wf live inner
    cases discarded.symm.trans done
    have inside : x ∈ d.descendants node ↔ Below d x node := by
      simp [wf.mem_descendants, live]
    rw [contains_iff_content?, contains_iff_content?, becomes.content, ← inside]
    by_cases mem : x ∈ d.descendants node <;> simp [mem]

/-! ## Runs -/

/-- In every run in which no slot is freed 2³² times, the node that an operation
returns is alive and has an id that no node had before in the run. Discarding a node
makes it and everything below it dead, and nothing else; in every later state these
ids are dead, any operation that is given one of them is refused and changes nothing,
and so is a copy of it into any other document. -/
theorem ids_distinct (run : List Operation) (unrepeated : Unrepeated new (new.performAll run)) :
    (∀ front operation back id d, run = front ++ operation :: back →
      operation.edit (new.performAll front) = .ok (some id) d →
      d.contains id = true ∧ ¬ Lived new front id) ∧
    ∀ front node back d, run = front ++ .discard node :: back →
      discard node (new.performAll front) = .ok () d →
      (∀ x, d.contains x = true ↔ (new.performAll front).contains x = true ∧ ¬ Below (new.performAll front) x node) ∧
      ∀ x, Below (new.performAll front) x node → ∀ middle rest, back = middle ++ rest →
        (d.performAll middle).contains x = false ∧
        (∀ operation : Operation, x ∈ operation.names →
          ∃ fault, operation.edit (d.performAll middle) = .error fault (d.performAll middle)) ∧
        ∀ other, ∃ fault, copyFrom (d.performAll middle) x other = .error fault other := by
  have upTo : ∀ front, WellFormed (new.performAll front) ∧ Aged new (new.performAll front) := fun front =>
    have sequel := wellFormed_new.sequel_performAll front
    ⟨sequel.wellFormed, sequel.aged⟩
  -- what holds of the whole run holds of its first part
  have early : ∀ front operation back, run = front ++ operation :: back →
      Unrepeated new ((new.performAll front).perform operation) := by
    rintro front operation back rfl
    have step := (upTo front).1.sequel_perform operation
    have rest := step.wellFormed.sequel_performAll back
    have whole : new.performAll (front ++ operation :: back) =
        ((new.performAll front).perform operation).performAll back := by
      simp [performAll]
    rw [whole] at unrepeated
    exact unrepeated.first ((upTo front).2.trans step.aged) rest.aged
  refine ⟨fun front operation back id d split done => ?_, fun front node back d split done => ?_⟩
  · have ended : (new.performAll front).perform operation = d := by
      rw [← after_edit]
      exact Edit.after_ok done
    obtain ⟨dead, alive⟩ := born_of_edit (upTo front).1 done
    refine ⟨alive, fun lived => ?_⟩
    obtain ⟨m, before, between, live⟩ := lived.exists_live wellFormed_new
    have step := ((upTo front).1.sequel_perform operation).aged
    have never := ((early _ _ _ split).second before (between.trans step)).not_revived between step live dead
    rw [ended, alive] at never
    cases never
  · have ended : (new.performAll front).perform (.discard node) = d := Edit.after_ok done
    have alive := contains_discard (upTo front).1 done
    refine ⟨alive, fun x below middle rest within => ?_⟩
    subst within
    have step := (upTo front).1.sequel_perform (.discard node)
    rw [ended] at step
    have onward := step.wellFormed.sequel_performAll middle
    have whole : new.performAll run = (d.performAll middle).performAll rest := by
      simp [split, performAll, ← ended]
    rw [whole] at unrepeated
    have beyond := onward.wellFormed.sequel_performAll rest
    have partly := unrepeated.first (((upTo front).2.trans step.aged).trans onward.aged) beyond.aged
    -- the node was alive, or the discard would have been refused
    have live : (new.performAll front).contains x = true := (upTo front).1.contains_of_below
      (live_of_discard done) below
    have dead : d.contains x = false := by
      simpa [below] using alive x
    have gone := (partly.second (upTo front).2 (step.aged.trans onward.aged)).not_revived step.aged onward.aged live dead
    exact ⟨gone, fun _ given => refused_of_dead gone given,
      fun _ => refused_bind (refused_require (likeness_of_dead gone))⟩

/-- A run in which three nodes share one slot: a text that is discarded, the fragment of
a parse that fails, and the fragment of the next parse. -/
def reuse : List Operation :=
  [.create (.text "old"), .append new.body ⟨1, 0⟩, .discard ⟨1, 0⟩, .parse "<i", .parse "<b>new</b>"]

theorem ids_distinct_reuse :
    Unrepeated new (new.performAll reuse) ∧
    ¬ Lived new (reuse.take 4) ⟨1, 2⟩ ∧
    (new.performAll reuse).contains ⟨1, 0⟩ = false ∧
    ∃ fault, Operation.edit (.remove ⟨1, 0⟩) (new.performAll reuse) = .error fault (new.performAll reuse) := by
  have unrepeated : Unrepeated new (new.performAll reuse) := by decide +kernel
  have returned : (match Operation.edit (.parse "<b>new</b>") (new.performAll (reuse.take 4)) with
      | .ok made _ => made
      | .error _ _ => none) = some ⟨1, 2⟩ := by decide +kernel
  have freed : discard ⟨1, 0⟩ (new.performAll (reuse.take 2)) = .ok () (new.performAll (reuse.take 3)) := by rfl
  obtain ⟨distinct, gone⟩ := ids_distinct reuse unrepeated
  obtain ⟨dead, refused, -⟩ := (gone (reuse.take 2) _ _ _ rfl freed).2 ⟨1, 0⟩ .refl (reuse.drop 3) [] rfl
  refine ⟨unrepeated, ?_, dead, refused _ (List.mem_singleton_self _)⟩
  split at returned
  · next made _ done =>
      subst returned
      exact (distinct (reuse.take 4) _ [] _ _ rfl done).2
  · cases returned

end Inlay.Document
