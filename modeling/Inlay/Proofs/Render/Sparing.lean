/-
# Proofs.Render.Sparing — what is told when slots are written

A slot `Holds` a context when writing it would change nothing: the facts of the slot
are there, or the anchor finds all it shows. Writing slots tells only of those that do
not hold the context yet, and in the end all of them do (`Rewritten`). Since no slot
undoes what another one holds, that goes on from stretch to stretch of the slots
(`Rewritten.append`), and up the trees of a dressing (`rewritten_trees`).
-/
import Inlay.Proofs.Render.Encore
import Inlay.Proofs.Render.Quiet
import Inlay.Proofs.Render.Redress

namespace Inlay.Render

set_option autoImplicit false

open Relation Inlay.Document Inlay.Document.Planted Inlay.Markup
open Inlay.Template hiding root

variable {base d d' d'' : Document} {claims claims' : Claims} {id q x : NodeId} {name : String}
  {context : Value} {slot slot' : Slot} {slots old old' new new' written : List Slot} {dead dead' : List NodeId}
  {front back : List NodeId} {fits : Record → Prop}

/-! ## Single writes -/

theorem tells_of_report {g : Node → Node} {f : Tally → Tally} {record : Record} (notes : Notes f record)
    (fit : fits record) : Tells fits d ((d.modify id g).report (d.isConnected id) f record) := by
  have modified : Account d (d.modify id g) [] := .of_same rfl rfl
  refine ⟨_, modified.trans (.report _ (notes.counted _)), fun other mem => ?_⟩
  rw [List.nil_append] at mem
  split at mem
  · rwa [List.mem_singleton.mp mem]
  · cases mem

theorem setText_tells {value : String} {changed : Bool} (done : setText id value d = .ok changed d') :
    Tells (fun record => record = .characterData id ∧ ¬ (Fact.data id value).Holds d) d d' := by
  cases found : d.liveData id with
  | error fault => simp [setText, Edit.checked, found] at done
  | ok data =>
      have now : d.data? id = some data := by
        rcases content_of_liveData found with here | here <;> simp [data?, here]
      simp only [setText, Edit.checked, found] at done
      split at done
      · cases done
        exact .refl d
      · next differ =>
        cases done
        exact tells_of_report (notes_text id) ⟨rfl, fun holds => differ (Option.some.inj (now.symm.trans holds))⟩

theorem attribute?_eq_none_iff {e : Element} : e.attribute? name = none ↔ e.hasAttribute name = false := by
  rw [Element.attribute?, Attribute.find?, Option.map_eq_none_iff, List.find?_eq_none, Element.hasAttribute,
    List.any_eq_false]

theorem putOrRemove_tells {text : Option String} {changed : Bool}
    (done : Slot.putOrRemove id name text ⟨d, claims⟩ = .ok changed ⟨d', claims'⟩) :
    Tells (fun record => record = .attribute id name ∧ ¬ (Fact.wears id name text).Holds d) d d' := by
  have wears : ∀ {e : Element}, d.liveElement id = .ok e → (Fact.wears id name text).Holds d →
      e.attribute? name = text := fun found holds => by
    obtain ⟨e', there, same⟩ := holds
    rw [content_of_liveElement found] at there
    cases there
    exact same
  cases text with
  | some value =>
      obtain ⟨d₁, set, same⟩ := Act.of_edit done
      cases same
      cases found : d.liveElement id with
      | error fault => simp [setAttribute, Edit.checked, found] at set
      | ok e =>
          simp only [setAttribute, Edit.checked, found] at set
          split at set
          · cases set
            exact .refl d
          · next differ =>
            cases set
            exact tells_of_report (notes_attribute id name) ⟨rfl, fun holds => differ (wears found holds)⟩
  | none =>
      obtain ⟨d₁, removed, same⟩ := Act.of_edit done
      cases same
      cases found : d.liveElement id with
      | error fault => simp [removeAttribute, Edit.checked, found] at removed
      | ok e =>
          simp only [removeAttribute, Edit.checked, found] at removed
          split at removed
          · next has =>
            cases removed
            refine tells_of_report (notes_attribute id name) ⟨rfl, fun holds => ?_⟩
            rw [attribute?_eq_none_iff.mp (wears found holds)] at has
            cases has
          · cases removed
            exact .refl d

theorem setProperty_tells {value : Property} {changed : Bool} (done : setProperty id name value d = .ok changed d') :
    Tells (fun record => record = .property id name ∧ ¬ (Fact.property id name value).Holds d) d d' := by
  cases found : d.liveElement id with
  | error fault => simp [setProperty, Edit.checked, found] at done
  | ok e =>
      simp only [setProperty, Edit.checked, found] at done
      split at done
      · cases done
        exact .of_silent (.of_same rfl rfl)
      · next differ =>
        cases done
        refine tells_of_report (notes_property id name) ⟨rfl, fun holds => differ ?_⟩
        obtain ⟨e', there, same⟩ := holds
        simp [property?, element?, there, same]

/-! ## Slots -/

namespace Slot

/-- Writing the context would change nothing. -/
def Holds (context : Value) (d : Document) : Slot → Prop
  | .anchor path a => ∀ stage,
    Anchor.layOut (itemsOf (valueAt context path)) a.made stage = .ok ⟨a.current, a.made, []⟩ stage
  | slot => ∀ f ∈ slot.facts context, f.Holds d

/-- A record of the node that the slot writes to, or in a document of the children among which its comment is. -/
def Records (base : Document) (record : Record) : Slot → Prop
  | .text node _ => record = .characterData node
  | .textareaValue holder _ => record = .property holder "value"
  | .attribute holder name _ property =>
    record = .attribute holder name ∨ ∃ p ∈ property, record = .property holder p.name
  | .anchor _ a => ∃ parent, base.parent? a.comment = some parent ∧ Record.OfChildren parent record

/-- Two contexts give the slot different texts, or different items. -/
def Differs (c c' : Value) : Slot → Prop
  | .text _ content => content.render c ≠ content.render c'
  | .textareaValue _ content => content.render c ≠ content.render c'
  | .attribute _ _ content _ => attributeText content c ≠ attributeText content c'
  | .anchor path _ => itemsOf (valueAt c path) ≠ itemsOf (valueAt c' path)

theorem written?_isSome : slot.written?.isSome = true ↔ ∀ path a, slot ≠ .anchor path a := by
  cases slot <;> simp [written?]

theorem holds_iff_facts (plain : slot.written?.isSome = true) :
    slot.Holds context d ↔ ∀ f ∈ slot.facts context, f.Holds d := by
  cases slot with
  | anchor path a => cases plain
  | _ => rfl

/-- The facts of a slot are about the node it writes to. -/
theorem node_of_facts {f : Fact} (mem : f ∈ slot.facts context) : slot.written? = some f.node := by
  cases slot with
  | text node content =>
      rw [List.mem_singleton.mp mem]
      rfl
  | textareaValue holder content =>
      rcases List.mem_pair.mp mem with rfl | rfl <;> rfl
  | anchor path a => cases mem
  | _ holder name content property =>
      rcases List.mem_cons.mp mem with rfl | mem
      · rfl
      · obtain ⟨p, -, mem⟩ := List.mem_flatMap.mp mem
        rcases List.mem_pair.mp mem with rfl | rfl <;> rfl

theorem Holds.of_same {c c' : Value} (holds : slot.Holds c d) (same : ¬ slot.Differs c c') : slot.Holds c' d := by
  cases slot with
  | text node content =>
      have same : content.render c = content.render c' := not_not.mp same
      simpa only [Holds, facts, same] using holds
  | textareaValue holder content =>
      have same : content.render c = content.render c' := not_not.mp same
      simpa only [Holds, facts, same] using holds
  | anchor path a =>
      have same : itemsOf (valueAt c path) = itemsOf (valueAt c' path) := not_not.mp same
      simpa only [Holds, same] using holds
  | _ holder name content property =>
      have same : attributeText content c = attributeText content c' := not_not.mp same
      simpa only [Holds, facts, same] using holds

/-- What keeps the facts of a slot, keeps what it holds. -/
theorem Holds.keep (holds : slot.Holds context d)
    (keeps : ∀ f ∈ slot.facts context, f.Holds d → f.Holds d') : slot.Holds context d' := by
  by_cases plain : slot.written?.isSome = true
  · rw [holds_iff_facts plain] at holds ⊢
    exact fun f mem => keeps f mem (holds f mem)
  · cases slot with
    | anchor path a => exact holds
    | _ => cases plain rfl

theorem free_of_cells {f : Fact} {cells : List Cell} (mem : f ∈ slot.facts context)
    (apart : ∀ cell ∈ slot.cells, cell ∉ cells) : f.Free cells := by
  intro cell about
  refine apart cell ?_
  rw [← filterMap_cell?_facts context]
  exact List.mem_filterMap.mpr ⟨f, mem, about⟩

/-- A slot that is no anchor tells of what it does not hold. -/
theorem write_tells (wf : WellFormed d) (plain : slot.written?.isSome = true)
    (done : slot.write context ⟨d, claims⟩ = .ok slot' ⟨d', claims'⟩) :
    Tells (fun record => slot.Records base record ∧ ¬ slot.Holds context d) d d' := by
  cases slot with
  | text node content =>
      obtain ⟨changed, stage, edited, last⟩ := of_bind_ok done
      obtain ⟨d₁, set, same⟩ := Act.of_edit edited
      cases same
      cases last
      exact (setText_tells set).mono fun record fit =>
        ⟨fit.1, fun holds => fit.2 (holds _ List.mem_cons_self)⟩
  | textareaValue holder content =>
      obtain ⟨changed, stage, edited, last⟩ := of_bind_ok done
      obtain ⟨d₁, set, same⟩ := Act.of_edit edited
      cases same
      cases last
      exact (setProperty_tells set).mono fun record fit =>
        ⟨fit.1, fun holds => fit.2 (holds _ (by simp [facts]))⟩
  | anchor path a => cases plain
  | _ holder name content property =>
      simp only [write, writeAttribute, bind_assoc] at done
      obtain ⟨changed, ⟨d₁, claims₁⟩, put, later⟩ := of_bind_ok done
      obtain ⟨rfl, wrote⟩ := wrote_attribute wf put
      have first : Tells (fun record => (Slot.attribute holder name content property).Records base record ∧
          ¬ (Slot.attribute holder name content property).Holds context d) d d₁ :=
        (putOrRemove_tells put).mono fun record fit =>
          ⟨.inl fit.1, fun holds => fit.2 (holds _ (by simp [facts]))⟩
      cases property with
      | none =>
          cases later
          exact first
      | some p =>
          simp only [follow, bind_assoc] at later
          obtain ⟨changed', stage, edited, last⟩ := of_bind_ok later
          obtain ⟨d₂, set, same⟩ := Act.of_edit edited
          cases same
          cases last
          refine first.trans ((setProperty_tells set).mono fun record fit => ⟨.inr ⟨p, rfl, fit.1⟩, fun holds => ?_⟩)
          refine fit.2 (wrote.keeps _ (holds _ (by simp [facts])) fun cell about => ?_)
          cases about
          simp [Fact.cell?]

end Slot

/-! ## Stretches of slots -/

theorem of_writeAll_append {first second : List Slot} {stage stage' stage'' : Stage}
    (early : Slot.writeAll context first stage = ((none, written), stage'))
    (done : Slot.writeAll context (first ++ second) stage = ((none, new), stage'')) :
    ∃ late, Slot.writeAll context second stage' = ((none, late), stage'') ∧ new = written ++ late := by
  rw [writeAll_append early] at done
  rcases later : Slot.writeAll context second stage' with ⟨⟨fault, late⟩, last⟩
  rw [later] at done
  cases done
  exact ⟨late, rfl, rfl⟩

/-- Slots are written: all of them hold the context, nothing else is undone but what was about some nodes
that are dead now, and what was told is told of slots that did not hold the context before. -/
structure Rewritten (base : Document) (context : Value) (d d' : Document) (old new : List Slot)
    (dead : List NodeId) : Prop where
  holds : ∀ slot ∈ new, slot.Holds context d'
  keeps : ∀ f : Fact, f.Holds d → f.Free (old.flatMap Slot.cells) → f.node ∉ dead → f.Holds d'
  tells : Tells (fun record => ∃ slot ∈ old, slot.Records base record ∧ ¬ slot.Holds context d) d d'
  plain : ∀ slot ∈ new, slot.written?.isSome = true → slot ∈ old

/-- What slots and some nodes leave to others. -/
structure Leaves (old old' : List Slot) (dead' : List NodeId) : Prop where
  cells : ∀ slot ∈ old, ∀ cell ∈ slot.cells, cell ∉ old'.flatMap Slot.cells
  nodes : ∀ slot ∈ old, ∀ node, slot.written? = some node → node ∉ dead'

theorem Leaves.keeps {f : Fact} (leaves : Leaves old old' dead') (second : Rewritten base context d d' old' new' dead')
    (there : slot ∈ old) (mem : f ∈ slot.facts context) (holds : f.Holds d) : f.Holds d' :=
  second.keeps f holds (Slot.free_of_cells mem (leaves.cells slot there))
    (leaves.nodes slot there _ (Slot.node_of_facts mem))

/-- Slots that share no cell leave to each other what is about their cells. -/
theorem Leaves.of_clear (clear : ∀ s ∈ old, ∀ t ∈ old', Clear True s t)
    (nodes : ∀ slot ∈ old, ∀ node, slot.written? = some node → node ∉ dead') : Leaves old old' dead' := by
  refine ⟨fun s here cell own mem => ?_, nodes⟩
  obtain ⟨t, there, shared⟩ := List.mem_flatMap.mp mem
  exact (clear s here t there cell own shared).1 trivial

theorem Leaves.of_clear_symm (clear : ∀ s ∈ old', ∀ t ∈ old, Clear True s t)
    (nodes : ∀ slot ∈ old, ∀ node, slot.written? = some node → node ∉ dead') : Leaves old old' dead' :=
  .of_clear (fun s here t there cell own shared => clear t there s here cell shared own) nodes

namespace Rewritten

theorem nil (base : Document) (context : Value) (d : Document) : Rewritten base context d d [] [] [] :=
  ⟨nofun, fun _ holds _ _ => holds, .refl d, nofun⟩

theorem append (first : Rewritten base context d d' old new dead)
    (second : Rewritten base context d' d'' old' new' dead') (leaves : Leaves old old' dead')
    (leaves' : Leaves old' old dead) :
    Rewritten base context d d'' (old ++ old') (new ++ new') (dead ++ dead') where
  holds := by
    refine List.forall_mem_append.mpr ⟨fun slot mem => ?_, second.holds⟩
    refine (first.holds slot mem).keep fun f here holds => ?_
    have plain : slot.written?.isSome = true := by
      rw [Slot.node_of_facts here]
      rfl
    exact leaves.keeps second (first.plain slot mem plain) here holds
  keeps := by
    intro f holds free alive
    rw [List.flatMap_append] at free
    rw [List.mem_append, not_or] at alive
    have one := first.keeps f holds (fun cell about mem => free cell about (List.mem_append_left _ mem)) alive.1
    exact second.keeps f one (fun cell about mem => free cell about (List.mem_append_right _ mem)) alive.2
  tells := by
    refine (first.tells.mono fun record fit => ?_).trans (second.tells.mono fun record fit => ?_)
    · obtain ⟨slot, mem, fit⟩ := fit
      exact ⟨slot, List.mem_append_left _ mem, fit⟩
    · obtain ⟨slot, mem, fit, fails⟩ := fit
      refine ⟨slot, List.mem_append_right _ mem, fit, fun holds => fails ?_⟩
      exact holds.keep fun f here => leaves'.keeps first mem here
  plain := by
    intro slot mem plain
    rw [List.mem_append] at mem ⊢
    exact mem.imp (fun here => first.plain slot here plain) fun here => second.plain slot here plain

/-- A slot that is no anchor. -/
theorem of_write (wf : WellFormed d) (plain : slot.written?.isSome = true)
    (done : slot.write context ⟨d, claims⟩ = .ok slot' ⟨d', claims'⟩) :
    Rewritten base context d d' [slot] [slot'] [] := by
  obtain ⟨rfl, -, wrote⟩ := Slot.wrote_of_write wf (Slot.written?_isSome.mp plain) done
  refine ⟨fun other mem => ?_, fun f holds free _ => ?_, ?_, fun other mem _ => mem⟩
  · rw [List.mem_singleton.mp mem, Slot.holds_iff_facts plain]
    exact wrote.tells
  · refine wrote.keeps f holds ?_
    rwa [Slot.filterMap_cell?_facts, ← List.flatMap_singleton Slot.cells slot']
  · exact (Slot.write_tells wf plain done).mono fun record fit => ⟨_, List.mem_singleton_self _, fit⟩

/-- Slots of which none is an anchor. -/
theorem of_plain : ∀ {slots written : List Slot} {d : Document} {claims claims' : Claims}, WellFormed d →
    (∀ slot ∈ slots, slot.written?.isSome = true) → slots.Pairwise (Clear True) →
    Slot.writeAll context slots ⟨d, claims⟩ = ((none, written), ⟨d', claims'⟩) →
    Rewritten base context d d' slots written []
  | [], _, _, _, _, _, _, _, done => by
      cases done
      exact .nil base context _
  | slot :: rest, _, d, claims, _, wf, plain, clear, done => by
      obtain ⟨here, others⟩ := List.forall_mem_cons.mp plain
      obtain ⟨apart, clear⟩ := List.pairwise_cons.mp clear
      cases wrote : slot.write context ⟨d, claims⟩ with
      | error fault stage => simp [Slot.writeAll, wrote] at done
      | ok slot' stage =>
          obtain ⟨d₁, claims₁⟩ := stage
          obtain ⟨others', later, rfl⟩ := of_writeAll_append (writeAll_single wrote) done
          have wf₁ := (Slot.wrote_of_write wf (Slot.written?_isSome.mp here) wrote).2.2.wellFormed
          have apart : ∀ s ∈ [slot], ∀ t ∈ rest, Clear True s t := by simpa using apart
          exact (of_write wf here wrote).append (of_plain wf₁ others clear later)
            (.of_clear apart fun _ _ _ _ => List.not_mem_nil) (.of_clear_symm apart fun _ _ _ _ => List.not_mem_nil)

end Rewritten

/-! ## An anchor -/

section Anchor

variable {body : String} {path : Path} {entries : List Entry} {parent : Option (String × NodeId)}
  {w : ValueOf Empty}

/-- An anchor that holds the context is left as it is. -/
theorem update_of_holds {a : Anchor} (wf : WellFormed d) (kids : d.children q = front ++ a.comment :: a.current ++ back)
    (holds : (Slot.anchor path a).Holds context d) (claims : Claims) :
    ∃ claims', (Slot.anchor path a).write context ⟨d, claims⟩ = .ok (.anchor path a) ⟨d, claims'⟩ := by
  have seated : Move.Seated ⟨.behind a.comment, a.current⟩ d.children :=
    ⟨q, front, back, by rw [kids, List.append_assoc]⟩
  obtain ⟨claims', placed⟩ := reconcile_seated wf seated (List.Subset.refl _) claims
  have updated : a.update (context.find? path.segments) ⟨d, claims⟩ = .ok a ⟨d, claims'⟩ :=
    (bind_ok (holds _)).trans (bind_ok placed)
  refine ⟨claims', ?_⟩
  rw [Slot.write, bind_ok updated]
  rfl

theorem rewritten_anchor
    (place : InPlace d claims q front back (parent.map Prod.fst) [.anchor id body path entries])
    (up : base.parent? id = some q)
    (done : Slot.writeAll w.plain [.anchor path (.ofEntries id entries)] ⟨d, claims⟩ =
      ((none, written), ⟨d', claims'⟩)) :
    Rewritten base w.plain d d' [.anchor path (.ofEntries id entries)] written (idsAll (plantsOf entries)) := by
  have wf := place.wellFormed
  have kids := anchor_kids place
  obtain ⟨e, claims₁, new, rest, d₁, d₂, steps⟩ := exists_steps wf claims kids (anchor_stand place).2 place.fits.1.2
    (anchor_apart place) (anchor_unclaimed place) ((w.find? path.segments).getD .null)
  have wrote : (Slot.anchor path (.ofEntries id entries)).write w.plain ⟨d, claims⟩ =
      .ok (.anchor path (.ofEntries id new)) ⟨e, claims₁⟩ := by
    rw [Slot.write, ValueOf.plain, ValueOf.find?_relabel]
    exact bind_ok steps.updated
  rw [writeAll_single wrote] at done
  cases done
  have shown : valueAt (w.plain : Value) path = ((w.find? path.segments).getD .null).plain := by
    rw [ValueOf.plain, ValueOf.plain, valueAt_relabel]
    rfl
  obtain ⟨taken, fresh, turn⟩ := steps.turn
  have outer : q ∉ idsAll (plantsOf entries) := fun mem =>
    (List.nodup_cons.mp (anchor_apart place)).1 (List.mem_cons_of_mem _ mem)
  refine ⟨fun slot mem => ?_, fun f holds _ alive => ?_, ?_, fun slot mem plain => ?_⟩
  · rw [List.mem_singleton.mp mem]
    intro stage
    rw [shown]
    exact Anchor.layOut_again _ steps.laid stage
  · have refilled := turn.refilled steps.reseated steps.cleared place.live outer
    exact holds.congr (refilled.spares.content _ holds.contains alive)
  · by_cases holds : (Slot.anchor path (.ofEntries id entries)).Holds w.plain d
    · obtain ⟨claims₂, still⟩ := update_of_holds wf kids holds claims
      rw [wrote, EStateM.Result.ok.injEq, Stage.mk.injEq] at still
      rw [still.2.1]
      exact .refl d
    · exact (steps.tells wf kids place.live).mono fun record fit =>
        ⟨_, List.mem_singleton_self _, ⟨q, up, fit⟩, holds⟩
  · rw [List.mem_singleton.mp mem] at plain
    cases plain

end Anchor

/-! ## All trees -/

/-- Where the trees of a dressing stood at first: among the children of a node. -/
structure Origin (base : Document) (q : NodeId) (gs : List Dressing) : Prop where
  wellFormed : WellFormed base
  stand : StandAll base (Dressing.plantsAll gs)
  kids : ∀ x ∈ (Dressing.plantsAll gs).map Planted.root, x ∈ base.children q

section Trees

variable {parent : Option (String × NodeId)} {w : ValueOf Empty} {g : Dressing} {gs rest : List Dressing}

theorem Origin.head (origin : Origin base q (g :: rest)) : Origin base q [g] where
  wellFormed := origin.wellFormed
  stand := by
    rw [Dressing.plantsAll, Dressing.plantsAll, List.append_nil]
    exact (standAll_append.mp origin.stand).1
  kids := fun x mem => origin.kids x (by
    rw [Dressing.plantsAll, Dressing.plantsAll, List.append_nil] at mem
    rw [Dressing.plantsAll, List.map_append]
    exact List.mem_append_left _ mem)

theorem Origin.tail (origin : Origin base q (g :: rest)) : Origin base q rest where
  wellFormed := origin.wellFormed
  stand := (standAll_append.mp origin.stand).2
  kids := fun x mem => origin.kids x (by
    rw [Dressing.plantsAll, List.map_append]
    exact List.mem_append_right _ mem)

/-- The element around a dressing is outside. -/
theorem InPlace.outside (place : InPlace d claims q front back (parent.map Prod.fst) gs) (held : Held d q parent)
    (tag : String) (holder : NodeId) (area : parent = some (tag, holder)) :
    holder ∉ idsAll (Dressing.plantsAll gs) := by
  rw [(held _ _ area).1]
  exact (List.nodup_cons.mp place.apart).1

section Leaving

variable (nodup : (idsAll (Dressing.plantsAll (g :: rest))).Nodup)
  (outside : ∀ tag holder, parent = some (tag, holder) → holder ∉ idsAll (Dressing.plantsAll (g :: rest)))
include nodup outside

/-- What is written to is not among the entries. -/
theorem not_entry_of_written (mem : slot ∈ Dressing.slotsAll parent (g :: rest)) (writes : slot.written? = some x) :
    x ∉ idsAll (plantsOf g.entriesIn) ∧ x ∉ idsAll (plantsOf (Dressing.entriesInAll rest)) := by
  have off : x ∉ idsAll (plantsOf (Dressing.entriesInAll (g :: rest))) := by
    rcases written_mem_all mem writes with basis | area
    · have apart := (List.nodup_append.mp ((Dressing.idsAll_plantsAll_perm _).nodup_iff.mp nodup)).2.2
      exact fun entry => apart x basis x entry rfl
    · exact fun entry => outside _ _ area (Dressing.mem_ids_plantsAll.mpr (.inr entry))
  rwa [Dressing.entriesInAll, plantsOf_append, idsAll_append, List.mem_append, not_or] at off

/-- Siblings leave to each other what they hold. -/
theorem leaves_of_siblings (clear : (Dressing.slotsAll parent (g :: rest)).Pairwise (Clear True)) :
    Leaves (g.slots parent) (Dressing.slotsAll parent rest) (idsAll (plantsOf (Dressing.entriesInAll rest))) ∧
      Leaves (Dressing.slotsAll parent rest) (g.slots parent) (idsAll (plantsOf g.entriesIn)) := by
  have apart := (List.pairwise_append.mp clear).2.2
  have away : ∀ slot node, slot ∈ Dressing.slotsAll parent (g :: rest) → slot.written? = some node →
      node ∉ idsAll (plantsOf g.entriesIn) ∧ node ∉ idsAll (plantsOf (Dressing.entriesInAll rest)) :=
    fun _ _ => not_entry_of_written nodup outside
  exact ⟨.of_clear apart fun slot mem node writes => (away slot node (List.mem_append_left _ mem) writes).2,
    .of_clear_symm apart fun slot mem node writes => (away slot node (List.mem_append_right _ mem) writes).1⟩

end Leaving

open Dressing in
mutual

theorem rewritten_tree (w : ValueOf Empty) : ∀ (g : Dressing) {d d' : Document} {claims claims' : Claims} {q : NodeId}
    {front back : List NodeId} {parent : Option (String × NodeId)} {written : List Slot},
    InPlace d claims q front back (parent.map Prod.fst) [g] → Held d q parent → Origin base q [g] →
    (g.slots parent).Pairwise (Clear True) →
    Slot.writeAll w.plain (g.slots parent) ⟨d, claims⟩ = ((none, written), ⟨d', claims'⟩) →
    Rewritten base w.plain d d' (g.slots parent) written (idsAll (plantsOf g.entriesIn))
  | .text id source content, _, _, _, _, _, _, _, _, _, place, _, _, clear, done => by
      refine .of_plain place.wellFormed (fun slot mem => ?_) clear done
      exact Slot.written?_isSome.mpr fun path a same => anchor_not_mem_text (same ▸ mem)
  | .comment id body, _, _, _, _, _, _, _, _, _, _, _, _, _, done => by
      cases done
      exact .nil base w.plain _
  | .anchor id body path entries, _, _, _, _, _, _, _, _, _, place, _, origin, _, done =>
      rewritten_anchor place (origin.wellFormed.parent_iff.mpr (origin.kids id (by
        rw [plantsAll_anchor]
        exact List.mem_cons_self))) done
  | .element id tag source attributes children, _, _, claims, _, _, _, _, _, _, place, _, origin, clear, done => by
      obtain ⟨⟨e, found, -, attributes_eq⟩, -, -⟩ := place.stand.1
      obtain ⟨names, readable, worn, -, -⟩ := place.fits.1
      obtain ⟨d₁, e₁, wrote, found₁, -, -, -, -, first⟩ :=
        spares_attributes claims w.plain place.wellFormed found attributes_eq tag names readable worn
      obtain ⟨written', later, rfl⟩ := of_writeAll_append wrote done
      obtain ⟨clear, clear', apart⟩ := List.pairwise_append.mp clear
      have held₁ : Held d₁ id (some (tag, id)) := by
        rintro _ _ ⟨⟩
        exact ⟨rfl, e₁, found₁⟩
      have inside : InPlace d₁ claims id [] [] ((some (tag, id)).map Prod.fst) children := place.inside first found₁
      obtain ⟨-, kids, stand⟩ := origin.stand.1
      have origin' : Origin base id children := ⟨origin.wellFormed, stand, fun x mem => kids ▸ mem⟩
      have plain : ∀ slot ∈ source.flatMap (attributeSlots id tag), slot.written?.isSome = true := fun slot mem =>
        Slot.written?_isSome.mpr fun path a same => anchor_not_mem_attributes (same ▸ mem)
      have below := rewritten_trees w children inside held₁ origin' clear' later
      refine (Rewritten.of_plain place.wellFormed plain clear wrote).append below
        (.of_clear apart fun slot mem node writes => ?_) (.of_clear_symm apart fun _ _ _ _ => List.not_mem_nil)
      have own := writtenBy_attributes id tag source (List.mem_filterMap.mpr ⟨slot, mem, writes⟩)
      rw [List.mem_singleton.mp own]
      exact fun entry => (List.nodup_cons.mp inside.apart).1 (mem_ids_plantsAll.mpr (.inr entry))

/-- Writing the slots of a dressing tells only of those that did not hold the context. -/
theorem rewritten_trees (w : ValueOf Empty) : ∀ (gs : List Dressing) {d d' : Document} {claims claims' : Claims}
    {q : NodeId} {front back : List NodeId} {parent : Option (String × NodeId)} {written : List Slot},
    InPlace d claims q front back (parent.map Prod.fst) gs → Held d q parent → Origin base q gs →
    (Dressing.slotsAll parent gs).Pairwise (Clear True) →
    Slot.writeAll w.plain (Dressing.slotsAll parent gs) ⟨d, claims⟩ = ((none, written), ⟨d', claims'⟩) →
    Rewritten base w.plain d d' (Dressing.slotsAll parent gs) written (idsAll (plantsOf (entriesInAll gs)))
  | [], _, _, _, _, _, _, _, _, _, _, _, _, _, done => by
      cases done
      exact .nil base w.plain _
  | g :: rest, _, _, _, _, _, _, _, _, _, place, held, origin, clear, done => by
      obtain ⟨d₁, claims₁, hs, wrote, first⟩ := redress_tree w g place.head held
      obtain ⟨written', later, rfl⟩ := of_writeAll_append wrote done
      obtain ⟨leaves, leaves'⟩ := leaves_of_siblings (List.nodup_cons.mp place.apart).2 (place.outside held) clear
      obtain ⟨clear, clear', -⟩ := List.pairwise_append.mp clear
      rw [entriesInAll, plantsOf_append, idsAll_append]
      exact (rewritten_tree w g place.head held origin.head clear wrote).append
        (rewritten_trees w rest (first.tail place held) (first.held_after held) origin.tail clear' later) leaves leaves'

end

end Trees

end Inlay.Render
