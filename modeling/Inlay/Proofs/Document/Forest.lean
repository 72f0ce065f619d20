/-
# Proofs.Document.Forest — every reachable document is a forest

A run is a sequence of public operations with any arguments, stale ids included;
an operation that is refused leaves what it leaves, and the run goes on. In the
document behind any run the five links of every node agree with one forest, and
the free list and the tally account for every slot (`Forest`).

One operation preserves `WellFormed` because every edit is safe; a run does by
induction. A forest is what a well-formed document shows to somebody who follows
its links one at a time.
-/
import Inlay.Proofs.Document.Safe

namespace Inlay.Document

set_option autoImplicit false

open Relation

variable {d : Document} {x p c : NodeId}

/-! ## Runs -/

/-- The public operations on a document, with their arguments. -/
inductive Operation where
  | create (content : Content)
  | append (parent node : NodeId)
  | insertBefore (parent node : NodeId) (reference : Option NodeId)
  | remove (node : NodeId)
  | discard (node : NodeId)
  | setText (id : NodeId) (value : String)
  | setAttribute (id : NodeId) (name value : String)
  | removeAttribute (id : NodeId) (name : String)
  | setProperty (id : NodeId) (name : String) (value : Property)
  | copy (id : NodeId)
  /-- Copies a node of another document, which may be any. -/
  | copyFrom (source : Document) (id : NodeId)
  | parse (source : String)
  | startRecording
  | stopRecording
  | takeRecords

/-- The document an operation leaves, whether it succeeds or is refused. -/
def perform (d : Document) : Operation → Document
  | .create content => (create content d).2
  | .append parent node => (append parent node).after d
  | .insertBefore parent node reference => (insertBefore parent node reference).after d
  | .remove node => (remove node).after d
  | .discard node => (discard node).after d
  | .setText id value => (setText id value).after d
  | .setAttribute id name value => (setAttribute id name value).after d
  | .removeAttribute id name => (removeAttribute id name).after d
  | .setProperty id name value => (setProperty id name value).after d
  | .copy id => (copy id).after d
  | .copyFrom source id => (copyFrom source id).after d
  | .parse source => (parse source).after d
  | .startRecording => d.startRecording
  | .stopRecording => d.stopRecording.2
  | .takeRecords => d.takeRecords.2

/-- The document behind a run. -/
def performAll (d : Document) (run : List Operation) : Document := run.foldl perform d

theorem WellFormed.perform (wf : WellFormed d) : ∀ operation, WellFormed (d.perform operation)
  | .create content => (create_becomes wf content).2.wellFormed
  | .append parent node => (Safe.append parent node d wf).wellFormed
  | .insertBefore parent node reference => (Safe.insertBefore parent node reference d wf).wellFormed
  | .remove node => (Safe.remove node d wf).wellFormed
  | .discard node => (Safe.discard node d wf).wellFormed
  | .setText id value => (Safe.setText id value d wf).wellFormed
  | .setAttribute id name value => (Safe.setAttribute id name value d wf).wellFormed
  | .removeAttribute id name => (Safe.removeAttribute id name d wf).wellFormed
  | .setProperty id name value => (Safe.setProperty id name value d wf).wellFormed
  | .copy id => (Safe.copy id d wf).wellFormed
  | .copyFrom source id => (Safe.copyFrom source id d wf).wellFormed
  | .parse source => (Safe.parse source d wf).wellFormed
  | .startRecording => wf.of_journal _
  | .stopRecording => wf.of_journal _
  | .takeRecords => wf.of_journal _

theorem WellFormed.performAll (wf : WellFormed d) (run : List Operation) :
    WellFormed (d.performAll run) := by
  induction run generalizing d with
  | nil => exact wf
  | cons operation rest ih => exact ih (wf.perform operation)

/-! ## Forests -/

/-- The ids are exactly those met from a start along a link. -/
def Trail (next : NodeId → Option NodeId) : Option NodeId → List NodeId → Prop
  | start, [] => start = none
  | start, id :: rest => start = some id ∧ Trail next (next id) rest

/-- The links of a node. -/
def Node.links (n : Node) : List (Option NodeId) :=
  [n.parent, n.firstChild, n.lastChild, n.previousSibling, n.nextSibling]

/-- The slots that hold a node. -/
def inUse (d : Document) : List Slot := d.slots.toList.filter (·.node.isSome)

/-- The links of a document make one forest, and its slots are accounted for. -/
structure Forest (d : Document) : Prop where
  links_live : ∀ id n, d.get? id = some n → ∀ target, some target ∈ Node.links n →
    d.contains target = true
  forth : ∀ p, Trail d.nextSibling? (d.firstChild? p) (d.children p)
  back : ∀ p, Trail d.previousSibling? (d.lastChild? p) (d.children p).reverse
  mem_children : ∀ p c, c ∈ d.children p ↔ d.parent? c = some p
  nodup : ∀ p, (d.children p).Nodup
  acyclic : ∀ x, ¬ TransGen d.Up x x
  containers : ∀ p, d.children p ≠ [] → ∃ c, d.content? p = some c ∧ c.isContainer = true
  fragment_loose : ∀ x, d.content? x = some .fragment → d.parent? x = none
  body_live : d.contains d.body = true
  body_loose : d.parent? d.body = none
  free_nodup : d.free.Nodup
  mem_free : ∀ i : Nat, i ∈ d.free ↔ ∃ slot, d.slots[i]? = some slot ∧ slot.node = none
  size_eq : d.size = (inUse d).length
  balance : (d.size : Int) = d.tally.created - d.tally.discarded + 1

theorem trail_forth (wf : WellFormed d) : ∀ front behind : List NodeId,
    d.children p = front ++ behind → Trail d.nextSibling? behind.head? behind
  | _, [], _ => rfl
  | front, c :: behind, split => by
      refine ⟨rfl, ?_⟩
      rw [(wf.linked.around p front c behind split).2.2]
      exact trail_forth wf (front ++ [c]) behind (by simp [split])

theorem trail_back (wf : WellFormed d) : ∀ front behind : List NodeId,
    d.children p = front.reverse ++ behind → Trail d.previousSibling? front.head? front
  | [], _, _ => rfl
  | c :: front, behind, split => by
      refine ⟨rfl, ?_⟩
      have cut : d.children p = front.reverse ++ c :: behind := by simp [split]
      rw [(wf.linked.around p _ c behind cut).2.1, List.getLast?_reverse]
      exact trail_back wf front (c :: behind) cut

/-- The items of a list that have a property are as many as their indices. -/
theorem length_filter_range {α : Type} (has : α → Bool) (list : List α) :
    ((List.range list.length).filter fun i => list[i]?.any has).length = (list.filter has).length := by
  induction list using List.reverseRecOn with
  | nil => rfl
  | append_singleton list a ih =>
      have front : ((List.range list.length).filter fun i => (list ++ [a])[i]?.any has) =
          (List.range list.length).filter fun i => list[i]?.any has := by
        refine List.filter_congr fun i mem => ?_
        rw [List.getElem?_append_left (List.mem_range.mp mem)]
      simp only [List.length_append, List.length_singleton, List.range_succ, List.filter_append, front,
        ih]
      by_cases here : has a <;> simp [here]

/-- The free slots are the empty ones, so the others are in use. -/
theorem WellFormed.size_eq (wf : WellFormed d) : d.size = (inUse d).length := by
  let empty : List Nat :=
    (List.range d.slots.toList.length).filter fun i => d.slots.toList[i]?.any (·.node.isNone)
  have same : d.free.Perm empty := by
    refine (List.perm_ext_iff_of_nodup wf.kept.free_nodup (List.nodup_range.filter _)).mpr fun i => ?_
    rw [wf.kept.mem_free, List.mem_filter, List.mem_range]
    constructor
    · rintro ⟨generation, found⟩
      have inBounds := (Array.getElem?_eq_some_iff.mp found).1
      exact ⟨by simpa using inBounds, by simp [found]⟩
    · rintro ⟨-, isEmpty⟩
      cases found : d.slots[i]? with
      | none => simp [found] at isEmpty
      | some slot =>
          obtain ⟨generation, node⟩ := slot
          simp only [Array.getElem?_toList, found, Option.any_some, Option.isNone_iff_eq_none]
            at isEmpty
          exact ⟨generation, by rw [isEmpty]⟩
  have free : d.free.length = (d.slots.toList.filter (·.node.isNone)).length :=
    same.length_eq.trans (length_filter_range _ _)
  have halves : d.slots.size = (inUse d).length + (d.slots.toList.filter (·.node.isNone)).length := by
    have := List.length_eq_length_filter_add (l := d.slots.toList) (·.node.isSome)
    simpa [inUse] using this
  rw [size, free]
  omega

/-- The ids of the live nodes. -/
def liveIds (d : Document) : List NodeId :=
  ((List.range d.slots.toList.length).filter fun i => d.slots.toList[i]?.any (·.node.isSome)).map
    fun i => ⟨i, d.generationAt i⟩

theorem mem_liveIds {x : NodeId} : x ∈ liveIds d ↔ d.contains x = true := by
  rw [liveIds, List.mem_map]
  constructor
  · rintro ⟨i, mem, rfl⟩
    have inUse := (List.mem_filter.mp mem).2
    cases found : d.slots[i]? with
    | none => simp [found] at inUse
    | some slot =>
        obtain ⟨generation, node⟩ := slot
        cases node with
        | none => simp [found] at inUse
        | some node => simp [contains, get?, generationAt, found]
  · intro live
    have generation := generationAt_of_contains live
    refine ⟨x.index, List.mem_filter.mpr ?_, by rw [generation]⟩
    cases found : d.slots[x.index]? with
    | none => simp [contains, get?, found] at live
    | some slot =>
        obtain ⟨g, node⟩ := slot
        refine ⟨?_, ?_⟩
        · have inside := (Array.getElem?_eq_some_iff.mp found).1
          simpa using inside
        · cases node with
          | none => simp [contains, get?, found] at live
          | some node => simp [found]

theorem nodup_liveIds : (liveIds d).Nodup :=
  (List.nodup_range.filter _).map fun _ _ same => congrArg NodeId.index same

theorem WellFormed.length_liveIds (wf : WellFormed d) : (liveIds d).length = d.size := by
  rw [wf.size_eq, liveIds, List.length_map]
  exact length_filter_range _ _

/-- A document in which some nodes live besides those of another one. -/
theorem WellFormed.size_eq_add (wf : WellFormed d) {base : Document} (wfBase : WellFormed base) {ids : List NodeId}
    (nodup : ids.Nodup) (apart : ∀ x ∈ ids, base.contains x = false)
    (alive : ∀ x, d.contains x = true ↔ base.contains x = true ∨ x ∈ ids) : d.size = base.size + ids.length := by
  have perm : (liveIds d).Perm (liveIds base ++ ids) := by
    refine (List.perm_ext_iff_of_nodup nodup_liveIds (List.nodup_append.mpr ⟨nodup_liveIds, nodup, ?_⟩)).mpr
      fun x => ?_
    · rintro x live _ mem rfl
      have dead := apart x mem
      rw [mem_liveIds.mp live] at dead
      cases dead
    · rw [mem_liveIds, List.mem_append, mem_liveIds, alive]
  rw [← wf.length_liveIds, ← wfBase.length_liveIds, perm.length_eq, List.length_append]

theorem WellFormed.forest (wf : WellFormed d) : Forest d where
  links_live := by
    intro id n found target mem
    simp only [Node.links, List.mem_cons, List.not_mem_nil, or_false] at mem
    have first := wf.linked.first id
    have last := wf.linked.last id
    simp only [firstChild?, lastChild?, found, Option.bind_some] at first last
    rcases mem with up | here | here | here | here
    · have step : d.parent? id = some target := by simp [parent?, found, ← up]
      exact wf.contains_parent (wf.parent_iff.mp step)
    · rw [first] at here
      exact wf.contains_child (List.mem_of_mem_head? here.symm)
    · rw [last] at here
      exact wf.contains_child (List.mem_of_getLast? here.symm)
    all_goals
      cases up : d.parent? id with
      | none =>
          have loose := wf.linked.loose id up
          simp [previousSibling?, nextSibling?, found, ← here] at loose
      | some q =>
          obtain ⟨front, behind, split⟩ := List.append_of_mem (wf.parent_iff.mp up)
          have around := (wf.linked.around q front id behind split).2
          simp only [previousSibling?, nextSibling?, found, Option.bind_some, ← here] at around
          refine wf.contains_child (p := q) ?_
          rw [split]
          first
            | exact List.mem_append_left _ (List.mem_of_getLast? around.1.symm)
            | exact List.mem_append_right _ (List.mem_cons_of_mem _ (List.mem_of_mem_head? around.2.symm))
  forth := by
    intro p
    rw [wf.linked.first]
    exact trail_forth wf [] _ rfl
  back := by
    intro p
    rw [wf.linked.last, ← List.head?_reverse]
    have all : d.children p = (d.children p).reverse.reverse ++ [] := by simp
    exact trail_back wf _ [] all
  mem_children := fun p c => wf.parent_iff.symm
  nodup := wf.nodup
  acyclic := wf.acyclic
  containers := wf.linked.container
  fragment_loose := wf.linked.placeable
  body_live := wf.body_contains
  body_loose := wf.body_loose
  free_nodup := wf.kept.free_nodup
  mem_free := by
    intro i
    rw [wf.kept.mem_free]
    constructor
    · rintro ⟨generation, found⟩
      exact ⟨_, found, rfl⟩
    · rintro ⟨⟨generation, node⟩, found, rfl⟩
      exact ⟨generation, found⟩
  size_eq := wf.size_eq
  balance := by
    have := wf.kept.balance
    omega

/-- Whatever is done to a new document, in whatever order and with whatever
arguments, the document behind it is a forest. -/
theorem forest_performAll (run : List Operation) : Forest (new.performAll run) :=
  (wellFormed_new.performAll run).forest

end Inlay.Document
