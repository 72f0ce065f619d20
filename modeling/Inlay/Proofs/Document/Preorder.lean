/-
# Proofs.Document.Preorder — the walk at and below a node is the recursive listing

A listing of nodes is `Recursive` when every node comes in front of the listings of its
children in their order, and a dead id has no listing; a text is `Gathered` when it is what
the node says itself and then what its children say. In a well-formed document exactly one
listing and one text are of this kind, by induction from the children to the node
(`WellFormed.children_induction`): the nodes that the walk along the links comes to, and the
text content.

Discarding frees the nodes in the order of the walk, so the nodes that are made next take
their slots from the last of them to the first (`create_takes_freed`).
-/
import Inlay.Proofs.Document.Connected
import Inlay.Proofs.Document.Planted
import Inlay.Proofs.Document.Forest

namespace Inlay.Document

set_option autoImplicit false

open Relation Planted

variable {d d' : Document} {x id node : NodeId} {ps : List Planted}

/-! ## Listings that recurse -/

/-- A node comes in front of the listings of its children in their order. -/
def Recursive (d : Document) (listing : NodeId → List NodeId) : Prop :=
  ∀ id, listing id = if d.contains id then id :: (d.children id).flatMap listing else []

/-- What a node says itself. -/
def ownText (d : Document) (id : NodeId) : String :=
  match d.content? id with
  | some (.text data) => data
  | _ => ""

/-- The text of a node is its own and then those of its children in their order. -/
def Gathered (d : Document) (text : NodeId → String) : Prop :=
  ∀ id, text id = d.ownText id ++ String.join ((d.children id).map text)

theorem idsAll_eq_flatMap (wf : WellFormed d) : ∀ {ps : List Planted}, StandAll d ps →
    idsAll ps = (ps.map root).flatMap d.descendants
  | [], _ => rfl
  | p :: ps, ⟨stands, stand⟩ => by
      rw [idsAll, List.map_cons, List.flatMap_cons, stands.descendants_eq wf, idsAll_eq_flatMap wf stand]

/-- The walk comes to a node and then, child by child, to what the walks at its children come to. -/
theorem WellFormed.recursive_descendants (wf : WellFormed d) : Recursive d d.descendants := by
  intro id
  split
  · next live =>
    obtain ⟨ps, kids, stand⟩ := exists_children wf id
    rw [descendants_eq wf live kids stand, idsAll_eq_flatMap wf stand, kids]
  · next dead => rw [descendants_eq_walk wf.linked wf.acyclic, if_neg dead]

/-- What holds of a node when it holds of its children holds of every node. The induction is on
the number of nodes below. -/
theorem WellFormed.children_induction (wf : WellFormed d) {motive : NodeId → Prop}
    (step : ∀ id, (∀ c ∈ d.children id, motive c) → motive id) (id : NodeId) : motive id := by
  induction count : (d.descendants id).length using Nat.strong_induction_on generalizing id with
  | _ n ih =>
      refine step id fun c mem => ih _ ?_ c rfl
      have live := wf.contains_parent mem
      have inside : List.Sublist (d.descendants c) ((d.children id).flatMap d.descendants) := by
        rw [List.flatMap_def]
        exact List.sublist_flatten_of_mem (List.mem_map_of_mem mem)
      have fewer := inside.length_le
      rw [← count, wf.recursive_descendants id, if_pos live, List.length_cons]
      omega

theorem Recursive.eq_descendants (wf : WellFormed d) {listing : NodeId → List NodeId} (recursive : Recursive d listing) :
    listing = d.descendants := by
  funext id
  induction id using wf.children_induction with
  | step id ih =>
      rw [recursive id, wf.recursive_descendants id]
      split
      · rw [List.flatMap_congr ih]
      · rfl

theorem textContent_eq_join (d : Document) (id : NodeId) :
    d.textContent id = String.join ((d.descendants id).map d.ownText) := by
  unfold textContent
  induction d.descendants id with
  | nil => rfl
  | cons x rest ih =>
      rw [List.map_cons, String.join_cons, ← ih, List.filterMap_cons, ownText]
      cases d.content? x with
      | none => exact String.empty_append.symm
      | some content =>
          cases content with
          | text data => exact String.join_cons
          | element | comment | fragment => exact String.empty_append.symm

theorem WellFormed.gathered_textContent (wf : WellFormed d) : Gathered d d.textContent := by
  have join_flatMap : ∀ ids : List NodeId, String.join ((ids.flatMap d.descendants).map d.ownText) =
      String.join (ids.map d.textContent) := by
    intro ids
    induction ids with
    | nil => rfl
    | cons c rest ih =>
        rw [List.flatMap_cons, List.map_append, String.join_append, ih, List.map_cons, String.join_cons,
          textContent_eq_join d c]
  intro id
  rw [textContent_eq_join, wf.recursive_descendants id]
  cases live : d.contains id with
  | true => rw [if_pos rfl, List.map_cons, String.join_cons, join_flatMap]
  | false =>
      rw [if_neg Bool.false_ne_true, wf.children_eq_nil live, ownText, content?_eq_none live]
      rfl

theorem Gathered.eq_textContent (wf : WellFormed d) {text : NodeId → String} (gathered : Gathered d text) :
    text = d.textContent := by
  funext id
  induction id using wf.children_induction with
  | step id ih => rw [gathered id, wf.gathered_textContent id, List.map_congr_left ih]

/-! ## Slots that are used again -/

/-- The id that comes next in the slot of an id. -/
def successor (id : NodeId) : NodeId := ⟨id.index, id.generation + 1⟩

/-- Makes nodes one after another, and lists their ids. -/
def createAll : List Content → Document → List NodeId × Document
  | [], d => ([], d)
  | content :: rest, d =>
    let (id, d) := create content d
    let (ids, d) := createAll rest d
    (id :: ids, d)

/-- A new node takes the slot that was freed last, in the generation it has come to. -/
theorem create_takes {i : Nat} {free : List Nat} (kept : Kept d) (content : Content) (first : d.free = i :: free) :
    (create content d).1 = ⟨i, d.generationAt i⟩ ∧ (create content d).2.free = free := by
  obtain ⟨g, found⟩ := (kept.mem_free i).mp (by simp [first])
  simp [create, count, first, found, generationAt]

theorem createAll_takes : ∀ (contents : List Content) {d : Document}, Kept d → contents.length ≤ d.free.length →
    (createAll contents d).1 = (d.free.take contents.length).map fun i => ⟨i, d.generationAt i⟩
  | [], _, _, _ => rfl
  | content :: rest, d, kept, enough => by
      obtain ⟨i, free, first⟩ := List.exists_cons_of_length_pos (Nat.lt_of_lt_of_le (Nat.succ_pos _) enough)
      obtain ⟨here, left⟩ := create_takes kept content first
      have same : ∀ j, (create content d).2.generationAt j = d.generationAt j := fun j => by
        rw [(Freed.create kept).generation]
        exact UInt32.add_zero _
      rw [first, List.length_cons, List.length_cons] at enough
      have others := createAll_takes rest kept.create (left ▸ Nat.le_of_succ_le_succ enough)
      simp only [same, left] at others
      rw [first, List.length_cons, List.take_succ_cons, List.map_cons, ← others, ← here]
      rfl

/-- Freeing nodes one after another puts their slots in front of those that are free. -/
theorem free_foldl_release : ∀ (ids : List NodeId) (d : Document),
    (ids.foldl release d).free = (ids.map NodeId.index).reverse ++ d.free
  | [], _ => rfl
  | id :: rest, d => by
      rw [List.foldl_cons, free_foldl_release rest, List.map_cons, List.reverse_cons, List.append_assoc]
      rfl

theorem eq_of_index {a b : NodeId} (liveA : d.contains a = true) (liveB : d.contains b = true)
    (same : a.index = b.index) : a = b := by
  have generation := generationAt_of_contains liveA
  rw [same, generationAt_of_contains liveB] at generation
  cases a; cases b
  exact congrArg₂ NodeId.mk same generation.symm

/-- The slot of each of them comes to its next generation. -/
theorem generationAt_foldl_release : ∀ (ids : List NodeId) {d : Document}, ids.Nodup →
    (∀ id ∈ ids, d.contains id = true) → ∀ i : Nat,
    (ids.foldl release d).generationAt i = if i ∈ ids.map NodeId.index then d.generationAt i + 1 else d.generationAt i
  | [], _, _, _, _ => by simp
  | id :: rest, d, nodup, lives, i => by
      obtain ⟨absent, nodup⟩ := List.nodup_cons.mp nodup
      obtain ⟨live, lives⟩ := List.forall_mem_cons.mp lives
      have livesRest : ∀ x ∈ rest, (d.release id).contains x = true := by
        intro x mem
        have other : x ≠ id := fun same => absent (same ▸ mem)
        rw [contains, get?_release live, if_neg other]
        exact lives x mem
      have apart : id.index ∉ rest.map NodeId.index := by
        rintro mem
        obtain ⟨x, there, same⟩ := List.mem_map.mp mem
        exact absent (eq_of_index (lives x there) live same ▸ there)
      have here := (Freed.release live).generation i
      rw [List.foldl_cons, generationAt_foldl_release rest nodup livesRest, here, List.map_cons]
      by_cases first : i = id.index
      · subst first
        simp [apart]
      · simp [first]

/-- What a discard frees, and where the nodes that are made next come to stand. -/
theorem discard_frees (wf : WellFormed d) (done : discard node d = .ok () d') :
    d'.free = ((d.descendants node).map NodeId.index).reverse ++ d.free ∧
      ∀ x ∈ d.descendants node, d'.generationAt x.index = x.generation + 1 := by
  rcases remove_cases wf node with ⟨fault, refused⟩ | ⟨d₁, removed, live, inner⟩
  · rw [discard, Edit.bind_error refused] at done
    cases done
  rw [discard, Edit.bind_ok removed] at done
  cases done
  obtain ⟨_, unlinked, out⟩ := remove_becomes wf live inner
  cases unlinked.symm.trans removed
  obtain ⟨_, unlinked, same, -⟩ := wf.linked.unlink live
  have check : d.admitsRemoval node = .ok () := by
    obtain ⟨n, found⟩ := contains_iff.mp live
    simp [admitsRemoval, inner, live_eq_ok found, Except.map]
  rw [remove, Edit.bind_ok (Edit.require_ok check), unlinked] at removed
  cases removed
  have live₁ : d₁.contains node = true := (contains_congr out.content node).trans live
  have whole : d₁.descendants node = d.descendants node := by
    refine descendants_congr wf out.wellFormed live live₁ fun z below => ?_
    rw [out.children]
    exact List.erase_of_not_mem fun mem => wf.acyclic.not_below (wf.parent_iff.mpr mem) below
  have nodup := descendants_nodup (x := node) wf.linked wf.acyclic
  have lives : ∀ x ∈ d.descendants node, d.contains x = true := fun x mem =>
    wf.contains_of_below live (wf.mem_descendants.mp mem).2
  rw [releaseTree, whole]
  refine ⟨by rw [free_foldl_release, same.free], fun x mem => ?_⟩
  have lives₁ : ∀ x ∈ d.descendants node, d₁.contains x = true := fun x mem => (same.contains x).trans (lives x mem)
  rw [generationAt_foldl_release _ nodup lives₁, if_pos (List.mem_map_of_mem mem), generationAt_of_contains (lives₁ x mem)]

/-- What a discard freed is used again from the last node of the walk to the first. -/
theorem create_takes_freed (wf : WellFormed d) (done : discard node d = .ok () d') {contents : List Content}
    (few : contents.length ≤ (d.descendants node).length) :
    (createAll contents d').1 = ((d.descendants node).reverse.take contents.length).map successor := by
  obtain ⟨free, generation⟩ := discard_frees wf done
  have kept := (Safe.discard node d wf).wellFormed.kept
  rw [Edit.after_ok done] at kept
  have enough : contents.length ≤ ((d.descendants node).map NodeId.index).reverse.length := by simpa using few
  rw [createAll_takes contents kept (by rw [free, List.length_append]; omega), free,
    List.take_append_of_le_length enough, ← List.map_reverse, ← List.map_take, List.map_map]
  refine List.map_congr_left fun x mem => ?_
  have there : x ∈ d.descendants node := List.mem_reverse.mp (List.mem_of_mem_take mem)
  exact congrArg (NodeId.mk x.index) (generation x there)

/-! ## Reachable documents -/

/-- In every document that public operations lead to, the walk along the links ends at every
id, after two steps for each node it comes to. The nodes are those of the only listing that
recurses: each node below the id once, and none for a dead id. The text content is the only
text that is gathered in the same way. A discard frees the slots in this order, and the nodes
that are made next take them in the reverse order. -/
theorem descendants_recurse (run : List Operation) :
    (∀ id, Walked (new.performAll run) id ((new.performAll run).startAt id) ((new.performAll run).descendants id)
      (2 * ((new.performAll run).descendants id).length)) ∧
    (∀ listing, Recursive (new.performAll run) listing ↔ listing = (new.performAll run).descendants) ∧
    (∀ id, ((new.performAll run).descendants id).Nodup ∧ ∀ x, x ∈ (new.performAll run).descendants id ↔
      (new.performAll run).contains id = true ∧ Below (new.performAll run) x id) ∧
    (∀ text, Gathered (new.performAll run) text ↔ text = (new.performAll run).textContent) ∧
    ∀ node d', discard node (new.performAll run) = .ok () d' →
      d'.free = (((new.performAll run).descendants node).map NodeId.index).reverse ++ (new.performAll run).free ∧
      ∀ contents : List Content, contents.length ≤ ((new.performAll run).descendants node).length →
        (createAll contents d').1 =
          (((new.performAll run).descendants node).reverse.take contents.length).map successor := by
  have wf := wellFormed_new.performAll run
  generalize new.performAll run = d at wf
  refine ⟨fun id => ?_, fun listing => ⟨Recursive.eq_descendants wf, ?_⟩, fun id => ⟨?_, fun x => wf.mem_descendants⟩,
    fun text => ⟨Gathered.eq_textContent wf, ?_⟩, fun node d' done => ⟨(discard_frees wf done).1, ?_⟩⟩
  · exact walked_descendants wf.linked wf.acyclic
  · rintro rfl
    exact wf.recursive_descendants
  · exact descendants_nodup wf.linked wf.acyclic
  · rintro rfl
    exact wf.gathered_textContent
  · exact fun contents few => create_takes_freed wf done few

/-- A list of two items between others, whose slots were taken in another order. -/
def nested : List Operation :=
  [.create (.element (.plain "ul" [])), .create (.element (.plain "li" [])), .create (.text "a"),
    .create (.element (.plain "li" [])), .create (.element (.plain "p" [])), .append ⟨0, 0⟩ ⟨1, 0⟩,
    .append ⟨0, 0⟩ ⟨5, 0⟩, .append ⟨1, 0⟩ ⟨4, 0⟩, .append ⟨4, 0⟩ ⟨3, 0⟩, .append ⟨1, 0⟩ ⟨2, 0⟩]

theorem descendants_recurse_nested :
    (new.performAll nested).descendants ⟨1, 0⟩ = [⟨1, 0⟩, ⟨4, 0⟩, ⟨3, 0⟩, ⟨2, 0⟩] ∧
    Walked (new.performAll nested) ⟨1, 0⟩ (.entering ⟨1, 0⟩) [⟨1, 0⟩, ⟨4, 0⟩, ⟨3, 0⟩, ⟨2, 0⟩] 8 ∧
    ∃ d', discard ⟨1, 0⟩ (new.performAll nested) = .ok () d' ∧
      (createAll [.text "b", .comment "c", .text "d", .fragment] d').1 = [⟨2, 1⟩, ⟨3, 1⟩, ⟨4, 1⟩, ⟨1, 1⟩] := by
  have list : (new.performAll nested).descendants ⟨1, 0⟩ = [⟨1, 0⟩, ⟨4, 0⟩, ⟨3, 0⟩, ⟨2, 0⟩] := by decide +kernel
  have live : (new.performAll nested).contains ⟨1, 0⟩ = true := by decide +kernel
  have inner : (⟨1, 0⟩ : NodeId) ≠ (new.performAll nested).body := by decide +kernel
  obtain ⟨walked, -, -, -, frees⟩ := descendants_recurse nested
  obtain ⟨d', done, -⟩ := discard_becomes (wellFormed_new.performAll nested) live inner
  have here := walked ⟨1, 0⟩
  have again := (frees ⟨1, 0⟩ d' done).2 [.text "b", .comment "c", .text "d", .fragment]
  rw [list] at here again
  rw [startAt, if_pos live] at here
  exact ⟨list, here, d', done, again (Nat.le_refl 4)⟩

end Inlay.Document
