/-
# Proofs.Document.Insertion — inserting as an operation on lists of children

An insertion that is not refused takes a node out of the list of children it stands
in and puts it in front of the reference or at the end; in front of itself it stays
where it is. Of a fragment the children are moved, in their order, and it is left
empty. All other lists are as before, and so are all contents and everything below
what was moved (`Inserted`).

The children of a fragment move one by one. As long as the reference is none of them,
one formula says what a list of moves makes of every list of children
(`insertNodes_becomes`). It is one of them only when a fragment is inserted into
itself: then the moves in front of the reference and those behind it are such lists.
-/
import Inlay.Proofs.Document.Connected
import Inlay.Proofs.Document.Forest

namespace Inlay.Document

set_option autoImplicit false

open Relation

variable {d d' : Document} {x m node parent : NodeId} {reference : Option NodeId} {nodes front behind : List NodeId}

/-! ## Moving a list of nodes -/

/-- The list with other items, in their order, in front of one of its items or at the end. -/
def spliceBefore (nodes : List NodeId) (reference : Option NodeId) (list : List NodeId) : List NodeId :=
  match reference with
  | none => list ++ nodes
  | some reference => list.takeWhile (· ≠ reference) ++ nodes ++ list.dropWhile (· ≠ reference)

/-- The list with one of its items moved to the end, if it is given. -/
def putLast (item : Option NodeId) (list : List NodeId) : List NodeId :=
  match item with
  | none => list
  | some item => list.erase item ++ [item]

theorem spliceBefore_split (nodup : (front ++ behind).Nodup) :
    spliceBefore nodes behind.head? (front ++ behind) = front ++ nodes ++ behind := by
  cases behind with
  | nil => simp [spliceBefore]
  | cons b behind =>
      have before : ∀ x ∈ front, decide (x ≠ b) = true := by
        intro x mem
        simpa using fun same : x = b => (List.nodup_append.mp nodup).2.2 x mem b List.mem_cons_self same
      simp only [List.head?_cons, spliceBefore]
      rw [List.takeWhile_append_of_pos before, List.dropWhile_append_of_pos before]
      simp

/-- The lists of children once nodes stand between two parts of the parent's. -/
def spliced (parent : NodeId) (nodes front behind : List NodeId) (kids : NodeId → List NodeId) (p : NodeId) :
    List NodeId :=
  if p = parent then front.filter (· ∉ nodes) ++ nodes ++ behind.filter (· ∉ nodes)
  else (kids p).filter (· ∉ nodes)

/-- The first move and the others, one after the other. -/
theorem spliced_cons {rest : List NodeId} {kids : NodeId → List NodeId} (absent : node ∉ rest) :
    spliced parent rest (front.filter (· ≠ node) ++ [node]) (behind.filter (· ≠ node))
      (fun p => if p = parent then front.filter (· ≠ node) ++ node :: behind.filter (· ≠ node)
        else (kids p).filter (· ≠ node)) = spliced parent (node :: rest) front behind kids := by
  funext p
  unfold spliced
  split
  · rw [List.filter_append, filter_not_mem_cons, filter_not_mem_cons, List.filter_cons_of_pos (by simpa using absent)]
    simp
  · next away =>
      simp only [if_neg away]
      exact filter_not_mem_cons _

theorem insertNodes_becomes : ∀ (nodes : List NodeId) {d : Document} {front behind : List NodeId}, WellFormed d →
    (∀ n ∈ nodes, d.content? n ≠ some .fragment) → nodes.Nodup → (∀ n ∈ nodes, behind.head? ≠ some n) →
    d.children parent = front ++ behind → insertNodes parent behind.head? nodes d = .ok () d' →
    Becomes d d' d.content? (spliced parent nodes front behind d.children)
  | [], d, front, behind, wf, _, _, _, split, done => by
      have same : spliced parent [] front behind d.children = d.children := by
        funext p
        unfold spliced
        split
        · next here => simp [here, split]
        · simp
      cases done
      rw [same]
      exact .refl wf
  | node :: rest, d, front, behind, wf, solid, nodup, away, split, done => by
      obtain ⟨absent, nodup⟩ := List.nodup_cons.mp nodup
      obtain ⟨solidHere, solid⟩ := List.forall_mem_cons.mp solid
      obtain ⟨awayHere, away⟩ := List.forall_mem_cons.mp away
      obtain ⟨_, d₁, first, others⟩ := Edit.of_bind_ok done
      have becomes : Becomes d d₁ d.content? (moved d.children parent node behind.head?) := by
        rcases insertNode_cases wf parent behind.head? solidHere with ⟨fault, refused⟩ | ⟨d₂, done', becomes⟩
        · rw [refused] at first
          cases first
        · cases first.symm.trans done'
          exact becomes
      rw [moved_of_split wf split awayHere] at becomes
      have split₁ : d₁.children parent = (front.filter (· ≠ node) ++ [node]) ++ behind.filter (· ≠ node) := by
        rw [becomes.children]
        simp
      have head : (behind.filter (· ≠ node)).head? = behind.head? := by
        cases behind with
        | nil => rfl
        | cons b behind =>
            have ne : b ≠ node := by simpa using awayHere
            rw [List.filter_cons_of_pos (by simpa using ne)]
            rfl
      have later := insertNodes_becomes rest becomes.wellFormed (by rwa [becomes.content]) nodup
        (by rwa [head]) split₁ (by rwa [head])
      have all := becomes.trans later
      rwa [becomes.content, becomes.children, spliced_cons absent] at all

theorem of_insertNodes_append (front behind : List NodeId)
    (done : insertNodes parent reference (front ++ behind) d = .ok () d') :
    ∃ d₁, insertNodes parent reference front d = .ok () d₁ ∧ insertNodes parent reference behind d₁ = .ok () d' := by
  induction front generalizing d with
  | nil => exact ⟨d, rfl, done⟩
  | cons node front ih =>
      obtain ⟨_, d₁, first, rest⟩ := Edit.of_bind_ok done
      obtain ⟨d₂, others, last⟩ := ih rest
      exact ⟨d₂, by rw [insertNodes, Edit.bind_ok first, others], last⟩

/-! ## What is inserted -/

/-- An insertion that was not refused has checked the parent and the reference, and moved what it carries. -/
theorem of_insertBefore (wf : WellFormed d) (done : insertBefore parent node reference d = .ok () d') :
    Admitted d parent reference ∧ insertNodes parent reference (d.carried node) d = .ok () d' := by
  obtain ⟨nodes, d₁, checked, moves⟩ := Edit.of_bind_ok done
  obtain ⟨check, rfl⟩ := Edit.of_require_ok checked
  obtain ⟨admits, rfl⟩ := admits_of_check check
  exact ⟨admitted_of_admits wf admits, moves⟩

/-- What an insertion makes of the lists of children and of what it moves. -/
structure Inserted (parent node : NodeId) (reference : Option NodeId) (d d' : Document) : Prop where
  /-- A node that is no fragment stands in front of the reference; in front of itself is where it was. -/
  placed : d.content? node ≠ some .fragment → d'.children parent =
    if reference = some node then d.children parent
    else placeBefore node reference ((d.children parent).erase node)
  former : d.content? node ≠ some .fragment → ∀ p, d.parent? node = some p → p ≠ parent →
    d'.children p = (d.children p).erase node
  others : d.content? node ≠ some .fragment → ∀ p, d.parent? node ≠ some p → p ≠ parent →
    d'.children p = d.children p
  /-- The children of a fragment stand in front of the reference, in their order. -/
  emptied : d.content? node = some .fragment → node ≠ parent →
    d'.children parent = spliceBefore (d.children node) reference (d.children parent) ∧
      d'.children node = [] ∧ d'.parent? node = none
  /-- A fragment that is inserted into itself in front of a child has that child last. -/
  turned : d.content? node = some .fragment → node = parent →
    d'.children parent = putLast reference (d.children parent)
  left : d.content? node = some .fragment → ∀ p, p ≠ node → p ≠ parent → d'.children p = d.children p
  content : d'.content? = d.content?
  subtrees : ∀ m ∈ d.carried node, d'.descendants m = d.descendants m ∧
    ∀ x ∈ d.descendants m, d'.children x = d.children x

/-! ## Single nodes -/

theorem becomes_of_solid (wf : WellFormed d) (solid : d.content? node ≠ some .fragment)
    (done : insertBefore parent node reference d = .ok () d') :
    Movable d parent node ∧ Becomes d d' d.content? (moved d.children parent node reference) := by
  obtain ⟨-, moves⟩ := of_insertBefore wf done
  rw [carried_of_solid solid] at moves
  obtain ⟨_, d₁, first, last⟩ := Edit.of_bind_ok moves
  cases last
  obtain ⟨_, d₂, checked, -⟩ := Edit.of_bind_ok first
  obtain ⟨check, -⟩ := Edit.of_require_ok checked
  obtain ⟨d₃, done', becomes⟩ := insertNode_of_check wf solid check
  cases first.symm.trans done'
  exact ⟨(allowed_of_check wf solid check).2, becomes⟩

/-- A list that the node does not stand in, and that is not the parent's, stays. -/
theorem moved_of_not_mem {kids : NodeId → List NodeId} {p : NodeId} (absent : node ∉ kids p) (away : p ≠ parent) :
    moved kids parent node reference p = kids p := by
  rw [moved, if_neg away, List.erase_of_not_mem absent, ite_self]

theorem inserted_of_solid (wf : WellFormed d) (solid : d.content? node ≠ some .fragment)
    (done : insertBefore parent node reference d = .ok () d') : Inserted parent node reference d d' := by
  obtain ⟨admitted, -⟩ := of_insertBefore wf done
  obtain ⟨movable, becomes⟩ := becomes_of_solid wf solid done
  have below : ∀ x, Below d x node → d'.children x = d.children x := by
    intro x below
    rw [becomes.children]
    refine moved_of_not_mem (fun mem => ?_) fun same => movable.outside (same ▸ below)
    exact wf.acyclic.not_below (wf.parent_iff.mpr mem) below
  refine
    { placed := fun _ => ?_
      former := fun _ p up away => ?_
      others := fun _ p up away => ?_
      emptied := fun fragment => absurd fragment solid
      turned := fun fragment => absurd fragment solid
      left := fun fragment => absurd fragment solid
      content := becomes.content
      subtrees := fun m mem => ?_ }
  · rw [becomes.children, moved]
    simp
  · -- the reference is a child of the parent, so it is not a node of another list
    have other : reference ≠ some node := fun same =>
      away (wf.linked.parent_unique (wf.parent_iff.mp up) (admitted.mem node same))
    rw [becomes.children, moved, if_neg other, if_neg away]
  · rw [becomes.children]
    exact moved_of_not_mem (fun mem => up (wf.parent_iff.mpr mem)) away
  · rw [carried_of_solid solid, List.mem_singleton] at mem
    subst mem
    have live' := (contains_congr becomes.content m).trans movable.live
    exact ⟨descendants_congr wf becomes.wellFormed movable.live live' below,
      fun x mem => below x (wf.mem_descendants.mp mem).2⟩

/-! ## Fragments -/

section Fragment

variable (wf : WellFormed d) (fragment : d.content? node = some .fragment)
  (done : insertBefore parent node reference d = .ok () d')
include wf fragment done

/-- The children of a fragment that is not the parent are put between two parts of the parent's list. -/
theorem becomes_of_fragment (away : node ≠ parent) :
    Becomes d d' d.content? fun p =>
      if p = parent then spliceBefore (d.children node) reference (d.children parent)
      else if p = node then [] else d.children p := by
  obtain ⟨admitted, moves⟩ := of_insertBefore wf done
  have solid : ∀ n ∈ d.carried node, d.content? n ≠ some .fragment := Safe.carried_solid wf
  rw [carried_of_fragment fragment] at moves solid
  obtain ⟨front, behind, split, rfl⟩ := split_at_reference admitted.mem
  have elsewhere : ∀ p, p ≠ node → ∀ x ∈ d.children p, x ∉ d.children node := fun p ne x here there =>
    ne (wf.linked.parent_unique here there)
  have apart : ∀ list ⊆ d.children parent, list.filter (· ∉ d.children node) = list := fun list inside =>
    List.filter_eq_self.mpr fun x mem => by simpa using elsewhere parent away.symm x (inside mem)
  have becomes := insertNodes_becomes _ wf solid (wf.nodup node) (fun n mem head => ?_) split moves
  · have lists : spliced parent (d.children node) front behind d.children = fun p =>
        if p = parent then spliceBefore (d.children node) behind.head? (d.children parent)
        else if p = node then [] else d.children p := by
      have nodup := wf.nodup parent
      rw [split] at nodup
      funext p
      unfold spliced
      split
      · rw [apart front (by simp [split]), apart behind (by simp [split]), split, spliceBefore_split nodup]
      · split
        · next here =>
            subst here
            exact List.filter_eq_nil_iff.mpr (by simp)
        · next other => exact List.filter_eq_self.mpr fun x mem => by simpa using elsewhere p other x mem
    rwa [lists] at becomes
  · exact elsewhere parent away.symm n (admitted.mem n head) mem

/-- A fragment that is inserted into itself goes round: what is in front of the reference moves to
where it was, the reference stays, and what is behind it comes in front of it. -/
theorem becomes_of_itself (same : node = parent) :
    Becomes d d' d.content? fun p =>
      if p = parent then putLast reference (d.children parent) else d.children p := by
  subst same
  obtain ⟨admitted, moves⟩ := of_insertBefore wf done
  have solid : ∀ n ∈ d.carried node, d.content? n ≠ some .fragment := Safe.carried_solid wf
  rw [carried_of_fragment fragment] at moves solid
  have away : ∀ p, p ≠ node → ∀ nodes ⊆ d.children node, (d.children p).filter (· ∉ nodes) = d.children p :=
    fun p ne nodes inside => List.filter_eq_self.mpr fun x mem => by
      simpa using fun there => ne (wf.linked.parent_unique mem (inside there))
  cases reference with
  | none =>
      have becomes := insertNodes_becomes _ wf solid (wf.nodup node) (by simp) (List.append_nil _).symm moves
      have lists : spliced node (d.children node) (d.children node) [] d.children = fun p =>
          if p = node then putLast none (d.children node) else d.children p := by
        funext p
        unfold spliced
        split
        · rw [List.filter_eq_nil_iff.mpr (by simp)]
          simp [putLast]
        · next ne => exact away p ne _ (List.Subset.refl _)
      rwa [lists] at becomes
  | some r =>
      obtain ⟨front, behind, split⟩ := List.append_of_mem (admitted.mem r rfl)
      have nodup := wf.nodup node
      rw [split] at nodup solid moves
      obtain ⟨absent, once⟩ := List.nodup_cons.mp (List.nodup_middle.mp nodup)
      simp only [List.mem_append, not_or] at absent
      obtain ⟨nodupFront, nodupBehind, aside⟩ := List.nodup_append.mp once
      have stay : front.filter (· ∉ behind) = front := List.filter_eq_self.mpr fun x mem => by
        simpa using fun there => aside x mem x there rfl
      have notFront : ∀ n ∈ front, (r :: behind).head? ≠ some n :=
        fun n mem head => absent.1 (Option.some.inj head ▸ mem)
      have notBehind : ∀ n ∈ behind, (r :: behind).head? ≠ some n :=
        fun n mem head => absent.2 (Option.some.inj head ▸ mem)
      obtain ⟨d₁, first, rest⟩ := of_insertNodes_append front (r :: behind) moves
      obtain ⟨_, d₂, itself, last⟩ := Edit.of_bind_ok rest
      have early : Becomes d d₁ d.content? d.children := by
        have becomes := insertNodes_becomes front wf
          (fun n mem => solid n (List.mem_append_left _ mem)) nodupFront notFront split first
        have lists : spliced node front front (r :: behind) d.children = d.children := by
          have behindStays : (r :: behind).filter (· ∉ front) = r :: behind :=
            List.filter_eq_self.mpr fun x mem => by
              simpa using fun there => (List.nodup_append.mp nodup).2.2 x there x mem rfl
          funext p
          unfold spliced
          split
          · next here =>
              rw [here, split, behindStays, List.filter_eq_nil_iff.mpr (by simp)]
              rfl
          · next ne => exact away p ne front (by simp [split])
        rwa [lists] at becomes
      have second : Becomes d₁ d₂ d₁.content? d₁.children := by
        rcases insertNode_cases early.wellFormed node (some r) (by
          rw [early.content]
          exact solid r (by simp)) with ⟨fault, refused⟩ | ⟨d₃, done', becomes⟩
        · rw [refused] at itself
          cases itself
        · cases itself.symm.trans done'
          have lists : moved d₁.children node r (some r) = d₁.children := funext fun p => if_pos rfl
          rwa [lists] at becomes
      have before := early.trans second
      rw [early.content, early.children] at before
      have becomes := before.trans (insertNodes_becomes behind before.wellFormed
        (fun n mem => by
          rw [before.content]
          exact solid n (by simp [mem])) nodupBehind notBehind (by rw [before.children, split]) last)
      rw [before.content, before.children] at becomes
      have lists : spliced node behind front (r :: behind) d.children = fun p =>
          if p = node then putLast (some r) (d.children node) else d.children p := by
        funext p
        unfold spliced
        split
        · rw [stay, List.filter_cons_of_pos (by simpa using absent.2), List.filter_eq_nil_iff.mpr (by simp), putLast,
            split, erase_split nodup]
        · next ne => exact away p ne behind (by simp [split])
      rwa [lists] at becomes

/-- No child of a fragment that was inserted is above the parent: it would be above itself now. -/
theorem not_below_of_fragment (away : node ≠ parent) (mem : m ∈ d.children node) : ¬ Below d parent m := by
  have becomes := becomes_of_fragment wf fragment done away
  have wf' := becomes.wellFormed
  obtain ⟨admitted, -⟩ := of_insertBefore wf done
  obtain ⟨front, behind, split, rfl⟩ := split_at_reference admitted.mem
  have nodup := wf.nodup parent
  rw [split] at nodup
  have joined : d'.children parent = front ++ d.children node ++ behind := by
    rw [becomes.children]
    simp only [if_true]
    rw [split, spliceBefore_split nodup]
  have stays : ∀ x, Below d x m → Below d' x m := by
    intro x below
    induction below using ReflTransGen.head_induction_on with
    | refl => exact ReflTransGen.refl
    | @head x p step rest ih =>
        refine ReflTransGen.head (wf'.parent_iff.mpr ?_) ih
        have child := wf.parent_iff.mp step
        have other : p ≠ node := by
          rintro rfl
          exact wf.acyclic.not_below (wf.parent_iff.mpr mem) rest
        by_cases here : p = parent
        · rw [here, joined]
          rw [here, split] at child
          simp only [List.mem_append] at child ⊢
          tauto
        · rw [becomes.children]
          simpa [here, other] using child
  exact fun below => wf'.acyclic.not_below (wf'.parent_iff.mpr (by simp [joined, mem])) (stays parent below)

theorem inserted_of_fragment : Inserted parent node reference d d' := by
  have below : ∀ p, p ≠ node → p ≠ parent → d'.children p = d.children p := by
    intro p other away
    by_cases same : node = parent
    · rw [(becomes_of_itself wf fragment done same).children]
      exact if_neg away
    · rw [(becomes_of_fragment wf fragment done same).children]
      simp [other, away]
  obtain ⟨content, wf'⟩ : d'.content? = d.content? ∧ WellFormed d' := by
    by_cases same : node = parent
    · exact ⟨(becomes_of_itself wf fragment done same).content, (becomes_of_itself wf fragment done same).wellFormed⟩
    · exact ⟨(becomes_of_fragment wf fragment done same).content,
        (becomes_of_fragment wf fragment done same).wellFormed⟩
  refine
    { placed := fun solid => absurd fragment solid
      former := fun solid => absurd fragment solid
      others := fun solid => absurd fragment solid
      emptied := fun _ away => ⟨?_, ?_, ?_⟩
      turned := fun _ same => ?_
      left := fun _ => below
      content := content
      subtrees := fun m mem => ?_ }
  · rw [(becomes_of_fragment wf fragment done away).children]
    exact if_pos rfl
  · rw [(becomes_of_fragment wf fragment done away).children]
    simp [away]
  · exact wf'.linked.placeable node (by rw [content, fragment])
  · rw [(becomes_of_itself wf fragment done same).children]
    exact if_pos rfl
  · rw [carried_of_fragment fragment] at mem
    have stays : ∀ x, Below d x m → d'.children x = d.children x := by
      intro x under
      have other : x ≠ node := by
        rintro rfl
        exact wf.acyclic.not_below (wf.parent_iff.mpr mem) under
      refine below x other ?_
      rintro rfl
      exact not_below_of_fragment wf fragment done other.symm mem under
    have live := wf.contains_child mem
    exact ⟨descendants_congr wf wf' live ((contains_congr content m).trans live) stays,
      fun x under => stays x (wf.mem_descendants.mp under).2⟩

end Fragment

/-! ## Runs -/

/-- In every document that a run reaches, an insertion that is not refused, with any arguments, is an
operation on lists of children. -/
theorem insertBefore_lists (run : List Operation) (parent node : NodeId) (reference : Option NodeId)
    (d' : Document) (done : insertBefore parent node reference (new.performAll run) = .ok () d') :
    Inserted parent node reference (new.performAll run) d' := by
  have wf := wellFormed_new.performAll run
  by_cases fragment : (new.performAll run).content? node = some .fragment
  · exact inserted_of_fragment wf fragment done
  · exact inserted_of_solid wf fragment done

/-- A fragment with two elements, and a third one in the body. -/
def tray : List Operation :=
  [.create .fragment, .create (.element (.plain "a" [])), .create (.element (.plain "b" [])),
    .append ⟨1, 0⟩ ⟨2, 0⟩, .append ⟨1, 0⟩ ⟨3, 0⟩, .create (.element (.plain "c" [])), .append ⟨0, 0⟩ ⟨4, 0⟩]

theorem insertBefore_lists_tray :
    ∃ d', insertBefore ⟨0, 0⟩ ⟨1, 0⟩ (some ⟨4, 0⟩) (new.performAll tray) = .ok () d' ∧
      Inserted ⟨0, 0⟩ ⟨1, 0⟩ (some ⟨4, 0⟩) (new.performAll tray) d' ∧
      d'.children ⟨0, 0⟩ = [⟨2, 0⟩, ⟨3, 0⟩, ⟨4, 0⟩] ∧ d'.children ⟨1, 0⟩ = [] :=
  ⟨_, rfl, insertBefore_lists tray _ _ _ _ rfl, by decide +kernel, by decide +kernel⟩

end Inlay.Document
