/-
# Proofs.Document.Refused — what a refused operation leaves behind

Every edit but one checks all it needs before it changes anything, so when it is
refused the document is the one it was given, slots, links, free list, tally and
journal (`unchanged_of_refused`). The one exception is the insertion of a fragment
into one of its own descendants. Each child is checked only when its turn comes:
the children in front of the one that holds the parent have moved by the time
that one is refused (`Halted`).

An insertion of a fragment anywhere else has nothing left to refuse once its
first checks are passed, since moving one child into the parent neither takes
the reference away nor puts another child above the parent
(`insertNodes_carries`).
-/
import Inlay.Proofs.Document.Identity
import Inlay.Proofs.Document.Told

namespace Inlay.Document

set_option autoImplicit false

open Inlay.Markup

variable {α β : Type} {d d' : Document} {x node parent child : NodeId} {reference : Option NodeId} {fault : Fault}

/-! ## Refusals of edits -/

namespace Edit

/-- An edit that goes on is refused at its start or behind it. -/
theorem of_bind_error {e : Edit α} {f : α → Edit β} {d'' : Document} (refused : (e >>= f) d = .error fault d'') :
    e d = .error fault d'' ∨ ∃ a d', e d = .ok a d' ∧ f a d' = .error fault d'' := by
  cases first : e d with
  | ok a d' =>
      rw [bind_ok first] at refused
      exact .inr ⟨a, d', rfl, refused⟩
  | error earlier d' =>
      rw [bind_error first] at refused
      cases refused
      exact .inl rfl

theorem of_bind_return_error {e : Edit α} {f : α → β} (refused : (do return f (← e) : Edit β) d = .error fault d') :
    e d = .error fault d' := by
  rcases of_bind_error refused with early | ⟨a, d₁, -, late⟩
  · exact early
  · cases late

theorem of_require_error {check : Document → Except Fault α} (refused : require check d = .error fault d') :
    check d = .error fault ∧ d' = d := by
  cases found : check d with
  | ok a =>
      rw [require_ok found] at refused
      cases refused
  | error earlier =>
      rw [require_error found] at refused
      cases refused
      exact ⟨rfl, rfl⟩

theorem unchanged_of_checked {check : Document → Except Fault α} {f : α → Document → β × Document}
    (refused : checked check f d = .error fault d') : d' = d := by
  cases found : check d with
  | ok a => simp [checked, found] at refused
  | error earlier =>
      simp only [checked, found, EStateM.Result.error.injEq] at refused
      exact refused.2.symm

end Edit

/-! ## Moving several nodes -/

theorem Admitted.of_moved (wf : WellFormed d) (admitted : Admitted d parent reference)
    (becomes : Becomes d d' d.content? (moved d.children parent node reference)) : Admitted d' parent reference where
  takes := by
    rw [becomes.content]
    exact admitted.takes
  mem := by
    intro r here
    rw [becomes.children, mem_moved wf admitted]
    split
    · rfl
    · exact admitted.mem r here

/-- A move into the parent leaves what is above the parent. -/
theorem Rehung.below_parent_iff (rehung : Rehung d d' parent node) : Below d' parent x ↔ Below d parent x :=
  ⟨rehung.back rehung.outside', rehung.forth rehung.outside⟩

/-- Nodes have been moved into a parent, one behind the other, and nothing else. -/
structure Carries (parent : NodeId) (reference : Option NodeId) (nodes : List NodeId) (d d' : Document) : Prop where
  wellFormed : WellFormed d'
  admitted : Admitted d' parent reference
  content : d'.content? = d.content?
  body : d'.body = d.body
  above : ∀ x, Below d' parent x ↔ Below d parent x
  parent? : ∀ x, d'.parent? x = if x ∈ nodes then some parent else d.parent? x
  left : ∀ p, p ≠ parent → d'.children p = (d.children p).filter fun x => decide (x ∉ nodes)

theorem Carries.refl (wf : WellFormed d) (admitted : Admitted d parent reference) : Carries parent reference [] d d where
  wellFormed := wf
  admitted := admitted
  content := rfl
  body := rfl
  above := fun _ => Iff.rfl
  parent? := fun x => by simp
  left := fun p _ => by simp

theorem Carries.cons {rest : List NodeId} {d'' : Document} (wf : WellFormed d) (admitted : Admitted d parent reference)
    (movable : Movable d parent node) (becomes : Becomes d d' d.content? (moved d.children parent node reference))
    (later : Carries parent reference rest d' d'') : Carries parent reference (node :: rest) d d'' where
  wellFormed := later.wellFormed
  admitted := later.admitted
  content := later.content.trans becomes.content
  body := later.body.trans becomes.body
  above := fun x => (later.above x).trans (rehung_of_moved wf admitted movable becomes).below_parent_iff
  parent? := by
    intro x
    rw [later.parent?, (rehung_of_moved wf admitted movable becomes).up]
    by_cases here : x = node <;> by_cases there : x ∈ rest <;> simp [here, there]
  left := by
    intro p away
    have first : d'.children p = (d.children p).filter (· != node) := by
      rw [becomes.children]
      unfold moved
      split
      · next self =>
          -- the node stood in the parent already, so in no other list
          refine (List.filter_eq_self.mpr fun x mem => ?_).symm
          rw [bne_iff_ne]
          rintro rfl
          exact away (wf.linked.parent_unique mem (admitted.mem x self))
      · exact (wf.nodup p).erase_eq_filter node
    rw [later.left p away, first, List.filter_filter]
    refine List.filter_congr fun x _ => ?_
    by_cases here : x = node <;> by_cases there : x ∈ rest <;> simp [here, there]

theorem Movable.of_carried {nodes : List NodeId} (movable : Movable d parent x)
    (carries : Carries parent reference nodes d d') : Movable d' parent x where
  live := (contains_congr carries.content x).trans movable.live
  solid := by
    rw [carries.content]
    exact movable.solid
  inner := by
    rw [carries.body]
    exact movable.inner
  outside := fun below => movable.outside ((carries.above x).mp below)

/-- Nodes that may be moved into a parent may all be moved, one behind the other. -/
theorem insertNodes_carries : ∀ (nodes : List NodeId) {d : Document}, WellFormed d → Admitted d parent reference →
    (∀ n ∈ nodes, Movable d parent n) →
    ∃ d', insertNodes parent reference nodes d = .ok () d' ∧ Carries parent reference nodes d d'
  | [], d, wf, admitted, _ => ⟨d, rfl, .refl wf admitted⟩
  | node :: rest, d, wf, admitted, movable => by
      have here := movable node List.mem_cons_self
      obtain ⟨d₁, done, becomes⟩ := insertNode_becomes wf admitted here
      have one : Carries parent reference [node] d d₁ :=
        .cons wf admitted here becomes (.refl becomes.wellFormed (admitted.of_moved wf becomes))
      obtain ⟨d₂, finished, later⟩ := insertNodes_carries rest becomes.wellFormed one.admitted
        fun n mem => (movable n (List.mem_cons_of_mem _ mem)).of_carried one
      exact ⟨d₂, by rw [insertNodes, Edit.bind_ok done, finished], .cons wf admitted here becomes later⟩

theorem insertNodes_append (front behind : List NodeId) (done : insertNodes parent reference front d = .ok () d') :
    insertNodes parent reference (front ++ behind) d = insertNodes parent reference behind d' := by
  induction front generalizing d with
  | nil =>
      cases done
      rfl
  | cons node front ih =>
      obtain ⟨_, d₁, first, rest⟩ := Edit.of_bind_ok done
      rw [List.cons_append, insertNodes, Edit.bind_ok first]
      exact ih rest

/-! ## Inserting a fragment -/

/-- The insertion of a fragment that stopped at a child above the parent: the children in
front of that one have moved, it and the ones behind it are still in the fragment. -/
structure Halted (parent node : NodeId) (reference : Option NodeId) (fault : Fault) (d d' : Document)
    (front : List NodeId) (child : NodeId) (behind : List NodeId) : Prop where
  fragment : d.content? node = some .fragment
  children : d.children node = front ++ child :: behind
  below : Below d parent child
  fault : fault = .cycle parent child
  moved : insertNodes parent reference front d = .ok () d'
  arrived : ∀ x ∈ front, d'.parent? x = some parent
  left : d'.children node = child :: behind
  content : d'.content? = d.content?

/-- A child of a fragment may be moved into a parent that is not below it. -/
theorem movable_of_mem_fragment (wf : WellFormed d) (mem : x ∈ d.children node) (outside : ¬ Below d parent x) :
    Movable d parent x where
  live := wf.contains_child mem
  solid := by
    intro fragment
    have loose := wf.linked.placeable x fragment
    rw [wf.parent_iff.mpr mem] at loose
    cases loose
  inner := by
    rintro rfl
    exact wf.body_not_mem_children node mem
  outside := outside

/-- Of the children of a node, one at most is above another node. -/
theorem not_below_sibling (wf : WellFormed d) (mem : x ∈ d.children node) (other : child ∈ d.children node)
    (ne : x ≠ child) (below : Below d parent child) : ¬ Below d parent x := by
  have aside : ∀ {b c}, b ∈ d.children node → c ∈ d.children node → b ≠ c → ¬ Below d b c := by
    intro b c memB memC ne below
    rcases Relation.ReflTransGen.cases_head below with same | ⟨p, first, rest⟩
    · exact ne same
    · cases up_unique first (wf.parent_iff.mpr memB)
      exact wf.acyclic.not_below (wf.parent_iff.mpr memC) rest
  intro too
  rcases too.total below with here | there
  · exact aside mem other ne here
  · exact aside other mem ne.symm there

/-- A move is refused where the node is above the parent. -/
theorem insertNode_of_below (wf : WellFormed d) (admitted : Admitted d parent reference) (live : d.contains node = true)
    (below : Below d parent node) : insertNode parent node reference d = .error (.cycle parent node) d := by
  obtain ⟨n, found⟩ := contains_iff.mp live
  have check : (do
      d.admits parent reference
      let _ ← d.live node
      d.admitsNode parent node) = .error (.cycle parent node) := by
    simp only [admits_ok wf admitted, live_eq_ok found, bind, Except.bind, admitsNode]
    rw [if_pos (.inr (wf.isInclusiveAncestor_iff.mpr below))]
  rw [insertNode, Edit.bind_error (Edit.require_error check)]

/-- Moving the children of a fragment is refused at the child above the parent, if there
is one. -/
theorem insertNodes_of_fragment (wf : WellFormed d) (fragment : d.content? node = some .fragment)
    (admitted : Admitted d parent reference)
    (refused : insertNodes parent reference (d.children node) d = .error fault d') :
    ∃ front child behind, Halted parent node reference fault d d' front child behind := by
  have above : ∃ child ∈ d.children node, Below d parent child := by
    by_contra clear
    obtain ⟨d₁, done, -⟩ := insertNodes_carries _ wf admitted fun n mem =>
      movable_of_mem_fragment wf mem fun below => clear ⟨n, mem, below⟩
    rw [done] at refused
    cases refused
  obtain ⟨child, mem, below⟩ := above
  obtain ⟨front, behind, split⟩ := List.append_of_mem mem
  have nodup := wf.nodup node
  rw [split] at nodup
  have others : ∀ x ∈ front, x ≠ child := fun x inFront same =>
    (List.nodup_append.mp nodup).2.2 x inFront child List.mem_cons_self same
  obtain ⟨d₁, done, carries⟩ := insertNodes_carries front wf admitted fun x inFront => by
    have memX : x ∈ d.children node := by simp [split, inFront]
    exact movable_of_mem_fragment wf memX (not_below_sibling wf memX mem (others x inFront) below)
  have live : d₁.contains child = true := (contains_congr carries.content child).trans (wf.contains_child mem)
  rw [split, insertNodes_append _ _ done, insertNodes,
    Edit.bind_error (insertNode_of_below carries.wellFormed carries.admitted live ((carries.above child).mpr below))]
    at refused
  cases refused
  -- the parent is below a child of the fragment, so it is not the fragment
  have away : node ≠ parent := by
    rintro rfl
    exact wf.acyclic.not_below (wf.parent_iff.mpr mem) below
  refine ⟨front, child, behind, fragment, split, below, rfl, done, fun x inFront => ?_, ?_, carries.content⟩
  · rw [carries.parent?, if_pos inFront]
  · have stay : ∀ x ∈ child :: behind, decide (x ∉ front) = true := fun x memX => by
      simpa using fun inFront : x ∈ front => (List.nodup_append.mp nodup).2.2 x inFront x memX rfl
    rw [carries.left node away, split, List.filter_append, List.filter_eq_self.mpr stay,
      List.filter_eq_nil_iff.mpr (by simp), List.nil_append]

theorem insertBefore_refused (wf : WellFormed d) (refused : insertBefore parent node reference d = .error fault d') :
    d' = d ∨ ∃ front child behind, Halted parent node reference fault d d' front child behind := by
  rcases Edit.of_bind_error refused with early | ⟨nodes, d₁, checked, late⟩
  · exact .inl (Edit.of_require_error early).2
  obtain ⟨check, rfl⟩ := Edit.of_require_ok checked
  obtain ⟨admits, rfl⟩ := admits_of_check check
  by_cases fragment : d₁.content? node = some .fragment
  · rw [carried_of_fragment fragment] at late
    exact .inr (insertNodes_of_fragment wf fragment (admitted_of_admits wf admits) late)
  · rw [carried_of_solid fragment, insertNodes] at late
    rcases insertNode_cases wf parent reference fragment with ⟨earlier, stopped⟩ | ⟨d₂, done, -⟩
    · rw [Edit.bind_error stopped] at late
      cases late
      exact .inl rfl
    · rw [Edit.bind_ok done] at late
      cases late

/-! ## Other operations -/

theorem remove_refused (wf : WellFormed d) (refused : remove node d = .error fault d') : d' = d := by
  rcases remove_cases wf node with ⟨earlier, stopped⟩ | ⟨d₁, done, -⟩
  · rw [stopped] at refused
    cases refused
    rfl
  · rw [done] at refused
    cases refused

theorem discard_refused (wf : WellFormed d) (refused : discard node d = .error fault d') : d' = d := by
  rcases Edit.of_bind_error refused with early | ⟨_, d₁, -, late⟩
  · exact remove_refused wf early
  · cases late

/-- A copy is refused only where there is nothing to copy. -/
theorem copied_refused {check : Document → Except Fault (List Tree ⊕ Tree)} (wf : WellFormed d)
    (refused : (Edit.require check >>= plantLikeness) d = .error fault d') : d' = d := by
  rcases Edit.of_bind_error refused with early | ⟨likeness, d₁, checked, late⟩
  · exact (Edit.of_require_error early).2
  obtain ⟨-, rfl⟩ := Edit.of_require_ok checked
  cases likeness with
  | inl trees =>
      obtain ⟨fragment, ps, d₂, done, -⟩ := plantFragment_potted trees wf
      rw [plantLikeness, done] at late
      cases late
  | inr tree =>
      have loose : Takes d₁ none := by rintro _ ⟨⟩
      obtain ⟨p, d₂, done, -⟩ := plant_sprouts tree wf loose
      rw [plantLikeness, done] at late
      cases late

/-- What the operation moves, into which parent and in front of what. -/
def Operation.Inserts (operation : Operation) (parent node : NodeId) (reference : Option NodeId) : Prop :=
  operation = .insertBefore parent node reference ∨ operation = .append parent node ∧ reference = none

/-- One operation that is refused. -/
theorem WellFormed.of_refused (wf : WellFormed d) {operation : Operation} (edits : ∀ source, operation ≠ .parse source)
    (refused : operation.edit d = .error fault d') :
    d' = d ∨ ∃ parent node reference front child behind, operation.Inserts parent node reference ∧
      Halted parent node reference fault d d' front child behind := by
  cases operation with
  | append parent node =>
      refine (insertBefore_refused wf (Edit.of_bind_return_error refused)).imp_right fun halted => ?_
      obtain ⟨front, child, behind, halted⟩ := halted
      exact ⟨parent, node, none, front, child, behind, .inr ⟨rfl, rfl⟩, halted⟩
  | insertBefore parent node reference =>
      refine (insertBefore_refused wf (Edit.of_bind_return_error refused)).imp_right fun halted => ?_
      obtain ⟨front, child, behind, halted⟩ := halted
      exact ⟨parent, node, reference, front, child, behind, .inl rfl, halted⟩
  | remove node => exact .inl (remove_refused wf (Edit.of_bind_return_error refused))
  | discard node => exact .inl (discard_refused wf (Edit.of_bind_return_error refused))
  | setText | setAttribute | removeAttribute | setProperty =>
      exact .inl (Edit.unchanged_of_checked (Edit.of_bind_return_error refused))
  | copy | copyFrom => exact .inl (copied_refused wf (Edit.of_bind_return_error refused))
  | parse source => exact absurd rfl (edits source)
  | create | startRecording | stopRecording | takeRecords => cases refused

/-! ## Runs -/

/-- In every document that a run reaches, an operation with any arguments that is refused
leaves all of the document as it was, unless it inserts a fragment into a node below one of
the fragment's children; then the children in front of that one have moved. -/
theorem unchanged_of_refused (run : List Operation) (operation : Operation)
    (edits : ∀ source, operation ≠ .parse source) (fault : Fault) (d' : Document)
    (refused : operation.edit (new.performAll run) = .error fault d') :
    d' = new.performAll run ∨
      ∃ parent node reference front child behind, operation.Inserts parent node reference ∧
        Halted parent node reference fault (new.performAll run) d' front child behind :=
  (wellFormed_new.performAll run).of_refused edits refused

/-- A fragment with two elements. -/
def pair : List Operation :=
  [.create .fragment, .create (.element (.plain "a" [])), .create (.element (.plain "b" [])),
    .append ⟨1, 0⟩ ⟨2, 0⟩, .append ⟨1, 0⟩ ⟨3, 0⟩]

/-- A node that is no child of the parent is refused as a reference. -/
theorem unchanged_of_refused_pair :
    ∃ fault d', Operation.edit (.insertBefore ⟨2, 0⟩ ⟨3, 0⟩ (some ⟨1, 0⟩)) (new.performAll pair) = .error fault d' ∧
      d' = new.performAll pair := by
  refine ⟨_, _, rfl, ?_⟩
  rcases unchanged_of_refused pair (.insertBefore ⟨2, 0⟩ ⟨3, 0⟩ (some ⟨1, 0⟩)) (fun _ same => by cases same) _ _ rfl
    with same | ⟨parent, node, reference, front, child, behind, inserts, halted⟩
  · exact same
  · rcases inserts with here | ⟨here, -⟩
    · cases here
      cases halted.fragment
    · cases here

/-- The second of two elements cannot take up its own fragment either, but when that is found
the first one has moved into it. -/
theorem changed_of_refused_pair :
    ∃ d', Operation.edit (.append ⟨3, 0⟩ ⟨1, 0⟩) (new.performAll pair) = .error (.cycle ⟨3, 0⟩ ⟨3, 0⟩) d' ∧
      (new.performAll pair).children ⟨1, 0⟩ = [⟨2, 0⟩, ⟨3, 0⟩] ∧
      d'.children ⟨1, 0⟩ = [⟨3, 0⟩] ∧ d'.children ⟨3, 0⟩ = [⟨2, 0⟩] :=
  ⟨_, rfl, by decide +kernel, by decide +kernel, by decide +kernel⟩

end Inlay.Document
