/-
# Proofs.Document.Shuffle — moving some nodes and leaving the others

`Shuffled` says what a program that only moves nodes leaves of a document when
nothing is known of the places: which nodes it may have moved, and the one
container it may have moved them into. Everything else stands where it stood, in
the order in which it stood.
-/
import Inlay.Proofs.Document.Move

namespace Inlay.Document

set_option autoImplicit false

variable {d d' d'' : Document} {x node parent : NodeId} {reference target : Option NodeId}
  {may may' : NodeId → Prop}

/-- Some nodes were moved, out of their parent or into a container. -/
structure Shuffled (may : NodeId → Prop) (target : Option NodeId) (d d' : Document) : Prop where
  wellFormed : WellFormed d'
  content : d'.content? = d.content?
  body : d'.body = d.body
  aged : Aged d d'
  parent : ∀ x, d'.parent? x = d.parent? x ∨ may x ∧ (d'.parent? x = none ∨ d'.parent? x = target)
  order : ∀ keep : NodeId → Bool, (∀ x, keep x = true → ¬ may x) → ∀ p,
    (d'.children p).filter keep = (d.children p).filter keep

namespace Shuffled

theorem refl (wf : WellFormed d) : Shuffled may target d d :=
  ⟨wf, rfl, rfl, .refl d, fun _ => .inl rfl, fun _ _ _ => rfl⟩

theorem trans (first : Shuffled may target d d') (second : Shuffled may target d' d'') :
    Shuffled may target d d'' where
  wellFormed := second.wellFormed
  content := second.content.trans first.content
  body := second.body.trans first.body
  aged := first.aged.trans second.aged
  parent := fun x => by
    rcases second.parent x with same | moved
    · rw [same]
      exact first.parent x
    · exact .inr moved
  order := fun keep stays p => (second.order keep stays p).trans (first.order keep stays p)

theorem mono (shuffled : Shuffled may target d d') (more : ∀ x, may x → may' x) :
    Shuffled may' target d d' where
  wellFormed := shuffled.wellFormed
  content := shuffled.content
  body := shuffled.body
  aged := shuffled.aged
  parent := fun x => (shuffled.parent x).imp_right fun moved => ⟨more x moved.1, moved.2⟩
  order := fun keep stays => shuffled.order keep fun x kept may => stays x kept (more x may)

theorem contains (shuffled : Shuffled may target d d') (x : NodeId) : d'.contains x = d.contains x :=
  contains_congr shuffled.content x

/-- What was not moved has its parent. -/
theorem parent_eq (shuffled : Shuffled may target d d') (stays : ¬ may x) : d'.parent? x = d.parent? x :=
  (shuffled.parent x).resolve_right fun moved => stays moved.1

/-- Only the container takes up other nodes. -/
theorem children_subset (shuffled : Shuffled may target d d') (wf : WellFormed d) {p : NodeId}
    (away : target ≠ some p) : d'.children p ⊆ d.children p := by
  intro x mem
  have up := shuffled.wellFormed.parent_iff.mpr mem
  rcases shuffled.parent x with same | ⟨-, none_ | there⟩
  · exact wf.parent_iff.mp (same ▸ up)
  · rw [none_] at up
    cases up
  · exact absurd (there.symm.trans up) away

/-- Where nothing was taken away or put, the list of children is the same. -/
theorem children_eq (shuffled : Shuffled may target d d') (wf : WellFormed d) {p : NodeId}
    (away : target ≠ some p) (stay : ∀ x ∈ d.children p, ¬ may x) : d'.children p = d.children p := by
  have order := shuffled.order (fun x => decide (x ∈ d.children p))
    (fun x kept => stay x (by simpa using kept)) p
  rw [List.filter_eq_self.mpr fun x mem => by simpa using shuffled.children_subset wf away mem] at order
  rw [order, List.filter_eq_self.mpr (by simp)]

end Shuffled

/-! ## Single edits -/

/-- An insertion of a node is refused, and nothing is changed, or it was allowed. -/
theorem insertBefore_cases (wf : WellFormed d) (parent : NodeId) (reference : Option NodeId)
    (solid : d.content? node ≠ some .fragment) :
    (∃ fault, insertBefore parent node reference d = .error fault d) ∨
      ∃ d', insertBefore parent node reference d = .ok () d' ∧ Admitted d parent reference ∧
        Movable d parent node ∧ Becomes d d' d.content? (moved d.children parent node reference) := by
  by_cases allowed : Admitted d parent reference ∧ Movable d parent node
  · obtain ⟨d', done, becomes⟩ := insertBefore_becomes wf allowed.1 allowed.2
    exact .inr ⟨d', done, allowed.1, allowed.2, becomes⟩
  left
  cases admits : d.admits parent reference with
  | error fault =>
      have check : (do
          d.admits parent reference
          let _ ← d.live node
          return d.carried node) = .error fault := by
        simp [admits, bind, Except.bind]
      exact ⟨fault, by rw [insertBefore, Edit.bind_error (Edit.require_error check)]⟩
  | ok =>
      have admitted := admitted_of_admits wf admits
      cases found : d.get? node with
      | none =>
          have check : (do
              d.admits parent reference
              let _ ← d.live node
              return d.carried node) = .error (.stale node) := by
            simp [admits, Document.live, found, bind, Except.bind]
          exact ⟨_, by rw [insertBefore, Edit.bind_error (Edit.require_error check)]⟩
      | some n =>
          have single := carried_of_solid solid
          have check : (do
              d.admits parent reference
              let _ ← d.live node
              return d.carried node) = .ok [node] := by
            simp [admits, live_eq_ok found, single, bind, Except.bind, pure, Except.pure]
          cases bad : d.admitsNode parent node with
          | ok =>
              obtain ⟨inner, outside⟩ := (admitsNode_eq_ok wf).mp bad
              exact absurd ⟨admitted, contains_iff.mpr ⟨n, found⟩, solid, inner, outside⟩ allowed
          | error fault =>
              have inside : (do
                  d.admits parent reference
                  let _ ← d.live node
                  d.admitsNode parent node) = .error fault := by
                simp [admits, live_eq_ok found, bad, bind, Except.bind]
              have refused : insertNode parent node reference d = .error fault d := by
                rw [insertNode, Edit.bind_error (Edit.require_error inside)]
              exact ⟨fault, by
                rw [insertBefore, Edit.bind_ok (Edit.require_ok check), insertNodes,
                  Edit.bind_error refused]⟩

/-- A node has its parent when it stands in the same lists of children. -/
theorem parent?_congr (wf : WellFormed d) (wf' : WellFormed d')
    (same : ∀ p, x ∈ d'.children p ↔ x ∈ d.children p) : d'.parent? x = d.parent? x := by
  refine Option.ext fun p => ?_
  rw [wf'.parent_iff, wf.parent_iff, same]

theorem parent?_of_dead (dead : d.contains x = false) : d.parent? x = none := by
  have absent : d.get? x = none := by simpa [contains] using dead
  rw [parent?, absent]
  rfl

theorem filter_erase_of_not {keep : NodeId → Bool} (drops : keep node = false) (list : List NodeId) :
    (list.erase node).filter keep = list.filter keep := by
  induction list with
  | nil => rfl
  | cons y list ih =>
      by_cases same : y = node
      · subst same
        simp [drops]
      · rw [List.erase_cons_tail (by simpa using same), List.filter_cons, List.filter_cons, ih]

theorem filter_placeBefore_of_not {keep : NodeId → Bool} (drops : keep node = false) (list : List NodeId) :
    (placeBefore node reference list).filter keep = list.filter keep := by
  cases reference with
  | none => simp [placeBefore, drops]
  | some r =>
      rw [placeBefore, List.filter_append, List.filter_cons_of_neg (by simp [drops]), ← List.filter_append,
        List.takeWhile_append_dropWhile]

theorem mem_placeBefore {list : List NodeId} : x ∈ placeBefore node reference list ↔ x = node ∨ x ∈ list := by
  cases reference with
  | none => simp [placeBefore, or_comm]
  | some r =>
      rw [placeBefore, List.mem_append, List.mem_cons]
      conv_rhs => rw [← List.takeWhile_append_dropWhile (p := fun y => decide (y ≠ r)) (l := list)]
      rw [List.mem_append]
      tauto

variable (wf : WellFormed d)
include wf

theorem remove_shuffled (done : remove node d = .ok () d') (moves : may node) :
    Shuffled may target d d' ∧ d'.parent? node = none := by
  rcases remove_cases wf node with ⟨fault, refused⟩ | ⟨d₁, -, live, inner⟩
  · rw [refused] at done
    cases done
  obtain ⟨d₂, done', becomes⟩ := remove_becomes wf live inner
  cases done.symm.trans done'
  have loose : d'.parent? node = none := by
    refine becomes.wellFormed.parent?_eq_none fun p mem => ?_
    rw [becomes.children] at mem
    exact (wf.nodup p).not_mem_erase mem
  refine ⟨⟨becomes.wellFormed, becomes.content, becomes.body, becomes.aged, fun x => ?_,
    fun keep stays p => ?_⟩, loose⟩
  · by_cases same : x = node
    · exact .inr ⟨same ▸ moves, .inl (same ▸ loose)⟩
    · left
      refine parent?_congr wf becomes.wellFormed fun p => ?_
      rw [becomes.children]
      exact List.mem_erase_of_ne same
  · rw [becomes.children]
    exact filter_erase_of_not (by simpa using fun kept => stays node kept moves) _

theorem insertBefore_shuffled (may : NodeId → Prop) (done : insertBefore parent node reference d = .ok () d')
    (solid : d.content? node ≠ some .fragment) (moves : may node) :
    Shuffled may (some parent) d d' ∧ d'.parent? node = some parent := by
  rcases insertBefore_cases wf parent reference solid with ⟨fault, refused⟩ | ⟨d₁, done', admitted, -, becomes⟩
  · rw [refused] at done
    cases done
  cases done.symm.trans done'
  have there : node ∈ d'.children parent := by
    rw [becomes.children, moved]
    split
    · next here => exact admitted.mem node here
    · rw [if_pos rfl, mem_placeBefore]
      exact .inl rfl
  have up := becomes.wellFormed.parent_iff.mpr there
  refine ⟨⟨becomes.wellFormed, becomes.content, becomes.body, becomes.aged, fun x => ?_,
    fun keep stays p => ?_⟩, up⟩
  · by_cases same : x = node
    · exact .inr ⟨same ▸ moves, .inr (same ▸ up)⟩
    · left
      refine parent?_congr wf becomes.wellFormed fun p => ?_
      rw [becomes.children, moved]
      split
      · rfl
      · split
        · next isParent => rw [mem_placeBefore, List.mem_erase_of_ne same, or_iff_right same]
        · exact List.mem_erase_of_ne same
  · have drops : keep node = false := by simpa using fun kept => stays node kept moves
    rw [becomes.children, moved]
    split
    · rfl
    · split
      · rw [filter_placeBefore_of_not drops, filter_erase_of_not drops]
      · exact filter_erase_of_not drops _

end Inlay.Document
