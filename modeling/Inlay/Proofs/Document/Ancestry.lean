/-
# Proofs.Document.Ancestry — the way up

`Below d x a` says that the way up from `x` meets `a`. Where no node is above
itself (`Acyclic`), a way up is no longer than there are slots, so the climb
with that fuel finds exactly what is above (`isInclusiveAncestor_iff`).

Taking a link away keeps a document acyclic; adding one does when the parent is
not below the node.
-/
import Inlay.Proofs.Document.Link
import Mathlib.Logic.Relation
import Mathlib.Data.List.Chain

namespace Inlay.Document

set_option autoImplicit false

open Relation

variable {d d' : Document} {a x y node parent : NodeId} {kids : NodeId → List NodeId}

/-- `p` is the parent of `x`. -/
def Up (d : Document) (x p : NodeId) : Prop := d.parent? x = some p

/-- `a` is met on the way up from `x`, `x` included. -/
def Below (d : Document) (x a : NodeId) : Prop := ReflTransGen d.Up x a

/-- No node is above itself. -/
def Acyclic (d : Document) : Prop := ∀ x, ¬ TransGen d.Up x x

theorem up_unique {b : NodeId} (first : d.Up x a) (second : d.Up x b) : a = b :=
  Option.some.inj (first.symm.trans second)

namespace Below

theorem total {b : NodeId} (first : Below d x a) (second : Below d x b) :
    Below d a b ∨ Below d b a :=
  ReflTransGen.total_of_right_unique (fun _ _ _ => up_unique) first second

/-- Something strictly below a node is below one of its children. -/
theorem cases_child (below : Below d x a) : x = a ∨ ∃ c, d.Up c a ∧ Below d x c := by
  rcases ReflTransGen.cases_tail below with same | ⟨c, first, last⟩
  · exact .inl same.symm
  · exact .inr ⟨c, last, first⟩

end Below

namespace Acyclic

theorem not_below (acyclic : Acyclic d) {c : NodeId} (up : d.Up c a) : ¬ Below d a c := fun below =>
  acyclic c (TransGen.head' up below)

/-- The nodes on a way up are distinct. -/
theorem nodup_of_isChain (acyclic : Acyclic d) {l : List NodeId} (chain : l.IsChain d.Up) :
    l.Nodup := by
  have pairwise : l.Pairwise (TransGen d.Up) :=
    List.isChain_iff_pairwise.mp (chain.imp fun _ _ => TransGen.single)
  refine pairwise.imp ?_
  rintro b c up rfl
  exact acyclic b up

end Acyclic

theorem contains_of_below (linked : Linked d kids) (live : d.contains a = true) (below : Below d x a) :
    d.contains x = true := by
  rcases ReflTransGen.cases_head below with same | ⟨p, first, -⟩
  · exact same ▸ live
  · exact linked.contains_kid (linked.mem p x first)

/-! ## Climbing -/

theorem below_of_climbs : ∀ {fuel : Nat} {x : NodeId}, d.climbs a fuel x = true → Below d x a
  | 0, x, found => by
      simp only [climbs, decide_eq_true_eq] at found
      exact found ▸ .refl
  | fuel + 1, x, found => by
      simp only [climbs, Bool.or_eq_true, decide_eq_true_eq] at found
      rcases found with same | found
      · exact same ▸ .refl
      · cases up : d.parent? x with
        | none => simp [up] at found
        | some p =>
            simp only [up] at found
            exact .head up (below_of_climbs found)

theorem climbs_of_isChain : ∀ {l : List NodeId} {x : NodeId} {fuel : Nat},
    (x :: l).IsChain d.Up → (x :: l).getLast (by simp) = a → l.length ≤ fuel →
      d.climbs a fuel x = true
  | [], x, fuel, _, last, _ => by
      simp only [List.getLast_singleton] at last
      cases fuel <;> simp [climbs, last]
  | y :: l, x, 0, _, _, short => by simp at short
  | y :: l, x, fuel + 1, chain, last, short => by
      rw [List.isChain_cons_cons] at chain
      have up : d.parent? x = some y := chain.1
      have rest := climbs_of_isChain chain.2 (by simpa using last) (Nat.le_of_succ_le_succ short)
      simp [climbs, up, rest]

theorem isInclusiveAncestor_iff (linked : Linked d kids) (acyclic : Acyclic d) :
    d.isInclusiveAncestor a x = true ↔ Below d x a := by
  refine ⟨below_of_climbs, fun below => ?_⟩
  obtain ⟨l, chain, last⟩ := List.exists_isChain_cons_of_relationReflTransGen below
  refine climbs_of_isChain chain last ?_
  have nodup := (List.nodup_cons.mp (acyclic.nodup_of_isChain chain)).2
  refine length_le_size nodup fun y mem => ?_
  -- everything behind the first node of the chain is a parent, hence live
  obtain ⟨front, behind, split⟩ := List.append_of_mem mem
  rcases List.eq_nil_or_concat' front with rfl | ⟨front, z, rfl⟩
  · simp only [List.nil_append] at split
    subst split
    exact linked.contains_parent (linked.mem y x (List.isChain_cons_cons.mp chain).1)
  · have cut : x :: l = (x :: front) ++ z :: y :: behind := by simp [split]
    rw [cut] at chain
    have up := (List.isChain_cons_cons.mp (List.isChain_append.mp chain).2.1).1
    exact linked.contains_parent (linked.mem y z up)

/-! ## Adding and taking away one link -/

theorem Acyclic.congr (acyclic : Acyclic d) (up : ∀ x, d'.parent? x = d.parent? x) : Acyclic d' := by
  have same : d'.Up = d.Up := by
    funext x p
    simp only [Up, up]
  intro x
  rw [same]
  exact acyclic x

theorem Acyclic.of_unlinked (acyclic : Acyclic d)
    (up : ∀ x, d'.parent? x = if x = node then none else d.parent? x) : Acyclic d' := by
  intro x cycle
  refine acyclic x (TransGen.mono (r := d'.Up) (p := d.Up) ?_ x x cycle)
  intro b c step
  simp only [Up, up] at step
  split at step
  · cases step
  · exact step

/-- Ways up that do not leave from `node` are the same in both documents. -/
theorem below_of_relinked (up : ∀ x, d'.parent? x = if x = node then some parent else d.parent? x)
    (below : Below d' x a) (avoids : ¬ Below d x node) : Below d x a := by
  induction below using ReflTransGen.head_induction_on with
  | refl => exact .refl
  | head step rest ih =>
      rename_i b c
      have ne : b ≠ node := by
        rintro rfl
        exact avoids .refl
      simp only [Up, up, if_neg ne] at step
      exact .head step (ih fun below => avoids (.head step below))

/-- Ways up to `node` are kept. -/
theorem below_relinked (up : ∀ x, d'.parent? x = if x = node then some parent else d.parent? x)
    (below : Below d x node) : Below d' x node := by
  induction below using ReflTransGen.head_induction_on with
  | refl => exact ReflTransGen.refl
  | @head b c step _ ih =>
      by_cases same : b = node
      · subst same
        exact ReflTransGen.refl
      · refine ReflTransGen.head ?_ ih
        simp only [Up, up, if_neg same]
        exact step

/-- Everything met on the way up from a node above itself is above itself. -/
theorem cycle_up (cycle : TransGen d.Up x x) (below : Below d x y) : TransGen d.Up y y := by
  induction below using ReflTransGen.head_induction_on with
  | refl => exact cycle
  | head step _ ih =>
      obtain ⟨z, first, rest⟩ := TransGen.head'_iff.mp cycle
      cases up_unique first step
      exact ih (TransGen.tail' rest first)

theorem Acyclic.of_relinked (acyclic : Acyclic d)
    (up : ∀ x, d'.parent? x = if x = node then some parent else d.parent? x)
    (outside : ¬ Below d parent node) : Acyclic d' := by
  have clear : ∀ z, ¬ Below d z node → ¬ TransGen d'.Up z z := by
    intro z avoids cycle
    obtain ⟨p, first, rest⟩ := TransGen.head'_iff.mp cycle
    have ne : z ≠ node := by
      rintro rfl
      exact avoids ReflTransGen.refl
    simp only [Up, up, if_neg ne] at first
    exact acyclic z (TransGen.head' first
      (below_of_relinked up rest fun below => avoids (ReflTransGen.head first below)))
  intro x cycle
  by_cases through : Below d x node
  · -- a cycle through `node` goes through `parent`, which is clear of `node`
    have link : d'.Up node parent := by simp [Up, up]
    have atNode := cycle_up cycle (below_relinked up through)
    exact clear parent outside (cycle_up atNode (ReflTransGen.single link))
  · exact clear x through cycle

end Inlay.Document
