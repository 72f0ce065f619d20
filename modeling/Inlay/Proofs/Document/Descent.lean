/-
# Proofs.Document.Descent — the walk down

The walk of `descendants` follows links: down to first children, over to next siblings,
and back up through parents until it is back at its root. Here it is compared with a walk
that keeps the nodes still to visit in a list (`walk`), which needs no way back.

`Onward` says what a walk still comes to behind a node and everything below it, and how many
levels up its root is. The list holds just these nodes all along, and the walk climbs the
levels in the end (`Onward.walked`); so it ends where the list is empty, and both come to
the same nodes (`descendants_eq_walk`). These are the nodes below its root, each once
(`mem_descendants`, `descendants_nodup`).
-/
import Inlay.Proofs.Document.Ancestry

namespace Inlay.Document

set_option autoImplicit false

open Relation

variable {d d' : Document} {a x y node parent root : NodeId} {kids : NodeId → List NodeId}
  {behind : List NodeId} {stance : Stance}

/-- Nodes still to visit are visited in order, the children of each right
behind it. -/
def walk (d : Document) : (fuel : Nat) → List NodeId → List NodeId
  | 0, _ => []
  | _ + 1, [] => []
  | fuel + 1, id :: rest => id :: d.walk fuel (d.children id ++ rest)

/-! ## Nodes in a list -/

/-- No item of the list is below another one. -/
def Apart (d : Document) (ids : List NodeId) : Prop :=
  ids.Pairwise fun a b => ¬ Below d a b ∧ ¬ Below d b a

theorem Apart.children (linked : Linked d d.children) (acyclic : Acyclic d) {id : NodeId}
    {rest : List NodeId} (apart : Apart d (id :: rest)) : Apart d (d.children id ++ rest) := by
  obtain ⟨aside, restApart⟩ := List.pairwise_cons.mp apart
  have upOf : ∀ c ∈ d.children id, d.Up c id := fun c mem => linked.parent_iff.mpr mem
  refine List.pairwise_append.mpr ⟨?_, restApart, ?_⟩
  · have siblings : ∀ b c, b ∈ d.children id → c ∈ d.children id → b ≠ c → ¬ Below d b c := by
      intro b c memB memC ne below
      rcases ReflTransGen.cases_head below with same | ⟨p, first, rest⟩
      · exact ne same
      · cases up_unique first (upOf b memB)
        exact acyclic.not_below (upOf c memC) rest
    exact (linked.nodup id).imp_of_mem fun memB memC ne =>
      ⟨siblings _ _ memB memC ne, siblings _ _ memC memB (Ne.symm ne)⟩
  · intro c mem r memR
    obtain ⟨notBelow, notAbove⟩ := aside r memR
    refine ⟨fun below => ?_, fun below => ?_⟩
    · rcases ReflTransGen.cases_head below with same | ⟨p, first, rest⟩
      · exact notAbove (same ▸ ReflTransGen.single (upOf c mem))
      · cases up_unique first (upOf c mem)
        exact notBelow rest
    · exact notAbove (below.trans (ReflTransGen.single (upOf c mem)))

theorem below_of_mem_walk (linked : Linked d d.children) :
    ∀ {fuel : Nat} {ids : List NodeId} {y : NodeId}, y ∈ d.walk fuel ids → ∃ r ∈ ids, Below d y r
  | 0, _, _, mem => by simp [walk] at mem
  | _ + 1, [], _, mem => by simp [walk] at mem
  | fuel + 1, id :: rest, y, mem => by
      simp only [walk, List.mem_cons] at mem
      rcases mem with rfl | mem
      · exact ⟨y, by simp, ReflTransGen.refl⟩
      · obtain ⟨r, memR, below⟩ := below_of_mem_walk linked mem
        rcases List.mem_append.mp memR with child | later
        · exact ⟨id, by simp, below.trans (ReflTransGen.single (linked.parent_iff.mpr child))⟩
        · exact ⟨r, by simp [later], below⟩

theorem walk_nodup (linked : Linked d d.children) (acyclic : Acyclic d) :
    ∀ {fuel : Nat} {ids : List NodeId}, Apart d ids → (d.walk fuel ids).Nodup
  | 0, _, _ => by simp [walk]
  | _ + 1, [], _ => by simp [walk]
  | fuel + 1, id :: rest, apart => by
      simp only [walk, List.nodup_cons]
      refine ⟨fun mem => ?_, walk_nodup linked acyclic (apart.children linked acyclic)⟩
      obtain ⟨r, memR, below⟩ := below_of_mem_walk linked mem
      rcases List.mem_append.mp memR with child | later
      · exact acyclic.not_below (linked.parent_iff.mpr child) below
      · exact ((List.pairwise_cons.mp apart).1 r later).1 below

theorem mem_walk_of_length_lt (linked : Linked d d.children) :
    ∀ {fuel : Nat} {ids : List NodeId} {y r : NodeId}, (d.walk fuel ids).length < fuel →
      r ∈ ids → Below d y r → y ∈ d.walk fuel ids
  | 0, _, _, _, short, _, _ => by simp at short
  | _ + 1, [], _, _, _, mem, _ => by simp at mem
  | fuel + 1, id :: rest, y, r, short, mem, below => by
      simp only [walk, List.length_cons, Nat.add_lt_add_iff_right] at short
      simp only [walk, List.mem_cons]
      have later : ∀ r ∈ d.children id ++ rest, Below d y r →
          y ∈ d.walk fuel (d.children id ++ rest) := fun r mem below =>
        mem_walk_of_length_lt linked short mem below
      rcases List.mem_cons.mp mem with rfl | mem
      · rcases below.cases_child with same | ⟨c, up, below⟩
        · exact .inl same
        · exact .inr (later c (List.mem_append_left _ (linked.mem r c up)) below)
      · exact .inr (later r (List.mem_append_right _ mem) below)

theorem take_walk (d : Document) (fuel : Nat) (ids : List NodeId) :
    (d.walk (fuel + 1) ids).take fuel = d.walk fuel ids := by
  induction fuel generalizing ids with
  | zero => rfl
  | succ fuel ih =>
      cases ids with
      | nil => rfl
      | cons id rest =>
          rw [walk, List.take_succ_cons, ih, walk]

/-- A walk that never meets more than `most` nodes needs no more fuel. -/
theorem walk_eq_of_le {most fuel : Nat} {ids : List NodeId} (short : ∀ fuel, (d.walk fuel ids).length ≤ most)
    (enough : most ≤ fuel) : d.walk fuel ids = d.walk most ids := by
  induction fuel, enough using Nat.le_induction with
  | base => rfl
  | succ fuel enough ih =>
      have more := take_walk d fuel ids
      rw [List.take_of_length_le ((short (fuel + 1)).trans enough)] at more
      rw [more, ih]

theorem length_walk_le (linked : Linked d d.children) (acyclic : Acyclic d) (live : d.contains x = true) (fuel : Nat) :
    (d.walk fuel [x]).length ≤ d.slots.size := by
  refine length_le_size (walk_nodup linked acyclic (List.pairwise_singleton _ x)) fun z mem => ?_
  obtain ⟨r, here, below⟩ := below_of_mem_walk linked mem
  rw [List.mem_singleton] at here
  exact contains_of_below linked live (here ▸ below)

/-! ## Following links -/

/-- A walk at and below `root` comes to the nodes, from where it stands, and has ended
after so many steps. -/
inductive Walked (d : Document) (root : NodeId) : Stance → List NodeId → Nat → Prop
  | ended : Walked d root .ended [] 0
  | entering {id : NodeId} {nodes : List NodeId} {steps : Nat} :
      Walked d root (d.advance root (.entering id)) nodes steps →
      Walked d root (.entering id) (id :: nodes) (steps + 1)
  | leaving {id : NodeId} {nodes : List NodeId} {steps : Nat} :
      Walked d root (d.advance root (.leaving id)) nodes steps → Walked d root (.leaving id) nodes (steps + 1)

/-- More fuel than steps changes nothing. -/
theorem Walked.walkFrom_eq {nodes : List NodeId} {steps : Nat} (walked : Walked d root stance nodes steps) :
    ∀ {fuel : Nat}, steps ≤ fuel → d.walkFrom root fuel stance = nodes := by
  induction walked with
  | ended =>
      intro fuel _
      cases fuel <;> rfl
  | entering _ ih =>
      rintro (_ | fuel) enough
      · omega
      · rw [walkFrom, ih (Nat.le_of_succ_le_succ enough)]
  | leaving _ ih =>
      rintro (_ | fuel) enough
      · omega
      · rw [walkFrom, ih (Nat.le_of_succ_le_succ enough)]

/-- A walk at `root` comes to the nodes behind a node and everything below it, which is some
levels below `root`. -/
inductive Onward (d : Document) (root : NodeId) : NodeId → (behind : List NodeId) → (levels : Nat) → Prop
  | root : Onward d root root [] 0
  | child {p x : NodeId} {front after behind : List NodeId} {levels : Nat} : Onward d root p behind levels →
      d.children p = front ++ x :: after → Onward d root x (after ++ behind) (levels + 1)

namespace Onward

variable {levels : Nat}

theorem below_root (linked : Linked d d.children) (onward : Onward d root x behind levels) : Below d x root := by
  induction onward with
  | root => exact ReflTransGen.refl
  | child _ split ih => exact ReflTransGen.head (linked.around _ _ _ _ split).1 ih

/-- From a node with everything below it the walk goes on to what is behind it. The induction is on
the levels that it climbs. -/
theorem walked_leaving (linked : Linked d d.children) (acyclic : Acyclic d) {fuel : Nat}
    (onward : Onward d root x behind levels)
    (goesOn : ∀ {y : NodeId} {rest : List NodeId} {levels : Nat}, behind = y :: rest → Onward d root y rest levels →
      Walked d root (.entering y) (d.walk fuel behind) (2 * (d.walk fuel behind).length + levels)) :
    Walked d root (.leaving x) (d.walk fuel behind) (2 * (d.walk fuel behind).length + levels + 1) := by
  induction onward with
  | root =>
      have none : d.walk fuel [] = [] := by cases fuel <;> rfl
      rw [none]
      refine .leaving ?_
      rw [advance, if_pos rfl]
      exact .ended
  | @child p x front after behind levels onward split ih =>
      obtain ⟨up, -, next⟩ := linked.around _ _ _ _ split
      have inner : x ≠ root := by
        rintro rfl
        exact acyclic.not_below up (onward.below_root linked)
      refine .leaving ?_
      rw [advance, if_neg inner, next, up]
      cases after with
      | nil => exact ih goesOn
      | cons y after =>
          have sibling : d.children p = (front ++ [x]) ++ y :: after := by simp [split]
          exact goesOn rfl (.child onward sibling)

/-- The walk comes to what the list of nodes still to visit holds. -/
theorem walked (linked : Linked d d.children) (acyclic : Acyclic d) : ∀ (fuel : Nat) {x : NodeId}
    {behind : List NodeId} {levels : Nat}, Onward d root x behind levels →
    (d.walk fuel (x :: behind)).length < fuel →
    Walked d root (.entering x) (d.walk fuel (x :: behind)) (2 * (d.walk fuel (x :: behind)).length + levels)
  | 0, _, _, _, _, short => absurd short (Nat.not_lt_zero _)
  | fuel + 1, x, behind, levels, onward, short => by
      have first := linked.first x
      rw [walk, List.length_cons] at short ⊢
      have short := Nat.lt_of_succ_lt_succ short
      have steps : ∀ n, 2 * (n + 1) + levels = (2 * n + levels + 1) + 1 := by omega
      rw [steps]
      refine .entering ?_
      rw [advance, first]
      cases kids : d.children x with
      | nil =>
          rw [kids, List.nil_append] at short
          refine onward.walked_leaving linked acyclic fun {y rest levels} same next => ?_
          subst same
          exact walked linked acyclic fuel next short
      | cons c cs =>
          have first : d.children x = [] ++ c :: cs := kids
          rw [kids] at short
          exact walked linked acyclic fuel (.child onward first) short

end Onward

section Descendants

variable (linked : Linked d d.children) (acyclic : Acyclic d)
include linked acyclic

theorem walked_walk (live : d.contains x = true) :
    Walked d x (.entering x) (d.walk d.slots.size [x]) (2 * (d.walk d.slots.size [x]).length) := by
  have short := length_walk_le linked acyclic live
  have walked := Onward.walked linked acyclic (d.slots.size + 1) .root (Nat.lt_succ_of_le (short _))
  rwa [walk_eq_of_le short (Nat.le_succ _)] at walked

/-- Both walks come to the same nodes. -/
theorem descendants_eq_walk : d.descendants x = if d.contains x then d.walk d.slots.size [x] else [] := by
  rw [descendants, startAt]
  split
  · next live =>
    refine (walked_walk linked acyclic live).walkFrom_eq (Nat.mul_le_mul_left 2 ?_)
    exact length_walk_le linked acyclic live _
  · exact Walked.ended.walkFrom_eq (Nat.zero_le _)

/-- The walk ends, after two steps for each node it comes to. -/
theorem walked_descendants : Walked d x (d.startAt x) (d.descendants x) (2 * (d.descendants x).length) := by
  rw [descendants_eq_walk linked acyclic, startAt]
  split
  · next live => exact walked_walk linked acyclic live
  · exact .ended

theorem descendants_nodup : (d.descendants x).Nodup := by
  rw [descendants_eq_walk linked acyclic]
  split
  · exact walk_nodup linked acyclic (List.pairwise_singleton _ x)
  · exact List.nodup_nil

/-- The walk from a live node meets what is below it. -/
theorem mem_descendants : y ∈ d.descendants x ↔ d.contains x = true ∧ Below d y x := by
  have nodup := descendants_nodup (x := x) linked acyclic
  rw [descendants_eq_walk linked acyclic] at nodup ⊢
  by_cases live : d.contains x = true
  · rw [if_pos live] at nodup ⊢
    have lives : ∀ z ∈ d.walk d.slots.size [x], d.contains z = true := by
      intro z mem
      obtain ⟨r, memR, below⟩ := below_of_mem_walk linked mem
      rw [List.mem_singleton] at memR
      exact contains_of_below linked live (memR ▸ below)
    constructor
    · intro mem
      obtain ⟨r, memR, below⟩ := below_of_mem_walk linked mem
      rw [List.mem_singleton] at memR
      exact ⟨live, memR ▸ below⟩
    · rintro ⟨-, below⟩
      -- a walk that takes all its fuel has met every live node
      by_contra absent
      have short : (d.walk d.slots.size [x]).length < d.slots.size := by
        have all : (y :: d.walk d.slots.size [x]).Nodup := List.nodup_cons.mpr ⟨absent, nodup⟩
        have := length_le_size (d := d) all fun z mem => by
          rcases List.mem_cons.mp mem with rfl | mem
          · exact contains_of_below linked live below
          · exact lives z mem
        exact this
      exact absent (mem_walk_of_length_lt linked short (List.mem_singleton_self x) below)
  · rw [if_neg live]
    simp [live]

end Descendants

end Inlay.Document
