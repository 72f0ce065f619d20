/-
# Proofs.Document.Connected — the tree below the body

A node is `Connected` when it is the body or below it. What is seen of the connected
tree depends on its nodes only: when these are linked as before, the same nodes are
connected (`Connected.of_agree`), and when the nodes below one are as before, so are
its descendants, its text and its properties (`descendants_congr`,
`property?_congr`), wherever else slots were made or freed. For this the walk must not
depend on its fuel, which is the number of slots.
-/
import Inlay.Proofs.Document.WellFormed

namespace Inlay.Document

set_option autoImplicit false

open Relation

variable {d d' : Document} {x y z a : NodeId}

/-- The node is the body or below it. -/
def Connected (d : Document) (x : NodeId) : Prop := Below d x d.body

theorem WellFormed.isConnected_iff (wf : WellFormed d) : d.isConnected x = true ↔ Connected d x :=
  wf.isInclusiveAncestor_iff

namespace Connected

theorem contains (connected : Connected d x) (wf : WellFormed d) : d.contains x = true :=
  wf.contains_of_below wf.body_contains connected

/-- What is below a connected node is connected. -/
theorem below (connected : Connected d a) (below : Below d x a) : Connected d x :=
  ReflTransGen.trans below connected

/-- A connected node other than the body has a connected parent. -/
theorem parent (connected : Connected d x) (inner : x ≠ d.body) : ∃ p, d.Up x p ∧ Connected d p := by
  rcases ReflTransGen.cases_head connected with same | ⟨p, up, above⟩
  · exact absurd same inner
  · exact ⟨p, up, above⟩

end Connected

/-- A way up stays when the nodes on it keep their parents. -/
theorem Below.of_agree (agree : ∀ z p, Below d x z → d.Up z p → d'.Up z p) (below : Below d x a) : Below d' x a := by
  induction below with
  | refl => exact ReflTransGen.refl
  | tail first step ih => exact ih.tail (agree _ _ first step)

/-- A node stays connected when all connected nodes keep their parents. -/
theorem Connected.of_agree (body : d'.body = d.body) (agree : ∀ z p, Connected d z → d.Up z p → d'.Up z p)
    (connected : Connected d x) : Connected d' x := by
  unfold Connected at connected ⊢
  rw [body]
  induction connected using ReflTransGen.head_induction_on with
  | refl => exact ReflTransGen.refl
  | head step rest ih => exact ReflTransGen.head (agree _ _ (ReflTransGen.head step rest) step) ih

/-! ## Walks -/

theorem walk_congr (wf : WellFormed d) (fuel : Nat) (ids : List NodeId)
    (same : ∀ z r, r ∈ ids → Below d z r → d'.children z = d.children z) : d'.walk fuel ids = d.walk fuel ids := by
  induction fuel generalizing ids with
  | zero => rfl
  | succ fuel ih =>
      cases ids with
      | nil => rfl
      | cons id rest =>
          rw [walk, walk, same id id List.mem_cons_self ReflTransGen.refl]
          congr 1
          refine ih _ fun z r mem below => ?_
          rcases List.mem_append.mp mem with child | later
          · exact same z id List.mem_cons_self (below.tail (wf.parent_iff.mpr child))
          · exact same z r (List.mem_cons_of_mem _ later) below

section Congr

variable (wf : WellFormed d) (wf' : WellFormed d') (live : d.contains x = true) (live' : d'.contains x = true)
  (children : ∀ z, Below d z x → d'.children z = d.children z)
include wf wf' live live' children

/-- A node with the same nodes below it has the same descendants. -/
theorem descendants_congr : d'.descendants x = d.descendants x := by
  have same : ∀ z r, r ∈ [x] → Below d z r → d'.children z = d.children z := by
    intro z r mem below
    rw [List.mem_singleton] at mem
    exact children z (mem ▸ below)
  have long := walk_congr wf (d.slots.size + d'.slots.size) [x] same
  rw [walk_eq_of_le (length_walk_le wf.linked wf.acyclic live) (Nat.le_add_right _ _),
    walk_eq_of_le (length_walk_le wf'.linked wf'.acyclic live') (Nat.le_add_left _ _)] at long
  rw [descendants_eq_walk wf.linked wf.acyclic, descendants_eq_walk wf'.linked wf'.acyclic, if_pos live, if_pos live', long]

/-- The text of a node depends on the texts below it only. -/
theorem textContent_congr (texts : ∀ z data, Below d z x → (d'.content? z = some (.text data) ↔ d.content? z = some (.text data))) :
    d'.textContent x = d.textContent x := by
  unfold textContent
  rw [descendants_congr wf wf' live live' children]
  congr 1
  refine List.filterMap_congr fun z mem => ?_
  have texts := fun data => texts z data (wf.mem_descendants.mp mem).2
  split
  · next data found => rw [(texts data).mp found]
  · next noText =>
    split
    · next data found => exact absurd ((texts data).mpr found) (noText data)
    · rfl

/-- A property of a node depends on the node and the texts below it only. -/
theorem property?_congr (content : ∀ z, Below d z x → d'.content? z = d.content? z) (name : String) :
    d'.property? x name = d.property? x name := by
  have text := textContent_congr wf wf' live live' children fun z data below => by rw [content z below]
  have element : d'.element? x = d.element? x := by
    unfold element?
    rw [content x ReflTransGen.refl]
  unfold property? defaultProperty?
  rw [element, text]

end Congr

end Inlay.Document
