/-
# Proofs.Render.Bond — nodes of two documents that stand for each other

Two documents in which one renderer is given the same data, one of them with
another renderer at work, differ in the ids of its nodes and in everything that is
not its own. A `Bond` pairs the ids: those of the nodes the renderer has made, the
freed ones included, since a renderer remembers them. Two documents are `Bonded`
when paired nodes look the same and have paired children, and when what is paired
hangs on nothing but what is paired and the host.

Ids do not come back as long as no slot is freed 2³² times (`Unrepeated`), so an id
that was alive since the two runs began is never one of a new node (`Once.not_new`).
-/
import Inlay.Proofs.Render.Calm
import Inlay.Proofs.Document.Safe
import Mathlib.Data.List.Forall2

namespace Inlay.Render

set_option autoImplicit false

open Inlay.Document Relation Relator

/-- Nodes of one document paired with nodes of another. -/
abbrev Bond := NodeId → NodeId → Prop

namespace Bond

/-- The nodes that are paired. -/
def Has (r : Bond) (x : NodeId) : Prop := ∃ y, r x y

def flip (r : Bond) : Bond := fun x y => r y x

/-- The bond with one node more, which is its own partner. -/
def withHost (r : Bond) (host : NodeId) : Bond := fun x y => r x y ∨ x = host ∧ y = host

/-- The pairs are pairs of the other bond. -/
def Sub (r r' : Bond) : Prop := ∀ x y, r x y → r' x y

variable {r r' r'' : Bond} {host x y : NodeId}

theorem Sub.refl (r : Bond) : r.Sub r := fun _ _ => id

theorem Sub.trans (first : r.Sub r') (second : r'.Sub r'') : r.Sub r'' := fun x y bond =>
  second x y (first x y bond)

theorem Sub.withHost (sub : r.Sub r') : (r.withHost host).Sub (r'.withHost host) := fun x y bond =>
  bond.imp_left (sub x y)

theorem Sub.list (sub : r.Sub r') {xs ys : List NodeId} (bonds : List.Forall₂ r xs ys) : List.Forall₂ r' xs ys :=
  bonds.imp sub

theorem Sub.option (sub : r.Sub r') {x? y? : Option NodeId} (bonds : Option.Rel r x? y?) : Option.Rel r' x? y? := by
  cases bonds with
  | none => exact .none
  | some bond => exact .some (sub _ _ bond)

theorem withHost_flip : r.flip.withHost host y x ↔ r.withHost host x y :=
  or_congr Iff.rfl and_comm

end Bond

/-! ## Paired lists -/

section Lists

variable {r : Bond} {x y : NodeId} {xs ys : List NodeId}

theorem mem_of_paired (unique : BiUnique r) (bond : r x y) (bonds : List.Forall₂ r xs ys) : x ∈ xs ↔ y ∈ ys :=
  List.rel_mem unique bond bonds

theorem exists_of_paired {α β : Type} {r : α → β → Prop} {xs : List α} {ys : List β} {x : α}
    (bonds : List.Forall₂ r xs ys) (mem : x ∈ xs) : ∃ y ∈ ys, r x y := by
  induction bonds with
  | nil => cases mem
  | cons bond _ ih =>
      rcases List.mem_cons.mp mem with rfl | mem
      · exact ⟨_, List.mem_cons_self, bond⟩
      · obtain ⟨y, there, bond⟩ := ih mem
        exact ⟨y, List.mem_cons_of_mem _ there, bond⟩

theorem same_of_paired (unique : BiUnique r) {x' y' : NodeId} (bond : r x y) (bond' : r x' y') : x = x' ↔ y = y' :=
  rel_eq unique bond bond'

theorem contains_of_paired (unique : BiUnique r) (bond : r x y) (bonds : List.Forall₂ r xs ys) :
    xs.contains x = ys.contains y := by
  rw [Bool.eq_iff_iff, List.contains_iff_mem, List.contains_iff_mem]
  exact mem_of_paired unique bond bonds

theorem erase_paired (unique : BiUnique r) (bond : r x y) (bonds : List.Forall₂ r xs ys) :
    List.Forall₂ r (xs.erase x) (ys.erase y) := by
  induction bonds with
  | nil => exact .nil
  | @cons x' y' xs ys bond' _ ih =>
      have same := same_of_paired unique bond' bond
      by_cases here : x' = x
      · obtain rfl := here
        obtain rfl := same.mp rfl
        simpa using ‹List.Forall₂ r xs ys›
      · rw [List.erase_cons_tail (by simpa using here), List.erase_cons_tail (by simpa using mt same.mpr here)]
        exact .cons bond' ih

theorem placeBefore_paired (unique : BiUnique r) (bond : r x y) {ref ref' : Option NodeId} (refs : Option.Rel r ref ref')
    (bonds : List.Forall₂ r xs ys) : List.Forall₂ r (placeBefore x ref xs) (placeBefore y ref' ys) := by
  cases refs with
  | none => exact List.rel_append bonds (.cons bond .nil)
  | @some z w before =>
      induction bonds with
      | nil => exact .cons bond .nil
      | @cons x' y' xs ys bond' rest ih =>
          have same := same_of_paired unique bond' before
          by_cases here : x' = z
          · have there := same.mp here
            simpa [placeBefore, here, there] using ⟨bond, before, rest⟩
          · have there := mt same.mpr here
            simp only [placeBefore, ne_eq, decide_not] at ih
            simpa [placeBefore, here, there] using ⟨bond', ih⟩

theorem head_paired (bonds : List.Forall₂ r xs ys) : Option.Rel r xs.head? ys.head? := by
  cases bonds with
  | nil => exact .none
  | cons bond _ => exact .some bond

/-- A list paired with two parts falls into two parts. -/
theorem append_paired {front behind : List NodeId} (bonds : List.Forall₂ r (front ++ behind) ys) :
    ∃ front' behind', ys = front' ++ behind' ∧ List.Forall₂ r front front' ∧ List.Forall₂ r behind behind' := by
  induction front generalizing ys with
  | nil => exact ⟨[], ys, rfl, .nil, bonds⟩
  | cons x front ih =>
      cases bonds with
      | cons bond bonds =>
          obtain ⟨front', behind', rfl, fronts, behinds⟩ := ih bonds
          exact ⟨_ :: front', behind', rfl, .cons bond fronts, behinds⟩

theorem getElem_paired {α β : Type} {rel : α → β → Prop} {as : List α} {bs : List β} (both : List.Forall₂ rel as bs) :
    ∀ i : Nat, Option.Rel rel as[i]? bs[i]? := by
  induction both with
  | nil => exact fun i => .none
  | cons bond _ ih =>
      intro i
      cases i with
      | zero => exact .some bond
      | succ i => exact ih i

end Lists

/-! ## What a node looks like -/

/-- The content of a node without live properties. -/
def look? (d : Document) (x : NodeId) : Option Content := (d.content? x).map bareContent

/-! ## Ids of the past -/

/-- The node was alive at some time between two documents. -/
def Once (start d : Document) (x : NodeId) : Prop := ∃ m, Aged start m ∧ Aged m d ∧ m.contains x = true

namespace Once

variable {start d d' : Document} {x : NodeId}

theorem later (once : Once start d x) (aged : Aged d d') : Once start d' x := by
  obtain ⟨m, before, after, live⟩ := once
  exact ⟨m, before, after.trans aged, live⟩

/-- An id of the past is not the id of a new node. -/
theorem not_new (once : Once start d x) (unrepeated : Unrepeated start d') (aged : Aged d d')
    (dead : d.contains x = false) : d'.contains x = false := by
  obtain ⟨m, before, after, live⟩ := once
  exact (unrepeated.second before (after.trans aged)).not_revived after aged live dead

end Once

/-! ## What is owned in one document -/

/-- Nothing but the host and what is owned is above what is owned, and all of it
was alive since a document of the past. -/
structure Holding (start : Document) (host : NodeId) (own : NodeId → Prop) (d : Document) : Prop where
  wellFormed : WellFormed d
  aged : Aged start d
  once : ∀ x, own x → Once start d x
  inner : ∀ x, own x → x ≠ d.body
  known : Once start d host
  apart : ¬ own host
  above : ∀ x p, own x → x ∈ d.children p → own p ∨ p = host

/-- Nothing has changed outside of the host and what is owned. -/
structure Outside (host : NodeId) (own : NodeId → Prop) (d d' : Document) : Prop where
  content : ∀ x, ¬ own x → x ≠ host → d'.content? x = d.content? x
  children : ∀ x, ¬ own x → x ≠ host → d'.children x = d.children x
  body : d'.body = d.body
  aged : Aged d d'

variable {start d d' d'' : Document} {host : NodeId} {own own' : NodeId → Prop}

namespace Outside

theorem refl (d : Document) : Outside host own d d := ⟨fun _ _ _ => rfl, fun _ _ _ => rfl, rfl, .refl d⟩

theorem trans (first : Outside host own d d') (second : Outside host own' d' d'') (grows : ∀ x, own x → own' x) :
    Outside host own' d d'' where
  content := fun x out other => (second.content x out other).trans (first.content x (mt (grows x) out) other)
  children := fun x out other => (second.children x out other).trans (first.children x (mt (grows x) out) other)
  body := second.body.trans first.body
  aged := first.aged.trans second.aged

end Outside

namespace Holding

theorem not_child (holding : Holding start host own d) {x p : NodeId} (owned : own x) (out : ¬ own p)
    (other : p ≠ host) : x ∉ d.children p := fun mem => (holding.above x p owned mem).elim out other

/-- What is owned is so after a change of what is owned. -/
theorem later (holding : Holding start host own d) (outside : Outside host own d d') (wf : WellFormed d') :
    Holding start host own d' where
  wellFormed := wf
  aged := holding.aged.trans outside.aged
  once := fun x owned => (holding.once x owned).later outside.aged
  inner := fun x owned => outside.body ▸ holding.inner x owned
  known := holding.known.later outside.aged
  apart := holding.apart
  above := fun x p owned mem => by
    by_contra out
    rw [not_or] at out
    rw [outside.children p out.1 out.2] at mem
    exact holding.not_child owned out.1 out.2 mem

end Holding

/-! ## Bonded documents -/

/-- The documents in which two runs begin, and the host they both have. -/
structure Outset where
  first : Document
  second : Document
  host : NodeId

def Outset.swap (o : Outset) : Outset := ⟨o.second, o.first, o.host⟩

/-- Paired nodes look the same and have paired children. -/
structure Bonded (o : Outset) (r : Bond) (d e : Document) : Prop where
  left : Holding o.first o.host r.Has d
  right : Holding o.second o.host r.flip.Has e
  unique : BiUnique r
  look : ∀ x y, r.withHost o.host x y → look? d x = look? e y
  children : ∀ p q, r.withHost o.host p q → List.Forall₂ r (d.children p) (e.children q)

namespace Bonded

variable {o : Outset} {r : Bond} {e e' : Document} {x y p q : NodeId}

theorem swap (bonded : Bonded o r d e) : Bonded o.swap r.flip e d where
  left := bonded.right
  right := bonded.left
  unique := ⟨fun _ _ _ one two => bonded.unique.2 one two, fun _ _ _ one two => bonded.unique.1 one two⟩
  look := fun x y bond => (bonded.look y x (Bond.withHost_flip.mp bond)).symm
  children := fun p q bond => (bonded.children q p (Bond.withHost_flip.mp bond)).flip

theorem contains (bonded : Bonded o r d e) (bond : r.withHost o.host x y) : d.contains x = e.contains y := by
  have same := congrArg Option.isSome (bonded.look x y bond)
  rw [look?, look?, Option.isSome_map, Option.isSome_map] at same
  rw [Bool.eq_iff_iff, contains_iff_content?, contains_iff_content?, ← Option.isSome_iff_exists,
    ← Option.isSome_iff_exists, same]

theorem host_ne (bonded : Bonded o r d e) (bond : r x y) : x ≠ o.host := fun same =>
  bonded.left.apart ⟨y, same ▸ bond⟩

/-- The host is paired with itself only. -/
theorem withHost_unique (bonded : Bonded o r d e) : BiUnique (r.withHost o.host) := by
  constructor
  · rintro x x' y (one | ⟨rfl, same⟩) (two | ⟨rfl, same'⟩)
    · exact bonded.unique.1 one two
    · exact absurd same' (bonded.swap.host_ne one)
    · exact absurd same (bonded.swap.host_ne two)
    · rfl
  · rintro x y y' (one | ⟨same, rfl⟩) (two | ⟨same', rfl⟩)
    · exact bonded.unique.2 one two
    · exact absurd same' (bonded.host_ne one)
    · exact absurd same (bonded.host_ne two)
    · rfl

theorem withHost_of_has (holds : r.Has p ∨ p = o.host) : ∃ q, r.withHost o.host p q := by
  rcases holds with ⟨q, bond⟩ | rfl
  · exact ⟨q, .inl bond⟩
  · exact ⟨_, .inr ⟨rfl, rfl⟩⟩

/-- The parent of a paired node is paired, or it is the host. -/
theorem parent (bonded : Bonded o r d e) (bond : r x y) (up : d.parent? x = some p) :
    ∃ q, r.withHost o.host p q ∧ e.parent? y = some q := by
  have mem := bonded.left.wellFormed.parent_iff.mp up
  obtain ⟨q, above⟩ := withHost_of_has (bonded.left.above x p ⟨y, bond⟩ mem)
  obtain ⟨y', there, bond'⟩ := exists_of_paired (bonded.children p q above) mem
  cases bonded.unique.2 bond bond'
  exact ⟨q, above, bonded.right.wellFormed.parent_iff.mpr there⟩

theorem parent? (bonded : Bonded o r d e) (bond : r x y) :
    Option.Rel (r.withHost o.host) (d.parent? x) (e.parent? y) := by
  cases up : d.parent? x with
  | some p =>
      obtain ⟨q, above, up'⟩ := bonded.parent bond up
      rw [up']
      exact .some above
  | none =>
      cases up' : e.parent? y with
      | none => exact .none
      | some q =>
          obtain ⟨p, -, up''⟩ := bonded.swap.parent bond up'
          rw [up] at up''
          cases up''

/-- Whatever is below a paired node is paired with something below its partner. -/
theorem below (bonded : Bonded o r d e) (bond : r x y) {z : NodeId} (below : Below d z x) :
    ∃ w, r z w ∧ Below e w y := by
  induction below using ReflTransGen.head_induction_on with
  | refl => exact ⟨y, bond, .refl⟩
  | @head z z' up _ ih =>
      obtain ⟨w', bond', below'⟩ := ih
      have mem := bonded.left.wellFormed.parent_iff.mp up
      obtain ⟨w, there, bond''⟩ := exists_of_paired (bonded.children z' w' (.inl bond')) mem
      exact ⟨w, bond'', .head (bonded.right.wellFormed.parent_iff.mpr there) below'⟩

theorem below_iff (bonded : Bonded o r d e) (bond : r x y) (above : r.withHost o.host p q) :
    Below d p x ↔ Below e q y := by
  constructor
  · intro below
    obtain ⟨w, bond', below'⟩ := bonded.below bond below
    cases bonded.withHost_unique.2 above (.inl bond')
    exact below'
  · intro below
    obtain ⟨w, bond', below'⟩ := bonded.swap.below bond below
    cases bonded.withHost_unique.1 above (.inl bond')
    exact below'

theorem isInclusiveAncestor (bonded : Bonded o r d e) (bond : r x y) (above : r.withHost o.host p q) :
    d.isInclusiveAncestor x p = e.isInclusiveAncestor y q := by
  rw [Bool.eq_iff_iff, bonded.left.wellFormed.isInclusiveAncestor_iff,
    bonded.right.wellFormed.isInclusiveAncestor_iff]
  exact bonded.below_iff bond above

/-- Documents are bonded after a change of what is paired. -/
theorem later (bonded : Bonded o r d e) (out : Outside o.host r.Has d d') (wf : WellFormed d')
    (out' : Outside o.host r.flip.Has e e') (wf' : WellFormed e')
    (look : ∀ x y, r.withHost o.host x y → look? d' x = look? e' y)
    (children : ∀ p q, r.withHost o.host p q → List.Forall₂ r (d'.children p) (e'.children q)) :
    Bonded o r d' e' :=
  ⟨bonded.left.later out wf, bonded.right.later out' wf', bonded.unique, look, children⟩

end Bonded

end Inlay.Render
