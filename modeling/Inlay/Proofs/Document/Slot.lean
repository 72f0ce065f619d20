/-
# Proofs.Document.Slot — slots under the primitive edits

What `modify`, `create` and `release` do to the slots: which node an id finds
afterwards, that the free list names the empty slots once each, and that the
tally balances (`Kept`). The free list is what makes `create` fresh: the id it
gives was not live before.

A slot's generation moves on whenever the slot is freed. As long as fewer than
2³² nodes were discarded it never comes back, so an id that is gone stays gone
(`Aged`).
-/
import Inlay.Document.Edit
import Mathlib.Algebra.BigOperators.Group.Finset.Piecewise
import Mathlib.Algebra.Order.BigOperators.Group.Finset
import Mathlib.Data.List.Nodup
import Mathlib.Data.List.Perm.Subperm

namespace Inlay.Document

set_option autoImplicit false

variable {d d' d'' : Document} {id x : NodeId}

/-! ## What an id finds -/

theorem get?_eq_some_iff {n : Node} : d.get? id = some n ↔
    ∃ slot, d.slots[id.index]? = some slot ∧ slot.generation = id.generation ∧ slot.node = some n := by
  unfold get?
  cases d.slots[id.index]? with
  | none => simp
  | some slot => by_cases same : slot.generation = id.generation <;> simp [same]

theorem contains_iff : d.contains id = true ↔ ∃ n, d.get? id = some n := Option.isSome_iff_exists

theorem contains_iff_content? : d.contains id = true ↔ ∃ c, d.content? id = some c := by
  simp [contains_iff, content?, Option.map_eq_some_iff]

theorem content?_eq_none (dead : d.contains id = false) : d.content? id = none := by
  simpa [contains, content?] using dead

theorem get?_modify (f : Node → Node) (x : NodeId) :
    (d.modify id f).get? x = if x = id then (d.get? x).map f else d.get? x := by
  obtain ⟨index, generation⟩ := x
  obtain ⟨index', generation'⟩ := id
  simp only [get?, modify, Array.getElem?_modify, NodeId.mk.injEq]
  by_cases sameIndex : index = index'
  · subst sameIndex
    cases d.slots[index]? with
    | none => simp
    | some slot =>
        by_cases here : slot.generation = generation'
        · subst here
          by_cases found : slot.generation = generation
          · simp [found]
          · simp [found, Ne.symm found]
        · by_cases found : slot.generation = generation
          · subst found
            simp [here]
          · simp [here, found]
  · simp [sameIndex, Ne.symm sameIndex]

@[simp] theorem get?_count (f : Tally → Tally) : (d.count f).get? x = d.get? x := rfl

@[simp] theorem get?_log (record : Record) : (d.log record).get? x = d.get? x := rfl

@[simp] theorem get?_report (connected : Bool) (f : Tally → Tally) (record : Record) :
    (d.report connected f record).get? x = d.get? x := by
  unfold report; split <;> rfl

/-! ## Slots that only change their nodes' content and links -/

/-- What remains of a slot when the node in it is not looked at. -/
def Slot.frame (slot : Slot) : UInt32 × Bool := (slot.generation, slot.node.isSome)

/-- The two documents have the same slots, in use or free, and counted the same
births and deaths. -/
structure SameSlots (d d' : Document) : Prop where
  frames : d'.slots.map Slot.frame = d.slots.map Slot.frame
  free : d'.free = d.free
  body : d'.body = d.body
  created : d'.tally.created = d.tally.created
  discarded : d'.tally.discarded = d.tally.discarded

namespace SameSlots

theorem refl (d : Document) : SameSlots d d := ⟨rfl, rfl, rfl, rfl, rfl⟩

theorem trans (first : SameSlots d d') (second : SameSlots d' d'') : SameSlots d d'' where
  frames := second.frames.trans first.frames
  free := second.free.trans first.free
  body := second.body.trans first.body
  created := second.created.trans first.created
  discarded := second.discarded.trans first.discarded

theorem size (same : SameSlots d d') : d'.slots.size = d.slots.size := by
  simpa using congrArg Array.size same.frames

theorem slot? (same : SameSlots d d') (i : Nat) :
    (d'.slots[i]?).map Slot.frame = (d.slots[i]?).map Slot.frame := by
  simpa using congrArg (·[i]?) same.frames

theorem contains (same : SameSlots d d') (id : NodeId) : d'.contains id = d.contains id := by
  have frames := same.slot? id.index
  simp only [Document.contains, get?]
  cases h : d.slots[id.index]? with
  | none =>
      rw [h] at frames
      simp only [Option.map_none, Option.map_eq_none_iff] at frames
      simp [frames]
  | some slot =>
      rw [h] at frames
      obtain ⟨slot', h', frame⟩ := Option.map_eq_some_iff.mp frames
      simp only [Slot.frame, Prod.mk.injEq] at frame
      obtain ⟨generation, lives⟩ := frame
      rw [h']
      simp only [Option.bind_some, generation]
      split
      · exact lives
      · rfl

end SameSlots

theorem sameSlots_modify (id : NodeId) (f : Node → Node) : SameSlots d (d.modify id f) := by
  refine ⟨?_, rfl, rfl, rfl, rfl⟩
  apply Array.ext
  · simp [modify]
  · intro i _ _
    simp only [modify, Array.getElem_map, Array.getElem_modify]
    split
    · split <;> simp [Slot.frame]
    · rfl

theorem sameSlots_report (connected : Bool) {f : Tally → Tally} (record : Record)
    (created : ∀ t, (f t).created = t.created) (discarded : ∀ t, (f t).discarded = t.discarded) :
    SameSlots d (d.report connected f record) := by
  unfold report
  split
  · exact ⟨rfl, rfl, rfl, created _, discarded _⟩
  · exact .refl d

/-! ## The free list and the tally -/

/-- The slots are kept well: the free list holds each empty slot once, and the
tally accounts for every slot in use. -/
structure Kept (d : Document) : Prop where
  free_nodup : d.free.Nodup
  mem_free : ∀ i : Nat, i ∈ d.free ↔ ∃ generation, d.slots[i]? = some ⟨generation, none⟩
  balance : d.tally.created + 1 = d.tally.discarded + d.size
  generation_le : ∀ (i : Nat) (slot : Slot), d.slots[i]? = some slot → slot.generation.toNat ≤ d.tally.discarded

theorem kept_new : Kept new where
  free_nodup := List.nodup_nil
  mem_free := by
    intro i
    rcases i with _ | i <;> simp [new]
  balance := rfl
  generation_le := by
    intro i slot found
    rcases i with _ | i
    · simp only [new, List.getElem?_toArray, List.getElem?_cons_zero, Option.some.injEq] at found
      subst found
      simp
    · simp [new] at found

namespace Kept

theorem of_sameSlots (kept : Kept d) (same : SameSlots d d') : Kept d' where
  free_nodup := same.free ▸ kept.free_nodup
  mem_free := by
    intro i
    rw [same.free, kept.mem_free]
    have frames := same.slot? i
    constructor
    · rintro ⟨generation, found⟩
      rw [found] at frames
      obtain ⟨⟨generation', node⟩, found', frame⟩ := Option.map_eq_some_iff.mp frames
      cases node with
      | none => exact ⟨generation', found'⟩
      | some n => simp [Slot.frame] at frame
    · rintro ⟨generation, found⟩
      rw [found] at frames
      obtain ⟨⟨generation', node⟩, found', frame⟩ := Option.map_eq_some_iff.mp frames.symm
      cases node with
      | none => exact ⟨generation', found'⟩
      | some n => simp [Slot.frame] at frame
  balance := by
    have := kept.balance
    simp only [Document.size, same.created, same.discarded, same.size, same.free] at this ⊢
    exact this
  generation_le := by
    intro i slot found
    have frames := same.slot? i
    rw [found] at frames
    obtain ⟨slot', found', frame⟩ := Option.map_eq_some_iff.mp frames.symm
    simp only [Slot.frame, Prod.mk.injEq] at frame
    rw [same.discarded, ← frame.1]
    exact kept.generation_le i slot' found'

theorem index_lt {i : Nat} (kept : Kept d) (free : i ∈ d.free) : i < d.slots.size := by
  obtain ⟨_, found⟩ := (kept.mem_free i).mp free
  exact (Array.getElem?_eq_some_iff.mp found).1

/-- The free slots are no more than the slots. -/
theorem free_length_le (kept : Kept d) : d.free.length ≤ d.slots.size := by
  have sub : d.free ⊆ List.range d.slots.size := fun i free => by
    simpa using kept.index_lt free
  simpa using (kept.free_nodup.subperm sub).length_le

end Kept

/-- Distinct live ids are no more than the slots. -/
theorem length_le_size {ids : List NodeId} (nodup : ids.Nodup)
    (live : ∀ id ∈ ids, d.contains id = true) : ids.length ≤ d.slots.size := by
  have slotOf : ∀ id ∈ ids, ∃ slot, d.slots[id.index]? = some slot ∧
      slot.generation = id.generation := by
    intro id mem
    obtain ⟨n, found⟩ := contains_iff.mp (live id mem)
    obtain ⟨slot, at_, generation, -⟩ := get?_eq_some_iff.mp found
    exact ⟨slot, at_, generation⟩
  have indices : (ids.map NodeId.index).Nodup := by
    refine List.Nodup.map_on ?_ nodup
    intro a memA b memB same
    obtain ⟨slotA, atA, genA⟩ := slotOf a memA
    obtain ⟨slotB, atB, genB⟩ := slotOf b memB
    rw [same, atB] at atA
    cases atA
    cases a; cases b
    simp only [NodeId.mk.injEq]
    exact ⟨same, genA.symm.trans genB⟩
  have sub : ids.map NodeId.index ⊆ List.range d.slots.size := by
    intro i mem
    obtain ⟨id, memId, rfl⟩ := List.mem_map.mp mem
    obtain ⟨_, at_, -⟩ := slotOf id memId
    simpa using (Array.getElem?_eq_some_iff.mp at_).1
  simpa using (indices.subperm sub).length_le

/-! ## Making a node -/

section Create

theorem get?_create (kept : Kept d) (content : Content) (x : NodeId) :
    (create content d).2.get? x =
      if x = (create content d).1 then some (.loose content) else d.get? x := by
  obtain ⟨index, generation⟩ := x
  cases free : d.free with
  | nil =>
      simp only [create, count, free, get?, Array.getElem?_push, NodeId.mk.injEq]
      by_cases here : index = d.slots.size
      · subst here
        by_cases zero : generation = 0
        · simp [zero]
        · simp [zero, Ne.symm zero]
      · simp [here]
  | cons i rest =>
      obtain ⟨g, found⟩ := (kept.mem_free i).mp (by simp [free])
      have inBounds := (Array.getElem?_eq_some_iff.mp found).1
      simp only [create, count, free, found, get?, Array.getElem?_setIfInBounds, NodeId.mk.injEq]
      by_cases here : i = index
      · subst here
        by_cases same : g = generation
        · simp [inBounds, same]
        · have generation := congrArg Slot.generation (Array.getElem?_eq_some_iff.mp found).2
          simp only at generation
          simp [inBounds, same, Ne.symm same, generation]
      · simp [here, Ne.symm here]

/-- A new node was not live before. -/
theorem contains_create_fst (kept : Kept d) (content : Content) :
    d.contains (create content d).1 = false := by
  cases free : d.free with
  | nil => simp [create, count, free, contains, get?]
  | cons i rest =>
      obtain ⟨g, found⟩ := (kept.mem_free i).mp (by simp [free])
      simp [create, count, free, contains, get?, found]

variable {content : Content}

@[simp] theorem body_create : (create content d).2.body = d.body := by
  unfold create; simp only; split <;> rfl

@[simp] theorem discarded_create :
    (create content d).2.tally.discarded = d.tally.discarded := by
  unfold create; simp only; split <;> rfl

theorem Kept.create (kept : Kept d) : Kept (create content d).2 := by
  cases free : d.free with
  | nil =>
      refine ⟨by simp [Document.create, count, free], ?_, ?_, ?_⟩
      · intro i
        simp only [Document.create, count, free, List.not_mem_nil, false_iff, not_exists]
        intro g found
        rw [Array.getElem?_push] at found
        split at found
        · simp at found
        · simpa [free] using (kept.mem_free i).mpr ⟨g, found⟩
      · have := kept.balance
        simp only [Document.create, count, Document.size, free, List.length_nil,
          Array.size_push] at this ⊢
        omega
      · intro i slot found
        simp only [Document.create, count, free] at found ⊢
        rw [Array.getElem?_push] at found
        split at found
        · cases found
          simp
        · exact kept.generation_le i slot found
  | cons j rest =>
      obtain ⟨g, foundJ⟩ := (kept.mem_free j).mp (by simp [free])
      have inBounds := (Array.getElem?_eq_some_iff.mp foundJ).1
      have nodup : (j :: rest).Nodup := free ▸ kept.free_nodup
      have noJ := (List.nodup_cons.mp nodup).1
      refine ⟨by simpa [Document.create, count, free] using (List.nodup_cons.mp nodup).2, ?_, ?_, ?_⟩
      · intro i
        simp only [Document.create, count, free, foundJ, Array.getElem?_setIfInBounds]
        by_cases here : j = i
        · subst here
          simp [inBounds, noJ]
        · have := kept.mem_free i
          simp only [free, List.mem_cons, Ne.symm here, false_or] at this
          simpa [here] using this
      · have balance := kept.balance
        have short := kept.free_length_le
        simp only [free, List.length_cons] at short
        simp only [Document.create, count, Document.size, free, foundJ, List.length_cons,
          Array.size_setIfInBounds] at balance ⊢
        omega
      · intro i slot found
        simp only [Document.create, count, free, foundJ, Array.getElem?_setIfInBounds] at found ⊢
        split at found
        · cases found
          exact kept.generation_le j ⟨g, none⟩ foundJ
        · exact kept.generation_le i slot found

end Create

/-! ## Freeing a node -/

section Release

theorem slot_release (i : Nat) : (d.release id).slots[i]? =
    if id.index = i then (d.slots[i]?).map fun slot => ⟨slot.generation + 1, none⟩
    else d.slots[i]? := by
  simp only [release, count, Array.getElem?_modify]

theorem get?_release (live : d.contains id = true) (x : NodeId) :
    (d.release id).get? x = if x = id then none else d.get? x := by
  obtain ⟨n, found⟩ := contains_iff.mp live
  obtain ⟨slot, at_, generation, -⟩ := get?_eq_some_iff.mp found
  simp only [get?, slot_release]
  by_cases here : id.index = x.index
  · have other : x ≠ id → slot.generation ≠ x.generation := by
      intro ne same
      refine ne ?_
      cases x; cases id
      simp only [NodeId.mk.injEq]
      exact ⟨here.symm, same.symm.trans generation⟩
    rw [← here, at_]
    by_cases same : x = id
    · simp [same]
    · simp [same, other same]
  · have ne : x ≠ id := fun same => here (by rw [same])
    simp [here, ne]

@[simp] theorem body_release : (d.release id).body = d.body := rfl

@[simp] theorem discarded_release : (d.release id).tally.discarded = d.tally.discarded + 1 := rfl

theorem Kept.release (kept : Kept d) (live : d.contains id = true) : Kept (d.release id) := by
  obtain ⟨n, found⟩ := contains_iff.mp live
  obtain ⟨slot, at_, -, node⟩ := get?_eq_some_iff.mp found
  have inBounds := (Array.getElem?_eq_some_iff.mp at_).1
  have used : id.index ∉ d.free := by
    intro free
    obtain ⟨g, empty⟩ := (kept.mem_free _).mp free
    rw [at_] at empty
    cases empty
    simp at node
  refine ⟨List.nodup_cons.mpr ⟨used, kept.free_nodup⟩, ?_, ?_, ?_⟩
  · intro i
    rw [slot_release]
    simp only [Document.release, count, List.mem_cons]
    by_cases here : id.index = i
    · subst here
      simp [at_]
    · simp [here, Ne.symm here, kept.mem_free]
  · have balance := kept.balance
    have short : d.free.length < d.slots.size := by
      have nodup : (id.index :: d.free).Nodup := List.nodup_cons.mpr ⟨used, kept.free_nodup⟩
      have sub : id.index :: d.free ⊆ List.range d.slots.size := by
        intro i mem
        rcases List.mem_cons.mp mem with rfl | free
        · simpa using inBounds
        · simpa using kept.index_lt free
      have := (nodup.subperm sub).length_le
      simp only [List.length_cons, List.length_range] at this
      exact this
    simp only [Document.release, count, Document.size, List.length_cons, Array.size_modify] at balance ⊢
    omega
  · intro i slot' found'
    rw [slot_release] at found'
    simp only [Document.release, count]
    split at found'
    · obtain ⟨old, atOld, rfl⟩ := Option.map_eq_some_iff.mp found'
      have := kept.generation_le i old atOld
      simp only [UInt32.toNat_add, UInt32.reduceToNat]
      omega
    · have := kept.generation_le i slot' found'
      omega

end Release

/-! ## Ids that are gone -/

/-- The slot of the id has moved on to a later generation. -/
def Gone (d : Document) (id : NodeId) : Prop :=
  ∃ slot, d.slots[id.index]? = some slot ∧ id.generation.toNat < slot.generation.toNat

theorem Gone.contains (gone : Gone d id) : d.contains id = false := by
  obtain ⟨slot, at_, later⟩ := gone
  have ne : slot.generation ≠ id.generation := by
    intro same
    rw [same] at later
    exact Nat.lt_irrefl _ later
  simp [Document.contains, get?, at_, ne]

/-- The bound below which no generation comes back: two to the power of 32. -/
def generationBound : Nat := 4294967296

/-! ## How often each slot was freed -/

/-- The generation of a slot; a slot that is still to come begins with none. -/
def generationAt (d : Document) (i : Nat) : UInt32 := ((d.slots[i]?).map Slot.generation).getD 0

/-- Between two documents each slot was freed `count` times. -/
structure Freed (d d' : Document) (count : Nat → Nat) : Prop where
  size_le : d.slots.size ≤ d'.slots.size
  generation : ∀ i, d'.generationAt i = d.generationAt i + UInt32.ofNat (count i)
  discarded : d'.tally.discarded = d.tally.discarded + ∑ i ∈ Finset.range d'.slots.size, count i
  outside : ∀ i, d'.slots.size ≤ i → count i = 0
  vanished : ∀ id, d.contains id = true → d'.contains id = false → 0 < count id.index

theorem generationAt_of_contains (live : d.contains id = true) : d.generationAt id.index = id.generation := by
  obtain ⟨n, found⟩ := contains_iff.mp live
  obtain ⟨slot, at_, generation, -⟩ := get?_eq_some_iff.mp found
  rw [generationAt, at_, ← generation]
  rfl

theorem SameSlots.generationAt (same : SameSlots d d') (i : Nat) : d'.generationAt i = d.generationAt i := by
  have frames := congrArg (Option.map Prod.fst) (same.slot? i)
  simp only [Option.map_map] at frames
  exact congrArg (Option.getD · 0) frames

namespace Freed

theorem of_sameSlots (same : SameSlots d d') : Freed d d' fun _ => 0 where
  size_le := same.size.ge
  generation := fun i => by simp [same.generationAt]
  discarded := by simp [same.discarded]
  outside := fun _ _ => rfl
  vanished := fun id live dead => by rw [same.contains, live] at dead; cases dead

theorem trans {count count' : Nat → Nat} (first : Freed d d' count) (second : Freed d' d'' count') :
    Freed d d'' fun i => count i + count' i where
  size_le := first.size_le.trans second.size_le
  generation := fun i => by
    rw [second.generation, first.generation, UInt32.ofNat_add, UInt32.add_assoc]
  discarded := by
    have later : ∑ i ∈ Finset.range d'.slots.size, count i = ∑ i ∈ Finset.range d''.slots.size, count i :=
      Finset.sum_subset (Finset.range_mono second.size_le) fun i _ out =>
        first.outside i (Nat.le_of_not_lt fun below => out (Finset.mem_range.mpr below))
    rw [second.discarded, first.discarded, later, Finset.sum_add_distrib, Nat.add_assoc]
  outside := fun i out => by
    rw [first.outside i (second.size_le.trans out), second.outside i out]
  vanished := fun id live dead => by
    cases between : d'.contains id with
    | false => exact Nat.add_pos_left (first.vanished id live between) _
    | true => exact Nat.add_pos_right _ (second.vanished id between dead)

theorem create {content : Content} (kept : Kept d) : Freed d (create content d).2 fun _ => 0 where
  size_le := by
    unfold Document.create
    simp only [count]
    split <;> simp
  generation := by
    intro i
    cases free : d.free with
    | nil =>
        simp only [generationAt, Document.create, count, free, Array.getElem?_push]
        split
        · next here => simp [here]
        · simp
    | cons j rest =>
        obtain ⟨g, found⟩ := (kept.mem_free j).mp (by simp [free])
        simp only [generationAt, Document.create, count, free, found, Array.getElem?_setIfInBounds]
        split
        · next here =>
            subst here
            obtain ⟨inBounds, same⟩ := Array.getElem?_eq_some_iff.mp found
            have generation := congrArg Slot.generation same
            simp [inBounds, generation]
        · simp
  discarded := by simp
  outside := fun _ _ => rfl
  vanished := by
    intro id live dead
    obtain ⟨n, found⟩ := contains_iff.mp live
    have alive : (Document.create content d).2.contains id = true := by
      rw [contains_iff, get?_create kept content]
      split
      · exact ⟨_, rfl⟩
      · exact ⟨n, found⟩
    rw [alive] at dead
    cases dead

theorem release (live : d.contains id = true) :
    Freed d (d.release id) fun i => if i = id.index then 1 else 0 where
  size_le := by simp [Document.release, count]
  generation := by
    intro i
    obtain ⟨n, found⟩ := contains_iff.mp live
    obtain ⟨slot, at_, -⟩ := get?_eq_some_iff.mp found
    rw [generationAt, generationAt, slot_release]
    by_cases here : i = id.index
    · subst here
      simp [at_]
    · simp [here, Ne.symm here]
  discarded := by
    obtain ⟨n, found⟩ := contains_iff.mp live
    obtain ⟨slot, at_, -⟩ := get?_eq_some_iff.mp found
    have inBounds := (Array.getElem?_eq_some_iff.mp at_).1
    have inside : id.index ∈ Finset.range (d.release id).slots.size := by
      simpa [Document.release, count] using inBounds
    rw [discarded_release, Finset.sum_ite_eq', if_pos inside]
  outside := by
    intro i out
    obtain ⟨n, found⟩ := contains_iff.mp live
    obtain ⟨slot, at_, -⟩ := get?_eq_some_iff.mp found
    have inBounds := (Array.getElem?_eq_some_iff.mp at_).1
    have out' : d.slots.size ≤ i := by simpa [Document.release, count] using out
    rw [if_neg]
    rintro rfl
    exact absurd inBounds (Nat.not_lt.mpr out')
  vanished := by
    intro x liveX dead
    have same : x = id := by
      by_contra other
      rw [contains, get?_release live, if_neg other] at dead
      exact absurd liveX (by rw [contains, dead]; decide)
    simp [same]

end Freed

/-- What time does to ids. Every slot was freed some number of times. As long as
generations do not come back, a live id stays live or is gone, and what is gone
stays so. -/
structure Aged (d d' : Document) : Prop where
  freed : ∃ count, Freed d d' count
  discarded_le : d.tally.discarded ≤ d'.tally.discarded
  live : d'.tally.discarded < generationBound → ∀ id, d.contains id = true →
    d'.contains id = true ∨ Gone d' id
  gone : d'.tally.discarded < generationBound → ∀ id, Gone d id → Gone d' id

namespace Aged

theorem refl (d : Document) : Aged d d :=
  ⟨⟨_, .of_sameSlots (.refl d)⟩, Nat.le_refl _, fun _ _ live => .inl live, fun _ _ gone => gone⟩

theorem trans (first : Aged d d') (second : Aged d' d'') : Aged d d'' where
  freed := by
    obtain ⟨count, one⟩ := first.freed
    obtain ⟨count', two⟩ := second.freed
    exact ⟨_, one.trans two⟩
  discarded_le := Nat.le_trans first.discarded_le second.discarded_le
  live := by
    intro bound id live
    rcases first.live (Nat.lt_of_le_of_lt second.discarded_le bound) id live with live | gone
    · exact second.live bound id live
    · exact .inr (second.gone bound id gone)
  gone := fun bound id gone =>
    second.gone bound id (first.gone (Nat.lt_of_le_of_lt second.discarded_le bound) id gone)

theorem of_sameSlots (same : SameSlots d d') : Aged d d' where
  freed := ⟨_, .of_sameSlots same⟩
  discarded_le := Nat.le_of_eq same.discarded.symm
  live := fun _ id live => .inl ((same.contains id).trans live)
  gone := by
    rintro - id ⟨slot, at_, later⟩
    have frames := same.slot? id.index
    rw [at_] at frames
    obtain ⟨slot', at', frame⟩ := Option.map_eq_some_iff.mp frames
    simp only [Slot.frame, Prod.mk.injEq] at frame
    exact ⟨slot', at', by rw [frame.1]; exact later⟩

theorem create {content : Content} (kept : Kept d) : Aged d (create content d).2 where
  freed := ⟨_, .create kept⟩
  discarded_le := by simp
  live := by
    intro _ id live
    obtain ⟨n, found⟩ := contains_iff.mp live
    left
    rw [contains_iff, get?_create kept content]
    split
    · exact ⟨_, rfl⟩
    · exact ⟨n, found⟩
  gone := by
    rintro - id ⟨slot, at_, later⟩
    have inBounds := (Array.getElem?_eq_some_iff.mp at_).1
    cases free : d.free with
    | nil =>
        refine ⟨slot, ?_, later⟩
        simp only [Document.create, count, free, Array.getElem?_push]
        rw [if_neg (Nat.ne_of_lt inBounds)]
        exact at_
    | cons j rest =>
        obtain ⟨g, foundJ⟩ := (kept.mem_free j).mp (by simp [free])
        simp only [Gone, Document.create, count, free, foundJ, Array.getElem?_setIfInBounds]
        by_cases here : j = id.index
        · subst here
          rw [foundJ] at at_
          cases at_
          simp only [if_true, inBounds]
          exact ⟨_, rfl, later⟩
        · rw [if_neg here]
          exact ⟨slot, at_, later⟩

theorem release (kept : Kept d) (live : d.contains id = true) : Aged d (d.release id) := by
  have next : ∀ (i : Nat) (slot : Slot), d.slots[i]? = some slot →
      (d.release id).tally.discarded < generationBound →
      (slot.generation + 1).toNat = slot.generation.toNat + 1 := by
    intro i slot at_ bound
    have := kept.generation_le i slot at_
    simp only [discarded_release, generationBound] at bound
    simp only [UInt32.toNat_add, UInt32.reduceToNat]
    omega
  refine ⟨⟨_, .release live⟩, by simp, ?_, ?_⟩
  · intro bound x liveX
    by_cases same : x = id
    · subst same
      obtain ⟨n, found⟩ := contains_iff.mp liveX
      obtain ⟨slot, at_, generation, -⟩ := get?_eq_some_iff.mp found
      refine .inr ⟨⟨slot.generation + 1, none⟩, by simp [slot_release, at_], ?_⟩
      rw [next _ _ at_ bound, generation]
      exact Nat.lt_succ_self _
    · rw [contains_iff, get?_release live, if_neg same, ← contains_iff]
      exact .inl liveX
  · rintro bound x ⟨slot, at_, later⟩
    by_cases here : id.index = x.index
    · refine ⟨⟨slot.generation + 1, none⟩, by simp [slot_release, here, at_], ?_⟩
      rw [next _ _ at_ bound]
      omega
    · exact ⟨slot, by simp [slot_release, here, at_], later⟩

end Aged

/-! ## Ids that do not come back -/

/-- No slot was freed 2³² times on the way from one document to another: all that
was discarded is accounted for by how far the generations are apart. -/
def Unrepeated (d d' : Document) : Prop :=
  d'.tally.discarded = d.tally.discarded +
    ∑ i ∈ Finset.range d'.slots.size, (d'.generationAt i - d.generationAt i).toNat

instance (d d' : Document) : Decidable (Unrepeated d d') := inferInstanceAs (Decidable (_ = _))

theorem Freed.unrepeated_iff {count : Nat → Nat} (freed : Freed d d' count) :
    Unrepeated d d' ↔ ∀ i, count i < generationBound := by
  have apart : ∀ i, (d'.generationAt i - d.generationAt i).toNat = count i % generationBound := by
    intro i
    rw [freed.generation, UInt32.add_comm, UInt32.add_sub_cancel, UInt32.toNat_ofNat']
    rfl
  rw [Unrepeated, freed.discarded, Nat.add_left_cancel_iff]
  simp only [apart]
  have below : ∀ i ∈ Finset.range d'.slots.size, count i % generationBound ≤ count i :=
    fun i _ => Nat.mod_le _ _
  rw [eq_comm, Finset.sum_eq_sum_iff_of_le below]
  constructor
  · intro same i
    by_cases inside : i < d'.slots.size
    · rw [← same i (Finset.mem_range.mpr inside)]
      exact Nat.mod_lt _ (by decide)
    · rw [freed.outside i (Nat.le_of_not_lt inside)]
      decide
  · exact fun bound i _ => Nat.mod_eq_of_lt (bound i)

namespace Unrepeated

/-- So it is on the first part of the way. -/
theorem first (unrepeated : Unrepeated d d'') (one : Aged d d') (two : Aged d' d'') : Unrepeated d d' := by
  obtain ⟨count, one⟩ := one.freed
  obtain ⟨count', two⟩ := two.freed
  exact one.unrepeated_iff.mpr fun i =>
    Nat.lt_of_le_of_lt (Nat.le_add_right _ _) ((one.trans two).unrepeated_iff.mp unrepeated i)

/-- So it is on the second part of the way. -/
theorem second (unrepeated : Unrepeated d d'') (one : Aged d d') (two : Aged d' d'') : Unrepeated d' d'' := by
  obtain ⟨count, one⟩ := one.freed
  obtain ⟨count', two⟩ := two.freed
  exact two.unrepeated_iff.mpr fun i =>
    Nat.lt_of_le_of_lt (Nat.le_add_left _ _) ((one.trans two).unrepeated_iff.mp unrepeated i)

/-- What was alive and no longer is does not come back to life. -/
theorem not_revived (unrepeated : Unrepeated d d'') (one : Aged d d') (two : Aged d' d'')
    (live : d.contains id = true) (dead : d'.contains id = false) : d''.contains id = false := by
  obtain ⟨count, one⟩ := one.freed
  obtain ⟨count', two⟩ := two.freed
  have bound := (one.trans two).unrepeated_iff.mp unrepeated id.index
  have positive := one.vanished id live dead
  by_contra alive
  have moved := (one.trans two).generation id.index
  rw [generationAt_of_contains live, generationAt_of_contains (by simpa using alive)] at moved
  have none_ : UInt32.ofNat (count id.index + count' id.index) = 0 := by
    simpa using moved.symm
  have whole := congrArg UInt32.toNat none_
  rw [UInt32.toNat_ofNat'] at whole
  simp only [generationBound] at bound
  simp only [UInt32.toNat_zero] at whole
  omega

end Unrepeated

end Inlay.Document
