/-
# Proofs.Render.Behind — where the nodes of an instance stand

Every node of an instance's prototype has its children of the prototype, each
comment of an anchor followed by the nodes that the anchor shows
(`children_of_remembers`). No node is behind two anchors (`disjoint_current`).
-/
import Inlay.Proofs.Render.Redress

namespace Inlay.Render

set_option autoImplicit false

open Relation Inlay.Document Inlay.Document.Planted Inlay.Markup
open Inlay.Template hiding root

variable {d d₀ : Document} {x : NodeId} {path : Path} {a b : Anchor} {S : List Slot}

/-! ## Anchors of slots -/

/-- The anchor of a slot, and the path it follows. -/
def Slot.anchor? : Slot → Option (Path × Anchor)
  | .anchor path a => some (path, a)
  | _ => none

/-- The anchors of slots, in order. -/
def anchorsOf (slots : List Slot) : List (Path × Anchor) := slots.filterMap Slot.anchor?

theorem mem_anchorsOf : (path, a) ∈ anchorsOf S ↔ Slot.anchor path a ∈ S := by
  rw [anchorsOf, List.mem_filterMap]
  constructor
  · rintro ⟨slot, mem, found⟩
    cases slot with
    | anchor other b =>
        cases found
        exact mem
    | _ => cases found
  · exact fun mem => ⟨_, mem, rfl⟩

@[simp] theorem anchorsOf_append (first second : List Slot) :
    anchorsOf (first ++ second) = anchorsOf first ++ anchorsOf second := List.filterMap_append

theorem anchorsOf_eq_nil (none : ∀ path a, Slot.anchor path a ∉ S) : anchorsOf S = [] :=
  List.eq_nil_iff_forall_not_mem.mpr fun pair mem => none pair.1 pair.2 (mem_anchorsOf.mp mem)

@[simp] theorem anchorsOf_textSlots (parent : Option (String × NodeId)) (id : NodeId) (source : String) :
    anchorsOf (textSlots parent id source) = [] :=
  anchorsOf_eq_nil fun _ _ => Dressing.anchor_not_mem_text

@[simp] theorem anchorsOf_attributes (id : NodeId) (tag : String) (source : List Attribute) :
    anchorsOf (source.flatMap (attributeSlots id tag)) = [] :=
  anchorsOf_eq_nil fun _ _ => Dressing.anchor_not_mem_attributes

mutual

/-- The anchors show the entries, in order. -/
theorem current_slots : ∀ (g : Dressing) (parent : Option (String × NodeId)),
    (anchorsOf (g.slots parent)).flatMap (·.2.current) = (plantsOf g.entriesIn).map root
  | .text _ _ _, _ => by simp [Dressing.slots, Dressing.entriesIn, plantsOf]
  | .comment _ _, _ => rfl
  | .anchor id body path entries, _ => by
      simp [Dressing.slots, anchorsOf, Slot.anchor?, Anchor.ofEntries, Dressing.entriesIn]
  | .element id tag source attributes children, _ => by
      simpa [Dressing.slots, Dressing.entriesIn] using current_slotsAll children (some (tag, id))

theorem current_slotsAll : ∀ (gs : List Dressing) (parent : Option (String × NodeId)),
    (anchorsOf (Dressing.slotsAll parent gs)).flatMap (·.2.current) =
      (plantsOf (Dressing.entriesInAll gs)).map root
  | [], _ => rfl
  | g :: rest, parent => by
      rw [Dressing.slotsAll, anchorsOf_append, List.flatMap_append, current_slots g, current_slotsAll rest,
        Dressing.entriesInAll, plantsOf_append, List.map_append]

end

mutual

/-- Which anchors there are depends on the prototype alone. -/
theorem places_slots : ∀ {g : Dressing} {holder : Option String} (parent : Option (String × NodeId)),
    g.Fits holder → (anchorsOf (g.slots parent)).map (fun pair => (pair.1, pair.2.comment)) =
      (anchorsOf (slots .blank parent g.basis)).map (fun pair => (pair.1, pair.2.comment))
  | .text _ _ _, _, _, _ => rfl
  | .comment id body, _, _, plain => by
      have plain : anchorPath? body = none := plain
      simp [Dressing.slots, Dressing.basis, slots, commentSlots, plain]
  | .anchor id body path entries, _, _, ⟨found, _⟩ => by
      simp [Dressing.slots, Dressing.basis, slots, commentSlots, found, anchorsOf, Slot.anchor?,
        Anchor.ofEntries, Memory.anchor]
  | .element id tag source attributes children, _, _, ⟨_, _, _, _, fits⟩ => by
      simpa [Dressing.slots, Dressing.basis, slots] using places_slotsAll (some (tag, id)) fits

theorem places_slotsAll : ∀ {gs : List Dressing} {holder : Option String}
    (parent : Option (String × NodeId)), Dressing.FitsAll holder gs →
      (anchorsOf (Dressing.slotsAll parent gs)).map (fun pair => (pair.1, pair.2.comment)) =
        (anchorsOf (slotsAll .blank parent (Dressing.basisAll gs))).map (fun pair => (pair.1, pair.2.comment))
  | [], _, _, _ => rfl
  | g :: rest, _, parent, ⟨here, others⟩ => by
      rw [Dressing.slotsAll, Dressing.basisAll, slotsAll, anchorsOf_append, anchorsOf_append, List.map_append,
        List.map_append, places_slots parent here, places_slotsAll parent others]

end

mutual

/-- The comments of anchors are nodes of the prototype, each in its place. -/
theorem comments_slots : ∀ (g : Dressing) (parent : Option (String × NodeId)),
    ((anchorsOf (g.slots parent)).map (·.2.comment)).Sublist g.basis.ids
  | .text _ _ _, _ => by simp [Dressing.slots]
  | .comment _ _, _ => List.nil_sublist _
  | .anchor _ _ _ _, _ => List.Sublist.refl _
  | .element id tag source attributes children, _ => by
      simpa [Dressing.slots, Dressing.basis, ids] using (comments_slotsAll children (some (tag, id))).cons id

theorem comments_slotsAll : ∀ (gs : List Dressing) (parent : Option (String × NodeId)),
    ((anchorsOf (Dressing.slotsAll parent gs)).map (·.2.comment)).Sublist (idsAll (Dressing.basisAll gs))
  | [], _ => List.nil_sublist _
  | g :: rest, parent => by
      rw [Dressing.slotsAll, anchorsOf_append, List.map_append, Dressing.basisAll, idsAll]
      exact (comments_slots g parent).append (comments_slotsAll rest parent)

end

/-- No node is behind two anchors. -/
theorem disjoint_current {gs : List Dressing} {parent : Option (String × NodeId)} {path' : Path}
    (nodup : (idsAll (Dressing.plantsAll gs)).Nodup) (here : Slot.anchor path a ∈ Dressing.slotsAll parent gs)
    (there : Slot.anchor path' b ∈ Dressing.slotsAll parent gs) (apart : a.comment ≠ b.comment)
    (mem : x ∈ a.current) : x ∉ b.current := by
  have once : ((anchorsOf (Dressing.slotsAll parent gs)).flatMap (·.2.current)).Nodup := by
    rw [current_slotsAll]
    have perm := Dressing.idsAll_plantsAll_perm gs
    exact (List.nodup_append.mp (perm.nodup_iff.mp nodup)).2.1.sublist (map_root_sublist _)
  have pairs := (List.nodup_flatMap.mp once).2
  have : Std.Symm fun first second : Path × Anchor => List.Disjoint first.2.current second.2.current :=
    ⟨fun _ _ => List.Disjoint.symm⟩
  have ne : (path, a) ≠ (path', b) := fun same => apart (congrArg (·.2.comment) same)
  exact fun other => pairs.forall (mem_anchorsOf.mpr here) (mem_anchorsOf.mpr there) ne mem other

/-! ## What is behind a node -/

/-- The nodes that slots show behind a comment. -/
def behindIn (slots : List Slot) (x : NodeId) : List NodeId :=
  ((slots.findSome? (Slot.anchorAt? x)).map (·.current)).getD []

theorem anchorAt?_eq_some {slot : Slot} :
    Slot.anchorAt? x slot = some a ↔ ∃ path, slot = .anchor path a ∧ a.comment = x := by
  cases slot with
  | anchor path b =>
      rw [Slot.anchorAt?]
      constructor
      · intro found
        split at found
        · next same =>
          cases found
          exact ⟨path, rfl, same⟩
        · cases found
      · rintro ⟨_, same, here⟩
        cases same
        exact if_pos here
  | _ => simp [Slot.anchorAt?]

theorem mem_behindIn {y : NodeId} (mem : x ∈ behindIn S y) :
    ∃ path a, Slot.anchor path a ∈ S ∧ a.comment = y ∧ x ∈ a.current := by
  unfold behindIn at mem
  cases found : S.findSome? (Slot.anchorAt? y) with
  | none => simp [found] at mem
  | some a =>
      obtain ⟨slot, there, here⟩ := List.exists_of_findSome?_eq_some found
      obtain ⟨path, rfl, same⟩ := anchorAt?_eq_some.mp here
      exact ⟨path, a, there, same, by simpa [found] using mem⟩

/-- Of anchors with distinct comments each is found by its own. -/
theorem findSome?_anchorAt? (once : ((anchorsOf S).map (·.2.comment)).Nodup)
    (mem : Slot.anchor path a ∈ S) : S.findSome? (Slot.anchorAt? a.comment) = some a := by
  cases found : S.findSome? (Slot.anchorAt? a.comment) with
  | none =>
      have here := List.findSome?_eq_none_iff.mp found _ mem
      simp [Slot.anchorAt?] at here
  | some b =>
      obtain ⟨slot, there, here⟩ := List.exists_of_findSome?_eq_some found
      obtain ⟨path', rfl, same⟩ := anchorAt?_eq_some.mp here
      have same := List.inj_on_of_nodup_map once (mem_anchorsOf.mpr there) (mem_anchorsOf.mpr mem) same
      cases same
      rfl

theorem behindIn_anchor (once : ((anchorsOf S).map (·.2.comment)).Nodup) (mem : Slot.anchor path a ∈ S) :
    behindIn S a.comment = a.current := by
  rw [behindIn, findSome?_anchorAt? once mem]
  rfl

mutual

/-- Behind each node of the prototype are the entries of its anchor, if it has one. -/
def Remembers (behind : NodeId → List NodeId) : Dressing → Prop
  | .text id _ _ => behind id = []
  | .comment id _ => behind id = []
  | .anchor id _ _ entries => behind id = (plantsOf entries).map root
  | .element id _ _ _ children => behind id = [] ∧ RemembersAll behind children

def RemembersAll (behind : NodeId → List NodeId) : List Dressing → Prop
  | [] => True
  | g :: rest => Remembers behind g ∧ RemembersAll behind rest

end

theorem findSome?_outside {gs : List Dressing} (parent : Option (String × NodeId))
    (outside : x ∉ idsAll (Dressing.basisAll gs)) :
    (Dressing.slotsAll parent gs).findSome? (Slot.anchorAt? x) = none := by
  refine List.findSome?_eq_none_iff.mpr fun slot mem => ?_
  by_contra found
  obtain ⟨a, here⟩ := Option.ne_none_iff_exists'.mp found
  obtain ⟨path, rfl, rfl⟩ := anchorAt?_eq_some.mp here
  exact outside (Dressing.anchor_mem_all (d := .new) mem).1

mutual

/-- Slots that have the anchors of a dressing at its nodes remember it. -/
theorem remembers_of_slots : ∀ {g : Dressing} (parent : Option (String × NodeId)), g.basis.ids.Nodup →
    (∀ x ∈ g.basis.ids, S.findSome? (Slot.anchorAt? x) = (g.slots parent).findSome? (Slot.anchorAt? x)) →
    Remembers (behindIn S) g
  | .text id source content, parent, _, same => by
      have none : (textSlots parent id source).findSome? (Slot.anchorAt? id) = none := by
        refine List.findSome?_eq_none_iff.mpr fun slot mem => ?_
        by_contra found
        obtain ⟨a, here⟩ := Option.ne_none_iff_exists'.mp found
        obtain ⟨path, rfl, -⟩ := anchorAt?_eq_some.mp here
        exact Dressing.anchor_not_mem_text mem
      rw [Remembers, behindIn, same id (List.mem_singleton_self _), Dressing.slots, none]
      rfl
  | .comment id body, _, _, same => by
      rw [Remembers, behindIn, same id (List.mem_singleton_self _)]
      rfl
  | .anchor id body path entries, _, _, same => by
      rw [Remembers, behindIn, same id (List.mem_singleton_self _)]
      simp [Dressing.slots, Slot.anchorAt?, Anchor.ofEntries]
  | .element id tag source attributes children, parent, nodup, same => by
      obtain ⟨outside, nodup⟩ := List.nodup_cons.mp nodup
      have slots : ∀ x, ((Dressing.element id tag source attributes children).slots parent).findSome?
          (Slot.anchorAt? x) =
          (Dressing.slotsAll (some (tag, id)) children).findSome? (Slot.anchorAt? x) := by
        intro x
        rw [Dressing.slots, List.findSome?_append, findSome?_attributeSlots, Option.none_or]
      refine ⟨?_, remembersAll_of_slots (some (tag, id)) nodup fun x mem => ?_⟩
      · rw [behindIn, same id List.mem_cons_self, slots, findSome?_outside _ outside]
        rfl
      · rw [same x (List.mem_cons_of_mem _ mem), slots]

theorem remembersAll_of_slots : ∀ {gs : List Dressing} (parent : Option (String × NodeId)),
    (idsAll (Dressing.basisAll gs)).Nodup →
    (∀ x ∈ idsAll (Dressing.basisAll gs),
      S.findSome? (Slot.anchorAt? x) = (Dressing.slotsAll parent gs).findSome? (Slot.anchorAt? x)) →
    RemembersAll (behindIn S) gs
  | [], _, _, _ => trivial
  | g :: rest, parent, nodup, same => by
      simp only [Dressing.basisAll, idsAll, List.mem_append] at nodup same
      obtain ⟨here, others, apart⟩ := List.nodup_append.mp nodup
      refine ⟨remembers_of_slots parent here fun x mem => ?_,
        remembersAll_of_slots parent others fun x mem => ?_⟩
      · rw [same x (.inl mem), Dressing.slotsAll, List.findSome?_append,
          findSome?_outside _ fun there => apart x mem x there rfl, Option.or_none]
      · have outside : x ∉ idsAll (Dressing.basisAll [g]) := fun there =>
          apart x (by simpa [Dressing.basisAll, idsAll] using there) x mem rfl
        have none := findSome?_outside parent outside
        rw [Dressing.slotsAll, Dressing.slotsAll, List.append_nil] at none
        rw [same x (.inr mem), Dressing.slotsAll, List.findSome?_append, none, Option.none_or]

end

theorem RemembersAll.of_mem {behind : NodeId → List NodeId} : ∀ {gs : List Dressing}, RemembersAll behind gs →
    ∀ g ∈ gs, Remembers behind g
  | [], _ => nofun
  | _ :: _, ⟨here, others⟩ => List.forall_mem_cons.mpr ⟨here, others.of_mem⟩

theorem Remembers.root {behind : NodeId → List NodeId} {g : Dressing} (remembers : Remembers behind g) :
    behind g.root = (plantsOf g.entries).map Planted.root := by
  cases g with
  | text id source content => exact remembers
  | comment id body => exact remembers
  | anchor id body path entries => exact remembers
  | element id tag source attributes children => exact remembers.1

/-- What stands are the nodes of the prototype, each with what is behind it. -/
theorem map_root_of_remembers {behind : NodeId → List NodeId} {gs : List Dressing}
    (remembers : RemembersAll behind gs) :
    (Dressing.plantsAll gs).map root = (gs.map Dressing.root).flatMap fun y => y :: behind y := by
  rw [Dressing.map_root_plantsAll, List.flatMap_map]
  induction gs with
  | nil => rfl
  | cons g rest ih => rw [List.flatMap_cons, List.flatMap_cons, ih remembers.2, remembers.1.root]

/-! ## Children -/

mutual

theorem children_of_remember {behind : NodeId → List NodeId} (wf : WellFormed d) (wf₀ : WellFormed d₀) :
    ∀ {g : Dressing}, Remembers behind g → StandAll d g.plants → (clearedPlant g.basis).Stands d₀ →
      ∀ x ∈ g.basis.ids, d.children x = (d₀.children x).flatMap fun y => y :: behind y
  | .text id source content, _, ⟨now, _⟩, before, x, mem => by
      rw [List.mem_singleton.mp mem, children_of_leaf wf now rfl, children_of_leaf wf₀ before rfl]
      rfl
  | .comment id body, _, ⟨now, _⟩, before, x, mem => by
      rw [List.mem_singleton.mp mem, children_of_leaf wf now rfl, children_of_leaf wf₀ before rfl]
      rfl
  | .anchor id body path entries, _, ⟨now, _⟩, before, x, mem => by
      rw [List.mem_singleton.mp mem, children_of_leaf wf now rfl, children_of_leaf wf₀ before rfl]
      rfl
  | .element id tag source attributes children, ⟨_, remembers⟩, ⟨⟨_, kids, stand⟩, _⟩,
      ⟨_, kids₀, stand₀⟩, x, mem => by
      rcases List.mem_cons.mp mem with rfl | below
      · have roots : (clearedPlants (Dressing.basisAll children)).map root = children.map Dressing.root := by
          rw [map_root_clearedPlants, Dressing.map_root_basisAll]
        rw [kids, kids₀, roots, map_root_of_remembers remembers]
      · exact children_of_remembers wf wf₀ remembers stand stand₀ x below

/-- The children of a node of the prototype are those it had at first, each with
what is behind it. -/
theorem children_of_remembers {behind : NodeId → List NodeId} (wf : WellFormed d) (wf₀ : WellFormed d₀) :
    ∀ {gs : List Dressing}, RemembersAll behind gs → StandAll d (Dressing.plantsAll gs) →
      StandAll d₀ (clearedPlants (Dressing.basisAll gs)) →
      ∀ x ∈ idsAll (Dressing.basisAll gs), d.children x = (d₀.children x).flatMap fun y => y :: behind y
  | [], _, _, _, x, mem => by cases mem
  | g :: rest, ⟨here, others⟩, stand, ⟨before, befores⟩, x, mem => by
      obtain ⟨now, later⟩ := standAll_append.mp stand
      rcases List.mem_append.mp mem with first | second
      · exact children_of_remember wf wf₀ here now before x first
      · exact children_of_remembers wf wf₀ others later befores x second

end

end Inlay.Render
