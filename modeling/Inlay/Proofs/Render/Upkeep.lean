/-
# Proofs.Render.Upkeep — an update and the account of nodes

What one anchor does when it is updated, seen from the account: what it makes is
added to the estate of its instance, what it no longer needs is freed, and only
heads of estates are moved, into the parent of its comment (`upkeep`). The number
of nodes it has made is then a function of the value it shows (`madeCount`).

A whole update goes through the slots of an instance one by one.
-/
import Inlay.Proofs.Data.Relabel
import Inlay.Proofs.Render.Cull
import Inlay.Proofs.Render.Shuffle
import Inlay.Proofs.Render.Steady
import Inlay.Proofs.Render.Tenant
import Mathlib.Algebra.Ring.Nat

namespace Inlay.Render

set_option autoImplicit false

open Inlay.Document Inlay.Document.Planted Inlay.Markup

variable {base d d' : Document} {claims claims' : Claims} {t s : Tenant} {others ts : List Tenant}
  {before after : List Plot} {plot p : Plot} {a a' : Anchor} {x m : NodeId} {ps : List Planted} {path : Path}

/-! ## How many nodes are made -/

/-- The number of nodes that are made for an item. -/
def ItemOf.cost {α : Type} : ItemOf α → Nat
  | .nodes _ => 0
  | .made key => nodeCountAll (Entry.keyTrees key)

/-- The number of nodes that are made for a value. -/
def madeCount {α : Type} (value : ValueOf α) : Nat := ((itemsOf value).map ItemOf.cost).sum

theorem madeCount_relabel {α β : Type} (f : α → β) (value : ValueOf α) :
    madeCount (value.relabel f) = madeCount value := by
  rw [madeCount, itemsOf_relabel, List.map_map, madeCount]
  congr 1
  refine List.map_congr_left fun item _ => ?_
  cases item <;> rfl

theorem length_entries {α : Type} {items : List (ItemOf α)} {pieces : List (α ⊕ Entry)}
    (shown : List.Forall₂ Shown items pieces) :
    (idsAll ((entriesOf pieces).flatMap (·.plants))).length = (items.map ItemOf.cost).sum := by
  induction shown with
  | nil => rfl
  | @cons item piece items pieces here _ ih =>
      cases here with
      | nodes a =>
          rw [List.map_cons, List.sum_cons, ItemOf.cost, Nat.zero_add]
          exact ih
      | made entry shows =>
          have split : entriesOf (.inr entry :: pieces) = entry :: entriesOf pieces := rfl
          rw [split, List.flatMap_cons, idsAll_append, List.length_append, ih, length_idsAll, shows]
          rfl

/-! ## Freeing what is not used again -/

namespace Culled

/-- Lists of children in which everything lives on and nothing is a survivor. -/
theorem children_eq {survivors : List NodeId} (culled : Culled survivors d d')
    (stay : ∀ y ∈ d.children m, y ∉ survivors ∧ d'.contains y = true) : d'.children m = d.children m := by
  have order := culled.order (fun y => decide (y ∈ d.children m)) (fun y kept => stay y (by simpa using kept)) m
  rw [List.filter_eq_self.mpr fun y mem => by simpa using (culled.sublist m).subset mem] at order
  rw [order, List.filter_eq_self.mpr (by simp)]

theorem standAll (culled : Culled [] d d') (wf : WellFormed d) (stand : StandAll d ps)
    (live : ∀ y ∈ idsAll ps, d'.contains y = true) : StandAll d' ps :=
  stand.congr fun y mem => ⟨culled.content y (live y mem), culled.children_eq fun z child =>
    ⟨List.not_mem_nil, live z (Change.children_subset_of_stand wf stand mem child)⟩⟩

/-- Freeing is a change. -/
theorem change {survivors : List NodeId} {moved : NodeId → Prop} {target : Option NodeId}
    (culled : Culled survivors d d') (mays : ∀ y ∈ survivors, moved y) : Change moved target d d' where
  wellFormed := culled.wellFormed
  body := culled.body
  content := fun y _ live => culled.content y live
  parent := fun y _ live => (culled.parent y live).imp_right fun both => ⟨mays y both.1, .inl both.2⟩
  adopted := fun y p dead up _ => by
    have live := culled.wellFormed.contains_child (culled.wellFormed.parent_iff.mp up)
    rw [culled.contains live] at dead
    cases dead
  order := fun keep stays => culled.order keep fun y kept =>
    ⟨fun mem => (stays y kept).2.2 (mays y mem), (stays y kept).2.1⟩

end Culled

/-- Planted trees that nobody claimed are freed, and nothing else. -/
theorem discardUnclaimed_culled (claims : Claims) : ∀ (ps : List Planted) {d : Document}, WellFormed d →
    StandAll d ps → (idsAll ps).Nodup → (∀ y ∈ idsAll ps, y ∉ claims) → d.body ∉ idsAll ps →
    ∃ d', Anchor.discardUnclaimed (ps.map root) ⟨d, claims⟩ = .ok () ⟨d', claims⟩ ∧ Culled [] d d' ∧
      ∀ y, d'.contains y = true ↔ d.contains y = true ∧ y ∉ idsAll ps
  | [], d, wf, _, _, _, _ => ⟨d, rfl, .refl wf, by simp [idsAll]⟩
  | p :: rest, d, wf, ⟨stands, stand⟩, nodup, free, inner => by
      obtain ⟨-, nodupRest, apart⟩ := List.nodup_append.mp nodup
      simp only [idsAll, List.mem_append, not_or] at inner free
      have live : d.contains p.root = true := stands.contains p.root root_mem_ids
      obtain ⟨d₁, freed, first, alive⟩ := discard_culled [] wf live
        fun same => inner.1 (same ▸ root_mem_ids)
      have alive₁ : ∀ y, d₁.contains y = true ↔ d.contains y = true ∧ y ∉ p.ids := fun y => by
        rw [alive, stands.mem_ids wf]
      have stand₁ := first.standAll wf stand fun y mem =>
        (alive₁ y).mpr ⟨stand.contains y mem, fun here => apart y here y mem rfl⟩
      obtain ⟨d₂, done, second, alive₂⟩ := discardUnclaimed_culled claims rest first.wellFormed stand₁ nodupRest
        (fun y mem => free y (.inr mem)) (first.body ▸ inner.2)
      refine ⟨d₂, ?_, first.trans second, fun y => ?_⟩
      · have goes : (d.contains p.root && !claims.contains p.root) = true := by
          simpa [live] using free p.root (.inl root_mem_ids)
        rw [List.map_cons, Anchor.discardUnclaimed, Act.bind_isClaimed, Act.bind_ask, if_pos goes,
          bind_ok (Act.edit_ok freed)]
        exact done
      · rw [alive₂, alive₁, idsAll, List.mem_append, not_or, and_assoc]

/-! ## One anchor -/

/-- Ids that are dead at some point between two documents stay so up to the second. -/
def Unrevived (old : NodeId → Prop) (d e : Document) : Prop :=
  ∀ m m', Sequel d m → Sequel m m' → Sequel m' e → ∀ x, old x → m.contains x = false → m'.contains x = false

theorem Unrevived.mono {old old' : NodeId → Prop} {e : Document} (unrevived : Unrevived old d e)
    (fewer : ∀ x, old' x → old x) : Unrevived old' d e := fun m m' one two three x mem =>
  unrevived m m' one two three x (fewer x mem)

theorem Unrevived.later {old : NodeId → Prop} {e : Document} (unrevived : Unrevived old d e)
    (first : Sequel d d') : Unrevived old d' e := fun m m' one => unrevived m m' (first.trans one)

/-- What lives later on lived before. -/
theorem Unrevived.back {old : NodeId → Prop} {e : Document} (unrevived : Unrevived old d e) (wf : WellFormed d)
    (first : Sequel d d') (later : Sequel d' e) (before : old x) (live : d'.contains x = true) :
    d.contains x = true := by
  by_contra dead
  rw [unrevived d d' (.refl wf) first later x before (by simpa using dead)] at live
  cases live

/-- The nodes of entries. -/
def entryIds (entries : List Entry) : List NodeId := idsAll (entries.flatMap (·.plants))

/-- Their roots. -/
def entryRoots (entries : List Entry) : List NodeId := (entries.flatMap (·.plants)).map root

@[simp] theorem entryIds_append (first second : List Entry) :
    entryIds (first ++ second) = entryIds first ++ entryIds second := by
  simp [entryIds]

@[simp] theorem entryRoots_append (first second : List Entry) :
    entryRoots (first ++ second) = entryRoots first ++ entryRoots second := by
  simp [entryRoots]

theorem idsAll_eq_flatMap (ps : List Planted) : idsAll ps = ps.flatMap ids := by
  induction ps with
  | nil => rfl
  | cons p rest ih => rw [idsAll, ih, List.flatMap_cons]

theorem entryIds_perm {first second : List Entry} (perm : first.Perm second) :
    (entryIds first).Perm (entryIds second) := by
  rw [entryIds, entryIds, idsAll_eq_flatMap, idsAll_eq_flatMap]
  exact (perm.flatMap_right _).flatMap_right _

theorem entryRoots_perm {first second : List Entry} (perm : first.Perm second) :
    (entryRoots first).Perm (entryRoots second) :=
  (perm.flatMap_right _).map _

theorem entryRoots_subset (entries : List Entry) : entryRoots entries ⊆ entryIds entries :=
  (map_root_sublist _).subset

/-- The parts of an update of an anchor that answers. -/
theorem update_parts (wf : WellFormed d) {value : Option Value} {entries : List Entry}
    (made : a.made = entries.map Entry.remembered) (shows : ∀ e ∈ entries, e.Shows)
    (done : a.update value ⟨d, claims⟩ = .ok a' ⟨d', claims'⟩) :
    ∃ (pieces : List (List NodeId ⊕ Entry)) (taken fresh rest : List Entry) (d₁ d₂ : Document) (claims₂ : Claims),
      List.Forall₂ Shown (itemsOf (value.getD .null)) pieces ∧
      Sprouted d d₁ none (fresh.flatMap (·.plants)) ∧ (taken ++ fresh).Perm (entriesOf pieces) ∧
      (taken ++ rest).Perm entries ∧
      reconcile (.behind a.comment) a.current (pieces.flatMap (pieceNodes id)) ⟨d₁, claims⟩ = .ok () ⟨d₂, claims₂⟩ ∧
      Anchor.discardUnclaimed (entryRoots rest) ⟨d₂, claims₂⟩ = .ok () ⟨d', claims'⟩ ∧
      a' = { a with current := pieces.flatMap (pieceNodes id), made := (entriesOf pieces).map Entry.remembered } := by
  obtain ⟨pieces, taken, fresh, rest, d₁, laid, shown, sprouted, used, left⟩ :=
    layOut_ok (id : List NodeId → List NodeId) claims (itemsOf (value.getD .null)) entries wf shows
  have same : (itemsOf (value.getD .null)).map (ItemOf.map id) = itemsOf (value.getD .null) := by
    refine (List.map_congr_left fun item _ => ?_).trans (List.map_id _)
    cases item <;> rfl
  rw [same, ← made] at laid
  rw [Anchor.update, bind_ok laid] at done
  obtain ⟨⟨⟩, ⟨d₂, claims₂⟩, placed, later⟩ := of_bind_ok done
  obtain ⟨⟨⟩, ⟨d₃, claims₃⟩, freed, last⟩ := of_bind_ok later
  cases last
  have unused : (rest.map Entry.remembered).flatMap (·.nodes) = entryRoots rest := by
    rw [entryRoots, List.flatMap_map, List.map_flatMap]
    rfl
  rw [unused] at freed
  exact ⟨pieces, taken, fresh, rest, d₁, d₂, claims₂, shown, sprouted, used, left, placed, freed, rfl⟩

theorem mem_pieceNodes {pieces : List (List NodeId ⊕ Entry)} : x ∈ pieces.flatMap (pieceNodes id) ↔
    x ∈ entryRoots (entriesOf pieces) ∨ ∃ nodes ∈ templatesOf pieces, x ∈ nodes := by
  induction pieces with
  | nil => simp [entryRoots, entriesOf, templatesOf]
  | cons piece pieces ih =>
      rw [List.flatMap_cons, List.mem_append, ih]
      cases piece with
      | inl nodes =>
          have entries : entriesOf (.inl nodes :: pieces) = entriesOf pieces := rfl
          have templates : templatesOf (.inl nodes :: pieces) = nodes :: templatesOf pieces := rfl
          rw [entries, templates]
          simp only [pieceNodes, id, List.mem_cons, exists_eq_or_imp]
          tauto
      | inr entry =>
          have entries : entriesOf (.inr entry :: pieces) = [entry] ++ entriesOf pieces := rfl
          have templates : templatesOf (.inr entry :: pieces) = templatesOf pieces := rfl
          rw [entries, templates, entryRoots_append, List.mem_append]
          simp only [pieceNodes, entryRoots, List.flatMap_cons, List.flatMap_nil, List.append_nil]
          tauto

/-- The nodes that an update of an anchor may move: what it has made, then or now,
and heads of other estates. -/
def Movables (ts : List Tenant) (t : Tenant) (plot : Plot) (fresh : List Entry) (x : NodeId) : Prop :=
  x ∈ plot.roots ∨ x ∈ entryRoots fresh ∨ (∃ s ∈ ts, s.Head x) ∧ x ∉ t.estate

/-- What an update of an anchor does to the document: the entries it uses from now
on are `pieces`, of which some were made before and some are new; the rest is freed. -/
structure Upkept (ts : List Tenant) (t : Tenant) (plot : Plot) (a a' : Anchor) (value : Value)
    (pieces : List (List NodeId ⊕ Entry)) (taken fresh rest : List Entry) (d d' : Document)
    (claims claims' : Claims) : Prop where
  anchor : a' = { a with
    current := pieces.flatMap (pieceNodes id), made := (entriesOf pieces).map Entry.remembered }
  shown : List.Forall₂ Shown (itemsOf value) pieces
  used : (taken ++ fresh).Perm (entriesOf pieces)
  left : (taken ++ rest).Perm plot.entries
  unborn : ∀ x ∈ entryIds fresh, d.contains x = false
  nodup : (entryIds fresh).Nodup
  change : Change (Movables ts t plot fresh) (d.parent? a.comment) d d'
  alive : ∀ x, d'.contains x = true ↔
    (d.contains x = true ∨ x ∈ entryIds fresh) ∧ x ∉ entryIds rest
  stand : StandAll d' ((entriesOf pieces).flatMap (·.plants))
  parents : ∀ x ∈ a'.current, d'.parent? x = d.parent? a.comment
  stood : ∀ x p, d.contains p = true → d'.parent? x = some p → d.parent? x = some p ∨ x ∈ a'.current
  claims : ∀ x ∈ claims', x ∈ claims ∨ x ∈ a'.current

/-- While an update goes on there are, besides the entries of before, the new ones. -/
structure Midway (d d₁ : Document) (taken fresh rest : List Entry) : Prop where
  unborn : ∀ x ∈ entryIds fresh, d.contains x = false
  alive : ∀ x, d₁.contains x = true ↔ d.contains x = true ∨ x ∈ entryIds fresh
  change : ∀ moved target, Change moved target d d₁
  stand : StandAll d₁ ((taken ++ fresh ++ rest).flatMap (·.plants))
  nodup : (entryIds (taken ++ fresh ++ rest)).Nodup
  sequel : Sequel d d₁

theorem midway (wf : WellFormed d) {entries taken fresh rest : List Entry} {d₁ : Document}
    (sprouted : Sprouted d d₁ none (fresh.flatMap (·.plants))) (left : (taken ++ rest).Perm entries)
    (stand : StandAll d (entries.flatMap (·.plants))) (nodup : (entryIds entries).Nodup) :
    Midway d d₁ taken fresh rest := by
  have old : ∀ x ∈ entryIds entries, d.contains x = true := stand.contains
  have shifted : (taken ++ fresh ++ rest).Perm (fresh ++ entries) :=
    (List.perm_append_comm.append_right rest).trans (List.append_assoc fresh taken rest ▸ left.append_left fresh)
  refine ⟨sprouted.fresh, fun x => ⟨fun live => ?_, ?_⟩, fun moved target => .of_sprouted wf sprouted, ?_, ?_,
    ⟨sprouted.wellFormed, sprouted.aged⟩⟩
  · by_contra none_
    simp only [not_or] at none_
    obtain ⟨c, found⟩ := contains_iff_content?.mp live
    rw [sprouted.content x none_.2] at found
    exact none_.1 (contains_iff_content?.mpr ⟨c, found⟩)
  · rintro (live | new)
    · exact sprouted.contains live
    · exact sprouted.stand.contains x new
  · have both : StandAll d₁ ((fresh ++ entries).flatMap (·.plants)) := by
      rw [List.flatMap_append]
      refine standAll_append.mpr ⟨sprouted.stand, stand.congr fun x mem => ?_⟩
      have out : x ∉ entryIds fresh := fun new => by
        have live := old x mem
        rw [sprouted.fresh x new] at live
        cases live
      exact ⟨sprouted.content x out, by simpa using sprouted.children x out⟩
    exact standAll_iff.mpr fun r mem =>
      standAll_iff.mp both r ((shifted.flatMap_right _).mem_iff.mp mem)
  · rw [(entryIds_perm shifted).nodup_iff, entryIds_append]
    refine List.nodup_append.mpr ⟨sprouted.nodup, nodup, ?_⟩
    rintro x new _ mem rfl
    have live := old x mem
    rw [sprouted.fresh x new] at live
    cases live

/-- What an update of an anchor needs of the account. -/
structure Upkeepable (base d e : Document) (t : Tenant) (others : List Tenant) (plot : Plot) (a : Anchor)
    (value : Value) (claims : Claims) : Prop where
  household : Household base d (t :: others)
  mem : plot ∈ t.plots
  isAnchor : plot.slot.anchored? = some a
  held : ∀ x ∈ a.current, d.contains x = true →
    x ∈ plot.roots ∨ (∃ s ∈ t :: others, s.Head x) ∧ x ∉ t.estate
  unrevived : Unrevived (· ∈ a.current) d e
  given : ∀ nodes ∈ listed value, ∀ x ∈ nodes, ∃ s ∈ others, s.Head x
  unclaimed : ∀ x ∈ claims, x ∉ plot.ids

namespace Upkeepable

variable {value : Value} {pieces : List (List NodeId ⊕ Entry)} {taken fresh rest : List Entry} {d₁ d₂ e : Document}
  (able : Upkeepable base d e t others plot a value claims)
include able

theorem kept : plot.Kept d t := (able.household.housed t List.mem_cons_self).plots plot able.mem

theorem ground : a.comment ∈ t.grounds := Slot.node_of_anchored? able.isAnchor ▸ able.kept.node

theorem nodup : t.estate.Nodup := able.household.estate_nodup List.mem_cons_self

/-- The parent of the comment is nothing that an anchor made. -/
theorem parent_not_made {s : Tenant} (mem : s ∈ t :: others) {q : Plot} (memQ : q ∈ s.plots)
    (up : d.parent? a.comment = some m) : m ∉ q.ids := by
  intro made
  have wf := able.household.wellFormed
  have housed := able.household.housed s mem
  have inside := Change.children_subset_of_stand wf (housed.plots q memQ).stand made (wf.parent_iff.mp up)
  cases able.household.unique mem List.mem_cons_self (Tenant.mem_estate_of_plot memQ inside)
    (Tenant.mem_estate_of_ground able.ground)
  exact Tenant.not_ground_of_plot able.nodup memQ inside able.ground

/-- Of the entries that are there midway only the roots may be moved. -/
theorem root_of_movable (midway : Midway d d₁ taken fresh rest) (left : (taken ++ rest).Perm plot.entries)
    (mem : x ∈ entryIds (taken ++ fresh ++ rest)) (may : Movables (t :: others) t plot fresh x) :
    x ∈ entryRoots (taken ++ fresh ++ rest) := by
  have roots := (entryRoots_perm left).mem_iff (a := x)
  simp only [entryRoots_append, entryIds_append, List.mem_append] at *
  rcases may with inPlot | new | ⟨⟨s, memS, head⟩, out⟩
  · have := roots.mpr inPlot
    tauto
  · exact .inl (.inr new)
  · exfalso
    have live := able.household.live memS ((able.household.housed s memS).head_mem head)
    have inPlot : ∀ entries, entries = taken ∨ entries = rest → x ∈ entryIds entries → False := by
      intro entries which here
      refine out (Tenant.mem_estate_of_plot able.mem ((entryIds_perm left).mem_iff.mp ?_))
      rw [entryIds_append, List.mem_append]
      rcases which with rfl | rfl
      · exact .inl here
      · exact .inr here
    rcases mem with (old | new) | old
    · exact inPlot taken (.inl rfl) old
    · rw [midway.unborn x new] at live
      cases live
    · exact inPlot rest (.inr rfl) old

/-- What is to be placed lives, may be moved and is no fragment. -/
theorem next_movable (midway : Midway d d₁ taken fresh rest) (used : (taken ++ fresh).Perm (entriesOf pieces))
    (left : (taken ++ rest).Perm plot.entries)
    (shown : List.Forall₂ Shown (itemsOf value) pieces) (mem : x ∈ pieces.flatMap (pieceNodes id)) :
    d₁.contains x = true ∧ Movables (t :: others) t plot fresh x ∧ d₁.content? x ≠ some .fragment ∧
      x ∉ entryIds rest := by
  rcases mem_pieceNodes.mp mem with here | ⟨nodes, given, here⟩
  · have mine := (entryRoots_perm used).mem_iff.mpr here
    have top : x ∈ entryRoots (taken ++ fresh ++ rest) := by
      rw [entryRoots_append, List.mem_append]
      exact .inl mine
    have solid := solid_of_stand midway.stand top
    have apart : x ∉ entryIds rest := fun inRest => by
      have nodup := midway.nodup
      rw [entryIds_append] at nodup
      exact (List.nodup_append.mp nodup).2.2 x (entryRoots_subset _ mine) x inRest rfl
    refine ⟨midway.stand.contains x (entryRoots_subset _ top), ?_, solid, apart⟩
    rw [entryRoots_append, List.mem_append] at mine
    refine mine.imp (fun old => (entryRoots_perm left).mem_iff.mp ?_) .inl
    rw [entryRoots_append, List.mem_append]
    exact .inl old
  · rw [templatesOf_eq shown, filterMap_itemsOf] at given
    obtain ⟨s, memS, head⟩ := able.given nodes given x here
    have housed := able.household.housed s (List.mem_cons_of_mem _ memS)
    have inS := housed.head_mem head
    have live := able.household.live (List.mem_cons_of_mem _ memS) inS
    have out := able.household.other memS inS
    have live₁ := (midway.alive x).mpr (.inl live)
    refine ⟨live₁, .inr (.inr ⟨⟨s, List.mem_cons_of_mem _ memS, head⟩, out⟩), ?_, fun inRest => out ?_⟩
    · rw [(midway.change (fun _ => False) none).content x live live₁]
      exact housed.head_solid head
    · refine Tenant.mem_estate_of_plot able.mem ((entryIds_perm left).mem_iff.mp ?_)
      rw [entryIds_append, List.mem_append]
      exact .inr inRest

/-- What midway lives, and may be moved as an anchor was told or is told now. -/
theorem may_move (midway : Midway d d₁ taken fresh rest) (used : (taken ++ fresh).Perm (entriesOf pieces))
    (left : (taken ++ rest).Perm plot.entries) (shown : List.Forall₂ Shown (itemsOf value) pieces)
    (stale : ∀ x ∈ a.current, d.contains x = false → d₁.contains x = false)
    (mem : x ∈ a.current ++ pieces.flatMap (pieceNodes id)) (live₁ : d₁.contains x = true) :
    Movables (t :: others) t plot fresh x := by
  rcases List.mem_append.mp mem with old | new
  · cases live : d.contains x with
    | true => exact (able.held x old live).imp_right .inr
    | false =>
        rw [stale x old live] at live₁
        cases live₁
  · exact (able.next_movable midway used left shown new).2.1

/-- The comment of an anchor is nothing that its update moves. -/
theorem comment_stays (unborn : ∀ x ∈ entryIds fresh, d.contains x = false) :
    ¬ Movables (t :: others) t plot fresh a.comment := by
  have inC := Tenant.mem_estate_of_ground able.ground
  have liveC := able.household.live List.mem_cons_self inC
  rintro (here | new | ⟨-, out⟩)
  · exact Tenant.not_ground_of_plot able.nodup able.mem (plot.roots_subset here) able.ground
  · rw [unborn _ (entryRoots_subset _ new)] at liveC
    cases liveC
  · exact out inC

theorem parent_midway (midway : Midway d d₁ taken fresh rest) : d₁.parent? a.comment = d.parent? a.comment := by
  have liveC := able.household.live List.mem_cons_self (Tenant.mem_estate_of_ground able.ground)
  exact (midway.change (fun _ => False) none).parent_eq liveC ((midway.alive _).mpr (.inl liveC)) id

/-- What was made stays as it is while the nodes of the anchor are moved. -/
theorem stand_moved (midway : Midway d d₁ taken fresh rest) (wf₁ : WellFormed d₁)
    (left : (taken ++ rest).Perm plot.entries)
    (moved : Shuffled (Movables (t :: others) t plot fresh) (d.parent? a.comment) d₁ d₂) :
    StandAll d₂ ((taken ++ fresh ++ rest).flatMap (·.plants)) := by
  have wf := able.household.wellFormed
  refine (Change.of_shuffled moved).standAll wf₁ midway.stand (fun x mem => ?_) fun m mem => ⟨fun up => ?_, fun x child may => ?_⟩
  · rw [moved.contains]
    exact midway.stand.contains x mem
  · have inC : d.contains m = true := wf.contains_parent (wf.parent_iff.mp up)
    refine able.parent_not_made List.mem_cons_self able.mem up ((entryIds_perm left).mem_iff.mp ?_)
    have mem : m ∈ entryIds (taken ++ fresh ++ rest) := mem
    simp only [entryIds_append, List.mem_append] at mem ⊢
    rcases mem with (old | new) | old
    · exact .inl old
    · rw [midway.unborn m new] at inC
      cases inC
    · exact .inr old
  · obtain ⟨inside, notRoot⟩ := child_of_stand wf₁ midway.stand midway.nodup mem child
    exact notRoot (able.root_of_movable midway left inside may)

/-- What is not used again is freed, and nothing else. -/
theorem frees {claims₂ : Claims} (midway : Midway d d₁ taken fresh rest) (used : (taken ++ fresh).Perm (entriesOf pieces))
    (left : (taken ++ rest).Perm plot.entries) (shown : List.Forall₂ Shown (itemsOf value) pieces)
    (wf₂ : WellFormed d₂) (body : d₂.body = d.body) (stand : StandAll d₂ ((taken ++ fresh ++ rest).flatMap (·.plants)))
    (claimed : ∀ x, x ∈ claims₂ ↔ x ∈ claims ∨ x ∈ pieces.flatMap (pieceNodes id)) :
    ∃ d₃, Anchor.discardUnclaimed (entryRoots rest) ⟨d₂, claims₂⟩ = .ok () ⟨d₃, claims₂⟩ ∧ Culled [] d₂ d₃ ∧
      ∀ x, d₃.contains x = true ↔ d₂.contains x = true ∧ x ∉ entryIds rest := by
  refine discardUnclaimed_culled claims₂ (rest.flatMap (·.plants)) wf₂
    (standAll_iff.mpr fun r mem => standAll_iff.mp stand r (by
      rw [List.flatMap_append]
      exact List.mem_append_right _ mem))
    (by
      have nodup := midway.nodup
      rw [entryIds_append] at nodup
      exact (List.nodup_append.mp nodup).2.1)
    (fun x mem claim => ?_) (fun mem => ?_)
  · rcases (claimed x).mp claim with old | new
    · refine able.unclaimed x old ((entryIds_perm left).mem_iff.mp ?_)
      rw [entryIds_append]
      exact List.mem_append_right _ mem
    · exact (able.next_movable midway used left shown new).2.2.2 mem
  · refine able.household.ne_body List.mem_cons_self
      (Tenant.mem_estate_of_plot able.mem ((entryIds_perm left).mem_iff.mp ?_)) body
    rw [entryIds_append]
    exact List.mem_append_right _ mem

omit able in
/-- What an update of an anchor does, when it answers. -/
theorem upkept {value? : Option Value} (able : Upkeepable base d e t others plot a (value?.getD .null) claims)
    (done : a.update value? ⟨d, claims⟩ = .ok a' ⟨d', claims'⟩) (later : Sequel d' e) :
    ∃ pieces taken fresh rest, Upkept (t :: others) t plot a a' (value?.getD .null) pieces taken fresh rest
      d d' claims claims' := by
  have wf := able.household.wellFormed
  obtain ⟨pieces, taken, fresh, rest, d₁, d₂, claims₂, shown, sprouted, used, left, placed, freed, same⟩ :=
    update_parts wf (able.kept.made a able.isAnchor).1 able.kept.shows done
  have mid := midway wf sprouted left able.kept.stand (Tenant.ids_nodup able.nodup able.mem)
  have wf₁ := sprouted.wellFormed
  -- the ends of what follows
  have steady₂ : Sequel d₁ d₂ := by
    have := steady_reconcile (.behind a.comment) a.current (pieces.flatMap (pieceNodes id)) ⟨d₁, claims⟩ wf₁
    rwa [left_ok placed] at this
  have steady₃ : Sequel d₂ d' := by
    have := Anchor.steady_discardUnclaimed (entryRoots rest) ⟨d₂, claims₂⟩ steady₂.wellFormed
    rwa [left_ok freed] at this
  have stale : ∀ x ∈ a.current, d.contains x = false → d₁.contains x = false :=
    able.unrevived d d₁ (.refl wf) mid.sequel ((steady₂.trans steady₃).trans later)
  obtain ⟨d₂', claims₂', both, moved, ups, stood, claimed⟩ := reconcile_shuffled
    (Movables (t :: others) t plot fresh) wf₁ placed
    (fun x mem live₁ => able.may_move mid used left shown stale mem live₁)
    (fun x mem => (able.next_movable mid used left shown mem).2.2.1)
    (by rintro c ⟨⟩; exact able.comment_stays mid.unborn)
  cases both
  have target : Position.parent? (.behind a.comment) d₁ = d.parent? a.comment := able.parent_midway mid
  rw [target] at moved ups
  have alive₂ : ∀ x, d₂.contains x = true ↔ d.contains x = true ∨ x ∈ entryIds fresh := fun x => by
    rw [moved.contains]
    exact mid.alive x
  have stand₂ := able.stand_moved mid wf₁ left moved
  obtain ⟨d₃, did, culled, alive₃⟩ := able.frees mid used left shown steady₂.wellFormed
    (moved.body.trans sprouted.body) stand₂ claimed
  have outcome : (⟨d₃, claims₂⟩ : Stage) = ⟨d', claims'⟩ := by
    have := did.symm.trans freed
    injection this
  cases outcome
  have alive' : ∀ x, d'.contains x = true ↔ (d.contains x = true ∨ x ∈ entryIds fresh) ∧ x ∉ entryIds rest :=
    fun x => by
      rw [alive₃, alive₂]
  have apart : ∀ x ∈ entryIds (entriesOf pieces), x ∉ entryIds rest := fun x mem inRest => by
    have nodup := mid.nodup
    rw [entryIds_append] at nodup
    exact (List.nodup_append.mp nodup).2.2 x ((entryIds_perm used).mem_iff.mpr mem) x inRest rfl
  refine ⟨pieces, taken, fresh, rest, same, shown, used, left, mid.unborn, ?_, ?_, alive', ?_, ?_, ?_, ?_⟩
  · have nodup := mid.nodup
    rw [entryIds_append, entryIds_append] at nodup
    exact (List.nodup_append.mp (List.nodup_append.mp nodup).1).2.1
  · refine ((mid.change _ _).trans (.of_shuffled moved) fun x live _ => (mid.alive x).mpr (.inl live)).trans
      (culled.change (by simp)) fun x live _ => (alive₂ x).mpr (.inl live)
  · refine culled.standAll steady₂.wellFormed (standAll_iff.mpr fun r mem => standAll_iff.mp stand₂ r ?_) fun y mem => ?_
    · have := ((used.flatMap_right (·.plants)).mem_iff (a := r)).mpr mem
      rw [List.flatMap_append]
      exact List.mem_append_left _ this
    · refine (alive' y).mpr ⟨?_, apart y mem⟩
      have mine := (entryIds_perm used).mem_iff.mpr mem
      rw [entryIds_append, List.mem_append] at mine
      refine mine.imp_left fun old => able.household.live List.mem_cons_self
        (Tenant.mem_estate_of_plot able.mem ((entryIds_perm left).mem_iff.mp ?_))
      rw [entryIds_append]
      exact List.mem_append_left _ old
  · intro x mem
    rw [same] at mem
    have mem : x ∈ pieces.flatMap (pieceNodes id) := mem
    obtain ⟨live₁, -, -, out⟩ := able.next_movable mid used left shown mem
    have live := (alive₃ x).mpr ⟨(moved.contains x).trans live₁, out⟩
    rw [(culled.parent x live).resolve_right (by simp), ups x mem]
  · intro x p old up
    have inLater := culled.wellFormed.parent_iff.mp up
    rw [(culled.parent x (culled.wellFormed.contains_child inLater)).resolve_right (by simp)] at up
    refine (stood x p up).imp (fun before => ?_) fun mem => ?_
    · have mem := wf₁.parent_iff.mp before
      have inOld : p ∉ entryIds fresh := fun new => by
        rw [mid.unborn p new] at old
        cases old
      rw [sprouted.children p inOld] at mem
      exact wf.parent_iff.mpr (by simpa using mem)
    · rw [same]
      exact mem
  · intro x mem
    rw [same]
    exact (claimed x).mp mem

end Upkeepable

/-! ## The household after an update -/

/-- The tenant with another plot in the place of one. -/
def Tenant.replant (t : Tenant) (before : List Plot) (plot : Plot) (after : List Plot) : Tenant :=
  { t with plots := before ++ plot :: after }

namespace Upkept

variable {value : Value} {pieces : List (List NodeId ⊕ Entry)} {taken fresh rest : List Entry} {e : Document}
  (able : Upkeepable base d e t others plot a value claims)
  (upkept : Upkept (t :: others) t plot a a' value pieces taken fresh rest d d' claims claims')
  (split : t.plots = before ++ plot :: after)

section Ids

include upkept

theorem mem_ids : x ∈ plot.ids ↔ x ∈ entryIds taken ∨ x ∈ entryIds rest := by
  show x ∈ entryIds plot.entries ↔ _
  rw [← (entryIds_perm upkept.left).mem_iff, entryIds_append, List.mem_append]

theorem length_ids : (entryIds (entriesOf pieces)).length = madeCount value :=
  length_entries upkept.shown

/-- What was given to an anchor stands behind it. -/
theorem given_subset {nodes : List NodeId} (mem : nodes ∈ listed value) : nodes ⊆ a'.current := by
  intro x here
  rw [upkept.anchor]
  refine mem_pieceNodes.mpr (.inr ⟨nodes, ?_, here⟩)
  rwa [templatesOf_eq upkept.shown, filterMap_itemsOf]

end Ids

include upkept split

theorem estate_perm (path : Path) :
    ((t.replant before ⟨.anchor path a', entriesOf pieces⟩ after).estate ++ entryIds rest).Perm
      (t.estate ++ entryIds fresh) := by
  have inner : (entryIds (entriesOf pieces) ++ entryIds rest).Perm (plot.ids ++ entryIds fresh) := by
    have used := (entryIds_perm upkept.used).symm.append_right (entryIds rest)
    have left := (entryIds_perm upkept.left).append_right (entryIds fresh)
    rw [entryIds_append] at used left
    refine used.trans (List.Perm.trans ?_ left)
    rw [List.append_assoc, List.append_assoc]
    exact List.perm_append_comm.append_left _
  have shape : ∀ q : Plot, (t.replant before q after).estate =
      t.fragment :: (t.grounds ++ (before.flatMap Plot.ids ++ (q.ids ++ after.flatMap Plot.ids))) := fun q => by
    rw [Tenant.estate, Tenant.replant, List.flatMap_append, List.flatMap_cons]
    rfl
  have same : t.estate = (t.replant before plot after).estate := by
    rw [Tenant.replant, ← split]
  rw [same, shape, shape]
  simp only [List.cons_append, List.append_assoc]
  refine .cons _ (.append_left _ (.append_left _ ?_))
  refine (List.perm_append_comm.append_left _).trans ?_
  rw [← List.append_assoc]
  refine (inner.append_right _).trans ?_
  rw [List.append_assoc]
  exact List.perm_append_comm.append_left _

theorem mem_estate (path : Path) (mem : x ∈ (t.replant before ⟨.anchor path a', entriesOf pieces⟩ after).estate) :
    x ∈ t.estate ∨ x ∈ entryIds fresh := by
  rw [← List.mem_append, ← (upkept.estate_perm split path).mem_iff]
  exact List.mem_append_left _ mem

include able

/-- The tenant is housed after an update, if its estate lives and only roots of
the plot were moved of it. -/
theorem housed (path : Path)
    (live : ∀ x ∈ (t.replant before ⟨.anchor path a', entriesOf pieces⟩ after).estate, d'.contains x = true)
    (moves : ∀ x ∈ t.estate, Movables (t :: others) t plot fresh x → x ∈ plot.roots) :
    (t.replant before ⟨.anchor path a', entriesOf pieces⟩ after).Housed d' := by
  have wf := able.household.wellFormed
  have housed := able.household.housed t List.mem_cons_self
  have fewer : (before ++ after).Sublist t.plots := by
    rw [split]
    exact (List.sublist_cons_self plot after).append_left before
  have others_ : ∀ q ∈ before ++ after, q ∈ before ++ ⟨.anchor path a', entriesOf pieces⟩ :: after := fun q mem =>
    ((List.sublist_cons_self _ after).append_left before).subset mem
  have comment : a'.comment = a.comment := by rw [upkept.anchor]
  -- the other plots are left alone
  have still : ({ t with plots := before ++ after } : Tenant).Housed d' := by
    have sub : ({ t with plots := before ++ after } : Tenant).estate.Sublist t.estate :=
      ((fewer.flatMap Plot.ids).append_left t.grounds).cons_cons t.fragment
    refine (housed.fewer fewer).change wf (able.nodup.sublist sub) upkept.change
      (fun x here => able.household.live List.mem_cons_self (sub.subset here)) (fun x here => live x ?_)
      (fun x here may => ?_) fun m up q mem => able.parent_not_made List.mem_cons_self (fewer.subset mem) up
    · rcases Tenant.mem_estate.mp here with same | ground | ⟨q, mem, inQ⟩
      · exact Tenant.mem_estate.mpr (.inl same)
      · exact Tenant.mem_estate_of_ground ground
      · exact Tenant.mem_estate_of_plot (others_ q mem) inQ
    · have root := plot.roots_subset (moves x (sub.subset here) may)
      rcases Tenant.mem_estate.mp here with same | ground | ⟨q, mem, inQ⟩
      · exact absurd same (Tenant.ne_fragment_of_plot (t := t) able.nodup able.mem root)
      · exact absurd ground (Tenant.not_ground_of_plot (t := t) able.nodup able.mem root)
      · exfalso
        have nodup := Tenant.plots_nodup able.nodup
        rw [split, List.flatMap_append, List.flatMap_cons] at nodup
        obtain ⟨-, tail, early⟩ := List.nodup_append.mp nodup
        rcases List.mem_append.mp mem with left | right
        · exact early x (List.mem_flatMap.mpr ⟨q, left, inQ⟩) x (List.mem_append_left _ root) rfl
        · exact (List.nodup_append.mp tail).2.2 x root x (List.mem_flatMap.mpr ⟨q, right, inQ⟩) rfl
  refine ⟨still.isFragment, still.tops_sub, still.under, still.solid, ?_, fun q mem => ?_⟩
  · have comments := housed.comments
    rw [split] at comments
    have first : Slot.anchored? (.anchor path a') = some a' := rfl
    simp only [Tenant.replant, List.filterMap_append, List.filterMap_cons, able.isAnchor, first, List.map_append,
      List.map_cons, comment] at comments ⊢
    exact comments
  · have kept : ∀ q ∈ before ++ after, Plot.Kept d' (t.replant before ⟨.anchor path a', entriesOf pieces⟩ after) q :=
      fun q mem => (still.plots q mem).congr rfl rfl
    rcases List.mem_append.mp mem with left | right
    · exact kept q (List.mem_append_left _ left)
    · rcases List.mem_cons.mp right with rfl | later
      · have ground : a'.comment ∈ t.grounds := by
          rw [comment]
          exact able.ground
        refine ⟨ground, (by rintro ⟨⟩), ?_, ?_, upkept.stand, ?_⟩
        · rintro _ ⟨⟩
          rw [upkept.anchor]
          exact ⟨rfl, fun x here => mem_pieceNodes.mpr (.inl here)⟩
        · exact fun entry here => shows_of_shown upkept.shown entry here
        · rintro _ ⟨⟩ below r here
          have inC : a.comment ∈ t.estate := Tenant.mem_estate_of_ground able.ground
          have behind : r ∈ a'.current := by
            rw [upkept.anchor]
            exact mem_pieceNodes.mpr (.inl here)
          rw [upkept.parents r behind, comment]
          refine (upkept.change.parent_eq (able.household.live List.mem_cons_self inC) (live _ ?_) fun may => ?_).symm
          · exact Tenant.mem_estate_of_ground able.ground
          · exact Tenant.not_ground_of_plot able.nodup able.mem (plot.roots_subset (moves _ inC may)) able.ground
      · exact kept q (List.mem_append_right _ later)

omit able in
theorem all_perm (path : Path) :
    (((t.replant before ⟨.anchor path a', entriesOf pieces⟩ after) :: others).flatMap Tenant.estate ++
      entryIds rest).Perm ((t :: others).flatMap Tenant.estate ++ entryIds fresh) := by
  have := (upkept.estate_perm split path).append_right (others.flatMap Tenant.estate)
  rw [List.flatMap_cons, List.flatMap_cons, List.append_assoc, List.append_assoc]
  refine (List.perm_append_comm.append_left _).trans ?_
  rw [← List.append_assoc]
  refine this.trans ?_
  rw [List.append_assoc]
  exact List.perm_append_comm.append_left _

theorem all_nodup (path : Path) :
    (((t.replant before ⟨.anchor path a', entriesOf pieces⟩ after) :: others).flatMap Tenant.estate ++
      entryIds rest).Nodup := by
  rw [(upkept.all_perm split path).nodup_iff]
  refine List.nodup_append.mpr ⟨able.household.nodup, upkept.nodup, ?_⟩
  rintro x here _ new rfl
  obtain ⟨s, memS, inS⟩ := List.mem_flatMap.mp here
  have live := able.household.live memS inS
  rw [upkept.unborn x new] at live
  cases live

theorem alive_iff (path : Path) : d'.contains x = true ↔ base.contains x = true ∨
    ∃ s ∈ (t.replant before ⟨.anchor path a', entriesOf pieces⟩ after) :: others, x ∈ s.estate := by
  have nodup := upkept.all_nodup able split path
  have mem := (upkept.all_perm split path).mem_iff (a := x)
  rw [List.mem_append, List.mem_append, List.mem_flatMap, List.mem_flatMap] at mem
  have apart := (List.nodup_append.mp nodup).2.2
  rw [upkept.alive, able.household.alive]
  constructor
  · rintro ⟨(old | here) | new, out⟩
    · exact .inl old
    · exact .inr ((mem.mpr (.inl here)).resolve_right out)
    · exact .inr ((mem.mpr (.inr new)).resolve_right out)
  · rintro (old | here)
    · refine ⟨.inl (.inl old), fun gone => ?_⟩
      exact able.household.not_base List.mem_cons_self
        (Tenant.mem_estate_of_plot able.mem (upkept.mem_ids.mpr (.inr gone))) old
    · refine ⟨?_, fun gone => apart x (List.mem_flatMap.mpr here) x gone rfl⟩
      exact (mem.mp (.inl here)).imp_left .inr

/-- After an update the household is in order again. -/
theorem household (path : Path) :
    Household base d' ((t.replant before ⟨.anchor path a', entriesOf pieces⟩ after) :: others) := by
  have house := able.household
  have wf := house.wellFormed
  have alive' := fun x => upkept.alive_iff (x := x) able split path
  have nodup' := (List.nodup_append.mp (upkept.all_nodup able split path)).1
  have movable : ∀ {s}, s ∈ t :: others → ∀ x ∈ s.estate, Movables (t :: others) t plot fresh x →
      (s = t ∧ x ∈ plot.roots) ∨ (s ≠ t ∧ s.Head x) := by
    rintro s memS x here (root | new | ⟨⟨s', memS', head⟩, out⟩)
    · have own := Tenant.mem_estate_of_plot able.mem (plot.roots_subset root)
      exact .inl ⟨house.unique memS List.mem_cons_self here own, root⟩
    · have live := house.live memS here
      rw [upkept.unborn x (entryRoots_subset _ new)] at live
      cases live
    · cases house.unique memS memS' here ((house.housed s' memS').head_mem head)
      exact .inr ⟨fun same => out (same ▸ here), head⟩
  refine house.change upkept.change ?_ nodup' alive' ?_ ?_
  · intro x old moves
    rcases moves with root | new | ⟨⟨s, memS, head⟩, -⟩
    · exact house.not_base List.mem_cons_self (Tenant.mem_estate_of_plot able.mem (plot.roots_subset root)) old
    · have live := house.base_live old
      rw [upkept.unborn x (entryRoots_subset _ new)] at live
      cases live
    · exact house.not_base memS ((house.housed s memS).head_mem head) old
  · intro s memS x here
    cases memS with
    | head =>
        rcases upkept.mem_estate split path here with own | new
        · exact house.apart t List.mem_cons_self x own
        · cases old : base.contains x with
          | false => rfl
          | true =>
              have live := house.base_live old
              rw [upkept.unborn x new] at live
              cases live
    | tail _ memS => exact house.apart s (List.mem_cons_of_mem _ memS) x here
  · intro s memS
    cases memS with
    | tail _ memS =>
        have inAll := List.mem_cons_of_mem t memS
        have apart : s ≠ t := by
          rintro rfl
          exact able.household.other memS Tenant.fragment_mem Tenant.fragment_mem
        exact (house.housed s inAll).change wf (house.estate_nodup inAll) upkept.change
          (fun x here => house.live inAll here)
          (fun x here => (alive' x).mpr (.inr ⟨s, List.mem_cons_of_mem _ memS, here⟩))
          (fun x here moves => ((movable inAll x here moves).resolve_left fun both => apart both.1).2)
          fun m up q memQ => able.parent_not_made inAll memQ up
    | head =>
        exact upkept.housed able split path (fun x here => (alive' x).mpr (.inr ⟨_, List.mem_cons_self, here⟩))
          fun x here moves => ((movable List.mem_cons_self x here moves).resolve_right fun both => both.1 rfl).2

/-- What is a head and lives on is still one. -/
theorem head (path : Path) {s : Tenant} (head : s.Head x) (mem : s ∈ t :: others) (live : d'.contains x = true) :
    ∃ s' ∈ (t.replant before ⟨.anchor path a', entriesOf pieces⟩ after) :: others, s'.Head x := by
  cases mem with
  | tail _ mem => exact ⟨s, List.mem_cons_of_mem _ mem, head⟩
  | head =>
      refine ⟨_, List.mem_cons_self, ?_⟩
      rcases head with top | ⟨p, memP, b, isB, outer, here⟩
      · exact .inl top
      · rw [split] at memP
        have place : p ∈ before ++ after ∨ p = plot := by
          simp only [List.mem_append, List.mem_cons] at memP ⊢
          tauto
        rcases place with other | rfl
        · exact .inr ⟨p, ((List.sublist_cons_self _ after).append_left before).subset other, b, isB, outer, here⟩
        · rw [able.isAnchor] at isB
          cases isB
          refine .inr ⟨_, List.mem_append_right _ List.mem_cons_self, a', rfl, ?_, ?_⟩
          · rw [upkept.anchor]
            exact outer
          · have out := ((upkept.alive x).mp live).2
            have old := (entryRoots_perm upkept.left).mem_iff.mpr here
            rw [entryRoots_append, List.mem_append] at old
            refine (entryRoots_perm upkept.used).mem_iff.mp ?_
            rw [entryRoots_append, List.mem_append]
            exact .inl (old.resolve_right fun gone => out (entryRoots_subset _ gone))

omit able in
/-- What did not belong to the tenant and was there still does not. -/
theorem not_mem_estate (path : Path) (live : d.contains x = true) (out : x ∉ t.estate) :
    x ∉ (t.replant before ⟨.anchor path a', entriesOf pieces⟩ after).estate := by
  intro here
  rcases upkept.mem_estate split path here with own | new
  · exact out own
  · rw [upkept.unborn x new] at live
    cases live

omit able split in
/-- Only the parent of the comment took up nodes, those that the anchor shows. -/
theorem mem_children (wf : WellFormed d) (live : d.contains m = true) (mem : x ∈ d'.children m) :
    x ∈ d.children m ∨ x ∈ a'.current ∧ d.parent? a.comment = some m := by
  have up := upkept.change.wellFormed.parent_iff.mpr mem
  refine (upkept.stood x m live up).imp wf.parent_iff.mp fun here => ⟨here, ?_⟩
  rw [← upkept.parents x here]
  exact up

end Upkept

end Inlay.Render
