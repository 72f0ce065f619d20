/-
# Proofs.Render.Tenant — which nodes an instance owns

The account of the nodes that a renderer has made. A `Tenant` is an instance with
its estate: its fragment, the nodes of the copy of its prototype and what its
anchors have made for items. Only the heads of an estate are ever moved: the top
nodes of the copy, and what was made at an anchor among them. Every other node of
an estate has its parent in the estate (`Housed.up`).

A `Household` accounts for a whole document: a node that is alive was there
before, or is in one estate and one place of it; what was there before has its
content and its order.
-/
import Inlay.Proofs.Document.Change
import Inlay.Proofs.Render.Layout

namespace Inlay.Render

set_option autoImplicit false

open Inlay.Document Inlay.Document.Planted

/-! ## Slots -/

namespace Slot

/-- The anchor of a slot. -/
def anchored? : Slot → Option Anchor
  | .anchor _ a => some a
  | _ => none

/-- The node that a slot writes to, or the comment of its anchor. -/
def node : Slot → NodeId
  | .text node _ => node
  | .textareaValue holder _ => holder
  | .attribute holder _ _ _ => holder
  | .anchor _ a => a.comment

theorem node_of_anchored? {slot : Slot} {a : Anchor} (isAnchor : slot.anchored? = some a) :
    slot.node = a.comment := by
  cases slot <;> cases isAnchor
  rfl

theorem exists_path {slot : Slot} {a : Anchor} (isAnchor : slot.anchored? = some a) :
    ∃ path, slot = .anchor path a := by
  cases slot <;> cases isAnchor
  exact ⟨_, rfl⟩

theorem anchorAt?_eq_some {slot : Slot} {a : Anchor} {c : NodeId} :
    anchorAt? c slot = some a ↔ slot.anchored? = some a ∧ a.comment = c := by
  cases slot with
  | anchor path b =>
      simp only [anchorAt?, anchored?, Option.some.injEq]
      constructor
      · intro found
        split at found
        · next here =>
            cases found
            exact ⟨rfl, here⟩
        · cases found
      · rintro ⟨rfl, here⟩
        rw [if_pos here]
  | text | textareaValue | «attribute» => simp [anchorAt?, anchored?]

end Slot

/-- Two members of a list that share something are the same, when nothing is
listed twice. -/
theorem eq_of_mem_flatMap {α β : Type} {f : α → List β} {x : β} : ∀ {list : List α},
    (list.flatMap f).Nodup → ∀ a ∈ list, ∀ b ∈ list, x ∈ f a → x ∈ f b → a = b
  | first :: rest, nodup, a, memA, b, memB, here, there => by
      obtain ⟨-, others, apart⟩ := List.nodup_append.mp (List.flatMap_cons ▸ nodup)
      have later : ∀ c ∈ rest, x ∈ f c → x ∈ rest.flatMap f := fun c mem inC =>
        List.mem_flatMap.mpr ⟨c, mem, inC⟩
      rcases List.mem_cons.mp memA with rfl | laterA
      · rcases List.mem_cons.mp memB with rfl | laterB
        · rfl
        · exact absurd rfl (apart x here x (later b laterB there))
      · rcases List.mem_cons.mp memB with rfl | laterB
        · exact absurd rfl (apart x there x (later a laterA here))
        · exact eq_of_mem_flatMap others a laterA b laterB here there

/-! ## Estates -/

/-- A slot, with the trees its anchor has made. -/
structure Plot where
  slot : Slot
  entries : List Entry

namespace Plot

def grown (p : Plot) : List Planted := p.entries.flatMap (·.plants)

def ids (p : Plot) : List NodeId := idsAll p.grown

def roots (p : Plot) : List NodeId := p.grown.map root

theorem roots_subset (p : Plot) : p.roots ⊆ p.ids := (map_root_sublist p.grown).subset

end Plot

structure Tenant where
  fragment : NodeId
  /-- The copy of its prototype, still with the placeholders. -/
  source : List Planted
  plots : List Plot

namespace Tenant

/-- The nodes of the copy of its prototype. -/
def grounds (t : Tenant) : List NodeId := idsAll t.source

/-- Those of them that stand at the top. -/
def tops (t : Tenant) : List NodeId := t.source.map root

def inst (t : Tenant) : Instance := ⟨t.fragment, t.tops, t.plots.map (·.slot)⟩

def estate (t : Tenant) : List NodeId := t.fragment :: (t.grounds ++ t.plots.flatMap Plot.ids)

/-- The nodes that may stand in other estates: those at the top, and what was made
behind them. -/
def Head (t : Tenant) (x : NodeId) : Prop :=
  x ∈ t.tops ∨ ∃ p ∈ t.plots, ∃ a, p.slot.anchored? = some a ∧ a.comment ∈ t.tops ∧ x ∈ p.roots

end Tenant

/-- A slot writes within the grounds; what its anchor made stands, behind an anchor
below the top in the parent of its comment. -/
structure Plot.Kept (d : Document) (t : Tenant) (p : Plot) : Prop where
  node : p.slot.node ∈ t.grounds
  plain : p.slot.anchored? = none → p.entries = []
  made : ∀ a, p.slot.anchored? = some a → a.made = p.entries.map Entry.remembered ∧ p.roots ⊆ a.current
  shows : ∀ e ∈ p.entries, e.Shows
  stand : StandAll d p.grown
  inner : ∀ a, p.slot.anchored? = some a → a.comment ∉ t.tops →
    ∀ r ∈ p.roots, d.parent? r = d.parent? a.comment

/-- What is kept of a plot depends on the grounds only. -/
theorem Plot.Kept.congr {d : Document} {t t' : Tenant} {p : Plot} (kept : p.Kept d t) (grounds : t'.grounds = t.grounds)
    (tops : t'.tops = t.tops) : p.Kept d t' :=
  { kept with node := grounds ▸ kept.node, inner := tops ▸ kept.inner }

structure Tenant.Housed (d : Document) (t : Tenant) : Prop where
  isFragment : d.content? t.fragment = some .fragment
  tops_sub : t.tops ⊆ t.grounds
  under : ∀ x ∈ t.grounds, x ∉ t.tops → ∃ p ∈ t.grounds, d.parent? x = some p
  solid : ∀ x ∈ t.tops, d.content? x ≠ some .fragment
  comments : ((t.plots.filterMap (·.slot.anchored?)).map Anchor.comment).Nodup
  plots : ∀ p ∈ t.plots, p.Kept d t

/-- The estates are disjoint, and together with what is alive in `base` they are
what is alive; of `base` nothing has changed but that other nodes were put in. -/
structure Household (base d : Document) (ts : List Tenant) : Prop where
  base_wf : WellFormed base
  wellFormed : WellFormed d
  body : d.body = base.body
  nodup : (ts.flatMap Tenant.estate).Nodup
  alive : ∀ x, d.contains x = true ↔ base.contains x = true ∨ ∃ t ∈ ts, x ∈ t.estate
  apart : ∀ t ∈ ts, ∀ x ∈ t.estate, base.contains x = false
  content : ∀ x, base.contains x = true → d.content? x = base.content? x
  order : ∀ p, (d.children p).filter base.contains = base.children p
  housed : ∀ t ∈ ts, t.Housed d

variable {base d d' : Document} {t s : Tenant} {ts ts' : List Tenant} {p q : Plot} {a : Anchor} {x m : NodeId}
  {moved : NodeId → Prop} {target : Option NodeId}

/-! ## What is in an estate -/

namespace Tenant

theorem mem_estate : x ∈ t.estate ↔ x = t.fragment ∨ x ∈ t.grounds ∨ ∃ p ∈ t.plots, x ∈ p.ids := by
  simp [estate, List.mem_flatMap]

theorem mem_estate_of_plot (mem : p ∈ t.plots) (here : x ∈ p.ids) : x ∈ t.estate :=
  mem_estate.mpr (.inr (.inr ⟨p, mem, here⟩))

theorem mem_estate_of_ground (mem : x ∈ t.grounds) : x ∈ t.estate := mem_estate.mpr (.inr (.inl mem))

theorem fragment_mem : t.fragment ∈ t.estate := List.mem_cons_self

section Nodup

variable (nodup : t.estate.Nodup)
include nodup

theorem plots_nodup : (t.plots.flatMap Plot.ids).Nodup :=
  (List.nodup_append.mp (List.nodup_cons.mp nodup).2).2.1

theorem not_ground_of_plot (mem : p ∈ t.plots) (here : x ∈ p.ids) : x ∉ t.grounds := fun ground =>
  (List.nodup_append.mp (List.nodup_cons.mp nodup).2).2.2 x ground x
    (List.mem_flatMap.mpr ⟨p, mem, here⟩) rfl

theorem ne_fragment_of_ground (mem : x ∈ t.grounds) : x ≠ t.fragment := by
  rintro rfl
  exact (List.nodup_cons.mp nodup).1 (List.mem_append_left _ mem)

theorem ne_fragment_of_plot (mem : p ∈ t.plots) (here : x ∈ p.ids) : x ≠ t.fragment := by
  rintro rfl
  exact (List.nodup_cons.mp nodup).1 (List.mem_append_right _ (List.mem_flatMap.mpr ⟨p, mem, here⟩))

theorem plot_unique (memP : p ∈ t.plots) (memQ : q ∈ t.plots) (here : x ∈ p.ids) (there : x ∈ q.ids) : p = q :=
  eq_of_mem_flatMap (plots_nodup nodup) p memP q memQ here there

theorem ids_nodup (mem : p ∈ t.plots) : p.ids.Nodup := by
  obtain ⟨front, behind, split⟩ := List.append_of_mem mem
  have all := plots_nodup nodup
  rw [split, List.flatMap_append, List.flatMap_cons] at all
  exact (List.nodup_append.mp (List.nodup_append.mp all).2.1).1

/-- What was made behind an anchor below the top is no head. -/
theorem not_head_of_inner (mem : p ∈ t.plots) (isAnchor : p.slot.anchored? = some a) (inner : a.comment ∉ t.tops)
    (tops_sub : t.tops ⊆ t.grounds) (here : x ∈ p.ids) : ¬ t.Head x := by
  rintro (top | ⟨q, memQ, b, isB, outer, there⟩)
  · exact not_ground_of_plot nodup mem here (tops_sub top)
  · cases plot_unique nodup mem memQ here (q.roots_subset there)
    rw [isAnchor] at isB
    cases isB
    exact inner outer

theorem not_head_of_ground (ground : x ∈ t.grounds) (inner : x ∉ t.tops) : ¬ t.Head x := by
  rintro (top | ⟨q, memQ, b, -, -, there⟩)
  · exact inner top
  · exact not_ground_of_plot nodup memQ (q.roots_subset there) ground

/-- What stands below something made is no head. -/
theorem not_head_of_below (mem : p ∈ t.plots) (tops_sub : t.tops ⊆ t.grounds) (here : x ∈ p.ids)
    (below : x ∉ p.roots) : ¬ t.Head x := by
  rintro (top | ⟨q, memQ, b, -, -, there⟩)
  · exact not_ground_of_plot nodup mem here (tops_sub top)
  · cases plot_unique nodup mem memQ here (q.roots_subset there)
    exact below there

end Nodup

end Tenant

/-! ## Planted trees that stand -/

/-- A child of a node of planted trees is one of their nodes, and no root. -/
theorem child_of_stand (wf : WellFormed d) {ps : List Planted} (stand : StandAll d ps) (nodup : (idsAll ps).Nodup)
    (mem : m ∈ idsAll ps) (child : x ∈ d.children m) : x ∈ idsAll ps ∧ x ∉ ps.map root := by
  have inside := Change.children_subset_of_stand wf stand mem child
  refine ⟨inside, fun top => ?_⟩
  obtain ⟨r, memR, rfl⟩ := List.mem_map.mp top
  obtain ⟨q, memQ, here⟩ := mem_idsAll.mp mem
  have standsQ := standAll_iff.mp stand q memQ
  have inQ : r.root ∈ q.ids := (standsQ.mem_ids wf _).mpr
    (((standsQ.mem_ids wf m).mp here).head (wf.parent_iff.mpr child))
  have flat : ∀ l : List Planted, idsAll l = l.flatMap ids := by
    intro l
    induction l with
    | nil => rfl
    | cons p l ih => rw [idsAll, ih, List.flatMap_cons]
  cases eq_of_mem_flatMap (flat ps ▸ nodup) r memR q memQ root_mem_ids inQ
  exact wf.acyclic.not_below (wf.parent_iff.mpr child) ((standsQ.mem_ids wf m).mp here)

/-- A node of planted trees that is no root has its parent among them. -/
theorem parent_of_stand (wf : WellFormed d) {ps : List Planted} (stand : StandAll d ps) (mem : x ∈ idsAll ps)
    (inner : x ∉ ps.map root) : ∃ m ∈ idsAll ps, d.parent? x = some m := by
  obtain ⟨r, memR, here⟩ := mem_idsAll.mp mem
  have stands := standAll_iff.mp stand r memR
  rcases Relation.ReflTransGen.cases_head ((stands.mem_ids wf x).mp here) with same | ⟨m, up, below⟩
  · exact absurd (same ▸ List.mem_map_of_mem memR) inner
  · exact ⟨m, mem_idsAll.mpr ⟨r, memR, (stands.mem_ids wf m).mpr below⟩, up⟩

theorem solid_of_stand {ps : List Planted} (stand : StandAll d ps) (mem : x ∈ ps.map root) :
    d.content? x ≠ some .fragment := by
  obtain ⟨r, there, rfl⟩ := List.mem_map.mp mem
  exact (standAll_iff.mp stand r there).solid

/-! ## The nodes of an instance -/

namespace Tenant.Housed

theorem findSome?_eq (comments : ((t.plots.filterMap (·.slot.anchored?)).map Anchor.comment).Nodup) {c : NodeId} :
    t.inst.slots.findSome? (Slot.anchorAt? c) = some a ↔
      ∃ p ∈ t.plots, p.slot.anchored? = some a ∧ a.comment = c := by
  rw [inst]
  generalize t.plots = plots at *
  induction plots with
  | nil => simp
  | cons p plots ih =>
      have rest : ((plots.filterMap (·.slot.anchored?)).map Anchor.comment).Nodup := by
        cases isAnchor : p.slot.anchored? with
        | none => simpa [List.filterMap_cons, isAnchor] using comments
        | some b =>
            simp only [List.filterMap_cons, isAnchor, List.map_cons] at comments
            exact (List.nodup_cons.mp comments).2
      rw [List.map_cons, List.findSome?_cons]
      cases found : Slot.anchorAt? c p.slot with
      | none =>
          have notHere : ∀ a, ¬ (p.slot.anchored? = some a ∧ a.comment = c) := fun a both => by
            rw [Slot.anchorAt?_eq_some.mpr both] at found
            cases found
          simp [ih rest, notHere]
      | some b =>
          have isB := Slot.anchorAt?_eq_some.mp found
          simp only [List.filterMap_cons, isB.1, List.map_cons] at comments
          have first := (List.nodup_cons.mp comments).1
          simp only [Option.some.injEq, List.mem_cons, exists_eq_or_imp]
          constructor
          · rintro rfl
            exact .inl isB
          · rintro (both | ⟨q, mem, isAnchor, here⟩)
            · exact Option.some.inj (isB.1.symm.trans both.1)
            · refine absurd (List.mem_map.mpr ⟨a, List.mem_filterMap.mpr ⟨q, mem, isAnchor⟩, ?_⟩) first
              rw [here, isB.2]

theorem mem_nodes (housed : t.Housed d) : x ∈ t.inst.nodes ↔
    x ∈ t.tops ∨ ∃ p ∈ t.plots, ∃ a, p.slot.anchored? = some a ∧ a.comment ∈ t.tops ∧ x ∈ a.current := by
  have find := fun c a => findSome?_eq (a := a) housed.comments (c := c)
  rw [Instance.nodes, List.mem_flatMap]
  constructor
  · rintro ⟨c, top, mem⟩
    cases found : t.inst.slots.findSome? (Slot.anchorAt? c) with
    | none =>
        rw [found, List.mem_singleton] at mem
        exact .inl (mem ▸ top)
    | some a =>
        rw [found, List.mem_cons] at mem
        rcases mem with rfl | behind
        · exact .inl top
        · obtain ⟨p, memP, isAnchor, rfl⟩ := (find c a).mp found
          exact .inr ⟨p, memP, a, isAnchor, top, behind⟩
  · rintro (top | ⟨p, memP, a, isAnchor, top, behind⟩)
    · refine ⟨x, top, ?_⟩
      split
      · exact List.mem_cons_self
      · exact List.mem_singleton_self x
    · refine ⟨a.comment, top, ?_⟩
      rw [(find a.comment a).mpr ⟨p, memP, isAnchor, rfl⟩]
      exact List.mem_cons_of_mem _ behind

theorem fewer (housed : t.Housed d) {plots : List Plot} (sub : plots.Sublist t.plots) :
    ({ t with plots := plots } : Tenant).Housed d where
  isFragment := housed.isFragment
  tops_sub := housed.tops_sub
  under := housed.under
  solid := housed.solid
  comments := housed.comments.sublist ((sub.filterMap _).map _)
  plots := fun p mem => (housed.plots p (sub.subset mem)).congr rfl rfl

theorem head_mem_nodes (housed : t.Housed d) (head : t.Head x) : x ∈ t.inst.nodes := by
  rw [housed.mem_nodes]
  rcases head with top | ⟨p, mem, a, isAnchor, top, here⟩
  · exact .inl top
  · exact .inr ⟨p, mem, a, isAnchor, top, ((housed.plots p mem).made a isAnchor).2 here⟩

theorem head_mem (housed : t.Housed d) (head : t.Head x) : x ∈ t.estate := by
  rcases head with top | ⟨p, mem, a, -, -, here⟩
  · exact mem_estate_of_ground (housed.tops_sub top)
  · exact mem_estate_of_plot mem (p.roots_subset here)

theorem head_solid (housed : t.Housed d) (head : t.Head x) : d.content? x ≠ some .fragment := by
  rcases head with top | ⟨p, mem, a, -, -, here⟩
  · exact housed.solid x top
  · exact solid_of_stand (housed.plots p mem).stand here

/-- What is no head has its parent in the estate. -/
theorem up (housed : t.Housed d) (wf : WellFormed d) (nodup : t.estate.Nodup) (mem : x ∈ t.estate)
    (other : x ≠ t.fragment) (inner : ¬ t.Head x) :
    ∃ m ∈ t.estate, m ≠ t.fragment ∧ d.parent? x = some m := by
  have ground : ∀ y ∈ t.grounds, y ∉ t.tops → ∃ m ∈ t.estate, m ≠ t.fragment ∧ d.parent? y = some m :=
    fun y memY notTop => by
      obtain ⟨m, there, isParent⟩ := housed.under y memY notTop
      exact ⟨m, mem_estate_of_ground there, ne_fragment_of_ground nodup there, isParent⟩
  rcases mem_estate.mp mem with isFragment | onGround | ⟨p, memP, here⟩
  · exact absurd isFragment other
  · exact ground x onGround fun top => inner (.inl top)
  · have kept := housed.plots p memP
    by_cases top : x ∈ p.roots
    · cases isAnchor : p.slot.anchored? with
      | none =>
          rw [Plot.roots, Plot.grown, kept.plain isAnchor] at top
          cases top
      | some a =>
          have below : a.comment ∉ t.tops := fun outer => inner (.inr ⟨p, memP, a, isAnchor, outer, top⟩)
          rw [kept.inner a isAnchor below x top]
          exact ground a.comment (Slot.node_of_anchored? isAnchor ▸ kept.node) below
    · obtain ⟨m, there, isParent⟩ := parent_of_stand wf kept.stand here top
      exact ⟨m, mem_estate_of_plot memP there, ne_fragment_of_plot nodup memP there, isParent⟩

/-- A tenant stays housed while its estate lives and nothing but its heads is moved. -/
theorem change (housed : t.Housed d) (wf : WellFormed d) (nodup : t.estate.Nodup)
    (change : Change moved target d d') (live : ∀ x ∈ t.estate, d.contains x = true)
    (live' : ∀ x ∈ t.estate, d'.contains x = true) (heads : ∀ x ∈ t.estate, moved x → t.Head x)
    (away : ∀ m, target = some m → ∀ p ∈ t.plots, m ∉ p.ids) : t.Housed d' where
  isFragment := (change.content _ (live _ fragment_mem) (live' _ fragment_mem)).trans housed.isFragment
  tops_sub := housed.tops_sub
  under := fun x mem inner => by
    have here := mem_estate_of_ground mem
    rw [change.parent_eq (live x here) (live' x here) fun moves =>
      not_head_of_ground nodup mem inner (heads x here moves)]
    exact housed.under x mem inner
  solid := fun x top => by
    have here := mem_estate_of_ground (housed.tops_sub top)
    rw [change.content x (live x here) (live' x here)]
    exact housed.solid x top
  comments := housed.comments
  plots := fun p mem => by
    have kept := housed.plots p mem
    have inP : ∀ x ∈ p.ids, x ∈ t.estate := fun x here => mem_estate_of_plot mem here
    refine ⟨kept.node, kept.plain, kept.made, kept.shows, ?_, fun a isAnchor below r here => ?_⟩
    · refine change.standAll wf kept.stand (fun x here => live' x (inP x here)) fun m here =>
        ⟨fun isTarget => away m isTarget p mem here, fun x child moves => ?_⟩
      obtain ⟨inside, notRoot⟩ := child_of_stand wf kept.stand (ids_nodup nodup mem) here child
      exact not_head_of_below nodup mem housed.tops_sub inside notRoot (heads x (inP x inside) moves)
    · have inR := inP r (p.roots_subset here)
      have ground : a.comment ∈ t.grounds := Slot.node_of_anchored? isAnchor ▸ kept.node
      have inC := mem_estate_of_ground ground
      rw [change.parent_eq (live r inR) (live' r inR) fun moves =>
          not_head_of_inner nodup mem isAnchor below housed.tops_sub (p.roots_subset here) (heads r inR moves),
        change.parent_eq (live _ inC) (live' _ inC) fun moves =>
          not_head_of_ground nodup ground below (heads _ inC moves)]
      exact kept.inner a isAnchor below r here

end Tenant.Housed

/-! ## Households -/

namespace Household

/-- What belongs to others does not belong to the first. -/
theorem other (household : Household base d (t :: ts)) (mem : s ∈ ts) (here : x ∈ s.estate) : x ∉ t.estate :=
  fun own => (List.nodup_append.mp (List.flatMap_cons ▸ household.nodup)).2.2 x own x
    (List.mem_flatMap.mpr ⟨s, mem, here⟩) rfl

variable (household : Household base d ts)
include household

theorem live (mem : t ∈ ts) (here : x ∈ t.estate) : d.contains x = true :=
  (household.alive x).mpr (.inr ⟨t, mem, here⟩)

theorem base_live (here : base.contains x = true) : d.contains x = true := (household.alive x).mpr (.inl here)

theorem estate_nodup (mem : t ∈ ts) : t.estate.Nodup := by
  obtain ⟨front, behind, rfl⟩ := List.append_of_mem mem
  have all := household.nodup
  rw [List.flatMap_append, List.flatMap_cons] at all
  exact (List.nodup_append.mp (List.nodup_append.mp all).2.1).1

theorem unique (memT : t ∈ ts) (memS : s ∈ ts) (here : x ∈ t.estate) (there : x ∈ s.estate) : t = s :=
  eq_of_mem_flatMap household.nodup t memT s memS here there

theorem not_base (mem : t ∈ ts) (here : x ∈ t.estate) : ¬ base.contains x = true := by
  rw [household.apart t mem x here]
  decide

/-- What was there before has its parent. -/
theorem base_parent (here : base.contains x = true) : d.parent? x = base.parent? x := by
  refine parent?_congr household.base_wf household.wellFormed fun p => ?_
  rw [← household.order p, List.mem_filter]
  simp [here]

/-- The parent of what was there before was there before. -/
theorem base_up (here : base.contains x = true) {p : NodeId} (up : d.parent? x = some p) :
    base.contains p = true := by
  rw [household.base_parent here] at up
  exact household.base_wf.contains_parent (household.base_wf.parent_iff.mp up)

theorem ne_body (mem : t ∈ ts) (here : x ∈ t.estate) : x ≠ d.body := by
  rintro rfl
  refine household.not_base mem here ?_
  rw [household.body]
  exact household.base_wf.body_contains

/-- A household after a change that leaves what was there before. -/
theorem change (change : Change moved target d d') (stays : ∀ x, base.contains x = true → ¬ moved x)
    (nodup : (ts'.flatMap Tenant.estate).Nodup)
    (alive : ∀ x, d'.contains x = true ↔ base.contains x = true ∨ ∃ t ∈ ts', x ∈ t.estate)
    (apart : ∀ t ∈ ts', ∀ x ∈ t.estate, base.contains x = false) (housed : ∀ t ∈ ts', t.Housed d') :
    Household base d' ts' where
  base_wf := household.base_wf
  wellFormed := change.wellFormed
  body := change.body.trans household.body
  nodup := nodup
  alive := alive
  apart := apart
  content := fun x here =>
    (change.content x (household.base_live here) ((alive x).mpr (.inl here))).trans (household.content x here)
  order := fun p => by
    rw [change.order base.contains (fun x here =>
      ⟨household.base_live here, (alive x).mpr (.inl here), stays x here⟩) p]
    exact household.order p
  housed := housed

/-- A household after a write to a node of a copy. -/
theorem touched (mem : t ∈ ts) (ground : m ∈ t.grounds) (touched : Touched m d d') : Household base d' ts where
  base_wf := household.base_wf
  wellFormed := touched.wellFormed
  body := touched.body.trans household.body
  nodup := household.nodup
  alive := fun x => by
    rw [touched.contains]
    exact household.alive x
  apart := household.apart
  content := fun x here => by
    refine (touched.content x ?_).trans (household.content x here)
    rintro rfl
    exact household.not_base mem (Tenant.mem_estate_of_ground ground) here
  order := fun p => by
    rw [touched.children]
    exact household.order p
  housed := fun s memS => by
    have housed := household.housed s memS
    have up := touched.parent? household.wellFormed
    refine ⟨(touched.fragment _).mpr housed.isFragment, housed.tops_sub, fun x here inner => ?_, fun x here => ?_,
      housed.comments, fun p memP => ?_⟩
    · rw [up]
      exact housed.under x here inner
    · rw [Ne, touched.fragment]
      exact housed.solid x here
    · have kept := housed.plots p memP
      refine { kept with
        stand := kept.stand.congr fun x here => ⟨touched.content x ?_, by rw [touched.children]⟩
        inner := fun a isAnchor below r here => by
          rw [up, up]
          exact kept.inner a isAnchor below r here }
      rintro rfl
      cases household.unique mem memS (Tenant.mem_estate_of_ground ground) (Tenant.mem_estate_of_plot memP here)
      exact Tenant.not_ground_of_plot (household.estate_nodup mem) memP here ground

end Household

end Inlay.Render
