/-
# Proofs.Render.Settling — what stands where after a call

A node of a used tenant that stands somewhere is to be placed, or stands in a row of a
used tenant (`Quartered.stands`). So once the idle tenants are gone and the nodes of
the root are placed, the elements of the used tenants have their rows, and in what was
there before stands what stood there, but for the nodes of the root at the host. This
needs that the host lets go of nothing that is still shown (`Answered.Loyal`): the host
does not know what the anchors have claimed.
-/
import Inlay.Proofs.Render.Ordinals
import Inlay.Proofs.Render.Reading
import Inlay.Proofs.Render.Unfailing

namespace Inlay.Render

set_option autoImplicit false

open Relation Inlay.Document Inlay.Document.Planted Inlay.Markup
open Inlay.Template hiding root

variable {base d d' : Document} {claims claims' : Claims} {s : Tenant} {idle used ts : List Tenant} {p : Plot} {a : Anchor}
  {x m : NodeId} {nodes : List NodeId} {part : Part} {template : Template} {library : Library} {site : Site}
  {stock : Fields (List Tenant)} {host : NodeId} {selection : Option String} {fields : Fields Datum} {pass : Pass}
  {total : Nat}

/-! ## Rows of a tenant -/

namespace Tenant

theorem mem_row_of_kid {slots : List Slot} (kid : x ∈ part.kids) : x ∈ part.row slots :=
  List.mem_flatMap.mpr ⟨x, kid, List.mem_cons_self⟩

/-- What an anchor shows is in the row of its comment. -/
theorem mem_row_of_shown (housed : s.Housed d) (mem : p ∈ s.plots) (isAnchor : p.slot.anchored? = some a)
    (kid : a.comment ∈ part.kids) (shown : x ∈ a.current) : x ∈ part.row (s.plots.map (·.slot)) := by
  have found := (Housed.findSome?_eq housed.comments).mpr ⟨p, mem, isAnchor, rfl⟩
  have behind : behindIn (s.plots.map (·.slot)) a.comment = a.current := by
    rw [behindIn, show s.plots.map (·.slot) = s.inst.slots from rfl, found]
    rfl
  exact List.mem_flatMap.mpr ⟨a.comment, kid, List.mem_cons_of_mem _ (behind.symm ▸ shown)⟩

/-- A ground below the top stands where it stood at first. -/
theorem kid_of_up (wf : WellFormed d) (nodup : s.estate.Nodup) (clad : s.Clad d) (mem : part ∈ s.parts)
    (ground : x ∈ s.grounds) (inner : x ∉ s.tops) (up : d.parent? x = some part.node) : x ∈ part.kids := by
  obtain ⟨other, there, kid⟩ : ∃ part ∈ s.parts, x ∈ part.kids := exists_kid ground inner
  have up' := wf.parent_iff.mpr ((clad.kids other there).subset kid)
  rw [up] at up'
  rwa [part_unique (grounds_nodup nodup) mem there (Option.some.inj up')]

end Tenant

/-- The node stands in an estate of the tenants, and if that is at an element of a copy, in its row. -/
def InRow (ts : List Tenant) (x m : NodeId) : Prop :=
  ∃ s ∈ ts, m ∈ s.estate ∧ ∀ part ∈ s.parts, part.node = m → x ∈ part.row (s.plots.map (·.slot))

namespace Household

variable (house : Household base d ts) (clad : ∀ s ∈ used, s.Clad d) (used_mem : ∀ s ∈ used, s ∈ ts)
include house clad used_mem

/-- What an anchor below the top shows beside its comment is in a row. -/
theorem inRow_of_shown (mem : s ∈ used) (memP : p ∈ s.plots) (isAnchor : p.slot.anchored? = some a)
    (inner : a.comment ∉ s.tops) (shown : x ∈ a.current) (up : d.parent? a.comment = some m) : InRow used x m := by
  have housed := house.housed s (used_mem s mem)
  have ground : a.comment ∈ s.grounds := Slot.node_of_anchored? isAnchor ▸ (housed.plots p memP).node
  obtain ⟨m', above, up'⟩ := housed.under _ ground inner
  cases up.symm.trans up'
  refine ⟨s, mem, Tenant.mem_estate_of_ground above, ?_⟩
  rintro part inside rfl
  exact Tenant.mem_row_of_shown housed memP isAnchor
    (Tenant.kid_of_up house.wellFormed (house.estate_nodup (used_mem s mem)) (clad s mem) inside ground inner up) shown

/-- A node of a tenant that is no head is in a row. -/
theorem inRow_of_inner (mem : s ∈ used) (here : x ∈ s.estate) (inner : ¬ s.Head x) (up : d.parent? x = some m) :
    InRow used x m := by
  have wf := house.wellFormed
  have memS := used_mem s mem
  have housed := house.housed s memS
  have nodup := house.estate_nodup memS
  have other : x ≠ s.fragment := by
    rintro rfl
    rw [wf.linked.placeable _ housed.isFragment] at up
    cases up
  obtain ⟨m', inM, -, up'⟩ := housed.up wf nodup here other inner
  cases up.symm.trans up'
  rcases Tenant.mem_estate.mp here with same | ground | ⟨p, memP, made⟩
  · exact absurd same other
  · refine ⟨s, mem, inM, ?_⟩
    rintro part inside rfl
    exact Tenant.mem_row_of_kid (Tenant.kid_of_up wf nodup (clad s mem) inside ground (fun top => inner (.inl top)) up)
  · have kept := housed.plots p memP
    by_cases root : x ∈ p.roots
    · cases isAnchor : p.slot.anchored? with
      | none =>
          rw [Plot.roots, Plot.grown, kept.plain isAnchor] at root
          cases root
      | some a =>
          have below : a.comment ∉ s.tops := fun top => inner (.inr ⟨p, memP, a, isAnchor, top, root⟩)
          exact house.inRow_of_shown clad used_mem mem memP isAnchor below ((kept.made a isAnchor).2 root)
            ((kept.inner a isAnchor below x root).symm.trans up)
    · -- its parent was made with it, and is no element of the copy
      refine ⟨s, mem, inM, ?_⟩
      rintro part inside rfl
      obtain ⟨m', inP, up'⟩ := parent_of_stand wf kept.stand made root
      cases up.symm.trans up'
      exact absurd (Tenant.node_ground inside) (Tenant.not_ground_of_plot nodup memP inP)

/-- A node of a used tenant that stands somewhere is to be placed, or is in a row. -/
theorem stands {pending : List (List NodeId)} (quartered : Quartered d idle used pending claims) (mem : s ∈ used)
    (here : x ∈ s.estate) (up : d.parent? x = some m) : Awaits pending x ∨ InRow used x m := by
  by_cases head : s.Head x
  · refine (quartered.heads s mem x head).imp_right ?_
    rintro ⟨-, s', memS', p, memP, a, isAnchor, inner, shown, beside⟩
    exact house.inRow_of_shown clad used_mem memS' memP isAnchor inner shown (beside.symm.trans up)
  · exact .inr (house.inRow_of_inner clad used_mem mem here head up)

end Household

/-! ## Nodes that live on -/

/-- A part of a list that has all of it is the list, where nothing is listed twice. -/
theorem eq_of_sublist_of_subset {α : Type} {part whole : List α} (sub : part.Sublist whole) (nodup : whole.Nodup)
    (back : whole ⊆ part) : part = whole :=
  sub.eq_of_length_le (List.subperm_of_subset nodup back).length_le

/-- What lives on keeps its place and its order. -/
theorem Pruned.children_eq (pruned : Pruned d d') (wf : WellFormed d) (sublist : ∀ m, (d'.children m).Sublist (d.children m))
    (live : d'.contains m = true) : d'.children m = (d.children m).filter d'.contains := by
  have wf' := pruned.wellFormed
  have all : (d'.children m).filter d'.contains = d'.children m :=
    List.filter_eq_self.mpr fun x child => wf'.contains_child child
  refine eq_of_sublist_of_subset (all ▸ (sublist m).filter d'.contains) ((wf.linked.nodup m).filter _) fun x here => ?_
  obtain ⟨child, alive⟩ := List.mem_filter.mp here
  exact wf'.parent_iff.mp ((pruned.up x m).mpr ⟨wf.parent_iff.mpr child, alive, live⟩)

/-! ## After a call -/

/-- What stood at the host after the last call stands there again, or is gone. -/
def Loyal (d : Document) (placed nodes : List NodeId) : Prop := ∀ x ∈ placed, d.contains x = true → x ∈ nodes

instance (d : Document) (placed nodes : List NodeId) : Decidable (Loyal d placed nodes) :=
  inferInstanceAs (Decidable (∀ x ∈ placed, _))

theorem Loyal.leaving_eq {placed : List NodeId} (loyal : Loyal d placed nodes) (claims : Claims) :
    leaving d claims nodes placed = nodes := by
  have none_ : dropped d claims nodes placed = [] := by
    refine List.filter_eq_nil_iff.mpr fun x mem goes => ?_
    simp only [decide_eq_true_eq] at goes
    exact goes.1 (loyal x mem goes.2.2)
  rw [leaving, none_, List.nil_append]

namespace Answered

variable (parts : Answered True template library base host site selection fields pass stock nodes total d d' claims')
  (takes : ∃ c, base.content? host = some c ∧ c.isContainer = true) (loyal : Loyal d' site.renderer.placed nodes)
include parts

include takes in
theorem becomes : Becomes d d' d.content? fun p =>
    if p = host then nodes.dedup ++ without (leaving d [] nodes site.renderer.placed) d.children p
    else without (leaving d [] nodes site.renderer.placed) d.children p := by
  obtain ⟨_, _, moved, becomes⟩ := parts.roll.placeable (contains_of_takes takes) takes []
  cases parts.moved.symm.trans moved
  exact becomes

include takes in
theorem house : Household base d' (usedOf pass.count stock) := (parts.roll.place (contains_of_takes takes) parts.moved).1

/-- Before the idle tenants went. -/
theorem house_before : Household base pass.stage.document (idleOf pass.count stock ++ usedOf pass.count stock) :=
  parts.firm.ledger.roll.household

theorem pruned : Pruned pass.stage.document d := by
  obtain ⟨-, discards⟩ := of_collect parts.collected
  exact (retired_of_forM parts.house_before.wellFormed discards).pruned

/-- The nodes of the root are heads of used tenants. -/
theorem owned (mem : x ∈ nodes) : ∃ s ∈ usedOf pass.count stock, s.Head x ∧ x ∈ s.estate := by
  obtain ⟨s, used, head⟩ := parts.roll.pending nodes (List.mem_singleton_self _) x mem
  exact ⟨s, used, head, (parts.roll.household.housed s used).head_mem head⟩

include takes in
theorem contains (x : NodeId) : d'.contains x = d.contains x :=
  contains_congr (parts.becomes takes).content x

include takes in
/-- Everything has its content still. -/
theorem steadfast : Steadfast pass.stage.document d' (usedOf pass.count stock) := fun s mem x ground => by
  rw [(parts.becomes takes).content]
  exact parts.culled.content x (parts.roll.household.live mem (Tenant.mem_estate_of_ground ground))

include takes loyal in
/-- What stood somewhere before the idle tenants went does so still, but the nodes of the root stand at the host. -/
theorem children_eq (live : d'.contains m = true) : d'.children m =
    (if m = host then nodes else []) ++
      (pass.stage.document.children m).filter fun x => d'.contains x && decide (x ∉ nodes) := by
  have once : nodes.Nodup := by simpa using (parts.firm.arrayed trivial).once
  have loyal_ : Loyal d site.renderer.placed nodes := fun x mem alive => loyal x mem ((parts.contains takes x).trans alive)
  have kept := parts.pruned.children_eq parts.house_before.wellFormed parts.culled.sublist
    ((parts.contains takes m).symm.trans live)
  have same : d'.contains = d.contains := funext (parts.contains takes)
  rw [(parts.becomes takes).children]
  dsimp only
  rw [loyal_.leaving_eq, once.dedup, without, kept, List.filter_filter, same]
  simp only [Bool.and_comm]
  split
  · rfl
  · rw [List.nil_append]

include takes in
/-- A node that is no node of the root and lives on was there before, or is in a row. -/
theorem stands (up : pass.stage.document.parent? x = some m) (live : d'.contains x = true) (other : x ∉ nodes) :
    base.contains x = true ∧ base.contains m = true ∨ InRow (usedOf pass.count stock) x m := by
  have before := parts.house_before
  rcases ((parts.house takes).alive x).mp live with inBase | ⟨s, mem, here⟩
  · exact .inl ⟨inBase, before.base_up inBase up⟩
  · refine .inr ((before.stands (fun s mem => parts.firm.clad s (List.mem_append_right _ mem)) parts.firm.ledger.roll.used_mem
      parts.firm.quartered mem here up).resolve_left ?_)
    rintro ⟨_, pending, awaits⟩
    exact other (List.mem_singleton.mp pending ▸ awaits)

include takes loyal in
/-- In what was there before stands what stood there, but for the nodes of the root. -/
theorem base_children (inBase : base.contains m = true) :
    d'.children m = (if m = host then nodes else []) ++ base.children m := by
  have before := parts.house_before
  have house := parts.house takes
  rw [parts.children_eq takes loyal (house.base_live inBase), ← before.order m]
  congr 1
  refine List.filter_congr fun x child => ?_
  rw [Bool.eq_iff_iff, Bool.and_eq_true, decide_eq_true_eq]
  constructor
  · rintro ⟨live, other⟩
    rcases parts.stands takes (before.wellFormed.parent_iff.mpr child) live other with both | ⟨s, mem, inside, -⟩
    · exact both.1
    · exact absurd inBase (house.not_base mem inside)
  · refine fun old => ⟨house.base_live old, fun mem => ?_⟩
    obtain ⟨s, used, -, inside⟩ := parts.owned mem
    exact house.not_base used inside old

include takes loyal in
/-- The elements of used tenants have their rows. -/
theorem row_eq (mem : s ∈ usedOf pass.count stock) (inside : part ∈ s.parts) :
    d'.children part.node = part.row (s.plots.map (·.slot)) := by
  have before := parts.house_before
  have house := parts.house takes
  have arrayed := parts.firm.arrayed trivial
  have ground := Tenant.mem_estate_of_ground (Tenant.node_ground inside)
  have away : part.node ≠ host := by
    rintro rfl
    exact house.not_base mem ground (contains_of_takes takes)
  rw [parts.children_eq takes loyal (house.live mem ground), if_neg away, List.nil_append]
  refine (eq_of_sublist_of_subset ?_ ((before.wellFormed.linked.nodup _).filter _) fun x here => ?_).symm
  · -- nothing of the row is gone, or a node of the root
    have stays : ∀ x ∈ part.row (s.plots.map (·.slot)), d'.contains x = true ∧ x ∉ nodes := fun x inRow => by
      rcases Tenant.mem_row (house.estate_nodup mem) inside inRow with kid | harboured
      · have own := Tenant.kid_ground inside kid
        refine ⟨house.live mem (Tenant.mem_estate_of_ground own), fun isNode => ?_⟩
        obtain ⟨s', mem', head, here⟩ := parts.owned isNode
        cases house.unique mem mem' (Tenant.mem_estate_of_ground own) here
        exact Tenant.not_head_of_ground (house.estate_nodup mem) own
          (Tenant.kid_not_top (house.estate_nodup mem) inside kid) head
      · refine ⟨?_, by simpa using (arrayed.held s mem x harboured).2⟩
        obtain ⟨p, memP, a, isAnchor, -, shown⟩ := harboured
        rcases parts.roll.settled s mem p memP a isAnchor x shown with own | ⟨⟨s', mem', head⟩, -⟩
        · exact house.live mem (Tenant.mem_estate_of_plot memP (p.roots_subset own))
        · exact house.live mem' ((house.housed s' mem').head_mem head)
    have all : (part.row (s.plots.map (·.slot))).filter (fun x => d'.contains x && decide (x ∉ nodes)) =
        part.row (s.plots.map (·.slot)) := List.filter_eq_self.mpr fun x inRow => by simpa using stays x inRow
    exact all ▸ (arrayed.rows s mem part inside).filter _
  · obtain ⟨child, stays⟩ := List.mem_filter.mp here
    rw [Bool.and_eq_true, decide_eq_true_eq] at stays
    rcases parts.stands takes (before.wellFormed.parent_iff.mpr child) stays.1 stays.2 with both | ⟨s', mem', inside', row⟩
    · exact absurd both.2 (house.not_base mem ground)
    · cases house.unique mem mem' ground inside'
      exact row part inside rfl

/-- Every used tenant is an instance of what some name selects. -/
theorem enrolled (mem : s ∈ usedOf pass.count stock) :
    ∃ selection prototype, template.prototype? selection = some prototype ∧ s.Fits (library selection) := by
  obtain ⟨entry, shelved, inside⟩ := List.mem_flatMap.mp mem
  obtain ⟨selection, prototype, known, -, fits⟩ :=
    parts.firm.ledger.enrolled entry shelved s (List.mem_of_mem_take inside)
  exact ⟨selection, prototype, known, fits⟩

include takes loyal in
/-- What their plots say can be read off the used tenants. -/
theorem readable (compiled : Compiled template library) (mem : s ∈ usedOf pass.count stock) : s.Readable d' where
  housed := (parts.house takes).housed s mem
  nodup := (parts.house takes).estate_nodup mem
  clad := (parts.firm.close parts.roll parts.culled (contains_of_takes takes) parts.moved).clad s (tenantsOf_keptOf ▸ mem)
  form := by
    obtain ⟨_, _, -, fits⟩ := parts.enrolled mem
    exact fits.slots
  legible := by
    obtain ⟨selection, prototype, known, fits⟩ := parts.enrolled mem
    exact fits.source ▸ legible_of_bindings (compiled.of_selection known).bound
  tidy := by
    obtain ⟨selection, _, -, fits⟩ := parts.enrolled mem
    exact fits.source ▸ compiled.tidy selection
  rows := fun _ inside => parts.row_eq takes loyal mem inside

include takes loyal in
/-- The nodes of the root depict what the data say. -/
theorem depicts (compiled : Compiled template library) : Depicts d' nodes (expansion library selection fields) := by
  have before := parts.house_before
  have voiced := parts.voiced.mono (fun _ => id) (parts.steadfast takes) fun s mem p memP =>
    ((before.housed s (parts.firm.ledger.roll.used_mem s mem)).plots p memP).node
  exact voiced.depicts fun s mem => parts.readable takes loyal compiled mem

include takes loyal in
/-- What stood at the host before does so still. -/
theorem stand_base {ps : List Planted} (kids : base.children host = ps.map root) (stand : StandAll base ps) :
    StandAll d' ps := by
  have house := parts.house takes
  refine stand.congr fun x mem => ?_
  have inBase := stand.contains x mem
  have away : x ≠ host := by
    rintro rfl
    obtain ⟨p, there, inside⟩ := mem_idsAll.mp mem
    have child : p.root ∈ base.children x := kids ▸ List.mem_map_of_mem there
    exact house.base_wf.acyclic.not_below (house.base_wf.parent_iff.mpr child)
      (((standAll_iff.mp stand p there).mem_ids house.base_wf x).mp inside)
  refine ⟨house.content x inBase, ?_⟩
  rw [parts.base_children takes loyal inBase, if_neg away, List.nil_append]

include takes loyal in
/-- The host shows what the data say, and then what it showed before there was a renderer. -/
theorem forest_alike (compiled : Compiled template library) :
    AlikeAll (d'.forest host) (expansion library selection fields ++ base.forest host) := by
  have house := parts.house takes
  obtain ⟨ps, kids, stand⟩ := exists_children house.base_wf host
  obtain ⟨qs, stand', roots, alike⟩ := parts.depicts takes loyal compiled
  have all : d'.children host = (qs ++ ps).map root := by
    rw [parts.base_children takes loyal (contains_of_takes takes), if_pos rfl, kids, ← roots, List.map_append]
  rw [forest_eq house.wellFormed (standAll_append.mpr ⟨stand', parts.stand_base takes loyal kids stand⟩) all,
    forest_eq house.base_wf stand kids, trees_append]
  exact alike.append (.refl _)

end Answered

end Inlay.Render
