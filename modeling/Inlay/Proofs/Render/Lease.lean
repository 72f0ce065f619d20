/-
# Proofs.Render.Lease — how a tenant comes in and settles

A new instance is a tenant of its own (`Household.sow`). With it, or with an idle
one, work begins at the first plot (`AtWork.start`), as long as its anchors reach
every template of the context; when no plot is left it counts among the used ones
(`AtWork.finish`), and the size of its estate is what content and context say
(`length_estate`).
-/
import Inlay.Proofs.Render.Debut
import Inlay.Proofs.Render.Service

namespace Inlay.Render

set_option autoImplicit false

open Inlay.Document Inlay.Document.Planted Inlay.Markup
open Inlay.Template hiding root

variable {base d d' e : Document} {claims claims' : Claims} {t s : Tenant} {idle used ts ts' : List Tenant}
  {done rest : List Plot} {x fragment : NodeId} {old : NodeId → Prop} {context : Value}
  {given pending under : List (List NodeId)} {placed : List NodeId} {rs : List Planted} {content : List Tree}

/-! ## The order of tenants -/

theorem Household.perm (household : Household base d ts) (perm : ts.Perm ts') : Household base d ts' where
  base_wf := household.base_wf
  wellFormed := household.wellFormed
  body := household.body
  nodup := (perm.flatMap_right _).nodup_iff.mp household.nodup
  alive := fun x => by simp only [household.alive, perm.mem_iff]
  apart := fun t mem => household.apart t (perm.mem_iff.mpr mem)
  content := household.content
  order := household.order
  housed := fun t mem => household.housed t (perm.mem_iff.mpr mem)

theorem Heads.mono (heads : Heads ts x) (more : ∀ t ∈ ts, t ∈ ts') : Heads ts' x :=
  heads.imp fun t both => ⟨more t both.1, both.2⟩

/-! ## A new tenant -/

/-- The tenant that an instance is when it is made. -/
def Tenant.sown (fragment : NodeId) (rs : List Planted) : Tenant :=
  ⟨fragment, rs, (slotsAll .blank none rs).map (⟨·, []⟩)⟩

namespace Tenant

theorem inst_sown : (sown fragment rs).inst = ⟨fragment, rs.map root, slotsAll .blank none rs⟩ := by
  rw [inst, sown, List.map_map]
  congr
  exact List.map_id _

theorem ids_sown {p : Plot} (mem : p ∈ (sown fragment rs).plots) : p.entries = [] := by
  obtain ⟨slot, -, rfl⟩ := List.mem_map.mp mem
  rfl

theorem estate_sown : (sown fragment rs).estate = fragment :: idsAll rs := by
  have none_ : (sown fragment rs).plots.flatMap Plot.ids = [] := List.flatMap_eq_nil_iff.mpr fun p mem => by
    rw [Plot.ids, Plot.grown, ids_sown mem]
    rfl
  rw [estate, none_, List.append_nil]
  rfl

end Tenant

mutual

theorem slot_node_mem : ∀ (r : Planted) (parent : Option (String × NodeId)),
    ∀ slot ∈ slots .blank parent r, slot.node ∈ r.ids ∨ ∃ tag, parent = some (tag, slot.node)
  | .text id source, parent, slot, mem => by
      rw [slots, textSlots] at mem
      split at mem
      · split at mem
        · split at mem
          · cases List.mem_singleton.mp mem
            exact .inr ⟨_, rfl⟩
          · cases List.mem_singleton.mp mem
            exact .inl (List.mem_singleton_self _)
        · cases List.mem_singleton.mp mem
          exact .inl (List.mem_singleton_self _)
      · cases mem
  | .comment id body, parent, slot, mem => by
      rw [slots, commentSlots] at mem
      split at mem
      · cases List.mem_singleton.mp mem
        exact .inl (List.mem_singleton_self _)
      · cases mem
  | .element id tag attributes children, parent, slot, mem => by
      rw [slots] at mem
      left
      rcases List.mem_append.mp mem with own | below
      · obtain ⟨a, -, here⟩ := List.mem_flatMap.mp own
        rw [attributeSlots] at here
        split at here
        · cases List.mem_singleton.mp here
          exact List.mem_cons_self
        · cases here
      · rcases slot_node_mem_all children (some (tag, id)) slot below with inside | ⟨tag', same⟩
        · exact List.mem_cons_of_mem _ inside
        · cases same
          exact List.mem_cons_self

theorem slot_node_mem_all : ∀ (rs : List Planted) (parent : Option (String × NodeId)),
    ∀ slot ∈ slotsAll .blank parent rs, slot.node ∈ idsAll rs ∨ ∃ tag, parent = some (tag, slot.node)
  | [], _, _, mem => by cases mem
  | r :: rest, parent, slot, mem => by
      rw [slotsAll] at mem
      rcases List.mem_append.mp mem with here | later
      · exact (slot_node_mem r parent slot here).imp_left (List.mem_append_left _)
      · exact (slot_node_mem_all rest parent slot later).imp_left (List.mem_append_right _)

end

theorem anchored?_eq (slot : Slot) : slot.anchored? = slot.anchor?.map (·.2) := by
  cases slot <;> rfl

theorem path?_eq (slot : Slot) : slot.path? = slot.anchor?.map (·.1) := by
  cases slot <;> rfl

theorem anchored_sown : (Tenant.sown fragment rs).plots.filterMap (·.slot.anchored?) =
    (anchorsOf (slotsAll .blank none rs)).map (·.2) := by
  rw [Tenant.sown, List.filterMap_map, anchorsOf, List.map_filterMap]
  exact List.filterMap_congr fun slot _ => anchored?_eq slot

theorem paths_slotsAll (rs : List Planted) :
    (slotsAll .blank none rs).filterMap Slot.path? = anchors (trees rs) := by
  rw [← (anchorsOf_slotsAll none rs).1, anchorsOf, List.map_filterMap]
  exact List.filterMap_congr fun slot _ => path?_eq slot

/-- The slots of an instance are unwritten when it is made. -/
theorem unwritten_slotsAll (rs : List Planted) :
    (slotsAll .blank none rs).map Slot.unwritten = slotsAll .blank none rs := by
  refine (List.map_congr_left fun slot mem => ?_).trans (List.map_id _)
  cases slot with
  | anchor path a =>
      have new : a = .new a.comment := (anchorsOf_slotsAll none rs).2.2 (path, a) (mem_anchorsOf.mpr mem)
      exact congrArg _ new.symm
  | _ => rfl

/-- A new instance is housed. -/
theorem Tenant.housed_sown (potted : Potted d d' fragment (clearedPlants rs)) :
    (Tenant.sown fragment rs).Housed d' := by
  have stand := potted.stand
  have kept : ∀ slot ∈ slotsAll .blank none rs, Plot.Kept d' (sown fragment rs) ⟨slot, []⟩ := fun slot mem => by
    refine ⟨((slot_node_mem_all rs none slot mem).resolve_right (by simp)), fun _ => rfl, fun a isAnchor => ?_,
      by simp, trivial, fun _ _ _ r here => by cases here⟩
    obtain ⟨path, rfl⟩ := Slot.exists_path isAnchor
    have new : a = .new a.comment := (anchorsOf_slotsAll none rs).2.2 (path, a) (mem_anchorsOf.mpr mem)
    rw [new]
    exact ⟨rfl, fun x here => by cases here⟩
  refine ⟨potted.isFragment, (map_root_sublist rs).subset, fun x mem inner => ?_, fun x mem => ?_, ?_, fun p mem => ?_⟩
  · obtain ⟨m, inside, up⟩ := parent_of_stand potted.wellFormed stand (x := x)
      (by rw [idsAll_clearedPlants]; exact mem) (by rw [map_root_clearedPlants]; exact inner)
    exact ⟨m, by rwa [idsAll_clearedPlants] at inside, up⟩
  · exact solid_of_stand stand (by rw [map_root_clearedPlants]; exact mem)
  · have nodup := (List.nodup_cons.mp potted.nodup).2
    rw [idsAll_clearedPlants] at nodup
    rw [anchored_sown, List.map_map]
    exact (anchorsOf_slotsAll none rs).2.1.nodup nodup
  · obtain ⟨slot, there, rfl⟩ := List.mem_map.mp mem
    exact kept slot there

/-- A household takes in a new instance. -/
theorem Household.sow (household : Household base d ts) (potted : Potted d d' fragment (clearedPlants rs)) :
    Household base d' (.sown fragment rs :: ts) := by
  have wf := household.wellFormed
  have change : Change (fun _ => False) none d d' := .of_potted wf potted
  have dead : ∀ x ∈ (Tenant.sown fragment rs).estate, d.contains x = false := by
    rw [Tenant.estate_sown, ← idsAll_clearedPlants rs]
    exact potted.fresh
  have alive : ∀ x, d'.contains x = true ↔ x ∈ (Tenant.sown fragment rs).estate ∨ d.contains x = true := by
    intro x
    rw [Tenant.estate_sown, ← idsAll_clearedPlants rs]
    by_cases new : x ∈ fragment :: idsAll (clearedPlants rs)
    · refine iff_of_true ?_ (.inl new)
      rcases List.mem_cons.mp new with rfl | inside
      · exact contains_iff_content?.mpr ⟨_, potted.isFragment⟩
      · exact potted.stand.contains x inside
    · rw [contains_iff_content?, potted.content x new, ← contains_iff_content?]
      exact (or_iff_right new).symm
  have lives : ∀ s ∈ ts, ∀ x ∈ s.estate, d'.contains x = true := fun s mem x here =>
    (alive x).mpr (.inr (household.live mem here))
  refine household.change change (fun _ _ => id) ?_ (fun x => ?_) ?_ ?_
  · rw [List.flatMap_cons]
    refine List.nodup_append.mpr ⟨?_, household.nodup, ?_⟩
    · rw [Tenant.estate_sown, ← idsAll_clearedPlants rs]
      exact potted.nodup
    · rintro x new _ there rfl
      obtain ⟨s, mem, here⟩ := List.mem_flatMap.mp there
      have live := household.live mem here
      rw [dead x new] at live
      cases live
  · rw [alive, household.alive]
    simp only [List.mem_cons, exists_eq_or_imp]
    tauto
  · refine List.forall_mem_cons.mpr ⟨fun x new => ?_, household.apart⟩
    cases there : base.contains x with
    | false => rfl
    | true =>
        have live := household.base_live there
        rw [dead x new] at live
        cases live
  · refine List.forall_mem_cons.mpr ⟨Tenant.housed_sown potted, fun s mem => ?_⟩
    exact (household.housed s mem).change wf (household.estate_nodup mem) change
      (fun x here => household.live mem here) (lives s mem) (fun _ _ => False.elim) (by simp)

/-! ## A tenant begins -/

namespace Roll

theorem perm (roll : Roll old base d idle used ts pending placed) {idle' used' : List Tenant}
    (perm : ts.Perm ts') (idles : ∀ s, s ∈ idle' → s ∈ idle) (useds : ∀ s, s ∈ used ↔ s ∈ used') :
    Roll old base d idle' used' ts' pending placed := by
  have heads : ∀ {x}, Heads used x → Heads used' x := fun heads => heads.mono fun s => (useds s).mp
  have all : ∀ {x}, Heads ts x → Heads ts' x := fun heads => heads.mono fun s => perm.mem_iff.mp
  exact {
    household := roll.household.perm perm
    idle_mem := fun s mem => perm.mem_iff.mp (roll.idle_mem s (idles s mem))
    used_mem := fun s mem => perm.mem_iff.mp (roll.used_mem s ((useds s).mpr mem))
    empty := fun s mem => roll.empty s (idles s mem)
    waits := fun s mem p memP a isA x here =>
      (roll.waits s (idles s mem) p memP a isA x here).imp_right fun where_ live =>
        (where_ live).imp_right fun both => ⟨all both.1, both.2⟩
    settled := fun s mem p memP a isA x here =>
      (roll.settled s ((useds s).mpr mem) p memP a isA x here).imp_right fun both => ⟨heads both.1, both.2⟩
    inside := fun s mem => roll.inside s ((useds s).mpr mem)
    placed_or := fun s mem => roll.placed_or s ((useds s).mpr mem)
    pending := fun nodes mem x here => heads (roll.pending nodes mem x here)
    placed := fun x mem => (roll.placed x mem).imp_right fun where_ live => all (where_ live) }

/-- The roll with a new tenant, who is not idle. -/
theorem sow (roll : Roll old base d idle used ts pending placed)
    (potted : Potted d d' fragment (clearedPlants rs))
    (back : ∀ x, old x → d'.contains x = true → d.contains x = true) :
    Roll old base d' idle used (.sown fragment rs :: ts) pending placed := by
  have heads : ∀ {x}, Heads ts x → Heads (.sown fragment rs :: ts) x := fun heads =>
    heads.mono fun s mem => List.mem_cons_of_mem _ mem
  have still : ∀ s ∈ ts, d'.children s.fragment = d.children s.fragment := fun s mem => by
    refine potted.children _ fun new => ?_
    have live := roll.household.live mem s.fragment_mem
    rw [potted.fresh _ new] at live
    cases live
  exact {
    household := roll.household.sow potted
    idle_mem := fun s mem => List.mem_cons_of_mem _ (roll.idle_mem s mem)
    used_mem := fun s mem => List.mem_cons_of_mem _ (roll.used_mem s mem)
    empty := fun s mem => (still s (roll.idle_mem s mem)).trans (roll.empty s mem)
    waits := fun s mem p memP a isA x here => by
      obtain ⟨before_, where_⟩ := roll.waits s mem p memP a isA x here
      exact ⟨before_, fun live => (where_ (back x before_ live)).imp_right fun both => ⟨heads both.1, both.2⟩⟩
    settled := roll.settled
    inside := fun s mem => by
      rw [still s (roll.used_mem s mem)]
      exact roll.inside s mem
    placed_or := fun s mem => by
      rw [still s (roll.used_mem s mem)]
      exact roll.placed_or s mem
    pending := roll.pending
    placed := fun x mem => (roll.placed x mem).imp_right fun where_ live =>
      heads (where_ (back x (roll.placed x mem).1 live)) }

end Roll

namespace AtWork

/-- A tenant begins with its first plot. -/
theorem start (roll : Roll old base d idle used (t :: (idle ++ used)) (under ++ leaves context) placed)
    (waits : Waits old d (t :: (idle ++ used)) t t.plots) (inside : d.children t.fragment ⊆ t.tops)
    (claimed : ∀ x ∈ claims, ∃ s ∈ used, x ∈ s.estate)
    (reaches : leaves context ⊆ t.plots.flatMap (Plot.wanted context)) :
    AtWork old base d idle used t [] t.plots context under placed claims where
  roll := { roll with
    placed_or := fun s mem => (roll.placed_or s mem).imp_right fun waiting => by
      rcases List.mem_append.mp waiting with low | top
      · exact List.mem_append_right _ low
      · exact List.mem_append_left _ (reaches top)
    pending := fun nodes mem => by
      refine roll.pending nodes ?_
      rcases List.mem_append.mp mem with wanted | low
      · obtain ⟨p, -, here⟩ := List.mem_flatMap.mp wanted
        refine List.mem_append_right _ ?_
        unfold Plot.wanted at here
        split at here
        · exact listed_valueAt context _ here
        · cases here
      · exact List.mem_append_left _ low }
  split := rfl
  waits := waits
  settled := fun p mem => by cases mem
  inside := fun x child => .inl (inside child)
  claimed := fun x claim => .inl (claimed x claim)
  sized := fun p mem => by cases mem

/-- A tenant with no plot left is a used one, and its nodes are to be placed. -/
theorem finish (work : AtWork old base d idle used t done [] context under placed claims) :
    Roll old base d idle (used ++ [t]) (t :: (idle ++ used)) (under ++ [t.inst.nodes]) placed ∧
      ∀ x ∈ claims, ∃ s ∈ used ++ [t], x ∈ s.estate := by
  have roll := work.roll
  have split : t.plots = done := by rw [work.split, List.append_nil]
  have housed := roll.household.housed t List.mem_cons_self
  have grows : ∀ {x}, Heads used x → Heads (used ++ [t]) x := fun heads =>
    heads.mono fun s mem => List.mem_append_left _ mem
  have itself : t ∈ used ++ [t] := List.mem_append_right _ (List.mem_singleton_self t)
  have own : ∀ s ∈ used ++ [t], s ∈ used ∨ s = t := fun s mem =>
    (List.mem_append.mp mem).imp_right List.mem_singleton.mp
  have settled : AtRest used t t.plots := split ▸ work.settled
  refine ⟨⟨roll.household, roll.idle_mem, fun s mem => ?_, roll.empty, roll.waits, fun s mem p memP a isA x here => ?_,
    fun s mem x child => ?_, fun s mem => ?_, fun nodes mem x here => ?_, roll.placed⟩, fun x claim => ?_⟩
  · rcases own s mem with before | rfl
    · exact roll.used_mem s before
    · exact List.mem_cons_self
  · rcases own s mem with before | rfl
    · exact (roll.settled s before p memP a isA x here).imp_right fun both => ⟨grows both.1, both.2⟩
    · exact (settled p memP a isA x here).imp_right fun both => ⟨grows both.1, both.2⟩
  · rcases own s mem with before | rfl
    · exact roll.inside s before child
    · rw [housed.mem_nodes, split]
      exact work.inside x child
  · rcases own s mem with before | rfl
    · exact (roll.placed_or s before).imp_right fun waiting => List.mem_append_left _ waiting
    · exact .inr (List.mem_append_right _ (List.mem_singleton_self _))
  · rcases List.mem_append.mp mem with low | top
    · exact grows (roll.pending nodes low x here)
    · rw [List.mem_singleton.mp top, housed.mem_nodes] at here
      rcases here with top | ⟨p, memP, a, isA, outer, behind⟩
      · exact ⟨t, itself, .inl top⟩
      · rcases settled p memP a isA x behind with made | head
        · exact ⟨t, itself, .inr ⟨p, memP, a, isA, outer, made⟩⟩
        · exact grows head.1
  · rcases work.claimed x claim with ⟨s, mem, here⟩ | ⟨p, mem, here⟩
    · exact ⟨s, List.mem_append_left _ mem, here⟩
    · exact ⟨t, itself, Tenant.mem_estate_of_plot (split ▸ mem) here⟩

end AtWork

/-! ## Sizes -/

/-- The number of nodes an instance of a content takes for a context. -/
def weight (content : List Tree) (context : Value) : Nat :=
  1 + nodeCountAll content + ((anchors content).map fun path => madeCount (valueAt context path)).sum

/-- The tenant is an instance of the content. -/
structure Tenant.Fits (content : List Tree) (t : Tenant) : Prop where
  source : trees t.source = content
  slots : t.plots.map (·.slot.unwritten) = slotsAll .blank none t.source

theorem Tenant.fits_sown : (Tenant.sown fragment rs).Fits (trees rs) :=
  ⟨rfl, by rw [sown, List.map_map]; exact unwritten_slotsAll rs⟩

theorem Slot.cost_eq (slot : Slot) : slot.cost context = (slot.path?.map fun path => madeCount (valueAt context path)).getD 0 := by
  cases slot <;> rfl

namespace Tenant.Fits

theorem size (fits : t.Fits content) : t.grounds.length = nodeCountAll content := by
  rw [← fits.source]
  exact length_idsAll t.source

theorem paths (fits : t.Fits content) : t.plots.filterMap (·.slot.path?) = anchors content := by
  have same : ∀ slot : Slot, slot.path? = slot.unwritten.path? := fun slot => by cases slot <;> rfl
  rw [← fits.source, ← paths_slotsAll, ← fits.slots, List.filterMap_map]
  exact List.filterMap_congr fun p _ => same p.slot

/-- The templates that the plots want are those that the content reaches. -/
theorem wanted_eq (fits : t.Fits content) : t.plots.flatMap (Plot.wanted context) = reached content context := by
  rw [reached, ← fits.paths]
  generalize t.plots = plots
  induction plots with
  | nil => rfl
  | cons p plots ih =>
      rw [List.flatMap_cons, ih, List.filterMap_cons]
      cases slot : p.slot <;> simp [Plot.wanted, slot, Slot.path?]

theorem length_estate (fits : t.Fits content) (sized : ∀ p ∈ t.plots, p.ids.length = p.slot.cost context) :
    t.estate.length = weight content context := by
  have made : ∀ plots : List Plot, (∀ p ∈ plots, p.ids.length = p.slot.cost context) →
      (plots.flatMap Plot.ids).length =
        ((plots.filterMap (·.slot.path?)).map fun path => madeCount (valueAt context path)).sum := by
    intro plots
    induction plots with
    | nil => intro _; rfl
    | cons p plots ih =>
        intro sized
        obtain ⟨first, later⟩ := List.forall_mem_cons.mp sized
        rw [List.flatMap_cons, List.length_append, ih later, first, Slot.cost_eq, List.filterMap_cons]
        cases p.slot.path? <;> simp
  rw [estate, List.length_cons, List.length_append, fits.size, made t.plots sized, fits.paths, weight]
  omega

end Tenant.Fits

end Inlay.Render
