/-
# Proofs.Render.Closing — the end of a pass, seen from the account

When a pass collects its garbage, the idle tenants go with everything that is in
their estates, and nothing else is freed (`Roll.collect`): the heads that the used
ones still show are survivors. Placing the nodes of the root then empties the
last fragment (`Roll.place`).
-/
import Inlay.Proofs.Render.Service

namespace Inlay.Render

set_option autoImplicit false

open Inlay.Document Inlay.Document.Planted

variable {base d d' : Document} {claims claims' : Claims} {t s : Tenant} {idle used ts : List Tenant}
  {x host : NodeId} {old : NodeId → Prop} {pending : List (List NodeId)} {placed nodes : List NodeId}

namespace Roll

section Collect

variable (roll : Roll old base d idle used (idle ++ used) pending placed)
include roll

/-- The nodes of used tenants, which survive. -/
theorem survivors_heads (mem : x ∈ (used.map Tenant.inst).flatMap Instance.nodes) : Heads used x := by
  obtain ⟨inst, memI, here⟩ := List.mem_flatMap.mp mem
  obtain ⟨s, memS, rfl⟩ := List.mem_map.mp memI
  exact roll.nodes_heads memS here

theorem head_survives (mem : s ∈ used) (head : s.Head x) : x ∈ (used.map Tenant.inst).flatMap Instance.nodes :=
  List.mem_flatMap.mpr ⟨_, List.mem_map_of_mem mem,
    (roll.household.housed s (roll.used_mem s mem)).head_mem_nodes head⟩

/-- What an idle tenant owns, no used one does. -/
theorem idle_apart (mem : t ∈ idle) (here : x ∈ t.estate) (memS : s ∈ used) : x ∉ s.estate := fun there => by
  have nodup := roll.household.nodup
  rw [List.flatMap_append] at nodup
  exact (List.nodup_append.mp nodup).2.2 x (List.mem_flatMap.mpr ⟨t, mem, here⟩) x
    (List.mem_flatMap.mpr ⟨s, memS, there⟩) rfl

/-- What stays when the idle tenants go. -/
def Stays (base : Document) (used : List Tenant) (x : NodeId) : Prop :=
  base.contains x = true ∨ ∃ s ∈ used, x ∈ s.estate

theorem not_stays (mem : t ∈ idle) (here : x ∈ t.estate) : ¬ Stays base used x := by
  rintro (before | ⟨s, memS, there⟩)
  · exact roll.household.not_base (roll.idle_mem t mem) here before
  · exact roll.idle_apart mem here memS there

theorem spared : Spared ((used.map Tenant.inst).flatMap Instance.nodes) d (Stays base used) := by
  intro x stays out p up
  have wf := roll.household.wellFormed
  rcases stays with before | ⟨s, mem, here⟩
  · exact .inl (roll.household.base_up before up)
  · have memS := roll.used_mem s mem
    have housed := roll.household.housed s memS
    have other : x ≠ s.fragment := by
      rintro rfl
      rw [wf.linked.placeable _ housed.isFragment] at up
      cases up
    obtain ⟨m, inside, -, there⟩ := housed.up wf (roll.household.estate_nodup memS) here other
      fun head => out (roll.head_survives mem head)
    rw [there] at up
    cases up
    exact .inr ⟨s, mem, inside⟩

/-- A node of an idle tenant that lives belongs to an idle one, or survives. -/
theorem idle_node (mem : t ∈ idle) (here : x ∈ t.inst.nodes) (live : d.contains x = true) :
    (∃ s ∈ idle, x ∈ s.estate) ∨ x ∈ (used.map Tenant.inst).flatMap Instance.nodes := by
  have housed := roll.household.housed t (roll.idle_mem t mem)
  rcases housed.mem_nodes.mp here with top | ⟨p, memP, a, isA, -, behind⟩
  · exact .inl ⟨t, mem, Tenant.mem_estate_of_ground (housed.tops_sub top)⟩
  · rcases (roll.waits t mem p memP a isA x behind).2 live with own | ⟨⟨s, memS, head⟩, -⟩
    · exact .inl ⟨t, mem, Tenant.mem_estate_of_plot memP (p.roots_subset own)⟩
    · rcases List.mem_append.mp memS with isIdle | isUsed
      · exact .inl ⟨s, isIdle, (roll.household.housed s memS).head_mem head⟩
      · exact .inr (roll.head_survives isUsed head)

theorem disposable (mem : t ∈ idle) :
    Instance.Disposable ((used.map Tenant.inst).flatMap Instance.nodes) (Stays base used) d t.inst where
  inner := fun here => by
    have wf := roll.household.wellFormed
    rcases roll.idle_node mem here wf.body_contains with ⟨s, memS, inside⟩ | survives
    · exact roll.household.ne_body (roll.idle_mem s memS) inside rfl
    · obtain ⟨s, memS, head⟩ := roll.survivors_heads survives
      have memAll := roll.used_mem s memS
      exact roll.household.ne_body memAll ((roll.household.housed s memAll).head_mem head) rfl
  out := fun node here live out => by
    obtain ⟨s, memS, inside⟩ := (roll.idle_node mem here live).resolve_right out
    exact roll.not_stays memS inside
  isFragment := fun _ => (roll.household.housed t (roll.idle_mem t mem)).isFragment
  empty := roll.empty t mem
  apart := roll.not_stays mem Tenant.fragment_mem

/-- Collecting frees the idle tenants and nothing else. -/
theorem collect (claims : Claims) :
    ∃ d', (idle.map Tenant.inst).forM (Instance.discard ((used.map Tenant.inst).flatMap Instance.nodes)) ⟨d, claims⟩ =
        .ok () ⟨d', claims⟩ ∧ Roll old base d' [] used used pending placed ∧
      Culled ((used.map Tenant.inst).flatMap Instance.nodes) d d' := by
  have house := roll.household
  have wf := house.wellFormed
  obtain ⟨d', done, discarded⟩ := Instance.discardAll_discarded claims (idle.map Tenant.inst) wf roll.spared
    fun inst mem => by
      obtain ⟨t, memT, rfl⟩ := List.mem_map.mp mem
      exact roll.disposable memT
  have culled := discarded.culled
  have wf' := culled.wellFormed
  have gone : ∀ t ∈ idle, ∀ x ∈ t.estate, d'.contains x = false := by
    intro t mem x here
    by_contra live
    refine wf'.not_endless (x := x) (P := fun x => x ∈ t.estate ∧ d'.contains x = true) ?_ ⟨here, by simpa using live⟩
    rintro y ⟨inside, alive⟩
    have memT := roll.idle_mem t mem
    have housed := house.housed t memT
    have lost : ∀ z, z = t.fragment ∨ z ∈ t.inst.nodes ∧ z ∉ (used.map Tenant.inst).flatMap Instance.nodes →
        d'.contains z = false := fun z which => discarded.gone z ⟨t.inst, List.mem_map_of_mem mem, which⟩
    have out : y ∉ (used.map Tenant.inst).flatMap Instance.nodes := fun survives => by
      obtain ⟨s, memS, head⟩ := roll.survivors_heads survives
      exact roll.idle_apart mem inside memS ((house.housed s (roll.used_mem s memS)).head_mem head)
    have still : ∀ z, (z = t.fragment ∨ z ∈ t.inst.nodes ∧ z ∉ (used.map Tenant.inst).flatMap Instance.nodes) →
        z ≠ y := by
      rintro z which rfl
      rw [lost z which] at alive
      cases alive
    obtain ⟨m, inM, -, up⟩ := housed.up wf (house.estate_nodup memT) inside
      (fun same => still y (.inl same) rfl) fun head => still y (.inr ⟨housed.head_mem_nodes head, out⟩) rfl
    have up' : d'.parent? y = some m := by
      rw [(culled.parent y alive).resolve_right fun both => out both.1]
      exact up
    exact ⟨m, up', inM, wf'.contains_parent (wf'.parent_iff.mp up')⟩
  have alive : ∀ x, d'.contains x = true ↔ base.contains x = true ∨ ∃ s ∈ used, x ∈ s.estate := by
    intro x
    constructor
    · intro live
      rcases (house.alive x).mp (culled.contains live) with before | ⟨s, mem, here⟩
      · exact .inl before
      · rcases List.mem_append.mp mem with isIdle | isUsed
        · rw [gone s isIdle x here] at live
          cases live
        · exact .inr ⟨s, isUsed, here⟩
    · intro stays
      refine discarded.kept x stays ((house.alive x).mpr (stays.imp_right fun ⟨s, mem, here⟩ => ?_))
      exact ⟨s, List.mem_append_right _ mem, here⟩
  have change : Change (fun x => x ∈ (used.map Tenant.inst).flatMap Instance.nodes) none d d' :=
    culled.change fun _ => id
  have nodup := house.nodup
  rw [List.flatMap_append] at nodup
  have house' : Household base d' used := by
    refine house.change change (fun x before survives => ?_) (List.nodup_append.mp nodup).2.1 alive
      (fun s mem => house.apart s (roll.used_mem s mem)) fun s mem => ?_
    · obtain ⟨s, memS, head⟩ := roll.survivors_heads survives
      have memAll := roll.used_mem s memS
      exact house.not_base memAll ((house.housed s memAll).head_mem head) before
    · have memAll := roll.used_mem s mem
      refine (house.housed s memAll).change wf (house.estate_nodup memAll) change (fun x here => house.live memAll here)
        (fun x here => (alive x).mpr (.inr ⟨s, mem, here⟩)) (fun x here survives => ?_) (by simp)
      obtain ⟨s', memS', head⟩ := roll.survivors_heads survives
      have memAll' := roll.used_mem s' memS'
      cases house.unique memAll memAll' here ((house.housed s' memAll').head_mem head)
      exact head
  have shrinks := fun p => (culled.sublist p).subset
  refine ⟨d', done, ⟨house', by simp, fun _ => id, by simp, by simp, roll.settled,
    fun s mem => List.Subset.trans (shrinks _) (roll.inside s mem), fun s mem => ?_, roll.pending, fun x mem => ?_⟩, culled⟩
  · refine (roll.placed_or s mem).imp_left fun none_ => List.eq_nil_of_subset_nil ?_
    rw [← none_]
    exact shrinks _
  · refine (roll.placed x mem).imp_right fun where_ live => ?_
    obtain ⟨s, memS, head⟩ := where_ (culled.contains live)
    rcases List.mem_append.mp memS with isIdle | isUsed
    · rw [gone s isIdle x ((house.housed s memS).head_mem head)] at live
      cases live
    · exact ⟨s, isUsed, head⟩

end Collect

/-- Once the nodes of the root are placed, no fragment holds anything. -/
theorem place (roll : Roll old base d [] used used [nodes] placed) (there : base.contains host = true)
    (done : reconcile (.within host) placed nodes ⟨d, claims⟩ = .ok () ⟨d', claims'⟩) :
    Household base d' used ∧ (∀ s ∈ used, d'.children s.fragment = []) ∧ (∀ s ∈ used, AtRest used s s.plots) ∧
      (∀ x ∈ nodes, Heads used x) ∧ Shuffled (Heads used) (some host) d d' ∧ ∀ x ∈ nodes, d'.parent? x = some host := by
  have house := roll.household
  have wf := house.wellFormed
  have heads : ∀ x ∈ nodes, Heads used x := roll.pending nodes (List.mem_singleton_self _)
  obtain ⟨d₁, claims₁, same, shuffled, ups, -, -⟩ := reconcile_shuffled (Heads used) wf done
    (fun x mem live => by
      rcases List.mem_append.mp mem with before | new
      · exact (roll.placed x before).2 live
      · exact heads x new)
    (fun x mem => by
      obtain ⟨s, memS, head⟩ := heads x mem
      exact (house.housed s memS).head_solid head)
    (by rintro c ⟨⟩)
  cases same
  have change := Change.of_shuffled shuffled
  have inEstate : ∀ x, Heads used x → ∃ s ∈ used, s.Head x ∧ x ∈ s.estate := fun x ⟨s, mem, head⟩ =>
    ⟨s, mem, head, (house.housed s mem).head_mem head⟩
  have ne_host : ∀ s ∈ used, ∀ x ∈ s.estate, x ≠ host := by
    rintro s mem x here rfl
    exact house.not_base mem here there
  have house' : Household base d' used := by
    have live : ∀ x, d'.contains x = d.contains x := shuffled.contains
    refine house.change change (fun x before heads => ?_) house.nodup (fun x => by rw [live, house.alive]) house.apart
      fun s mem => ?_
    · obtain ⟨s, mem, -, here⟩ := inEstate x heads
      exact house.not_base mem here before
    · refine (house.housed s mem).change wf (house.estate_nodup mem) change (fun x here => house.live mem here)
        (fun x here => (live x).trans (house.live mem here)) (fun x here heads => ?_) fun m up p memP here => ?_
      · obtain ⟨s', mem', head, there⟩ := inEstate x heads
        cases house.unique mem mem' here there
        exact head
      · cases up
        exact ne_host s mem host (Tenant.mem_estate_of_plot memP here) rfl
  refine ⟨house', fun s mem => List.eq_nil_iff_forall_not_mem.mpr fun x child => ?_, roll.settled, heads, shuffled, ups⟩
  have away : (Position.within host).parent? d ≠ some s.fragment := fun same => by
    cases same
    exact ne_host s mem _ Tenant.fragment_mem rfl
  have before := change.children_subset wf (house.live mem Tenant.fragment_mem) away child
  rcases roll.placed_or s mem with none_ | waiting
  · rw [none_] at before
    cases before
  · have isNode := roll.inside s mem before
    rw [List.mem_singleton.mp waiting] at isNode
    exact away ((ups x isNode).symm.trans (change.wellFormed.parent_iff.mpr child))

end Roll

end Inlay.Render
