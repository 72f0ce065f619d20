/-
# Proofs.Render.Roster — the account of a renderer from call to call

Between calls every tenant of a renderer has its nodes placed, and what its
anchors show was made by them or belongs to other tenants (`Roster`). A call that
answers, on data whose templates are all reached, keeps it so (`Roster.call`); the
document then holds, besides what was there before the renderer, as many nodes as
the data say (`size_eq`).
-/
import Inlay.Proofs.Document.Forest
import Inlay.Proofs.Render.Closing
import Inlay.Proofs.Render.Ledger
import Inlay.Proofs.Render.Reprise

namespace Inlay.Render

set_option autoImplicit false

open Inlay.Document

variable {base d d' e : Document} {claims claims' : Claims} {template : Template} {library : Library}
  {site site' : Site} {stock : Fields (List Tenant)} {host x : NodeId} {root : Datum} {old : NodeId → Prop}
  {selection : Option String} {fields : Fields Datum} {pass pass' : Pass} {taken : String → Nat}

/-- The tenants of a stock. -/
def tenantsOf (stock : Fields (List Tenant)) : List Tenant := stock.flatMap (·.2)

structure Roster (template : Template) (library : Library) (base : Document) (site : Site)
    (stock : Fields (List Tenant)) : Prop where
  shows : site.renderer.template = template
  sorted : stock.Sorted
  pools : site.renderer.pools = stock.mapValues (·.map Tenant.inst)
  enrolled : ∀ entry ∈ stock, ∀ t ∈ entry.2, t.Enrolled template library entry.1
  household : Household base site.document (tenantsOf stock)
  empty : ∀ s ∈ tenantsOf stock, site.document.children s.fragment = []
  settled : ∀ s ∈ tenantsOf stock, AtRest (tenantsOf stock) s s.plots
  placed : ∀ x ∈ site.renderer.placed, Heads (tenantsOf stock) x

/-- The number of nodes that showing a root and its fields takes. -/
def rootWeight (library : Library) (selection : Option String) (fields : Fields Datum) : Nat :=
  ((showingsOfFields fields ++ [(selection, fields)]).map (sourceWeight library)).sum

/-- Ids of nodes that were alive stay dead once they are, if ids do not repeat. -/
theorem unrevived_of_unrepeated (unrepeated : Unrepeated d e) : Unrevived (d.contains · = true) d e := by
  intro m m' one two three x live dead
  have first := unrepeated.first (one.aged.trans two.aged) three.aged
  exact first.not_revived one.aged two.aged live dead

/-- A renderer that has shown nothing. -/
theorem roster_new (wf : WellFormed d) : Roster template library d ⟨.new template, d⟩ [] where
  shows := rfl
  sorted := Fields.sorted_nil
  pools := rfl
  enrolled := by simp
  household := ⟨wf, wf, rfl, List.nodup_nil, by simp [tenantsOf], by simp [tenantsOf], fun _ _ => rfl, fun p => by
    refine List.filter_eq_self.mpr fun x child => ?_
    exact wf.contains_child child, by simp [tenantsOf]⟩
  empty := by simp [tenantsOf]
  settled := by simp [tenantsOf]
  placed := by simp [Renderer.new]

/-- In front of a pass no tenant is used. -/
theorem unused (stage : Stage) (pools : Fields (List Instance)) (stock : Fields (List Tenant)) :
    idleOf (Pass.count ⟨stage, pools, []⟩) stock = tenantsOf stock ∧ usedOf (Pass.count ⟨stage, pools, []⟩) stock = [] := by
  have none_ : ∀ key, Pass.count ⟨stage, pools, []⟩ key = 0 := fun _ => rfl
  constructor
  · exact List.flatMap_congr fun entry _ => by rw [none_, List.drop_zero]
  · exact List.flatMap_eq_nil_iff.mpr fun entry _ => by rw [none_, List.take_zero]

namespace Roster

variable (roster : Roster template library base site stock)
include roster

/-- The number of live nodes, where a renderer has rendered. -/
theorem size_eq : site.document.size = base.size + ((tenantsOf stock).map (·.estate.length)).sum := by
  have house := roster.household
  rw [← List.length_flatMap]
  refine house.wellFormed.size_eq_add house.base_wf house.nodup (fun x mem => ?_) fun x => ?_
  · obtain ⟨t, memT, here⟩ := List.mem_flatMap.mp mem
    exact house.apart t memT x here
  · rw [house.alive, List.mem_flatMap]

/-- At the beginning of a call all tenants are idle. -/
theorem roll (old : NodeId → Prop) (before : ∀ t ∈ tenantsOf stock, ∀ x ∈ t.estate, old x) :
    Roll old base site.document (tenantsOf stock) [] (tenantsOf stock ++ []) [] site.renderer.placed := by
  have house := roster.household
  have heads : ∀ x, Heads (tenantsOf stock) x → old x := fun x ⟨s, mem, head⟩ =>
    before s mem x ((house.housed s mem).head_mem head)
  rw [List.append_nil]
  refine ⟨house, fun _ => id, by simp, roster.empty, fun s mem p memP a isA x here => ?_, by simp, by simp, by simp,
    by simp, fun x mem => ⟨heads x (roster.placed x mem), fun _ => roster.placed x mem⟩⟩
  have shows := roster.settled s mem p memP a isA x here
  refine ⟨?_, fun _ => shows⟩
  rcases shows with own | ⟨head, -⟩
  · exact before s mem x (Tenant.mem_estate_of_plot memP (p.roots_subset own))
  · exact heads x head

theorem ledger (before : ∀ t ∈ tenantsOf stock, ∀ x ∈ t.estate, old x) :
    Ledger template library old base ⟨⟨site.document, []⟩, site.renderer.pools, []⟩ stock [] site.renderer.placed 0 := by
  obtain ⟨idle, used⟩ := unused ⟨site.document, []⟩ site.renderer.pools stock
  refine ⟨roster.sorted, roster.pools, fun key => Nat.zero_le _, roster.enrolled, ?_, by simp, ?_⟩
  · rw [idle, used]
    exact roster.roll old before
  · rw [used]
    rfl

end Roster

/-! ## The pools after a pass -/

/-- The tenants that a pass keeps. -/
def keptOf (taken : String → Nat) (stock : Fields (List Tenant)) : Fields (List Tenant) :=
  (stock.map fun entry => (entry.1, entry.2.take (taken entry.1))).filter (!·.2.isEmpty)

theorem tenantsOf_keptOf : tenantsOf (keptOf taken stock) = usedOf taken stock := by
  rw [tenantsOf, keptOf, usedOf]
  induction stock with
  | nil => rfl
  | cons entry stock ih =>
      rw [List.map_cons, List.filter_cons, List.flatMap_cons, ← ih]
      split
      · rw [List.flatMap_cons]
      · next empty =>
          have none_ : entry.2.take (taken entry.1) = [] := by
            rw [Bool.not_eq_true, Bool.not_eq_false'] at empty
            exact List.isEmpty_iff.mp empty
          rw [none_, List.nil_append]

theorem sorted_keptOf (sorted : stock.Sorted) : (keptOf taken stock).Sorted := by
  have names : (keptOf taken stock).map Prod.fst |>.Sublist (stock.map Prod.fst) := by
    have all : (stock.map fun entry => (entry.1, entry.2.take (taken entry.1))).map Prod.fst = stock.map Prod.fst := by
      rw [List.map_map]
      rfl
    rw [← all]
    exact List.filter_sublist.map _
  exact List.Pairwise.sublist names sorted

/-- Keeping tenants keeps their instances. -/
theorem kept_mapValues (taken : String → Nat) : ∀ stock : Fields (List Tenant),
    ((stock.mapValues (·.map Tenant.inst)).map fun entry => (entry.1, entry.2.take (taken entry.1))).filter
      (!·.2.isEmpty) = (keptOf taken stock).mapValues (·.map Tenant.inst)
  | [] => rfl
  | (name, tenants) :: rest => by
      have ih := kept_mapValues taken rest
      simp only [Fields.mapValues, keptOf, List.map_cons, List.filter_cons, ← List.map_take, List.isEmpty_map] at ih ⊢
      split
      · exact congrArg (_ :: ·) ih
      · exact ih

section Pools

variable (pools : pass.pools = stock.mapValues (·.map Tenant.inst))
include pools

theorem surplus_eq : Passing.surplus pass = (idleOf pass.count stock).map Tenant.inst := by
  rw [Passing.surplus, pools, Fields.mapValues, List.flatMap_map, idleOf, List.map_flatMap]
  refine List.flatMap_congr fun entry _ => ?_
  rw [List.map_drop]
  rfl

theorem usedPools_eq_keptOf : Passing.usedPools pass = (keptOf pass.count stock).mapValues (·.map Tenant.inst) := by
  rw [Passing.usedPools, pools]
  exact kept_mapValues pass.count stock

end Pools

/-! ## A call -/

namespace Ledger

variable {nodes : List NodeId} {pile : List (List NodeId)} {placed : List NodeId} {total : Nat}

/-- When a pass collects, the idle tenants go and the pools are those of the used ones. -/
theorem collect (ledger : Ledger template library old base pass stock pile placed total) :
    ∃ d, Passing.collect pass = .ok () ⟨⟨d, pass.stage.claims⟩, Passing.usedPools pass, pass.used⟩ ∧
      Roll old base d [] (usedOf pass.count stock) (usedOf pass.count stock) pile placed ∧
      Culled (((usedOf pass.count stock).map Tenant.inst).flatMap Instance.nodes) pass.stage.document d := by
  obtain ⟨d, discarded, roll, culled⟩ := ledger.roll.collect pass.stage.claims
  have survivors : ((Passing.usedPools pass).flatMap (·.2)).flatMap Instance.nodes =
      ((usedOf pass.count stock).map Tenant.inst).flatMap Instance.nodes := by
    rw [usedPools_eq_keptOf ledger.pools, ← tenantsOf_keptOf, tenantsOf, Fields.mapValues, List.flatMap_map,
      List.map_flatMap]
  refine ⟨d, ?_, roll, culled⟩
  simp only [Passing.collect, Passing.act, survivors, surplus_eq ledger.pools, discarded]

/-- Once the nodes of the root are placed, the used tenants make a roster. -/
theorem roster (ledger : Ledger template library old base pass stock [nodes] placed total)
    (roll : Roll old base d [] (usedOf pass.count stock) (usedOf pass.count stock) [nodes] placed)
    (inBase : base.contains host = true)
    (moved : reconcile (.within host) placed nodes ⟨d, claims⟩ = .ok () ⟨d', claims'⟩) :
    Roster template library base ⟨⟨template, Passing.usedPools pass, nodes⟩, d'⟩ (keptOf pass.count stock) := by
  obtain ⟨house, empty, settled, heads, -⟩ := roll.place inBase moved
  refine ⟨rfl, sorted_keptOf ledger.sorted, usedPools_eq_keptOf ledger.pools, fun entry mem t memT => ?_,
    ?_, ?_, ?_, ?_⟩
  · obtain ⟨entry₁, mem₁, rfl⟩ := List.mem_map.mp (List.mem_filter.mp mem).1
    exact ledger.enrolled entry₁ mem₁ t (List.mem_of_mem_take memT)
  all_goals rw [tenantsOf_keptOf]
  · exact house
  · exact empty
  · exact settled
  · exact heads

end Ledger

namespace Roster

variable (roster : Roster template library base site stock)
include roster

/-- A call that answers keeps the roster; the tenants are those of its data. -/
theorem call (old : NodeId → Prop) (unnamed : template.prototype? (some rootName) = none) (compiled : Compiled template library)
    (inBase : base.contains host = true) (before : ∀ t ∈ tenantsOf stock, ∀ x ∈ t.estate, old x)
    (rendered : Renderer.renderInto host root site = .ok () site')
    (unrevived : Unrevived old site.document site'.document)
    (wholly : ∀ selection fields, rootOf root = .ok (selection, fields) →
      ∀ s ∈ showingsOfFields fields ++ [(selection, fields)], Wholly library s.1 s.2) :
    ∃ stock' selection fields, rootOf root = .ok (selection, fields) ∧
      Roster template library base site' stock' ∧
      ((tenantsOf stock').map (·.estate.length)).sum = rootWeight library selection fields := by
  obtain ⟨selection, fields, nodes, pass₂, d', claims', checks, ran, moved, rfl⟩ := of_renderInto rendered
  rw [roster.shows] at checks ran
  obtain ⟨pass₁, shown, collected⟩ := of_run ran
  have rooted := rooted_of_checked checks
  obtain ⟨turns, stretch⟩ := show_stretch shown
  have plays := stretch.plays []
  have wf := roster.household.wellFormed
  have sequel₁ := plays.sequel wf
  have sequel₂ := Passing.steady_collect pass₁ sequel₁.wellFormed
  rw [left_ok collected] at sequel₂
  have sequel₃ := steady_reconcile (.within host) site.renderer.placed nodes ⟨pass₂.stage.document, []⟩
    sequel₂.wellFormed
  rw [left_ok moved] at sequel₃
  -- the turns, then the garbage, then the nodes of the root
  obtain ⟨stock₁, ledger⟩ := (roster.ledger before).plays unnamed compiled plays
    (reaches_of_told stretch.told (wholly selection fields rooted)) (sequel₂.trans sequel₃) unrevived
  rw [List.nil_append] at ledger
  obtain ⟨d₂, collects, roll, -⟩ := ledger.collect
  cases (EStateM.Result.ok.inj (collected.symm.trans collects)).2
  refine ⟨keptOf pass₁.count stock₁, selection, fields, rooted, roster.shows ▸ ledger.roster roll inBase moved, ?_⟩
  rw [tenantsOf_keptOf, ledger.total, Nat.zero_add, sum_weight stretch.told]
  rfl

/-- Clearing frees all tenants; the document is left as it was before the renderer. -/
theorem clear : ∃ site', Renderer.clear site = .ok () site' ∧ Household base site'.document [] ∧
    site'.renderer = .new template := by
  have roll := roster.roll (fun _ => True) fun _ _ _ _ => trivial
  obtain ⟨d', discarded, roll', -⟩ := roll.collect []
  have all : site.renderer.pools.flatMap (·.2) = (tenantsOf stock).map Tenant.inst := by
    rw [roster.pools, tenantsOf, Fields.mapValues, List.flatMap_map, List.map_flatMap]
  have discarded : ((tenantsOf stock).map Tenant.inst).forM (Instance.discard []) ⟨site.document, []⟩ =
      .ok () ⟨d', []⟩ := discarded
  refine ⟨⟨.new template, d'⟩, ?_, roll'.household, rfl⟩
  have acted : Renderer.act ((site.renderer.pools.flatMap (·.2)).forM (Instance.discard []))
      ⟨{ site.renderer with pools := [] }, site.document⟩ = .ok () ⟨{ site.renderer with pools := [] }, d'⟩ := by
    simp only [Renderer.act, all, discarded]
  have last : (Renderer.act ((site.renderer.pools.flatMap (·.2)).forM (Instance.discard [])) >>= fun _ =>
      modify fun site => { site with renderer := { site.renderer with placed := [] } })
        ⟨{ site.renderer with pools := [] }, site.document⟩ = .ok () ⟨.new template, d'⟩ := by
    rw [bind_ok acted, ← roster.shows]
    rfl
  exact last

end Roster

end Inlay.Render
