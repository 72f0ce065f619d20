/-
# Proofs.Render.Holdings — the nodes of a renderer while others work around it

A roster accounts for a renderer on a document in which nobody else does
anything. Others may work on the document as long as they leave the nodes of the
renderer alone (`LeftAlone`); they may move its top-level nodes. What was there
before the renderer is then another document: the one that is left when all the
nodes of the renderer are freed from the document as it is now
(`Household.leftAlone`, `Roster.leftAlone`).

So it can be said of a renderer at any time which of the nodes that were ever made
for it are alive: those in its account (`Holds`). Rendering keeps it so, and when
the renderer is cleared none of them is. A renderer that has shown nothing puts
what it makes at the start of the host (`front_of_renderInto_new`).
-/
import Inlay.Proofs.Document.Identity
import Inlay.Proofs.Render.Reach

namespace Inlay.Render

set_option autoImplicit false

open Relation Inlay.Document Inlay.Document.Planted

variable {base start d d' : Document} {template : Template} {library : Library} {name source : String}
  {renderer : Renderer} {site : Site} {stock : Fields (List Tenant)} {ts : List Tenant} {t : Tenant}
  {host x p : NodeId} {root : Datum} {own made : NodeId → Prop}

/-! ## Nodes that are left alone -/

/-- Others worked on a document and left some of its nodes as they are, wherever
these stand now. -/
structure LeftAlone (own : NodeId → Prop) (d d' : Document) : Prop where
  wellFormed : WellFormed d'
  aged : Aged d d'
  body : d'.body = d.body
  content : ∀ x, own x → d.contains x = true → d'.content? x = d.content? x
  children : ∀ x, own x → d.contains x = true → d'.children x = d.children x

namespace LeftAlone

theorem mono {more : NodeId → Prop} (alone : LeftAlone more d d') (sub : ∀ x, d.contains x = true → own x → more x) :
    LeftAlone own d d' :=
  { alone with
    content := fun x mine live => alone.content x (sub x live mine) live
    children := fun x mine live => alone.children x (sub x live mine) live }

variable (alone : LeftAlone own d d')
include alone

theorem contains (mine : own x) (live : d.contains x = true) : d'.contains x = true := by
  obtain ⟨c, found⟩ := contains_iff_content?.mp live
  exact contains_iff_content?.mpr ⟨c, (alone.content x mine live).trans found⟩

theorem parent (wf : WellFormed d) (mine : own p) (up : d.parent? x = some p) : d'.parent? x = some p := by
  have child := wf.parent_iff.mp up
  rw [← alone.children p mine (wf.contains_parent child)] at child
  exact alone.wellFormed.parent_iff.mpr child

end LeftAlone

/-- A tenant stays housed when others leave its estate alone. -/
theorem Tenant.Housed.leftAlone (housed : t.Housed d) (alone : LeftAlone own d d') (wf : WellFormed d)
    (mine : ∀ x ∈ t.estate, own x) (live : ∀ x ∈ t.estate, d.contains x = true) : t.Housed d' := by
  have content : ∀ x ∈ t.estate, d'.content? x = d.content? x := fun x mem => alone.content x (mine x mem) (live x mem)
  have under : ∀ x ∈ t.grounds, x ∉ t.tops → ∃ p ∈ t.grounds, d.parent? x = some p ∧ d'.parent? x = some p :=
    fun x ground inner => by
      obtain ⟨p, mem, up⟩ := housed.under x ground inner
      exact ⟨p, mem, up, alone.parent wf (mine p (mem_estate_of_ground mem)) up⟩
  refine ⟨?_, housed.tops_sub, fun x ground inner => ?_, fun x top => ?_, housed.comments, fun p mem => ?_⟩
  · rw [content _ fragment_mem]
    exact housed.isFragment
  · obtain ⟨p, mem, -, up⟩ := under x ground inner
    exact ⟨p, mem, up⟩
  · rw [content x (mem_estate_of_ground (housed.tops_sub top))]
    exact housed.solid x top
  · have kept := housed.plots p mem
    refine ⟨kept.node, kept.plain, kept.made, kept.shows, kept.stand.congr fun x here => ?_,
      fun a isAnchor below r here => ?_⟩
    · have inEstate := mem_estate_of_plot mem here
      exact ⟨content x inEstate, alone.children x (mine x inEstate) (live x inEstate)⟩
    · -- what an anchor below the top has made stands in the parent of its comment, which is of the grounds
      obtain ⟨q, ground, up, up'⟩ := under a.comment (Slot.node_of_anchored? isAnchor ▸ kept.node) below
      rw [up', alone.parent wf (mine q (mem_estate_of_ground ground)) ((kept.inner a isAnchor below r here).trans up)]

/-! ## The document without the nodes of a renderer -/

/-- Nodes with all that is below them are freed, and nothing that is not below
one of them. -/
theorem exists_culled : ∀ (nodes : List NodeId) {d : Document}, WellFormed d → (∀ x ∈ nodes, own x) → ¬ own d.body →
    (∀ p, own p → ∀ x ∈ d.children p, own x) →
    ∃ d', Culled [] d d' ∧ (∀ x ∈ nodes, d'.contains x = false) ∧
      ∀ x, d.contains x = true → ¬ own x → d'.contains x = true
  | [], d, wf, _, _, _ => ⟨d, .refl wf, by simp, fun _ live _ => live⟩
  | node :: rest, d, wf, mine, body, closed => by
      obtain ⟨first, others⟩ := List.forall_mem_cons.mp mine
      cases live : d.contains node with
      | false =>
          obtain ⟨d', culled, dead, kept⟩ := exists_culled rest wf others body closed
          exact ⟨d', culled, List.forall_mem_cons.mpr ⟨culled.dead live, dead⟩, kept⟩
      | true =>
          have inside : ∀ x, Below d x node → own x := fun x below => by
            induction below using ReflTransGen.head_induction_on with
            | refl => exact first
            | head up _ ih => exact closed _ ih _ (wf.parent_iff.mp up)
          obtain ⟨d₁, -, freed, alive⟩ := discard_culled [] wf live fun same => body (same ▸ first)
          obtain ⟨d', culled, dead, kept⟩ := exists_culled rest freed.wellFormed others (freed.body ▸ body)
            fun p mineP x child => closed p mineP x ((freed.sublist p).subset child)
          have gone : d₁.contains node = false := by
            by_contra stands
            exact ((alive node).mp (by simpa using stands)).2 ReflTransGen.refl
          refine ⟨d', freed.trans culled, List.forall_mem_cons.mpr ⟨culled.dead gone, dead⟩, fun x here other => ?_⟩
          exact kept x ((alive x).mpr ⟨here, fun below => other (inside x below)⟩) other

/-- What stands below a node of an estate is in an estate. -/
theorem Household.closed (household : Household base d ts) (here : ∃ t ∈ ts, p ∈ t.estate) (child : x ∈ d.children p) :
    ∃ t ∈ ts, x ∈ t.estate := by
  obtain ⟨t, mem, inEstate⟩ := here
  have order := household.order p
  rw [household.base_wf.children_eq_nil (household.apart t mem p inEstate), List.filter_eq_nil_iff] at order
  exact ((household.alive x).mp (household.wellFormed.contains_child child)).resolve_left (order x child)

/-- A household after others have worked on the document; what was there before is
now what is left without the estates. -/
theorem Household.leftAlone (household : Household base d ts)
    (alone : LeftAlone (fun x => ∃ t ∈ ts, x ∈ t.estate) d d') :
    ∃ base', Household base' d' ts := by
  have wf := household.wellFormed
  have live : ∀ x, (∃ t ∈ ts, x ∈ t.estate) → d.contains x = true := fun x ⟨t, mem, here⟩ => household.live mem here
  have body : ¬ ∃ t ∈ ts, d'.body ∈ t.estate := by
    rintro ⟨t, mem, here⟩
    exact household.ne_body mem here alone.body
  have closed : ∀ p, (∃ t ∈ ts, p ∈ t.estate) → ∀ x ∈ d'.children p, ∃ t ∈ ts, x ∈ t.estate := fun p here x child => by
    rw [alone.children p here (live p here)] at child
    exact household.closed here child
  obtain ⟨base', culled, dead, kept⟩ := exists_culled (ts.flatMap Tenant.estate) alone.wellFormed
    (fun x mem => List.mem_flatMap.mp mem) body closed
  have gone : ∀ x, (∃ t ∈ ts, x ∈ t.estate) → base'.contains x = false := fun x here =>
    dead x (List.mem_flatMap.mpr here)
  refine ⟨base', culled.wellFormed, alone.wellFormed, culled.body.symm, household.nodup, fun x => ⟨fun here => ?_, ?_⟩,
    fun t mem x here => gone x ⟨t, mem, here⟩, fun x here => (culled.content x here).symm, fun p => ?_, fun t mem => ?_⟩
  · by_cases inEstate : ∃ t ∈ ts, x ∈ t.estate
    · exact .inr inEstate
    · exact .inl (kept x here inEstate)
  · rintro (here | inEstate)
    · exact culled.contains here
    · exact alone.contains inEstate (live x inEstate)
  · rw [← culled.order base'.contains (fun x here => ⟨List.not_mem_nil, here⟩) p]
    exact List.filter_eq_self.mpr fun x child => culled.wellFormed.contains_child child
  · exact (household.housed t mem).leftAlone alone wf (fun x here => ⟨t, mem, here⟩) fun x here =>
      household.live mem here

theorem Roster.leftAlone (roster : Roster template library base ⟨renderer, d⟩ stock)
    (alone : LeftAlone (fun x => ∃ t ∈ tenantsOf stock, x ∈ t.estate) d d') :
    ∃ base', Roster template library base' ⟨renderer, d'⟩ stock := by
  obtain ⟨base', household⟩ := roster.household.leftAlone alone
  refine ⟨base', roster.shows, roster.sorted, roster.pools, roster.enrolled, household, fun s mem => ?_, roster.settled,
    roster.placed⟩
  have here := Tenant.fragment_mem (t := s)
  exact (alone.children s.fragment ⟨s, mem, here⟩ (roster.household.live mem here)).trans (roster.empty s mem)

/-! ## What a renderer holds -/

/-- An id that was alive at some time. -/
def Seen (start d : Document) (x : NodeId) : Prop := ∃ m, Aged start m ∧ m.contains x = true ∧ Aged m d

namespace Seen

theorem of_live (aged : Aged start d) (live : d.contains x = true) : Seen start d x := ⟨d, aged, live, .refl d⟩

theorem later (seen : Seen start d x) (aged : Aged d d') : Seen start d' x := by
  obtain ⟨m, one, live, two⟩ := seen
  exact ⟨m, one, live, two.trans aged⟩

/-- It does not come back to life, if ids do not repeat. -/
theorem stays_dead (seen : Seen start d x) (aged : Aged d d') (unrepeated : Unrepeated start d')
    (dead : d.contains x = false) : d'.contains x = false := by
  obtain ⟨m, one, live, two⟩ := seen
  exact (unrepeated.second one (two.trans aged)).not_revived two aged live dead

end Seen

/-- The template of a renderer was compiled, and of the nodes that were made those
are alive that are in its account. -/
def Holds (made : NodeId → Prop) (renderer : Renderer) (d : Document) : Prop :=
  ∃ name source base stock, Template.compile name source = .ok renderer.template ∧
    Roster renderer.template (.ofSource source) base ⟨renderer, d⟩ stock ∧
    ∀ x, d.contains x = true → (made x ↔ ∃ t ∈ tenantsOf stock, x ∈ t.estate)

/-- What was made, with what is alive now and was not before. -/
def withNew (made : NodeId → Prop) (d d' : Document) (x : NodeId) : Prop :=
  made x ∨ d'.contains x = true ∧ d.contains x = false

theorem withNew_self : withNew made d d = made := by
  funext x
  refine propext ⟨fun mine => ?_, .inl⟩
  rcases mine with old | ⟨live, dead⟩
  · exact old
  · rw [live] at dead
    cases dead

/-- Nothing is placed at the start of what is not there. -/
theorem nil_of_placeIn_dead {claims : Claims} {next : List NodeId} {stage : Stage} (dead : d.contains host = false)
    (placed : placeIn host none next ⟨d, claims⟩ = .ok () stage) : next = [] := by
  cases next with
  | nil => rfl
  | cons node rest =>
      have none_ : d.get? host = none := by simpa [contains] using dead
      have nobody : behindCursor host none d = none := by rw [behindCursor, firstChild?, none_, Option.bind_none]
      rw [placeIn, Act.bind_claim] at placed
      obtain ⟨⟨⟩, stage₁, one, -⟩ := of_bind_ok placed
      rw [placeOne, Act.bind_ask, nobody, if_pos (by simp)] at one
      obtain ⟨d₁, put, -⟩ := Act.of_edit one
      have refused : ∃ fault, insertBefore host node none d = .error fault d :=
        insertBefore_of_dead dead List.mem_cons_self
      obtain ⟨fault, refused⟩ := refused
      cases put.symm.trans refused

/-- Data that were rendered into a host that is not there show nothing, and would
show nothing in any other host. -/
theorem renderInto_of_dead {start site : Site} (rendered : Renderer.renderInto host root start = .ok () site)
    (dead : site.document.contains host = false) (other : NodeId) :
    Renderer.renderInto other root start = .ok () site ∧ site.renderer.placed = [] := by
  obtain ⟨selection, fields, nodes, pass, d', claims', checks, ran, placed, rfl⟩ := of_renderInto rendered
  have before := placed
  rw [reconcile] at placed
  obtain ⟨⟨⟩, stage, detached, others⟩ := of_bind_ok placed
  rw [Act.bind_ask] at others
  have still := (calm_detachOld nodes start.renderer.placed).of_ok detached
  have dead' : stage.document.contains host = false := by
    rw [still.contains, ← (calm_reconcile _ _ _).of_ok before |>.contains]
    exact dead
  obtain rfl : nodes = [] := nil_of_placeIn_dead dead' others
  have given : Renderer.render root start = .ok [] (Renderer.after start pass) := by
    simp only [Renderer.render, checks, ran]
  have elsewhere : reconcile (.within other) start.renderer.placed [] ⟨pass.stage.document, []⟩ =
      .ok () ⟨d', claims'⟩ := by
    rw [reconcile, bind_ok detached]
    exact others
  exact ⟨renderInto_ok given elsewhere, rfl⟩

theorem template_of_renderInto {site' : Site} (rendered : Renderer.renderInto host root site = .ok () site') :
    site'.renderer.template = site.renderer.template := by
  obtain ⟨-, -, -, -, -, -, -, -, -, rfl⟩ := of_renderInto rendered
  rfl

namespace Holds

theorem new (compiled : Template.compile name source = .ok template) (wf : WellFormed d)
    (gone : ∀ x, made x → d.contains x = false) : Holds made (.new template) d := by
  refine ⟨name, source, d, [], compiled, roster_new wf, fun x live => ⟨fun mine => ?_, by simp [tenantsOf]⟩⟩
  rw [gone x mine] at live
  cases live

variable (holds : Holds made renderer d)
include holds

/-- Data were rendered into a host that is not the renderer's own. -/
theorem shown (rendered : Renderer.renderInto host root ⟨renderer, d⟩ = .ok () site)
    (once : ShownOnce renderer.template root)
    (outside : site.document.contains host = true → d.contains host = true ∧ ¬ made host)
    (unrepeated : Unrepeated d site.document) : Holds (withNew made d site.document) site.renderer site.document := by
  obtain ⟨name, source, base, stock, compiled, roster, account⟩ := holds
  have house := roster.household
  -- in a host that is not there anything shows nothing, as it does in the body
  obtain ⟨host, inBase, rendered⟩ : ∃ host, base.contains host = true ∧
      Renderer.renderInto host root ⟨renderer, d⟩ = .ok () site := by
    cases stands : site.document.contains host with
    | false => exact ⟨base.body, house.base_wf.body_contains, (renderInto_of_dead rendered stands base.body).1⟩
    | true =>
        obtain ⟨live, foreign⟩ := outside stands
        refine ⟨host, ((house.alive host).mp live).resolve_right fun here => ?_, rendered⟩
        exact foreign ((account host live).mpr here)
  obtain ⟨selection, fields, -, -, -, -, checks, -⟩ := of_renderInto rendered
  have defined := (defined_of_checked checks).1
  obtain ⟨stock', -, -, -, roster', -⟩ := roster.shown (unnamed_of_compile compiled) (compiled_of_compile compiled)
    inBase rendered (once.eachOnce compiled defined) unrepeated
  have house' := roster'.household
  have same := roster'.shows
  refine ⟨name, source, base, stock', same.symm ▸ compiled, same.symm ▸ roster', fun x live' => ⟨fun mine => ?_, ?_⟩⟩
  · refine ((house'.alive x).mp live').resolve_left fun before => ?_
    have live : d.contains x = true := house.base_live before
    rcases mine with old | ⟨-, dead⟩
    · obtain ⟨t, mem, here⟩ := (account x live).mp old
      exact house.not_base mem here before
    · rw [live] at dead
      cases dead
  · rintro ⟨t, mem, here⟩
    cases live : d.contains x with
    | false => exact .inr ⟨live', live⟩
    | true =>
        have notBefore := house'.not_base mem here
        exact .inl ((account x live).mpr (((house.alive x).mp live).resolve_left notBefore))

/-- Clearing the renderer frees everything that was made. -/
theorem clear : ∃ site', Renderer.clear ⟨renderer, d⟩ = .ok () site' ∧
    ∀ x, made x → site'.document.contains x = false := by
  obtain ⟨name, source, base, stock, compiled, roster, account⟩ := holds
  obtain ⟨site', cleared, house', -⟩ := roster.clear
  refine ⟨site', cleared, fun x mine => ?_⟩
  by_contra alive
  have before : base.contains x = true := by simpa using (house'.alive x).mp (by simpa using alive)
  obtain ⟨t, mem, here⟩ := (account x (roster.household.base_live before)).mp mine
  exact roster.household.not_base mem here before

/-- Others worked on the document and left alone what was made. -/
theorem leftAlone (alone : LeftAlone made d d') (seen : ∀ x, made x → Seen start d x)
    (unrepeated : Unrepeated start d') :
    Holds made renderer d' := by
  obtain ⟨name, source, base, stock, compiled, roster, account⟩ := holds
  have house := roster.household
  obtain ⟨base', roster'⟩ := roster.leftAlone (alone.mono fun x live here => (account x live).mpr here)
  refine ⟨name, source, base', stock, compiled, roster', fun x live' => ⟨fun mine => ?_, fun here => ?_⟩⟩
  · cases live : d.contains x with
    | true => exact (account x live).mp mine
    | false =>
        rw [(seen x mine).stays_dead alone.aged unrepeated live] at live'
        cases live'
  · obtain ⟨t, mem, inEstate⟩ := here
    exact (account x (house.live mem inEstate)).mpr ⟨t, mem, inEstate⟩

end Holds

/-! ## The first data a renderer shows -/

/-- Reconciling without nodes to take away that answers has put new nodes in front
of what stands in the container. -/
theorem front_of_reconcile (wf : WellFormed d) {pot : Pot} {claims' : Claims} (stands : pot.Stands d)
    (outer : host ∉ pot.ids) (apart : ∀ x ∈ pot.roots, x ∉ d.children host)
    (placed : reconcile (.within host) [] pot.roots ⟨d, []⟩ = .ok () ⟨d', claims'⟩) :
    d'.children host = pot.roots ++ d.children host := by
  have movable := movable_of_stands wf stands outer
  obtain ⟨d₁, claims₁, same, shuffled, up, -, -⟩ := reconcile_shuffled (fun _ => True) wf placed (fun _ _ _ => trivial)
    (fun x mem => (movable x mem).solid) (by rintro c ⟨⟩)
  cases same
  rcases List.eq_nil_or_concat pot.roots with none_ | ⟨front, last, split⟩
  · rw [none_] at placed ⊢
    cases placed
    rfl
  have child : last ∈ d'.children host := shuffled.wellFormed.parent_iff.mp (up last (by rw [split]; simp))
  obtain ⟨c, found, takes⟩ := shuffled.wellFormed.linked.container host (List.ne_nil_of_mem child)
  rw [shuffled.content] at found
  obtain ⟨d₂, claims₂, done, becomes, -⟩ := reconcile_within wf [] ⟨c, found, takes⟩ List.not_mem_nil movable
  cases placed.symm.trans done
  have nodup : pot.roots.Nodup := (List.nodup_cons.mp (stands.nodup wf)).2.sublist (map_root_sublist _)
  rw [becomes.children]
  simp only [if_true, leaving, dropped, List.filter_nil, List.nil_append]
  rw [List.dedup_eq_self.mpr nodup, without, List.filter_eq_self.mpr fun x child => ?_]
  simpa using fun mem => apart x mem child

/-- A renderer that has shown nothing puts the nodes it gives for the root, all of
them new, at the start of the host. -/
theorem front_of_renderInto_new (compiled : Template.compile name source = .ok template) (wf : WellFormed d)
    (once : ShownOnce template root) (outside : site.document.contains host = true → d.contains host = true)
    (rendered : Renderer.renderInto host root ⟨.new template, d⟩ = .ok () site) :
    ∃ nodes site₁, Renderer.render root ⟨.new template, d⟩ = .ok nodes site₁ ∧ site.renderer.placed = nodes ∧
      site.document.children host = nodes ++ d.children host ∧
      ∀ x ∈ nodes, d.contains x = false ∧ site.document.contains x = true := by
  have sequel := Renderer.steady_renderInto host root ⟨.new template, d⟩ wf
  rw [left_ok rendered] at sequel
  have showsNothing := renderInto_of_dead rendered
  obtain ⟨selection, fields, nodes, pass, d', claims', checks, ran, placed, rfl⟩ := of_renderInto rendered
  change checked template root = .ok (selection, fields) at checks
  change Passing.run template selection fields ⟨⟨d, []⟩, [], []⟩ = .ok nodes pass at ran
  change reconcile (.within host) [] nodes ⟨pass.stage.document, []⟩ = .ok () ⟨d', claims'⟩ at placed
  have given : Renderer.render root ⟨.new template, d⟩ = .ok nodes (Renderer.after ⟨.new template, d⟩ pass) := by
    simp only [Renderer.render, Renderer.new, checks, ran]
  refine ⟨nodes, _, given, rfl, ?_⟩
  cases live : d.contains host with
  | false =>
      have dead : d'.contains host = false := by
        by_contra stands
        rw [outside (by simpa using stands)] at live
        cases live
      obtain rfl : nodes = [] := (showsNothing dead host).2
      refine ⟨?_, by simp⟩
      rw [sequel.wellFormed.children_eq_nil dead, wf.children_eq_nil live, List.append_nil]
  | true =>
      obtain ⟨defined, rooted⟩ := defined_of_checked checks
      obtain ⟨⟨prototype, known⟩, inner⟩ := defined_of_root defined rooted
      have singly := (once.eachOnce compiled defined selection fields rooted).atMostOnce
      obtain ⟨pot, pass', ran', -, keeps, stands, fresh⟩ :=
        run_new (compiled_of_compile compiled) known inner singly wf
      cases ran.symm.trans ran'
      have outer : host ∉ pot.ids := fun mem => by
        rw [fresh host mem] at live
        cases live
      have inPot : ∀ x ∈ pot.roots, x ∈ pot.ids := fun x mem => List.mem_cons_of_mem _ ((map_root_sublist _).subset mem)
      have kids := keeps.children host live (by simp)
      have children : d'.children host = pot.roots ++ d.children host := by
        rw [← kids]
        refine front_of_reconcile keeps.wellFormed stands outer (fun x mem child => ?_) placed
        rw [kids] at child
        have here := wf.contains_child child
        rw [fresh x (inPot x mem)] at here
        cases here
      refine ⟨children, fun x mem => ⟨fresh x (inPot x mem), ?_⟩⟩
      exact sequel.wellFormed.contains_child (by rw [children]; exact List.mem_append_left _ mem)

end Inlay.Render
