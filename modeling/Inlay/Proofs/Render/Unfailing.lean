/-
# Proofs.Render.Unfailing — calls that cannot fail

Where every template of the data is reached by an anchor, a call fails for one
reason only, its data. Between calls the lodgers of an estate are shown there by an
anchor (`Unhindered`); a call whose data pass the check answers, and keeps it so
(`Unhindered.answers`). So nothing that was rendered before can make a later call fail
(`renders_iff_valid`), unless ids repeat.
-/
import Inlay.Proofs.Render.Answering
import Inlay.Proofs.Render.Leaks
import Inlay.Proofs.Render.Roster
import Inlay.Proofs.Render.Screening

namespace Inlay.Render

set_option autoImplicit false

open Inlay.Document

variable {base d d' e : Document} {claims claims' : Claims} {template : Template} {library : Library}
  {site site' : Site} {stock : Fields (List Tenant)} {host x : NodeId} {root : Datum} {old : NodeId → Prop}
  {selection : Option String} {fields : Fields Datum} {pass pass' : Pass} {used : List Tenant}
  {nodes placed : List NodeId} {total : Nat}

/-! ## Placing the root -/

/-- What takes children is alive. -/
theorem contains_of_takes (takes : ∃ c, d.content? x = some c ∧ c.isContainer = true) : d.contains x = true :=
  contains_iff_content?.mpr (takes.imp fun _ => And.left)

namespace Roll

variable (roll : Roll old base d [] used used [nodes] placed) (inBase : base.contains host = true)
include roll inBase

/-- What is above the host was there before any tenant. -/
theorem above_host (above : Below d host x) : base.contains x = true := by
  induction above with
  | refl => exact inBase
  | tail _ step ih => exact roll.household.base_up ih step

/-- The nodes of the root can be placed in a host that takes children. -/
theorem placeable (takes : ∃ c, base.content? host = some c ∧ c.isContainer = true) (claims : Claims) :
    ∃ d' claims', reconcile (.within host) placed nodes ⟨d, claims⟩ = .ok () ⟨d', claims'⟩ ∧
      Becomes d d' d.content? fun p =>
        if p = host then nodes.dedup ++ without (leaving d claims nodes placed) d.children p
        else without (leaving d claims nodes placed) d.children p := by
  have house := roll.household
  obtain ⟨c, content, container⟩ := takes
  have inner : d.body ∉ placed := by
    intro mem
    obtain ⟨s, memS, head⟩ := (roll.placed d.body mem).2 house.wellFormed.body_contains
    exact house.ne_body memS ((house.housed s memS).head_mem head) rfl
  obtain ⟨d', claims', done, becomes, -⟩ := reconcile_within house.wellFormed claims
    ⟨c, (house.content host inBase).trans content, container⟩ inner fun x mem => by
      obtain ⟨s, memS, head⟩ := roll.pending nodes (List.mem_singleton_self _) x mem
      have housed := house.housed s memS
      have here := housed.head_mem head
      exact ⟨house.live memS here, housed.head_solid head, house.ne_body memS here,
        fun below => house.not_base memS here (roll.above_host inBase below)⟩
  exact ⟨d', claims', done, becomes⟩

end Roll

/-! ## Between calls -/

/-- A renderer between two calls, with nothing in the way of the next one. -/
structure Unhindered (template : Template) (library : Library) (base : Document) (site : Site)
    (stock : Fields (List Tenant)) : Prop where
  roster : Roster template library base site stock
  lodgers : ∀ s ∈ tenantsOf stock, Lodgers site.document [] s s.plots
  clad : ∀ s ∈ tenantsOf stock, s.Clad site.document

/-- A renderer that has shown nothing. -/
theorem unhindered_new (wf : WellFormed d) : Unhindered template library d ⟨.new template, d⟩ [] :=
  ⟨roster_new wf, nofun, nofun⟩

/-- What a tenant looks like is left alone where heads are moved only. -/
theorem Household.clad_change {ts : List Tenant} {moved : NodeId → Prop} {target : Option NodeId}
    (house : Household base d ts) (change : Change moved target d d') (used_mem : ∀ s ∈ used, s ∈ ts)
    (heads : ∀ x, moved x → Heads ts x) (live' : ∀ s ∈ used, ∀ x ∈ s.grounds, d'.contains x = true)
    (clad : ∀ s ∈ used, s.Clad d) : ∀ s ∈ used, s.Clad d' := fun s mem => by
  have memS := used_mem s mem
  refine (clad s mem).change change (house.estate_nodup memS)
    (fun x ground => house.live memS (Tenant.mem_estate_of_ground ground)) (live' s mem) fun x ground inner moves => ?_
  obtain ⟨s', mem', head⟩ := heads x moves
  cases house.unique memS mem' (Tenant.mem_estate_of_ground ground) ((house.housed s' mem').head_mem head)
  exact Tenant.not_head_of_ground (house.estate_nodup memS) ground inner head

/-- Once everything is in its place, the next call can come. -/
theorem Firm.close {strict : Prop} (firm : Firm strict template library old base pass stock [nodes] placed total)
    (roll : Roll old base d [] (usedOf pass.count stock) (usedOf pass.count stock) [nodes] placed)
    (culled : Culled (((usedOf pass.count stock).map Tenant.inst).flatMap Instance.nodes) pass.stage.document d)
    (inBase : base.contains host = true)
    (moved : reconcile (.within host) placed nodes ⟨d, claims⟩ = .ok () ⟨d', claims'⟩) :
    Unhindered template library base ⟨⟨template, Passing.usedPools pass, nodes⟩, d'⟩ (keptOf pass.count stock) := by
  obtain ⟨house', -, -, -, shuffled, ups⟩ := roll.place inBase moved
  have before := firm.ledger.roll
  have house := roll.household
  have change := Change.of_shuffled shuffled
  have away : ∀ s ∈ usedOf pass.count stock, ∀ m ∈ s.estate, some host ≠ some m := by
    rintro s mem m inS ⟨⟩
    exact house.not_base mem inS inBase
  refine ⟨firm.ledger.roster roll inBase moved, ?_, ?_⟩ <;> rw [tenantsOf_keptOf]
  · refine firm.quartered.settled before.household before.used_mem house' (fun s mem m inS => ?_) fun x here s mem m inS child => ?_
    · exact List.Subset.trans (change.children_subset house.wellFormed (house.live mem inS) (away s mem m inS))
        (culled.sublist m).subset
    · exact away s mem m inS ((ups x here).symm.trans (change.wellFormed.parent_iff.mpr child))
  · have fewer : Change (fun x => x ∈ ((usedOf pass.count stock).map Tenant.inst).flatMap Instance.nodes) none
        pass.stage.document d := culled.change fun _ => id
    have kept : ∀ s ∈ usedOf pass.count stock, s.Clad d :=
      before.household.clad_change fewer before.used_mem
        (fun x survives => (before.survivors_heads survives).mono before.used_mem)
        (fun s mem x ground => house.live mem (Tenant.mem_estate_of_ground ground))
        fun s mem => firm.clad s (List.mem_append_right _ mem)
    exact house.clad_change change (fun _ => id) (fun x => id)
      (fun s mem x ground => house'.live mem (Tenant.mem_estate_of_ground ground)) kept

/-! ## A call -/

/-- Rendering leaves what its pass leaves. -/
theorem left_render (checks : checked site.renderer.template root = .ok (selection, fields)) :
    left (Renderer.render root) site = Renderer.after site
      (left (Passing.run site.renderer.template selection fields) ⟨⟨site.document, []⟩, site.renderer.pools, []⟩) := by
  simp only [left, Renderer.render, checks]
  cases Passing.run site.renderer.template selection fields ⟨⟨site.document, []⟩, site.renderer.pools, []⟩ <;> rfl

/-- The document that the turns of a call leave is followed by the one that the call leaves. -/
theorem sequel_turns (host : NodeId) (checks : checked site.renderer.template root = .ok (selection, fields))
    (wf : WellFormed site.document) :
    Sequel (left (Passing.resolveFields site.renderer.template fields >>= fun values =>
        Passing.showNext site.renderer.template selection (.map values))
          ⟨⟨site.document, []⟩, site.renderer.pools, []⟩).stage.document
      (left (Renderer.renderInto host root) site).document := by
  have turns : Passing.Steady (Passing.resolveFields site.renderer.template fields >>= fun values =>
      Passing.showNext site.renderer.template selection (.map values)) :=
    (Passing.steady_resolveFields _ fields).bind fun _ => Passing.steady_showNext _ selection _
  have wf₀ : WellFormed (⟨⟨site.document, []⟩, site.renderer.pools, []⟩ : Pass).stage.document := wf
  have first := sequel_left_bind (fun pass : Pass => pass.stage.document) turns
    (fun nodes => Passing.steady_collect.bind fun _ => .pure nodes) wf₀
  rw [← run_eq_bind] at first
  have last : ∀ nodes, Renderer.Steady (do
      Renderer.act (reconcile (.within host) (← get).renderer.placed nodes)
      modify fun site => { site with renderer := { site.renderer with placed := nodes } }) := fun nodes =>
    .bind (.of_same fun _ => rfl) fun _ => .bind (Renderer.steady_act (steady_reconcile _ _ nodes)) fun _ =>
      .of_same fun _ => rfl
  have second := sequel_left_bind Site.document (Renderer.steady_render root) last wf
  rw [left_render checks] at second
  exact first.trans second

/-- Every template of the data is reached by an anchor. -/
def AtLeastOnce (library : Library) (selection : Option String) (fields : Fields Datum) : Prop :=
  Wholly library selection fields ∧ ThroughoutFields (Wholly library) fields

instance (library : Library) (selection : Option String) (fields : Fields Datum) :
    Decidable (AtLeastOnce library selection fields) :=
  have decideHere : ∀ selection fields, Decidable (Wholly library selection fields) := fun _ _ =>
    inferInstanceAs (Decidable (∀ n ∈ _, n ∈ _))
  @instDecidableAnd _ _ (decideHere selection fields) (decideThroughoutFields decideHere fields)

/-- If the data of a root pass the check, they reach every template. -/
def EachReached (template : Template) (library : Library) (root : Datum) : Prop :=
  ∀ selection fields, checked template root = .ok (selection, fields) → AtLeastOnce library selection fields

/-- A call that answers, part by part: its turns were taken, the idle tenants went, and the nodes
of the root were put into the host. -/
structure Answered (strict : Prop) (template : Template) (library : Library) (base : Document) (host : NodeId) (site : Site)
    (selection : Option String) (fields : Fields Datum) (pass : Pass) (stock : Fields (List Tenant)) (nodes : List NodeId)
    (total : Nat) (d d' : Document) (claims' : Claims) : Prop where
  firm : Firm strict template library (fun x => site.document.contains x = true) base pass stock [nodes]
    site.renderer.placed total
  voiced : Voiced pass.stage.document (usedOf pass.count stock) nodes (expansion library selection fields)
  collected : Passing.collect pass = .ok () ⟨⟨d, pass.stage.claims⟩, Passing.usedPools pass, pass.used⟩
  roll : Roll (fun x => site.document.contains x = true) base d [] (usedOf pass.count stock) (usedOf pass.count stock)
    [nodes] site.renderer.placed
  culled : Culled (((usedOf pass.count stock).map Tenant.inst).flatMap Instance.nodes) pass.stage.document d
  moved : reconcile (.within host) site.renderer.placed nodes ⟨d, []⟩ = .ok () ⟨d', claims'⟩

namespace Unhindered

variable (unhindered : Unhindered template library base site stock)
include unhindered

theorem firm (strict : Prop) (before : ∀ t ∈ tenantsOf stock, ∀ x ∈ t.estate, old x) :
    Firm strict template library old base ⟨⟨site.document, []⟩, site.renderer.pools, []⟩ stock [] site.renderer.placed 0 := by
  obtain ⟨idle, none_⟩ := unused ⟨site.document, []⟩ site.renderer.pools stock
  refine ⟨unhindered.roster.ledger before, ?_, ?_, fun _ => ?_⟩
  · rw [idle, none_]
    exact ⟨unhindered.lodgers, nofun, nofun⟩
  · rw [idle, none_, List.append_nil]
    exact unhindered.clad
  · rw [none_]
    exact ⟨nofun, nofun, List.nodup_nil⟩

/-- A call whose data pass the check answers. -/
theorem answered (strict : Prop) (unnamed : template.prototype? (some rootName) = none) (compiled : Compiled template library)
    (takes : ∃ c, base.content? host = some c ∧ c.isContainer = true)
    (checks : checked template root = .ok (selection, fields)) (wholly : EachReached template library root)
    (disjointly : strict → AtMostOnce library selection fields)
    (unrepeated : Unrepeated site.document (left (Renderer.renderInto host root) site).document) :
    ∃ pass' stock' nodes total' d₂ d' claims',
      Answered strict template library base host site selection fields pass' stock' nodes total' d₂ d' claims' ∧
      Renderer.renderInto host root site = .ok () ⟨⟨template, Passing.usedPools pass', nodes⟩, d'⟩ := by
  have roster := unhindered.roster
  have wf := roster.household.wellFormed
  have inBase := contains_of_takes takes
  obtain ⟨here, inner⟩ := wholly selection fields checks
  obtain ⟨defined, rooted⟩ := defined_of_checked checks
  obtain ⟨⟨prototype, known⟩, below⟩ := defined_of_root defined rooted
  have checked_ : checked site.renderer.template root = .ok (selection, fields) := roster.shows ▸ checks
  have unrevived := unrevived_of_unrepeated unrepeated
  have later := sequel_turns host checked_ wf
  rw [roster.shows] at later
  -- the turns
  obtain ⟨nodes, pass₁, stock₁, total₁, _, shown, rfl, firm, -, voiced⟩ :=
    (answers_resolveFields unnamed compiled fields below inner fun all => (disjointly all).2).shows unnamed compiled known here
      (fun all => (disjointly all).1) _ _ _ _
      (unhindered.firm strict fun _ mem _ own => roster.household.live mem own) later unrevived
  rw [List.nil_append] at firm
  -- the garbage, and the nodes of the root
  obtain ⟨d₂, collected, roll, culled⟩ := firm.ledger.collect
  obtain ⟨d', claims', moved, -⟩ := roll.placeable inBase takes []
  have ran : Passing.run site.renderer.template selection fields ⟨⟨site.document, []⟩, site.renderer.pools, []⟩ =
      .ok nodes ⟨⟨d₂, pass₁.stage.claims⟩, Passing.usedPools pass₁, pass₁.used⟩ := by
    rw [run_eq_bind, roster.shows, bind_ok shown, bind_ok collected]
    rfl
  have rendered : Renderer.render root site =
      .ok nodes (Renderer.after site ⟨⟨d₂, pass₁.stage.claims⟩, Passing.usedPools pass₁, pass₁.used⟩) := by
    simp only [Renderer.render, checked_, ran]
  refine ⟨pass₁, stock₁, nodes, total₁, d₂, d', claims',
    ⟨firm, voiced _ (List.mem_singleton_self _), collected, roll, culled, moved⟩, ?_⟩
  have answer := renderInto_ok rendered moved
  rwa [roster.shows] at answer

/-- Once it has answered, the next call can come. -/
theorem answers (unnamed : template.prototype? (some rootName) = none) (compiled : Compiled template library)
    (takes : ∃ c, base.content? host = some c ∧ c.isContainer = true)
    (checks : checked template root = .ok (selection, fields)) (wholly : EachReached template library root)
    (unrepeated : Unrepeated site.document (left (Renderer.renderInto host root) site).document) :
    ∃ site' stock', Renderer.renderInto host root site = .ok () site' ∧ Unhindered template library base site' stock' := by
  have inBase := contains_of_takes takes
  obtain ⟨pass', stock', nodes, total', d₂, d', claims', parts, rendered⟩ :=
    unhindered.answered False unnamed compiled takes checks wholly False.elim unrepeated
  exact ⟨_, keptOf pass'.count stock', rendered, parts.firm.close parts.roll parts.culled inBase parts.moved⟩

end Unhindered

/-! ## Call after call -/

/-- Data were rendered into a host, call after call, whatever came of it. -/
inductive Attempted (template : Template) (library : Library) (host : NodeId) (start : Site) : Site → Prop
  | nothing : Attempted template library host start start
  | call {site : Site} {root : Datum} : Attempted template library host start site →
      EachReached template library root →
      Unrepeated site.document (left (Renderer.renderInto host root) site).document →
      Attempted template library host start (left (Renderer.renderInto host root) site)

/-- Whatever was rendered, nothing is in the way of the next call. -/
theorem Attempted.unhindered (past : Attempted template library host ⟨.new template, d⟩ site)
    (unnamed : template.prototype? (some rootName) = none) (compiled : Compiled template library) (wf : WellFormed d)
    (takes : ∃ c, d.content? host = some c ∧ c.isContainer = true) : ∃ stock, Unhindered template library d site stock := by
  induction past with
  | nothing => exact ⟨[], unhindered_new wf⟩
  | @call site root _ wholly unrepeated ih =>
      obtain ⟨stock, unhindered⟩ := ih
      cases checks : checked template root with
      | error fault =>
          refine ⟨stock, ?_⟩
          rw [left_error (renderInto_of_checked host (unhindered.roster.shows ▸ checks))]
          exact unhindered
      | ok answer =>
          obtain ⟨site', stock', rendered, unhindered'⟩ := unhindered.answers unnamed compiled takes checks wholly unrepeated
          rw [left_ok rendered]
          exact ⟨stock', unhindered'⟩

/-- The check passes data whose templates are defined and that have a root. -/
theorem exists_checked (defined : ∀ name, root.Selects name → template.defines name = true) (isRoot : root.IsRoot) :
    ∃ selection fields, checked template root = .ok (selection, fields) := by
  have none_ : (selections root).find? (!template.defines ·) = none :=
    List.find?_eq_none.mpr fun name mem => by simpa using defined name (mem_selections.mp mem)
  rcases isRoot with ⟨fields, rfl⟩ | ⟨name, fields, rfl⟩
  · exact ⟨none, fields, by rw [checked, none_]; rfl⟩
  · exact ⟨some name, fields, by rw [checked, none_]; rfl⟩

/-- Of data whose templates are all reached, those that have a root and select nothing
undefined are rendered, whatever was rendered before them; others are refused. -/
theorem renders_iff_valid {name source : String} (compiled : Template.compile name source = .ok template)
    (wf : WellFormed d) (takes : ∃ c, d.content? host = some c ∧ c.isContainer = true)
    (past : Attempted template (.ofSource source) host ⟨.new template, d⟩ site)
    (wholly : EachReached template (.ofSource source) root)
    (unrepeated : Unrepeated site.document (left (Renderer.renderInto host root) site).document) :
    (∃ site', Renderer.renderInto host root site = .ok () site') ↔
      root.IsRoot ∧ ∀ name, root.Selects name → template.defines name = true := by
  have unnamed := unnamed_of_compile compiled
  have library := compiled_of_compile compiled
  obtain ⟨stock, unhindered⟩ := past.unhindered unnamed library wf takes
  constructor
  · rintro ⟨site', rendered⟩
    obtain ⟨selection, fields, -, -, -, -, checks, -⟩ := of_renderInto rendered
    rw [unhindered.roster.shows] at checks
    obtain ⟨defined, rooted⟩ := defined_of_checked checks
    refine ⟨?_, fun name selects => defined name (mem_selections.mpr selects)⟩
    by_contra off
    have bad : rootOf root = .error (.badRoot root.kind) := rootOf_eq_error.mpr ⟨off, rfl⟩
    rw [bad] at rooted
    cases rooted
  · rintro ⟨isRoot, defined⟩
    obtain ⟨selection, fields, checks⟩ := exists_checked defined isRoot
    obtain ⟨site', -, rendered, -⟩ := unhindered.answers unnamed library takes checks wholly unrepeated
    exact ⟨site', rendered⟩

/-- Records whose templates are all reached. -/
theorem eachReached_record (reached : AtLeastOnce library none fields) :
    EachReached template library (.record fields) := by
  intro selection inner checks
  cases rooted_of_checked checks
  exact reached

namespace Sample

/-- Two places for the same rows, and one for others. -/
def places : String :=
  "<p><!--${x}--></p><!--${x}--><p><!--${y}--></p><template id=\"r\"><b>${t}</b></template>"

/-- A row that is wanted at two places. -/
def doubled : Fields Datum := [("x", .template "r" [("t", .text "a")])]

/-- Two rows, the second one where none has been. -/
def parted : Fields Datum :=
  [("x", .template "r" [("t", .text "c")]), ("y", .list [.template "r" [("t", .text "b")], .text "d"])]

/-- What the first call leaves. -/
def doubling (template : Template) : Site :=
  left (Renderer.renderInto Sample.host (.record doubled)) ⟨.new template, document⟩

/-- No id comes back in either call. -/
def neverAgain (template : Template) : Bool :=
  decide (Unrepeated document (doubling template).document) && decide (Unrepeated (doubling template).document
    (left (Renderer.renderInto Sample.host (.record parted)) (doubling template)).document)

end Sample

theorem renders_iff_valid_places : ∃ template, Template.compile "page" Sample.places = .ok template ∧
    ∃ site', Attempted template (.ofSource Sample.places) Sample.host ⟨.new template, Sample.document⟩
        (Sample.doubling template) ∧
      Renderer.renderInto Sample.host (.record Sample.parted) (Sample.doubling template) = .ok () site' := by
  have goes : (Template.compile "page" Sample.places).toOption.any (fun template =>
      Sample.neverAgain template && template.defines "r") = true := by decide +kernel
  have first : AtLeastOnce (.ofSource Sample.places) none Sample.doubled := by decide +kernel
  have second : AtLeastOnce (.ofSource Sample.places) none Sample.parted := by decide +kernel
  cases compiled : Template.compile "page" Sample.places with
  | error fault =>
      rw [compiled] at goes
      cases goes
  | ok template =>
      rw [compiled] at goes
      simp only [Except.toOption, Option.any_some, Sample.neverAgain, Bool.and_eq_true, decide_eq_true_eq] at goes
      obtain ⟨⟨unrepeated, unrepeated'⟩, defined⟩ := goes
      have wf : WellFormed Sample.document := (create_becomes wellFormed_new _).2.wellFormed
      have takes : Sample.document.content? Sample.host = some (.element (.plain "main" [])) := rfl
      have past : Attempted template (.ofSource Sample.places) Sample.host ⟨.new template, Sample.document⟩
          (Sample.doubling template) := .call .nothing (eachReached_record first) unrepeated
      obtain ⟨site', rendered⟩ := (renders_iff_valid compiled wf ⟨_, takes, rfl⟩ past (eachReached_record second)
        unrepeated').mpr ⟨.inl ⟨_, rfl⟩, fun name selects => by
          have named : name ∈ ["r", "r"] := mem_selections.mpr selects
          simpa [show name = "r" by simpa using named] using defined⟩
      exact ⟨template, rfl, site', past, rendered⟩

namespace Sample

/-- An instance with nothing but an anchor, and one with an element. -/
def stranding : String := "<template id=\"i\"><!--${v}--></template><template id=\"k\"><b>${n}</b></template>"

/-- The content of the root does not reach what is selected here. -/
def unreached : Datum := .record [("u", .template "i" [("v", .template "k" [("n", .text "1")])])]

/-- The element alone. -/
def alone : Datum := .template "k" [("n", .text "2")]

/-- Both data pass the check, and the second call asks for a node that is gone. -/
def stumbles (template : Template) : Bool :=
  (checked template unreached).toOption.isSome && (checked template alone).toOption.isSome &&
    match Renderer.renderInto Sample.host unreached ⟨.new template, document⟩ with
    | .error _ _ => false
    | .ok _ site =>
      match Renderer.renderInto Sample.host alone site with
      | .error (.document (.stale _)) _ => true
      | _ => false

end Sample

/-- An instance that no anchor reaches takes the nodes behind its comment along when it goes, and the next call
that shows them fails, although its data are in order. -/
theorem unreached_fails : ∃ template site site' x, Template.compile "page" Sample.stranding = .ok template ∧
    (checked template Sample.unreached).toOption.isSome ∧ (checked template Sample.alone).toOption.isSome ∧
    Renderer.renderInto Sample.host Sample.unreached ⟨.new template, Sample.document⟩ = .ok () site ∧
    Renderer.renderInto Sample.host Sample.alone site = .error (.document (.stale x)) site' := by
  have goes : (Template.compile "page" Sample.stranding).toOption.any Sample.stumbles = true := by decide +kernel
  cases compiled : Template.compile "page" Sample.stranding with
  | error fault =>
      rw [compiled] at goes
      cases goes
  | ok template =>
      rw [compiled] at goes
      simp only [Except.toOption, Option.any_some, Sample.stumbles, Bool.and_eq_true] at goes
      obtain ⟨⟨first, second⟩, goes⟩ := goes
      split at goes
      · cases goes
      · next site rendered =>
        split at goes
        · next x site' refused => exact ⟨template, site, site', x, rfl, first, second, rendered, refused⟩
        · cases goes

end Inlay.Render
