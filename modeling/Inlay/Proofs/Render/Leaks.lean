/-
# Proofs.Render.Leaks — no node is left behind

However often data were rendered, the document holds as many nodes as a new
renderer would have made for the last of them (`size_of_rendered`), and clearing
leaves the document as it was before the first call (`clear_of_rendered`). Calls
may be refused for their data in between; every template of the data is to be
reached by exactly one anchor. That no slot is freed so often in one call that ids
repeat is the one proviso (`Unrepeated`): generations wrap.
-/
import Inlay.Proofs.Render.Refusal
import Inlay.Proofs.Render.Roster

namespace Inlay.Render

set_option autoImplicit false

open Inlay.Document Inlay.Document.Planted Inlay.Markup
open Inlay.Template hiding root

variable {base d d' : Document} {template : Template} {library : Library} {name source : String}
  {site site' start : Site} {stock : Fields (List Tenant)} {host : NodeId} {root : Datum}
  {selection : Option String} {fields : Fields Datum}

/-! ## Templates that are reached exactly once -/

/-- Every template among the fields is reached by exactly one anchor of the content. -/
def Singly (library : Library) (selection : Option String) (fields : Fields Datum) : Prop :=
  (reachedNumbers (library selection) fields).Perm (List.range (templateCountOfFields fields))

instance (library : Library) (selection : Option String) (fields : Fields Datum) :
    Decidable (Singly library selection fields) :=
  inferInstanceAs (Decidable (List.Perm _ _))

/-- Every template of the data is reached by exactly one anchor. -/
def ExactlyOnce (library : Library) (selection : Option String) (fields : Fields Datum) : Prop :=
  Singly library selection fields ∧ ThroughoutFields (Singly library) fields

instance (library : Library) (selection : Option String) (fields : Fields Datum) :
    Decidable (ExactlyOnce library selection fields) :=
  @instDecidableAnd _ _ inferInstance (decideThroughoutFields (fun _ _ => inferInstance) fields)

theorem Singly.wholly (singly : Singly library selection fields) : Wholly library selection fields := by
  intro n mem
  rw [← List.range_eq_range'] at mem
  exact singly.mem_iff.mpr mem

theorem Singly.disjointly (singly : Singly library selection fields) : Disjointly library selection fields :=
  singly.nodup_iff.mpr List.nodup_range

theorem ExactlyOnce.atMostOnce (once : ExactlyOnce library selection fields) : AtMostOnce library selection fields :=
  throughoutRoot_iff.mpr fun s mem => (throughoutRoot_iff.mp once s mem).disjointly

/-- The data of a root reach every template exactly once. -/
def EachOnce (library : Library) (root : Datum) : Prop :=
  ∀ selection fields, rootOf root = .ok (selection, fields) → ExactlyOnce library selection fields

/-! ## Definitions have names -/

mutual

theorem id_of_treeDefinitions : ∀ (tree : Tree), ∀ definition ∈ treeDefinitions tree, definition.id ≠ some ""
  | .text _, _, mem => by cases mem
  | .comment _, _, mem => by cases mem
  | .element tag attributes children, definition, mem => by
      rw [treeDefinitions] at mem
      split at mem
      · rcases List.mem_cons.mp mem with rfl | below
        · intro same
          have := Option.filter_eq_some_iff.mp same
          simp at this
        · exact id_of_forestDefinitions children definition below
      · exact id_of_forestDefinitions children definition mem

theorem id_of_forestDefinitions : ∀ (forest : List Tree), ∀ definition ∈ forestDefinitions forest,
    definition.id ≠ some ""
  | [], _, mem => by cases mem
  | tree :: rest, definition, mem => by
      rw [forestDefinitions] at mem
      exact (List.mem_append.mp mem).elim (id_of_treeDefinitions tree definition)
        (id_of_forestDefinitions rest definition)

end

/-- No definition has the name under which the instances of the root are kept. -/
theorem unnamed_of_compile (compiled : Template.compile name source = .ok template) :
    template.prototype? (some rootName) = none := by
  unfold Template.compile at compiled
  cases read : forest? source with
  | error fault => simp [read] at compiled
  | ok forest =>
      simp only [read] at compiled
      cases ids : named name (forestDefinitions forest).reverse with
      | error fault => simp [Template.ofForest, ids, bind, Except.bind] at compiled
      | ok pairs =>
          cases root : Prototype.compile none (kept forest) with
          | error fault => simp [Template.ofForest, ids, root, bind, Except.bind] at compiled
          | ok prototype =>
              cases all : compileNamed name [] pairs with
              | error fault => simp [Template.ofForest, ids, root, all, bind, Except.bind] at compiled
              | ok definitions =>
                  simp only [Template.ofForest, ids, root, all, bind, Except.bind, pure, Except.pure,
                    Except.ok.injEq] at compiled
                  subst compiled
                  show definitions.get? rootName = none
                  by_contra defined
                  obtain ⟨found, here⟩ := Option.ne_none_iff_exists'.mp defined
                  rcases (compileNamed_spec all).2.2 rootName found here with old | ⟨content, mem, -⟩
                  · cases old
                  · have named_ : (some rootName, content) ∈
                        (forestDefinitions forest).reverse.map fun definition => (definition.id, definition.content) := by
                      rw [named_eq ids]
                      exact List.mem_map_of_mem (f := fun pair => (some pair.1, pair.2)) mem
                    obtain ⟨definition, there, same⟩ := List.mem_map.mp named_
                    exact id_of_forestDefinitions forest definition (List.mem_reverse.mp there)
                      (congrArg Prod.fst same)

/-! ## Calls -/

/-- Data were rendered into a host, call after call; each call answered, or was
refused because of its data. -/
inductive Rendered (library : Library) (host : NodeId) (start : Site) : Site → Prop
  | nothing : Rendered library host start start
  | shown {site site' : Site} {root : Datum} : Rendered library host start site →
      Renderer.renderInto host root site = .ok () site' → EachOnce library root →
      Unrepeated site.document site'.document → Rendered library host start site'
  | refused {site site' : Site} {root : Datum} {fault : Fault} : Rendered library host start site →
      Renderer.renderInto host root site = .error fault site' → fault.OfData → Rendered library host start site'

theorem Roster.shown (roster : Roster template library base site stock)
    (unnamed : template.prototype? (some rootName) = none) (compiled : Compiled template library)
    (inBase : base.contains host = true) (rendered : Renderer.renderInto host root site = .ok () site')
    (once : EachOnce library root) (unrepeated : Unrepeated site.document site'.document) :
    ∃ stock' selection fields, rootOf root = .ok (selection, fields) ∧ Roster template library base site' stock' ∧
      ((tenantsOf stock').map (·.estate.length)).sum = rootWeight library selection fields :=
  roster.call _ unnamed compiled inBase (fun _ mem _ here => roster.household.live mem here) rendered
    (unrevived_of_unrepeated unrepeated) fun selection fields rooted s mem =>
      (throughoutRoot_iff.mp (once selection fields rooted) s mem).wholly

/-- Whatever was rendered, the account of the renderer is in order. -/
theorem Rendered.roster (rendered : Rendered library host ⟨.new template, d⟩ site)
    (unnamed : template.prototype? (some rootName) = none) (compiled : Compiled template library)
    (wf : WellFormed d) (live : d.contains host = true) : ∃ stock, Roster template library d site stock := by
  induction rendered with
  | nothing => exact ⟨[], roster_new wf⟩
  | shown _ answered once unrepeated ih =>
      obtain ⟨stock, roster⟩ := ih
      obtain ⟨stock', -, -, -, roster', -⟩ := roster.shown unnamed compiled live answered once unrepeated
      exact ⟨stock', roster'⟩
  | refused _ refused data ih =>
      obtain ⟨stock, roster⟩ := ih
      cases renderInto_refused refused data
      exact ⟨stock, roster⟩

/-! ## No leaks -/

/-- After a call that answers the document holds as many nodes as if a new renderer
had shown the data, and nothing else, in a document of the same size; and the new
renderer does show them, in any host that takes children. -/
theorem size_of_rendered (compiled : Template.compile name source = .ok template) (wf : WellFormed d)
    (live : d.contains host = true) (past : Rendered (.ofSource source) host ⟨.new template, d⟩ site)
    (rendered : Renderer.renderInto host root site = .ok () site') (once : EachOnce (.ofSource source) root)
    (unrepeated : Unrepeated site.document site'.document) :
    ∀ (d₀ : Document) (host₀ : NodeId), WellFormed d₀ → d₀.contains host₀ = true → d₀.size = d.size →
      ((∃ c, d₀.content? host₀ = some c ∧ c.isContainer = true) →
        ∃ fresh, Renderer.renderInto host₀ root ⟨.new template, d₀⟩ = .ok () fresh) ∧
      ∀ fresh, Renderer.renderInto host₀ root ⟨.new template, d₀⟩ = .ok () fresh →
        site'.document.size = fresh.document.size := by
  intro d₀ host₀ wf₀ live₀ size
  have unnamed := unnamed_of_compile compiled
  have library := compiled_of_compile compiled
  obtain ⟨stock, roster⟩ := past.roster unnamed library wf live
  obtain ⟨stock', selection, fields, rooted, roster', weight⟩ :=
    roster.shown unnamed library live rendered once unrepeated
  obtain ⟨selection', fields', -, -, -, -, checks, -⟩ := of_renderInto rendered
  rw [roster.shows] at checks
  cases rooted.symm.trans (rooted_of_checked checks)
  refine ⟨fun takes => ?_, fun fresh rendered₀ => ?_⟩
  · obtain ⟨fresh, rendered₀, -⟩ := renderInto_new_forest library (defined_of_checked checks).1 rooted
      (once selection fields rooted).atMostOnce wf₀ takes
    exact ⟨fresh, rendered₀⟩
  -- A new renderer is a roster of its own, in which there was nothing to revive.
  obtain ⟨stock₀, selection₀, fields₀, rooted₀, roster₀, weight₀⟩ :=
    (roster_new wf₀ : Roster template (.ofSource source) d₀ _ _).call (fun _ => False) unnamed library live₀
      (by simp [tenantsOf]) rendered₀ (fun _ _ _ _ _ _ none_ => none_.elim)
      fun selection fields rooted s mem => (throughoutRoot_iff.mp (once selection fields rooted) s mem).wholly
  cases rooted.symm.trans rooted₀
  rw [roster'.size_eq, roster₀.size_eq, weight, weight₀, size]

namespace Sample

/-- Fewer rows than before, and markup among them. -/
def fewer : Fields Datum :=
  [("off", .bool true), ("rows", .list [.text "<i>x</i>", .template "r" [("t", .text "b")]]), ("t", .text "U")]

/-- The main element with a text of its own. -/
def furnished : Document :=
  (Document.append Sample.host (create (.text "own") Sample.document).1).after (create (.text "own") Sample.document).2

theorem wellFormed_furnished : WellFormed furnished :=
  (Safe.append _ _ _ (create_becomes (create_becomes wellFormed_new _).2.wellFormed _).2.wellFormed).wellFormed

/-- Rows are shown, then no data, then fewer rows; no id comes back. -/
def proceeds (template : Template) : Bool :=
  match Renderer.renderInto Sample.host (.record Sample.fields) ⟨.new template, furnished⟩ with
  | .error _ _ => false
  | .ok _ site =>
    decide (Unrepeated furnished site.document) &&
      match Renderer.renderInto Sample.host .null site with
      | .ok _ _ => false
      | .error fault site =>
        decide fault.OfData &&
          match Renderer.renderInto Sample.host (.record fewer) site with
          | .error _ _ => false
          | .ok _ site' => decide (Unrepeated site.document site'.document)

theorem eachOnce {shown : Fields Datum} (once : ExactlyOnce (.ofSource Sample.source) none shown) :
    EachOnce (.ofSource Sample.source) (.record shown) := by
  intro selection fields rooted
  cases rooted
  exact once

/-- The calls one by one. -/
theorem rendered_of_proceeds {template : Template} (goes : proceeds template = true) :
    ∃ site site', Rendered (.ofSource Sample.source) Sample.host ⟨.new template, furnished⟩ site ∧
      Renderer.renderInto Sample.host (.record fewer) site = .ok () site' ∧
      Unrepeated site.document site'.document := by
  rw [proceeds] at goes
  split at goes
  · cases goes
  · next site₁ first =>
    simp only [Bool.and_eq_true, decide_eq_true_eq] at goes
    obtain ⟨unrepeated, goes⟩ := goes
    split at goes
    · cases goes
    · next fault site₂ second =>
      simp only [Bool.and_eq_true, decide_eq_true_eq] at goes
      obtain ⟨data, goes⟩ := goes
      split at goes
      · cases goes
      · next site₃ third =>
        have once : ExactlyOnce (.ofSource Sample.source) none Sample.fields := by decide +kernel
        exact ⟨site₂, site₃, (Rendered.nothing.shown first (eachOnce once) unrepeated).refused second data, third,
          of_decide_eq_true goes⟩

end Sample

theorem size_of_rendered_fewer : ∃ template, Template.compile "page" Sample.source = .ok template ∧
    ∃ site site' fresh, Rendered (.ofSource Sample.source) Sample.host ⟨.new template, Sample.furnished⟩ site ∧
      Renderer.renderInto Sample.host (.record Sample.fewer) site = .ok () site' ∧
      Renderer.renderInto Sample.host (.record Sample.fewer) ⟨.new template, Sample.furnished⟩ = .ok () fresh ∧
      site'.document.size = fresh.document.size := by
  have goes : (Template.compile "page" Sample.source).map Sample.proceeds = .ok true := by decide +kernel
  cases compiled : Template.compile "page" Sample.source with
  | error fault => rw [compiled] at goes; cases goes
  | ok template =>
      simp only [compiled, Except.map, Except.ok.injEq] at goes
      obtain ⟨site, site', past, rendered, unrepeated⟩ := Sample.rendered_of_proceeds goes
      have live : Sample.furnished.contains Sample.host = true := by decide +kernel
      have takes : Sample.furnished.content? Sample.host = some (.element (.plain "main" [])) := rfl
      have once : ExactlyOnce (.ofSource Sample.source) none Sample.fewer := by decide +kernel
      obtain ⟨shows, size⟩ := size_of_rendered compiled Sample.wellFormed_furnished live past rendered
        (Sample.eachOnce once) unrepeated _ _ Sample.wellFormed_furnished live rfl
      obtain ⟨fresh, again⟩ := shows ⟨_, takes, rfl⟩
      exact ⟨template, rfl, site, site', fresh, past, rendered, again, size fresh again⟩

/-! ## Clearing -/

/-- Of a household without tenants only what was there before is left. -/
theorem Household.nothing (household : Household base d []) :
    d.content? = base.content? ∧ d.children = base.children ∧ d.parent? = base.parent? := by
  have alive : ∀ x, d.contains x = base.contains x := fun x => by
    rw [Bool.eq_iff_iff, household.alive]
    simp
  have children : d.children = base.children := by
    funext p
    rw [← household.order p, List.filter_eq_self.mpr fun x child => ?_]
    rw [← alive]
    exact household.wellFormed.contains_child child
  refine ⟨?_, children, ?_⟩
  · funext x
    cases live : base.contains x with
    | true => exact household.content x live
    | false => rw [content?_eq_none live, content?_eq_none ((alive x).trans live)]
  · funext x
    exact parent?_congr household.base_wf household.wellFormed fun p => by rw [children]

/-- Clearing frees whatever the renderer made, wherever it stands by then, and
nothing else: the nodes of before are those that are left, with their content,
their parents and their order. -/
theorem clear_of_rendered (compiled : Template.compile name source = .ok template) (wf : WellFormed d)
    (live : d.contains host = true) (past : Rendered (.ofSource source) host ⟨.new template, d⟩ site) :
    ∃ site', Renderer.clear site = .ok () site' ∧ site'.renderer = .new template ∧
      site'.document.content? = d.content? ∧ site'.document.children = d.children ∧
      site'.document.parent? = d.parent? := by
  obtain ⟨stock, roster⟩ := past.roster (unnamed_of_compile compiled) (compiled_of_compile compiled) wf live
  obtain ⟨site', cleared, household, renderer⟩ := roster.clear
  exact ⟨site', cleared, renderer, household.nothing⟩

theorem clear_of_rendered_fewer : ∃ template, Template.compile "page" Sample.source = .ok template ∧
    ∃ site site', Rendered (.ofSource Sample.source) Sample.host ⟨.new template, Sample.furnished⟩ site ∧
      Renderer.clear site = .ok () site' ∧ site'.renderer = .new template ∧
      site'.document.content? = Sample.furnished.content? ∧
      site'.document.children = Sample.furnished.children ∧ site'.document.parent? = Sample.furnished.parent? := by
  have goes : (Template.compile "page" Sample.source).map Sample.proceeds = .ok true := by decide +kernel
  cases compiled : Template.compile "page" Sample.source with
  | error fault => rw [compiled] at goes; cases goes
  | ok template =>
      simp only [compiled, Except.map, Except.ok.injEq] at goes
      obtain ⟨site, site', past, rendered, unrepeated⟩ := Sample.rendered_of_proceeds goes
      have once : ExactlyOnce (.ofSource Sample.source) none Sample.fewer := by decide +kernel
      have live : Sample.furnished.contains Sample.host = true := by decide +kernel
      have shown := past.shown rendered (Sample.eachOnce once) unrepeated
      obtain ⟨site'', cleared, rest⟩ := clear_of_rendered compiled Sample.wellFormed_furnished live shown
      exact ⟨template, rfl, site', site'', shown, cleared, rest⟩

end Inlay.Render
