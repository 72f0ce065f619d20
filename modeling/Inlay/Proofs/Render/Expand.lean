/-
# Proofs.Render.Expand — rendering computes the expansion

A new renderer that shows data in an empty element makes its HTML the HTML of
the expansion of the data (`renderInto_new`), whatever the template and the
data, as long as no template of the data is reached by two anchors.
-/
import Inlay.Proofs.Render.FirstPass

namespace Inlay.Render

set_option autoImplicit false

/-- Rendering into a host is a pass and then placing what it gives. -/
theorem renderInto_ok {site : Site} {host : NodeId} {root : Datum} {nodes : List NodeId} {pass : Pass}
    {d' : Document} {claims' : Claims}
    (rendered : Renderer.render root site = .ok nodes (Renderer.after site pass))
    (placed : reconcile (.within host) site.renderer.placed nodes ⟨pass.stage.document, []⟩ =
      .ok () ⟨d', claims'⟩) :
    Renderer.renderInto host root site = .ok () ⟨⟨site.renderer.template, pass.pools, nodes⟩, d'⟩ := by
  rw [Renderer.renderInto, bind_ok rendered]
  show (Renderer.act (reconcile (.within host) site.renderer.placed nodes) >>= fun _ =>
    modify fun site => { site with renderer := { site.renderer with placed := nodes } })
      (Renderer.after site pass) = _
  have acted : Renderer.act (reconcile (.within host) site.renderer.placed nodes) (Renderer.after site pass) =
      .ok () ⟨(Renderer.after site pass).renderer, d'⟩ := by
    simp only [Renderer.act, Renderer.after, placed]
  rw [bind_ok acted]
  rfl

open Relation Inlay.Document Inlay.Document.Planted Inlay.Markup
open Inlay.Template hiding root

variable {d : Document} {template : Template} {library : Library} {pass : Pass}

/-- Nothing is left over when every instance was used. -/
theorem collect_unspared (unspared : Unspared pass) :
    Passing.collect pass = .ok () { pass with pools := Passing.usedPools pass } := by
  have nothing : Passing.surplus pass = [] := by
    refine List.flatMap_eq_nil_iff.mpr fun entry mem => ?_
    exact List.drop_eq_nil_of_le (unspared.entries entry mem)
  simp [Passing.collect, nothing, Passing.act, pure, EStateM.pure]

/-- A first pass over a document leaves the nodes of the root in a pot. -/
theorem run_new (compiled : Compiled template library) {selection : Option String} {fields : Fields Datum}
    {prototype : Prototype} (known : template.prototype? selection = some prototype)
    (defined : ∀ name ∈ selectionsOfFields fields, template.defines name = true)
    (once : AtMostOnce library selection fields) (wf : WellFormed d) :
    ∃ (pot : Pot) (pass' : Pass), Passing.run template selection fields ⟨⟨d, []⟩, [], []⟩ = .ok pot.roots pass' ∧
      pot.trees = expansion library selection fields ∧ Keeps [] d pass'.stage.document ∧
      pot.Stands pass'.stage.document ∧ ∀ x ∈ pot.ids, d.contains x = false := by
  have unspared : Unspared ⟨⟨d, []⟩, [], []⟩ := ⟨fun _ => rfl, by simp⟩
  obtain ⟨pots, pass₁, done, shows, raised⟩ :=
    resolveFields_new compiled fields 0 defined once.2 unspared wf
  have range : ∀ n ∈ reachedNumbers (library selection) fields,
      0 ≤ n ∧ n < 0 + templateCountOfFields fields := fun n mem =>
    ⟨Nat.zero_le _, by simpa using lt_of_mem_reachedNumbers mem⟩
  obtain ⟨pot, pass₂, shown, trees, unspared₂, grown⟩ :=
    showNext_new compiled known raised.unspared raised.keeps.wellFormed
      (.map (ValueOf.relabelFields pots (outlineOfFields 0 fields)))
      (reached_relabel pots (.map (outlineOfFields 0 fields)) (library selection))
      (fun pot mem => by
        obtain ⟨n, there, rfl⟩ := List.mem_map.mp mem
        exact raised.stands n (range n there).1 (range n there).2)
      (raised.flatMap_nodup once.1 range)
  have whole : Raised ⟨⟨d, []⟩, [], []⟩ pass₂ 0 1 fun _ => pot := raised_template raised range unspared₂ grown
  refine ⟨pot, { pass₂ with pools := Passing.usedPools pass₂ }, ?_, ?_, whole.keeps, grown.stands,
    whole.fresh 0 (Nat.le_refl _) (Nat.lt_succ_self _)⟩
  · rw [Passing.run, bind_ok done]
    refine (bind_ok shown).trans ?_
    rw [bind_ok (collect_unspared unspared₂)]
    rfl
  · simp only [trees, expansion, ValueOf.relabel, shows]

/-- The nodes of a pot may be put anywhere outside it. -/
theorem movable_of_stands (wf : WellFormed d) {host : NodeId} {pot : Pot} (stands : pot.Stands d)
    (outer : host ∉ pot.ids) : ∀ x ∈ pot.roots, Movable d host x := by
  intro x mem
  obtain ⟨p, there, rfl⟩ := List.mem_map.mp mem
  have stands' := standAll_iff.mp stands.stand p there
  refine ⟨stands'.contains _ root_mem_ids, stands'.solid, ?_, fun below => ?_⟩
  · rintro same
    exact stands.body_not_mem wf (same ▸ root_mem_idsAll there)
  · refine outer (List.mem_cons_of_mem _ ?_)
    exact mem_idsAll.mpr ⟨p, there, (stands'.mem_ids wf host).mpr below⟩

/-- Placing the nodes of a pot before what stands in a node that takes children. -/
theorem place_new (wf : WellFormed d) {host : NodeId} {pot : Pot}
    (takes : ∃ c, d.content? host = some c ∧ c.isContainer = true) (stands : pot.Stands d) (outer : host ∉ pot.ids) :
    ∃ d' claims', reconcile (.within host) [] pot.roots ⟨d, []⟩ = .ok () ⟨d', claims'⟩ ∧
      d'.tag? host = d.tag? host ∧ d'.forest host = pot.trees ++ d.forest host := by
  obtain ⟨apart, aside⟩ := not_or.mp (List.mem_cons.not.mp outer)
  have nodup := (List.nodup_cons.mp (stands.nodup wf)).2
  obtain ⟨d', claims', done, becomes, -⟩ := reconcile_within wf [] takes List.not_mem_nil (movable_of_stands wf stands outer)
  have leave : leaving d [] pot.roots [] = pot.roots := by simp [leaving, dropped]
  have once : pot.roots.dedup = pot.roots := List.dedup_eq_self.mpr (nodup.sublist (map_root_sublist _))
  rw [leave, once] at becomes
  -- the roots come from the fragment
  have others : ∀ x, x ≠ pot.fragment → without pot.roots d.children x = d.children x := fun x ne => by
    refine List.filter_eq_self.mpr fun y child => ?_
    simp only [decide_eq_true_eq]
    intro isRoot
    have up := wf.parent_iff.mpr child
    rw [stands.parent? wf isRoot] at up
    exact ne (Option.some.inj up).symm
  have stays : ∀ {ps : List Planted}, StandAll d ps → host ∉ idsAll ps → StandAll d' ps := fun stand away => by
    refine stand.congr fun x mem => ⟨congrFun becomes.content x, ?_⟩
    have ne : x ≠ host := fun same => away (same ▸ mem)
    rw [becomes.children]
    dsimp only
    rw [if_neg ne, others x]
    rintro rfl
    exact not_fragment_of_standAll stand _ mem stands.isFragment
  obtain ⟨ps, kids, stand⟩ := exists_children wf host
  have all : d'.children host = (pot.plants ++ ps).map root := by
    rw [becomes.children, List.map_append, ← kids]
    dsimp only
    rw [if_pos rfl, others host apart]
    rfl
  refine ⟨d', claims', done, by simp [tag?, element?, becomes.content], ?_⟩
  rw [forest_eq becomes.wellFormed (standAll_append.mpr ⟨stays stands.stand aside,
    stays stand (List.nodup_cons.mp (nodup_cons_idsAll wf kids stand)).1⟩) all, forest_eq wf stand kids, trees_append]
  rfl

/-- Data that select defined templates only are rendered from their root. -/
theorem checked_ok {root : Datum} {selection : Option String} {fields : Fields Datum}
    (defined : ∀ name ∈ selections root, template.defines name = true)
    (rooted : rootOf root = .ok (selection, fields)) :
    checked template root = .ok (selection, fields) := by
  have none_ : (selections root).find? (!template.defines ·) = none :=
    List.find?_eq_none.mpr fun name mem => by simp [defined name mem]
  rw [checked, none_, rooted]

/-- What a root selects is defined, and so is everything below it. -/
theorem defined_of_root {root : Datum} {selection : Option String} {fields : Fields Datum}
    (defined : ∀ name ∈ selections root, template.defines name = true)
    (rooted : rootOf root = .ok (selection, fields)) :
    (∃ prototype, template.prototype? selection = some prototype) ∧
      ∀ name ∈ selectionsOfFields fields, template.defines name = true := by
  cases root with
  | record inner =>
      cases rooted
      exact ⟨⟨_, rfl⟩, defined⟩
  | template name inner =>
      cases rooted
      obtain ⟨here, others⟩ := List.forall_mem_cons.mp defined
      exact ⟨defines_iff.mp here, others⟩
  | null => cases rooted
  | bool flag => cases rooted
  | number x => cases rooted
  | text content => cases rooted
  | list items => cases rooted

/-- A new renderer shows data as their expansion, before what the host has shown. -/
theorem renderInto_new_forest {root : Datum} {selection : Option String} {fields : Fields Datum} {host : NodeId}
    (compiled : Compiled template library) (defined : ∀ name ∈ selections root, template.defines name = true)
    (rooted : rootOf root = .ok (selection, fields)) (once : AtMostOnce library selection fields) (wf : WellFormed d)
    (takes : ∃ c, d.content? host = some c ∧ c.isContainer = true) :
    ∃ site, Renderer.renderInto host root ⟨.new template, d⟩ = .ok () site ∧
      site.document.tag? host = d.tag? host ∧
      site.document.forest host = expansion library selection fields ++ d.forest host := by
  obtain ⟨⟨prototype, known⟩, inner⟩ := defined_of_root defined rooted
  obtain ⟨c, content, container⟩ := takes
  have live : d.contains host = true := contains_iff_content?.mpr ⟨_, content⟩
  obtain ⟨pot, pass, ran, trees, keeps, stands, fresh⟩ := run_new compiled known inner once wf
  have outer : host ∉ pot.ids := by
    intro mem
    rw [fresh host mem] at live
    cases live
  have same := keeps.content host live (by simp)
  obtain ⟨d', claims', placed, tag, forest⟩ := place_new keeps.wellFormed ⟨c, same.trans content, container⟩ stands outer
  have rendered : Renderer.render root ⟨.new template, d⟩ =
      .ok pot.roots (Renderer.after ⟨.new template, d⟩ pass) := by
    have checks := checked_ok defined rooted
    simp only [Renderer.render, Renderer.new, checks, ran]
  refine ⟨_, renderInto_ok rendered placed, ?_, ?_⟩
  · rw [tag, tag?, tag?, element?, element?, same]
  · obtain ⟨ps, kids, stand⟩ := exists_children wf host
    have before : pass.stage.document.forest host = d.forest host := by
      rw [forest_eq wf stand kids, forest_eq keeps.wellFormed (keeps.stand stand (by simp))
        ((keeps.children host live (by simp)).trans kids)]
    rw [forest, before, trees]

/-- A new renderer shows data in an empty element as their expansion. -/
theorem renderInto_new {name source : String} {root : Datum} {selection : Option String}
    {fields : Fields Datum} {host : NodeId} {e : Element}
    (compiled : Template.compile name source = .ok template)
    (defined : ∀ name ∈ selections root, template.defines name = true)
    (rooted : rootOf root = .ok (selection, fields))
    (once : AtMostOnce (.ofSource source) selection fields) (wf : WellFormed d)
    (element : d.content? host = some (.element e)) (empty : d.children host = []) :
    ∃ site, Renderer.renderInto host root ⟨.new template, d⟩ = .ok () site ∧
      site.document.innerMarkup host =
        Tree.writeAll true (some e.tag) (expansion (.ofSource source) selection fields) := by
  obtain ⟨site, rendered, tag, forest⟩ :=
    renderInto_new_forest (compiled_of_compile compiled) defined rooted once wf ⟨_, element, rfl⟩
  have bare : d.forest host = [] := by
    rw [Document.forest, empty]
    rfl
  have named : d.tag? host = some e.tag := by simp [tag?, element?, element]
  refine ⟨site, rendered, ?_⟩
  rw [innerMarkup, childMarkup, tag, forest, bare, named, List.append_nil]

namespace Sample

/-- A page with an anchor for rows. -/
def source : String :=
  "<p hidden=\"${off}\" open=\"${on}\">Hi ${t}</p><!--${rows}--><template id=\"r\"><li>${t}</li></template>"

/-- Rows at two depths, a text that is no markup, and nothing. -/
def fields : Fields Datum :=
  [("off", .bool false), ("on", .bool true),
   ("rows", .list [.list [.template "r" [("t", .text "a")]], .text "1 < 2", .null,
     .template "r" [("t", .text "b")]]),
   ("t", .text "T")]

def host : NodeId := (create (.element (.plain "main" [])) .new).1

/-- A document with an empty element. -/
def document : Document := (create (.element (.plain "main" [])) .new).2

end Sample

theorem renderInto_new_page : ∃ template, Template.compile "page" Sample.source = .ok template ∧
    ∃ site, Renderer.renderInto Sample.host (.record Sample.fields) ⟨.new template, Sample.document⟩ =
        .ok () site ∧
      site.document.innerMarkup Sample.host =
        "<p open=\"\">Hi T</p><!----><li>a</li>1 &lt; 2<li>b</li>" := by
  have defined : (Template.compile "page" Sample.source).map
      (fun template => (selections (.record Sample.fields)).all template.defines) = .ok true := by
    decide +kernel
  cases compiled : Template.compile "page" Sample.source with
  | error fault => rw [compiled] at defined; cases defined
  | ok template =>
      simp only [compiled, Except.map, Except.ok.injEq, List.all_eq_true] at defined
      have wf : WellFormed Sample.document := (create_becomes wellFormed_new _).2.wellFormed
      have element : Sample.document.content? Sample.host = some (.element (.plain "main" [])) := rfl
      have once : AtMostOnce (.ofSource Sample.source) none Sample.fields := by decide +kernel
      obtain ⟨site, rendered, markup⟩ := renderInto_new compiled defined rfl once wf element rfl
      refine ⟨template, rfl, site, rendered, markup.trans ?_⟩
      decide +kernel

end Inlay.Render
