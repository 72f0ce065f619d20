/-
# Proofs.Render.History — what was rendered before does not show

Whatever was rendered before, data that reach every template once are shown as a new
renderer shows them (`renders_as_new`): the host shows their expansion, and then what
it showed before there was a renderer. But the host lets go of a node that it showed
directly and that is shown below it now: it does not know that an anchor has claimed
the node (`renders_otherwise`). So the nodes that it showed are to be shown by it
again, or gone.
-/
import Inlay.Proofs.Render.Settling

namespace Inlay.Render

set_option autoImplicit false

open Inlay.Document Inlay.Markup

variable {base d : Document} {template : Template} {library : Library} {site site' : Site} {stock : Fields (List Tenant)}
  {host : NodeId} {root : Datum} {selection : Option String} {fields : Fields Datum}

theorem ExactlyOnce.atLeastOnce (once : ExactlyOnce library selection fields) : AtLeastOnce library selection fields :=
  throughoutRoot_iff.mpr fun s mem => (throughoutRoot_iff.mp once s mem).wholly

theorem EachOnce.eachReached (once : EachOnce library root) : EachReached template library root :=
  fun selection fields checks => (once selection fields (rooted_of_checked checks)).atLeastOnce

/-- The host shows the expansion of the data, and then what it showed at first. -/
theorem Unhindered.shows (unhindered : Unhindered template library base site stock)
    (unnamed : template.prototype? (some rootName) = none) (compiled : Compiled template library)
    (takes : ∃ c, base.content? host = some c ∧ c.isContainer = true)
    (rendered : Renderer.renderInto host root site = .ok () site') (once : EachOnce library root)
    (unrepeated : Unrepeated site.document site'.document)
    (loyal : Loyal site'.document site.renderer.placed site'.renderer.placed) :
    ∃ selection fields, checked template root = .ok (selection, fields) ∧ site'.document.tag? host = base.tag? host ∧
      AlikeAll (site'.document.forest host) (expansion library selection fields ++ base.forest host) := by
  obtain ⟨selection, fields, -, -, -, -, checks, -⟩ := of_renderInto rendered
  rw [unhindered.roster.shows] at checks
  have once_ := once selection fields (rooted_of_checked checks)
  obtain ⟨pass, stock', nodes, total, d₁, d', claims', parts, answer⟩ :=
    unhindered.answered True unnamed compiled takes checks once.eachReached (fun _ => once_.atMostOnce)
      (by rwa [left_ok rendered])
  cases rendered.symm.trans answer
  have house := parts.house takes
  refine ⟨selection, fields, checks, ?_, parts.forest_alike takes loyal compiled⟩
  rw [tag?, tag?, element?, element?, house.content host (contains_of_takes takes)]

/-- After any calls, data that reach every template once are shown as a new renderer shows them in an equal host,
up to the order of attributes, if the nodes that the host showed are among those of the root again, or gone. -/
theorem renders_as_new {name source : String} (compiled : Template.compile name source = .ok template) (wf : WellFormed d)
    (takes : ∃ c, d.content? host = some c ∧ c.isContainer = true)
    (past : Attempted template (.ofSource source) host ⟨.new template, d⟩ site)
    (rendered : Renderer.renderInto host root site = .ok () site') (once : EachOnce (.ofSource source) root)
    (unrepeated : Unrepeated site.document site'.document)
    (loyal : Loyal site'.document site.renderer.placed site'.renderer.placed) :
    ∀ (d₀ : Document) (host₀ : NodeId), WellFormed d₀ → (∃ c, d₀.content? host₀ = some c ∧ c.isContainer = true) →
      d₀.tag? host₀ = d.tag? host → d₀.forest host₀ = d.forest host →
      ∃ fresh, Renderer.renderInto host₀ root ⟨.new template, d₀⟩ = .ok () fresh ∧
        site'.document.tag? host = fresh.document.tag? host₀ ∧
        AlikeAll (site'.document.forest host) (fresh.document.forest host₀) := by
  intro d₀ host₀ wf₀ takes₀ tag₀ forest₀
  have unnamed := unnamed_of_compile compiled
  have library := compiled_of_compile compiled
  obtain ⟨stock, unhindered⟩ := past.unhindered unnamed library wf takes
  obtain ⟨selection, fields, checks, tag, alike⟩ :=
    unhindered.shows unnamed library takes rendered once unrepeated loyal
  obtain ⟨defined, rooted⟩ := defined_of_checked checks
  obtain ⟨fresh, rendered₀, freshTag, freshForest⟩ :=
    renderInto_new_forest library defined rooted (once selection fields rooted).atMostOnce wf₀ takes₀
  refine ⟨fresh, rendered₀, ?_, ?_⟩
  · rw [tag, freshTag, tag₀]
  · rwa [freshForest, forest₀]

/-- A call that answers is an attempt. -/
theorem Attempted.answered {start : Site} (past : Attempted template library host start site)
    (rendered : Renderer.renderInto host root site = .ok () site') (reached : EachReached template library root)
    (unrepeated : Unrepeated site.document site'.document) : Attempted template library host start site' := by
  have next := past.call reached (by rwa [left_ok rendered])
  rwa [left_ok rendered] at next

/-- Records that reach every template once. -/
theorem eachOnce_record (once : ExactlyOnce library none fields) : EachOnce library (.record fields) := by
  intro selection inner rooted
  cases rooted
  exact once

namespace Sample

/-- A row in an element. -/
def boxed : String := "<div><!--${x}--></div><template id=\"row\"><li>${label}</li></template>"

/-- A row alone. -/
def lone : Datum := .template "row" [("label", .text "a")]

/-- A row in the element. -/
def held (label : String) : Fields Datum := [("x", .template "row" [("label", .text label)])]

/-- The site after a call that answers. -/
def after? (root : Datum) (site : Site) : Option Site :=
  match Renderer.renderInto Sample.host root site with
  | .ok _ site' => some site'
  | .error _ _ => none

theorem of_after? (after : after? root site = some site') : Renderer.renderInto Sample.host root site = .ok () site' := by
  rw [after?] at after
  split at after
  · next rendered =>
    cases after
    exact rendered
  · cases after

theorem eachReached_lone : EachReached template (.ofSource boxed) lone := by
  have once : EachOnce (.ofSource boxed) lone := by
    intro selection fields rooted
    cases rooted
    decide +kernel
  exact once.eachReached

/-- The row alone, then in the element, then another one there; no id comes back, and in the last call the host
lets go of nothing. -/
def recovers (template : Template) : Bool :=
  (after? lone ⟨.new template, document⟩).any fun first =>
    (after? (.record (held "a")) first).any fun second =>
      (after? (.record (held "b")) second).any fun third =>
        decide (Unrepeated document first.document) && decide (Unrepeated first.document second.document) &&
          decide (Unrepeated second.document third.document) &&
          decide (Loyal third.document second.renderer.placed third.renderer.placed)

/-- The row alone, then in the element, and only there; no id comes back. -/
def loses (template : Template) : Bool :=
  (after? lone ⟨.new template, document⟩).any fun first =>
    (after? (.record (held "a")) first).any fun second =>
      (after? (.record (held "a")) ⟨.new template, document⟩).any fun fresh =>
        decide (Unrepeated first.document second.document) &&
          second.document.innerMarkup Sample.host == "<div><!----></div>" &&
          fresh.document.innerMarkup Sample.host == "<div><!----><li>a</li></div>"

end Sample

theorem renders_as_new_recovers : ∃ template, Template.compile "page" Sample.boxed = .ok template ∧
    ∃ site site' fresh, Attempted template (.ofSource Sample.boxed) Sample.host ⟨.new template, Sample.document⟩ site ∧
      Renderer.renderInto Sample.host (.record (Sample.held "b")) site = .ok () site' ∧
      Loyal site'.document site.renderer.placed site'.renderer.placed ∧
      Renderer.renderInto Sample.host (.record (Sample.held "b")) ⟨.new template, Sample.document⟩ = .ok () fresh ∧
      AlikeAll (site'.document.forest Sample.host) (fresh.document.forest Sample.host) := by
  have goes : (Template.compile "page" Sample.boxed).toOption.any Sample.recovers = true := by decide +kernel
  have second : ExactlyOnce (.ofSource Sample.boxed) none (Sample.held "a") := by decide +kernel
  have third : ExactlyOnce (.ofSource Sample.boxed) none (Sample.held "b") := by decide +kernel
  cases compiled : Template.compile "page" Sample.boxed with
  | error fault =>
      rw [compiled] at goes
      cases goes
  | ok template =>
      rw [compiled] at goes
      simp only [Except.toOption, Option.any_some, Sample.recovers, Option.any_eq_true, Bool.and_eq_true,
        decide_eq_true_eq] at goes
      obtain ⟨site₁, one, site₂, two, site₃, three, ⟨⟨unrepeated₁, unrepeated₂⟩, unrepeated₃⟩, loyal⟩ := goes
      have wf : WellFormed Sample.document := (create_becomes wellFormed_new _).2.wellFormed
      have takes : Sample.document.content? Sample.host = some (.element (.plain "main" [])) := rfl
      have past : Attempted template (.ofSource Sample.boxed) Sample.host ⟨.new template, Sample.document⟩ site₂ :=
        (Attempted.nothing.answered (Sample.of_after? one) Sample.eachReached_lone unrepeated₁).answered
          (Sample.of_after? two) (eachOnce_record second).eachReached unrepeated₂
      obtain ⟨fresh, rendered, -, alike⟩ := renders_as_new compiled wf ⟨_, takes, rfl⟩ past (Sample.of_after? three)
        (eachOnce_record third) unrepeated₃ loyal Sample.document Sample.host wf ⟨_, takes, rfl⟩ rfl rfl
      exact ⟨template, rfl, site₂, site₃, fresh, past, Sample.of_after? three, loyal, rendered, alike⟩

/-- A row that the host showed is in the element now, and the host takes it out again. -/
theorem renders_otherwise : ∃ template site site' fresh, Template.compile "page" Sample.boxed = .ok template ∧
    Renderer.renderInto Sample.host Sample.lone ⟨.new template, Sample.document⟩ = .ok () site ∧
    Renderer.renderInto Sample.host (.record (Sample.held "a")) site = .ok () site' ∧
    EachOnce (.ofSource Sample.boxed) (.record (Sample.held "a")) ∧ Unrepeated site.document site'.document ∧
    Renderer.renderInto Sample.host (.record (Sample.held "a")) ⟨.new template, Sample.document⟩ = .ok () fresh ∧
    site'.document.innerMarkup Sample.host = "<div><!----></div>" ∧
    fresh.document.innerMarkup Sample.host = "<div><!----><li>a</li></div>" := by
  have goes : (Template.compile "page" Sample.boxed).toOption.any Sample.loses = true := by decide +kernel
  have once : ExactlyOnce (.ofSource Sample.boxed) none (Sample.held "a") := by decide +kernel
  cases compiled : Template.compile "page" Sample.boxed with
  | error fault =>
      rw [compiled] at goes
      cases goes
  | ok template =>
      rw [compiled] at goes
      simp only [Except.toOption, Option.any_some, Sample.loses, Option.any_eq_true, Bool.and_eq_true,
        decide_eq_true_eq, beq_iff_eq] at goes
      obtain ⟨site₁, one, site₂, two, fresh, three, ⟨unrepeated, lost⟩, shown⟩ := goes
      exact ⟨template, site₁, site₂, fresh, rfl, Sample.of_after? one, Sample.of_after? two, eachOnce_record once,
        unrepeated, Sample.of_after? three, lost, shown⟩

end Inlay.Render
