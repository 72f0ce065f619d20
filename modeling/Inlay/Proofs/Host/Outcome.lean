/-
# Proofs.Host.Outcome — what a turn of a worker does to the document

A component may be without a host: then a render shows nothing and counts as one
that went well. With a host a step of a render lets it go on, ends it with a fault
before it comes to the document, or renders data into the document, which answers
or is refused; only that changes the document and the component's renderer
(`Component.Outcome`). The template of a new renderer is one that the library has
compiled (`Component.Informed`), so what is known of renderers of compiled
templates is known of the renderers of components (`go_leads`).
-/
import Inlay.Proofs.Host.Lines
import Inlay.Proofs.Host.Steps
import Inlay.Proofs.Render.Steady

namespace Inlay.Host

set_option autoImplicit false

open Render (Renderer)

/-! ## Time -/

namespace Agenda

variable {agenda : Agenda}

theorem now_wake (task : Nat) : (agenda.wake task).now = agenda.now := by
  unfold wake
  split <;> rfl

theorem now_wakeAll (tasks : List Nat) : (agenda.wakeAll tasks).now = agenda.now := by
  unfold wakeAll
  induction tasks generalizing agenda with
  | nil => rfl
  | cons task rest ih => exact ih.trans (now_wake task)

end Agenda

/-! ## Ends of renders -/

namespace Worker

variable {w : Worker} {now : Nat} {fault fault' : Option Fault}

/-- A render that ends is counted. -/
theorem finish_ne (now : Nat) (fault : Option Fault) : w.finish now fault ≠ w := fun same => by
  have counted := congrArg (·.scheduler.status.renders) same
  cases fault <;> exact Nat.succ_ne_self _ counted

/-- The status tells how a render ended. -/
theorem finish_inj (same : w.finish now fault = w.finish now fault') : fault = fault' := by
  have status : w.scheduler.status.record fault = w.scheduler.status.record fault' :=
    congrArg (·.scheduler.status) same
  cases fault with
  | none =>
      cases fault' with
      | none => rfl
      | some other => exact absurd (congrArg Status.failures status).symm (Nat.succ_ne_self _)
  | some fault =>
      cases fault' with
      | none => exact absurd (congrArg Status.failures status) (Nat.succ_ne_self _)
      | some other => exact congrArg Status.lastFault status

end Worker

/-! ## Outcomes -/

namespace Component

/-- The template that waits for a display was compiled. -/
def Informed (c : Component) : Prop :=
  ∀ template, c.progress = .displaying template → ∃ name markup, Template.compile name markup = .ok template

/-- What becomes of a component and a document with a step of the component's render. -/
inductive Outcome (now : Nat) (c : Component) (document : Document) (c' : Component) (document' : Document) : Prop
  /-- The render goes on. -/
  | goesOn : c'.worker = c.worker → c'.renderer = c.renderer → document' = document →
      Outcome now c document c' document'
  /-- The render ends and has not come to the document. -/
  | ends (fault : Option Fault) : c'.worker = c.worker.finish now fault → c'.renderer = c.renderer →
      document' = document → (fault = none → c.host = none) → Outcome now c document c' document'
  /-- Data were rendered into the host. -/
  | shows {host : NodeId} {template : Template} {name markup : String} {site : Render.Site} :
      c'.worker = c.worker.finish now none → c'.renderer = some site.renderer → document' = site.document →
      c.host = some host → Template.compile name markup = .ok template →
      Renderer.renderInto host c'.state.data ⟨c.renderer.getD (.new template), document⟩ = .ok () site →
      Outcome now c document c' document'
  /-- Rendering data into the host has failed. -/
  | refuses {host : NodeId} {template : Template} {name markup : String} {fault : Render.Fault} {site : Render.Site} :
      c'.worker = c.worker.finish now (some (.render fault)) → c'.renderer = some site.renderer →
      document' = site.document → c.host = some host → Template.compile name markup = .ok template →
      Renderer.renderInto host c'.state.data ⟨c.renderer.getD (.new template), document⟩ = .error fault site →
      Outcome now c document c' document'

namespace Outcome

variable {now : Nat} {c c' : Component} {document document' : Document} {state : State}

/-- What a render leads to does not depend on the state it finds. -/
theorem restate (outcome : Outcome now { c with state := state } document c' document') :
    c.Outcome now document c' document' := by
  cases outcome with
  | goesOn worker renderer same => exact .goesOn worker renderer same
  | ends fault worker renderer same skips => exact .ends fault worker renderer same skips
  | shows worker renderer same host compiled rendered => exact .shows worker renderer same host compiled rendered
  | refuses worker renderer same host compiled rendered => exact .refuses worker renderer same host compiled rendered

/-- The document stays well-formed, and what is freed in it stays accounted for. -/
theorem sequel (outcome : c.Outcome now document c' document') (wf : Document.WellFormed document) :
    Document.Sequel document document' := by
  cases outcome with
  | goesOn _ _ same =>
      rw [same]
      exact .refl wf
  | ends _ _ _ same _ =>
      rw [same]
      exact .refl wf
  | @shows host template _ _ _ _ _ same _ _ rendered =>
      have sequel := Renderer.steady_renderInto host c'.state.data ⟨c.renderer.getD (.new template), document⟩ wf
      rwa [Render.left_ok rendered, ← same] at sequel
  | @refuses host template _ _ _ _ _ _ same _ _ rendered =>
      have sequel := Renderer.steady_renderInto host c'.state.data ⟨c.renderer.getD (.new template), document⟩ wf
      rwa [Render.left_error rendered, ← same] at sequel

end Outcome

/-- A step of a component's render leads from a page to another one. -/
structure Leads (c : Component) (page page' : Page) (c' : Component) : Prop where
  here : page'.component? c.task = some c'
  host : c'.host = c.host
  genuine : page'.library.cache.Genuine
  informed : c'.Informed
  outcome : c.Outcome page.agenda.now page.document c' page'.document

end Component

/-- Without a host a render comes to nothing. -/
theorem Component.Leads.idle {c c' : Component} {page page' : Page} (leads : c.Leads page page' c')
    (absent : c.host = none) :
    c'.renderer = c.renderer ∧ page'.document = page.document := by
  cases leads.outcome with
  | goesOn _ renderer same => exact ⟨renderer, same⟩
  | ends _ _ renderer same _ => exact ⟨renderer, same⟩
  | shows _ _ _ onHost _ _ =>
      rw [absent] at onHost
      cases onHost
  | refuses _ _ _ onHost _ _ =>
      rw [absent] at onHost
      cases onHost

/-- Of the page it finds, only the time and the document matter. -/
theorem Component.Leads.of_alike {c c' : Component} {found page page' : Page} (leads : c.Leads found page' c')
    (now : found.agenda.now = page.agenda.now) (document : found.document = page.document) :
    c.Leads page page' c' :=
  { leads with
    outcome := by
      rw [← now, ← document]
      exact leads.outcome }

namespace Page

variable {page : Page} {task : Nat} {c d : Component} {template : Template} {name markup : String}

/-- A render ends that has not come to the document. -/
theorem finish_leads (here : page.component? c.task = some d) (genuine : page.library.cache.Genuine)
    (fault : Option Fault) (skips : fault = none → c.host = none) :
    ∃ c', c.Leads page (page.finish c fault) c' := by
  obtain ⟨state, -, document, kept⟩ := finish_spec here fault
  exact ⟨_, kept, rfl, genuine, nofun, .ends fault rfl rfl document skips⟩

theorem showDisplay_leads (here : page.component? c.task = some d) (genuine : page.library.cache.Genuine)
    (compiled : Template.compile name markup = .ok template) :
    ∃ c', c.Leads page (page.showDisplay c template) c' := by
  obtain ⟨task, worker, state, host, renderer, progress⟩ := c
  unfold showDisplay
  cases broken : state.broken with
  | some reason => exact finish_leads here genuine _ nofun
  | none =>
      cases host with
      | none => exact finish_leads here genuine none fun _ => rfl
      | some host =>
          dsimp only
          split
          · next site rendered =>
            obtain ⟨state', alike, document, kept⟩ := @finish_spec { page with document := site.document }
              ⟨task, worker, state, some host, some site.renderer, progress⟩ d here none
            exact ⟨_, kept, rfl, genuine, nofun, .shows rfl rfl document rfl compiled (alike.data ▸ rendered)⟩
          · next fault site rendered =>
            obtain ⟨state', alike, document, kept⟩ := @finish_spec { page with document := site.document }
              ⟨task, worker, state, some host, some site.renderer, progress⟩ d here (some (.render fault))
            exact ⟨_, kept, rfl, genuine, nofun, .refuses rfl rfl document rfl compiled (alike.data ▸ rendered)⟩

theorem display_leads (here : page.component? c.task = some d) (genuine : page.library.cache.Genuine)
    (compiled : Template.compile name markup = .ok template) :
    ∃ c', c.Leads page (page.display c template) c' := by
  unfold display
  dsimp only
  split
  · obtain ⟨c', leads⟩ := showDisplay_leads (c := { c with state := c.state.display }) here genuine compiled
    exact ⟨c', leads.here, leads.host, leads.genuine, leads.informed, leads.outcome.restate⟩
  · refine ⟨_, component?_keep (c := { c with state := c.state.display, progress := .displaying template }) here, rfl,
      genuine, fun other same => ?_, .goesOn rfl rfl rfl⟩
    cases same
    exact ⟨name, markup, compiled⟩

theorem note_leads (here : page.component? c.task = some d) {reply : (Library.Reply × List Nat) × Library}
    (genuine : reply.2.cache.Genuine) (answers : Library.Answers name reply.1.1) :
    ∃ c', c.Leads page (page.note c name reply) c' := by
  obtain ⟨⟨reply, woken⟩, library⟩ := reply
  have now : (page.agenda.wakeAll woken).now = page.agenda.now := Agenda.now_wakeAll woken
  unfold note
  cases reply with
  | ready template =>
      obtain ⟨markup, compiled⟩ := answers
      obtain ⟨c', leads⟩ := @display_leads { page with library := library, agenda := page.agenda.wakeAll woken } c d
        template name markup here genuine compiled
      exact ⟨c', leads.of_alike now rfl⟩
  | refused fault =>
      obtain ⟨c', leads⟩ := @finish_leads { page with library := library, agenda := page.agenda.wakeAll woken } c d
        here genuine (some fault) nofun
      exact ⟨c', leads.of_alike now rfl⟩
  | waiting =>
      exact ⟨_, component?_keep (c := { c with progress := .waiting }) here, rfl, genuine, nofun, .goesOn rfl rfl rfl⟩
  | loading =>
      exact ⟨_, component?_keep (c := { c with progress := .loading name }) here, rfl, genuine, nofun,
        .goesOn rfl rfl rfl⟩

theorem seek_leads (here : page.component? c.task = some d) (genuine : page.library.cache.Genuine) :
    ∃ c', c.Leads page (page.seek c) c' := by
  have asked := @Library.genuine_ask page.library c.state.template c.task genuine
  exact note_leads here asked.1 asked.2

theorem beginRender_leads (here : page.component? c.task = some d) (genuine : page.library.cache.Genuine) :
    ∃ c', c.Leads page (page.beginRender c) c' := by
  unfold beginRender
  cases onHost : c.host with
  | none => exact finish_leads here genuine none fun _ => onHost
  | some host => exact seek_leads here genuine

theorem goOn_leads (here : page.component? c.task = some d) (genuine : page.library.cache.Genuine)
    (informed : c.Informed) : ∃ c', c.Leads page (page.goOn c) c' := by
  unfold goOn
  cases progress : c.progress with
  | outset => exact beginRender_leads here genuine
  | waiting => exact seek_leads here genuine
  | loading name =>
      have arrived := @Library.genuine_arrive page.library name genuine
      exact note_leads here arrived.1 arrived.2
  | displaying template =>
      obtain ⟨name, markup, compiled⟩ := informed template progress
      exact showDisplay_leads here genuine compiled

/-- What a worker's turn does, with a host or without one. -/
theorem go_leads (here : page.component? task = some c) (genuine : page.library.cache.Genuine) (informed : c.Informed) :
    ∃ c', (c.turned page.agenda.now).Leads page (page.go task) c' := by
  have named := task_of_component? here
  subst named
  have kept : ((page.keep (c.turned page.agenda.now)).onAgenda (·.silence c.task)).component? c.task =
      some (c.turned page.agenda.now) := component?_keep (c := c.turned page.agenda.now) here
  unfold go
  rw [here]
  dsimp only
  cases (c.worker.turn page.agenda.now).1 with
  | rest => exact ⟨_, kept, rfl, genuine, informed, .goesOn rfl rfl rfl⟩
  | restUntil time => exact ⟨_, kept, rfl, genuine, informed, .goesOn rfl rfl rfl⟩
  | render =>
      obtain ⟨c', leads⟩ := beginRender_leads (c := c.turned page.agenda.now) kept genuine
      exact ⟨c', leads.of_alike rfl rfl⟩
  | goOn =>
      obtain ⟨c', leads⟩ := goOn_leads (c := c.turned page.agenda.now) kept genuine informed
      exact ⟨c', leads.of_alike rfl rfl⟩

end Page

end Inlay.Host
