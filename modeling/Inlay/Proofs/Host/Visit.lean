/-
# Proofs.Host.Visit — a component that is taken off its host and put on one

Whoever disconnects a component calls off the displays that were asked for, waits
until no render runs, gets access to the component and detaches it: what it
rendered is freed, and it has no host any more. Whoever reconnects it gets access,
puts it on a host, gives it back and asks for a display. In between others may
update the component and ask for displays, and the worker may take up renders.

A `Visit` is a stay of a component together with the nodes that its renders have
made. `Does` says once what an occasion can do to the document, to the host and
to the renderer, and whatever happens the document becomes a sequel (`Goes.kept`).
-/
import Inlay.Proofs.Host.Outcome
import Inlay.Proofs.Host.Updates
import Inlay.Proofs.Render.Holdings

namespace Inlay.Host

set_option autoImplicit false

open Inlay.Document
open Render (Renderer LeftAlone ShownOnce withNew)

/-! ## Visits -/

/-- The fault comes from the template, the display or the data, and is found before
the document is changed. -/
def Fault.Early : Fault → Prop
  | .load _ _ => True
  | .compile _ => True
  | .display _ => True
  | .render fault => fault.OfData
  | .settings _ => False

/-- A component on a page, what happened to it, and the nodes that its renders have
made, whether they are still alive or not. -/
structure Visit where
  stay : Stay
  made : NodeId → Prop := fun _ => False

/-- What may happen next. -/
inductive Occasion where
  | incident (incident : Incident)
  /-- The displays that were asked for are called off. -/
  | cancel
  /-- The caller that has the component frees what it rendered and takes it off its
  host. -/
  | detach
  /-- The caller that has the component puts it on a host. -/
  | attach (host : NodeId)

namespace Occasion

/-- The worker goes on. -/
def IsTurn : Occasion → Prop
  | .incident .turn => True
  | .incident (.part _) => True
  | _ => False

/-- The worker does not go on, and the component stays on its host. -/
def IsPlain (occasion : Occasion) : Prop :=
  ¬ occasion.IsTurn ∧ occasion ≠ .detach ∧ ∀ host, occasion ≠ .attach host

theorem isPlain_incident {incident : Incident} (notTurn : ¬ (Occasion.incident incident).IsTurn) :
    (Occasion.incident incident).IsPlain := ⟨notTurn, nofun, nofun⟩

end Occasion

namespace Visit

abbrev page (v : Visit) : Page := v.stay.page

abbrev document (v : Visit) : Document := v.stay.page.document

/-- The visit of a component that is mounted on a page. -/
def mount (page : Page) (state : State) (host : NodeId) (delay : Nat) : Visit where
  stay := { page := (page.mount state host delay).2 }

def onPage (f : Page → Page) (v : Visit) : Visit := { v with stay := { v.stay with page := f v.page } }

/-- A render that ends with the next turn of the worker and fails does so before
it comes to the document. One that goes well shows data of which every template is
reached by one anchor; and the host, if it is there, was there before, and is none
of the nodes that renders of the component have made. -/
structure Fair (task : Nat) (v : Visit) : Prop where
  early : ∀ fault, Stay.Ends task (some fault) v.page → fault.Early
  fits : Stay.Ends task none v.page → ∀ c host renderer, (v.page.go task).component? task = some c →
    c.host = some host → c.renderer = some renderer →
    ShownOnce renderer.template c.state.data ∧
      ((v.page.go task).document.contains host = true → v.document.contains host = true ∧ ¬ v.made host)

/-- Others put only compiled templates in the library, and they leave alone what
renders of the component have made. -/
def Allows (task : Nat) (v : Visit) : Occasion → Prop
  | .incident incident => v.stay.Allows task incident ∧
    match incident with
    | .turn => v.Fair task
    | .part _ => v.Fair task
    | .elsewhere page => page.library.cache.Genuine ∧ LeftAlone v.made v.document page.document
    | _ => True
  | .cancel => True
  | .detach => v.page.hasWorker task (·.lock.isHeldBy .caller) = true
  | .attach _ => v.page.hasWorker task (·.lock.isHeldBy .caller) = true

def perform (task : Nat) (v : Visit) : Occasion → Visit
  | .incident incident =>
    let stay := v.stay.perform task incident
    match incident with
    | .turn => ⟨stay, withNew v.made v.document stay.page.document⟩
    | .part _ => ⟨stay, withNew v.made v.document stay.page.document⟩
    | _ => ⟨stay, v.made⟩
  | .cancel => v.onPage (·.onScheduler task (·.cancel))
  | .detach => v.onPage fun page => (page.detach task).2
  | .attach host => v.onPage (·.onComponent task ({ · with host := some host }))

/-- Occasions of a kind lead from one visit to another. -/
inductive Goes (task : Nat) (kind : Visit → Occasion → Prop) (v : Visit) : Visit → Prop
  | refl : Goes task kind v v
  | step {w : Visit} (occasion : Occasion) : Goes task kind v w → w.Allows task occasion → kind w occasion →
      Goes task kind v (w.perform task occasion)

/-- Any occasion. -/
def Any (_ : Visit) (_ : Occasion) : Prop := True

/-- Any occasion but that the component is put on a host. -/
def Away (_ : Visit) (occasion : Occasion) : Prop := ∀ host, occasion ≠ .attach host

/-- Any occasion but that the component is put on a host or taken off it, or that a
render goes well. -/
def Pending (task : Nat) (v : Visit) (occasion : Occasion) : Prop :=
  (∀ host, occasion ≠ .attach host) ∧ occasion ≠ .detach ∧ (occasion.IsTurn → ¬ Stay.Ends task none v.page)

end Visit

/-! ## What an occasion does -/

namespace Page

variable {page : Page} {task : Nat} {c : Component} {f : Component → Component}

/-- Pages with the same document and the same library. -/
def SameStock (page page' : Page) : Prop := page'.document = page.document ∧ page'.library = page.library

theorem sameStock_onComponent (page : Page) (task : Nat) (f : Component → Component) :
    page.SameStock (page.onComponent task f) := by
  unfold onComponent
  split <;> exact ⟨rfl, rfl⟩

theorem sameStock_onScheduler (page : Page) (task : Nat) (f : Scheduler → Scheduler) :
    page.SameStock (page.onScheduler task f) := by
  unfold onScheduler
  dsimp only
  split <;> exact sameStock_onComponent page task _

theorem sameStock_release (page : Page) (task : Nat) : page.SameStock (page.release task) := by
  unfold release
  dsimp only
  split <;> exact sameStock_onComponent page task _

theorem component?_onScheduler (here : page.component? task = some c) (f : Scheduler → Scheduler) :
    (page.onScheduler task f).component? task =
      some { c with worker := { c.worker with scheduler := f c.worker.scheduler } } := by
  unfold onScheduler
  dsimp only
  split <;> exact component?_onComponent here (show c.task = task from task_of_component? here)

end Page

namespace Visit

variable {task : Nat} {start : Document} {v w : Visit} {c c' : Component} {occasion : Occasion} {host : NodeId}

/-- What an occasion does to the document, to the nodes that were made, and to the
host and the renderer of the component. -/
inductive Does (task : Nat) (v : Visit) (c : Component) : Occasion → Visit → Component → Prop
  | aside {occasion : Occasion} {w : Visit} {c' : Component} : occasion.IsPlain → w.document = v.document →
      w.made = v.made → c'.host = c.host → c'.renderer = c.renderer → Does task v c occasion w c'
  | others {page : Page} {w : Visit} : LeftAlone v.made v.document w.document → w.made = v.made →
      Does task v c (.incident (.elsewhere page)) w c
  | turned {occasion : Occasion} {w : Visit} {c' c₁ : Component} : occasion.IsTurn → v.Fair task →
      (c.turned v.page.agenda.now).Leads v.page (v.page.go task) c₁ → w.document = (v.page.go task).document →
      w.made = withNew v.made v.document w.document → c'.host = c₁.host → c'.renderer = c₁.renderer →
      c'.state = c₁.state → Does task v c occasion w c'
  | detached {w : Visit} {c' : Component} : (v.page.detach task).1 = none → w.made = v.made → c'.host = none →
      c'.renderer = none →
      (c.renderer = none ∧ w.document = v.document ∨ ∃ renderer site, c.renderer = some renderer ∧
        Renderer.clear ⟨renderer, v.document⟩ = .ok () site ∧ w.document = site.document) →
      Does task v c .detach w c'
  | stuck {w : Visit} {c' : Component} {renderer : Renderer} {fault : Render.Fault} {site : Render.Site} :
      c.renderer = some renderer → Renderer.clear ⟨renderer, v.document⟩ = .error fault site →
      w.document = site.document → Does task v c .detach w c'
  | attached {host : NodeId} {w : Visit} {c' : Component} : w.document = v.document → w.made = v.made →
      c'.host = some host → c'.renderer = c.renderer → Does task v c (.attach host) w c'

/-- What is known of the page of a visit, without regard to which nodes are alive. -/
structure Kept (task : Nat) (start : Document) (v : Visit) (c : Component) : Prop where
  here : v.page.component? task = some c
  genuine : v.page.library.cache.Genuine
  informed : c.Informed
  sequel : Sequel start v.document

namespace Kept

variable (kept : Kept task start v c)
include kept

/-- The document and the library are as they were, and so is the progress of a render. -/
theorem aside (same : v.page.SameStock w.page) (here : w.page.component? task = some c')
    (progress : c'.progress = c.progress) : Kept task start w c' where
  here := here
  genuine := by rw [same.2]; exact kept.genuine
  informed := by rw [Component.Informed, progress]; exact kept.informed
  sequel := by rw [document, same.1]; exact kept.sequel

theorem found {c₁ : Component} (leads : (c.turned v.page.agenda.now).Leads v.page (v.page.go task) c₁) :
    (v.page.go task).component? task = some c₁ := by
  have named : c.task = task := Page.task_of_component? kept.here
  exact named ▸ leads.here

theorem ends_of {c₁ : Component} (leads : (c.turned v.page.agenda.now).Leads v.page (v.page.go task) c₁)
    {fault : Option Fault} (worker : c₁.worker = (c.turned v.page.agenda.now).worker.finish v.page.agenda.now fault) :
    Stay.Ends task fault v.page := ⟨c, c₁, kept.here, kept.found leads, worker⟩

theorem leads : ∃ c₁, (c.turned v.page.agenda.now).Leads v.page (v.page.go task) c₁ :=
  Page.go_leads kept.here kept.genuine kept.informed

/-- Nothing comes of an occasion for the document and the renderer. -/
theorem does_aside {worker : Worker} {state : State} (plain : occasion.IsPlain) (made : w.made = v.made)
    (same : v.page.SameStock w.page)
    (here : w.page.component? task = some { c with worker := worker, state := state }) :
    ∃ c', Does task v c occasion w c' ∧ Kept task start w c' :=
  ⟨{ c with worker := worker, state := state }, .aside plain same.1 made rfl rfl, kept.aside same here rfl⟩

/-- The worker goes on; what its scheduler knows of that does not matter. -/
theorem does_turn {stay : Stay} (isTurn : occasion.IsTurn) (fair : v.Fair task)
    (stock : (v.page.go task).SameStock stay.page)
    (here : ∀ c₁, (v.page.go task).component? task = some c₁ →
      ∃ worker, stay.page.component? task = some { c₁ with worker := worker }) :
    ∃ c', Does task v c occasion ⟨stay, withNew v.made v.document stay.page.document⟩ c' ∧
      Kept task start ⟨stay, withNew v.made v.document stay.page.document⟩ c' := by
  obtain ⟨c₁, leads⟩ := kept.leads
  obtain ⟨worker, here⟩ := here c₁ (kept.found leads)
  refine ⟨{ c₁ with worker := worker }, .turned isTurn fair leads stock.1 rfl rfl rfl rfl, here, ?_, leads.informed, ?_⟩
  · rw [stock.2]
    exact leads.genuine
  · rw [document, stock.1]
    exact kept.sequel.trans (leads.outcome.sequel kept.sequel.wellFormed)

/-- Where taking the component off its host leads to. -/
theorem landed {document : Document} {host : Option NodeId} {renderer : Option Renderer}
    (page : (v.page.detach task).2 =
      ({ v.page with document := document } : Page).keep { c with host := host, renderer := renderer })
    (sequel : Sequel v.document document) :
    Kept task start (v.perform task .detach) { c with host := host, renderer := renderer } := by
  have named : c.task = task := Page.task_of_component? kept.here
  subst named
  have here : (v.perform c.task .detach).page = _ := page
  refine ⟨?_, ?_, kept.informed, ?_⟩
  · rw [here]
    let landed : Component := { c with host := host, renderer := renderer }
    have found : ({ v.page with document := document } : Page).component? landed.task = some c := kept.here
    exact Page.component?_keep found
  · rw [here]
    exact kept.genuine
  · show Sequel start (v.page.detach c.task).2.document
    rw [page]
    exact kept.sequel.trans sequel

theorem does_detach :
    ∃ c', Does task v c .detach (v.perform task .detach) c' ∧ Kept task start (v.perform task .detach) c' := by
  have wf := kept.sequel.wellFormed
  cases renderer : c.renderer with
  | none =>
      have did : v.page.detach task = (none, v.page.keep { c with host := none }) := by
        simp only [Page.detach, kept.here, renderer]
      have page := congrArg Prod.snd did
      have same : (v.page.detach task).2.document = v.document := by rw [page]; rfl
      exact ⟨{ c with host := none }, .detached (congrArg Prod.fst did) rfl rfl renderer (.inl ⟨renderer, same⟩),
        kept.landed page (.refl wf)⟩
  | some r =>
      have sequel := Render.Renderer.steady_clear ⟨r, v.document⟩ wf
      cases cleared : Renderer.clear ⟨r, v.document⟩ with
      | ok answer site =>
          have did : v.page.detach task = (none,
              ({ v.page with document := site.document } : Page).keep { c with host := none, renderer := none }) := by
            simp only [Page.detach, kept.here, renderer, cleared]
          have page := congrArg Prod.snd did
          rw [Render.left_ok cleared] at sequel
          exact ⟨{ c with host := none, renderer := none }, .detached (congrArg Prod.fst did) rfl rfl rfl
            (.inr ⟨r, site, renderer, cleared, congrArg Page.document page⟩), kept.landed page sequel⟩
      | error fault site =>
          have did : v.page.detach task = (some (.render fault),
              ({ v.page with document := site.document } : Page).keep { c with renderer := none }) := by
            simp only [Page.detach, kept.here, renderer, cleared]
          have page := congrArg Prod.snd did
          rw [Render.left_error cleared] at sequel
          exact ⟨{ c with renderer := none }, .stuck renderer cleared (congrArg Page.document page),
            kept.landed page sequel⟩

/-- The scheduler is told of a render that has ended, if it is still to be told. -/
theorem does_tell : ∃ c', Does task v c (.incident .tell) (v.perform task (.incident .tell)) c' ∧
    Kept task start (v.perform task (.incident .tell)) c' := by
  have named : c.task = task := Page.task_of_component? kept.here
  cases untold : v.stay.untold with
  | none =>
      have same : v.perform task (.incident .tell) = v := by simp only [perform, Stay.perform, untold]
      rw [same]
      exact kept.does_aside (Occasion.isPlain_incident id) rfl ⟨rfl, rfl⟩ kept.here
  | some fault =>
      let told := fun c : Component =>
        { c with worker := { c.worker with scheduler := c.worker.scheduler.finish v.page.agenda.now fault } }
      have page : (v.perform task (.incident .tell)).page = v.page.onComponent task told := by
        simp only [perform, Stay.perform, untold, told]
      have there := Page.component?_onComponent (f := told) kept.here named
      rw [← page] at there
      exact kept.does_aside (Occasion.isPlain_incident id) rfl (page ▸ Page.sameStock_onComponent _ _ _) there

/-- The scheduler is not told yet of the render that the turn ends. -/
theorem does_part {fault : Option Fault} (fair : v.Fair task) :
    ∃ c', Does task v c (.incident (.part fault)) (v.perform task (.incident (.part fault))) c' ∧
      Kept task start (v.perform task (.incident (.part fault))) c' := by
  let untold := fun c' : Component =>
    { c' with worker := { c'.worker with scheduler := (c.turned v.page.agenda.now).worker.scheduler } }
  have page : Stay.parted task v.page = (v.page.go task).onComponent task untold := by
    rw [Stay.parted, kept.here]
  refine kept.does_turn trivial fair ?_ fun c₁ found => ⟨(untold c₁).worker, ?_⟩
  · show (v.page.go task).SameStock (Stay.parted task v.page)
    rw [page]
    exact Page.sameStock_onComponent _ _ _
  · show (Stay.parted task v.page).component? task = _
    rw [page]
    exact Page.component?_onComponent (f := untold) found (show c₁.task = task from Page.task_of_component? found)

/-- What any occasion does. -/
theorem does (allowed : v.Allows task occasion) :
    ∃ c', Does task v c occasion (v.perform task occasion) c' ∧ Kept task start (v.perform task occasion) c' := by
  have named : c.task = task := Page.task_of_component? kept.here
  have onComponent := fun f => Page.sameStock_onComponent v.page task f
  have onScheduler := fun f => Page.sameStock_onScheduler v.page task f
  cases occasion with
  | incident incident =>
      have plain : ¬ (Occasion.incident incident).IsTurn → (Occasion.incident incident).IsPlain :=
        Occasion.isPlain_incident
      cases incident with
      | request delay => exact kept.does_aside (plain id) rfl (onScheduler _) (Page.component?_request kept.here delay)
      | access => exact kept.does_aside (plain id) rfl (onComponent _) (Page.component?_onLock kept.here _)
      | change f => exact kept.does_aside (plain id) rfl (onComponent _) (Page.component?_onComponent kept.here named)
      | giveBack =>
          exact kept.does_aside (plain id) rfl (Page.sameStock_release _ _) (Page.component?_release kept.here)
      | follow => exact kept.does_aside (plain id) rfl (onScheduler _) (Page.component?_request kept.here none)
      | turn => exact kept.does_turn trivial allowed.2 ⟨rfl, rfl⟩ fun c₁ found => ⟨c₁.worker, found⟩
      | part fault => exact kept.does_part allowed.2
      | tell => exact kept.does_tell
      | pass time => exact kept.does_aside (plain id) rfl ⟨rfl, rfl⟩ kept.here
      | elsewhere page =>
          obtain ⟨same, genuine, alone⟩ := allowed
          exact ⟨c, .others alone rfl, Eq.trans same kept.here, genuine, kept.informed,
            kept.sequel.trans ⟨alone.wellFormed, alone.aged⟩⟩
  | cancel =>
      exact kept.does_aside ⟨id, nofun, nofun⟩ rfl (onScheduler _) (Page.component?_onScheduler kept.here _)
  | detach => exact kept.does_detach
  | attach host =>
      have here := Page.component?_onComponent (f := ({ · with host := some host })) kept.here named
      exact ⟨{ c with host := some host }, .attached (onComponent _).1 rfl rfl rfl, kept.aside (onComponent _) here rfl⟩

end Kept

namespace Goes

variable {kind : Visit → Occasion → Prop}

/-- Whatever happens, the document becomes a sequel. -/
theorem kept (goes : Goes task kind v w) (kept : Kept task start v c) :
    ∃ c', Kept task start w c' ∧ Sequel v.document w.document := by
  induction goes with
  | refl => exact ⟨c, kept, .refl kept.sequel.wellFormed⟩
  | step occasion _ allowed _ ih =>
      obtain ⟨c₁, kept₁, sequel⟩ := ih
      obtain ⟨c₂, -, kept₂⟩ := kept₁.does allowed
      obtain ⟨c₃, kept₃⟩ := Kept.does { kept₁ with sequel := .refl kept₁.sequel.wellFormed } allowed
      exact ⟨c₂, kept₂, sequel.trans kept₃.2.sequel⟩

end Goes

end Visit

end Inlay.Host
