/-
# Proofs.Host.Steps — what one step does to a component

A worker's lock stays in order whatever callers and the worker do (`Orderly`),
and a turn of the worker is one of five things (`Turned`). On a page, what a
caller does shows in the component of its task; a step of a render lets it go on
or ends it, and a render that ends without a fault has put the data of the
component's state on its host (`Proceeds`, `go_spec`).
-/
import Inlay.Host.Page
import Inlay.Proofs.Host.Course
import Mathlib.Data.List.Basic
import Mathlib.Data.List.Count

namespace Inlay.Host

set_option autoImplicit false

open Render (Renderer)

/-! ## Workers and their locks -/

/-- Who waits for the lock waits for somebody; the worker is in line for it
exactly while it is queued and has not been handed it, and has it while it
renders. -/
structure Worker.Orderly (w : Worker) : Prop where
  free : w.lock.holder = none → w.lock.queue = []
  inLine : w.lock.queue.count .worker = if w.activity = .queued ∧ w.lock.holder ≠ some .worker then 1 else 0
  has : w.lock.holder = some .worker → w.activity ≠ .listening
  renders : w.activity = .rendering → w.lock.holder = some .worker

namespace Worker.Orderly

variable {w : Worker}

theorem new (delay : Nat) : (Worker.new delay).Orderly where
  free := fun _ => rfl
  inLine := rfl
  has := nofun
  renders := nofun

/-- The lock does not depend on the scheduler. -/
theorem reschedule (orderly : w.Orderly) (scheduler : Scheduler) : Orderly { w with scheduler := scheduler } :=
  ⟨orderly.free, orderly.inLine, orderly.has, orderly.renders⟩

/-- A caller asks for the lock. -/
theorem acquire (orderly : w.Orderly) : Orderly { w with lock := w.lock.acquire .caller } := by
  have inLine := orderly.inLine
  cases holder : w.lock.holder with
  | none =>
      have taken : w.lock.acquire .caller = { w.lock with holder := some .caller } := by simp [Lock.acquire, holder]
      rw [taken]
      refine ⟨fun same => ?_, by simpa [holder] using inLine, fun same => ?_, fun rendering => ?_⟩
      · cases same
      · cases same
      have held := orderly.renders rendering
      rw [holder] at held
      cases held
  | some party =>
      have waits : w.lock.acquire .caller = { w.lock with queue := w.lock.queue ++ [.caller] } := by
        simp [Lock.acquire, holder]
      rw [waits]
      refine ⟨fun none => ?_, by simpa [List.count_append] using inLine, orderly.has, orderly.renders⟩
      rw [holder] at none
      cases none

/-- A lock that is handed on leaves the worker in line, or it is handed to the
worker, who waits for it. -/
theorem handOn {activity : Activity} {scheduler : Scheduler}
    (inLine : w.lock.queue.count .worker = if activity = .queued then 1 else 0) (off : activity ≠ .rendering) :
    Orderly { scheduler := scheduler, lock := w.lock.release, activity := activity } := by
  cases queue : w.lock.queue with
  | nil =>
      have freed : w.lock.release = {} := by rw [Lock.release, queue]
      rw [queue, List.count_nil] at inLine
      have idle : activity ≠ .queued := fun queued => by simp [queued] at inLine
      rw [freed]
      refine ⟨fun _ => rfl, by simp [idle], fun same => ?_, fun rendering => absurd rendering off⟩
      cases same
  | cons party rest =>
      have handed : w.lock.release = ⟨some party, rest⟩ := by rw [Lock.release, queue]
      rw [queue, List.count_cons] at inLine
      rw [handed]
      cases party with
      | worker =>
          have queued : activity = .queued := by
            by_contra other
            simp [other] at inLine
          subst queued
          refine ⟨fun same => ?_, by simpa using inLine, fun _ same => ?_, fun rendering => absurd rendering off⟩
          · cases same
          · cases same
      | caller =>
          refine ⟨fun same => ?_, by simpa using inLine, fun same => ?_, fun rendering => absurd rendering off⟩
          · cases same
          · cases same

/-- A caller hands the lock on. -/
theorem release (orderly : w.Orderly) (held : w.lock.holder = some .caller) :
    Orderly { w with lock := w.lock.release } := by
  refine handOn ?_ fun rendering => ?_
  · rw [orderly.inLine, held]
    simp
  · have mine := orderly.renders rendering
    rw [held] at mine
    cases mine

theorem finish (orderly : w.Orderly) (rendering : w.activity = .rendering) (now : Nat) (fault : Option Fault) :
    (w.finish now fault).Orderly := by
  refine handOn ?_ nofun
  rw [orderly.inLine, rendering]
  rfl

end Worker.Orderly

/-- What a turn of a worker can be. -/
inductive Worker.Turned (now : Nat) (w : Worker) : Turn → Worker → Prop where
  /-- A render is due, and the target is free. -/
  | begins {scheduler : Scheduler} : w.activity = .listening → w.scheduler.start? now = some scheduler →
      w.lock.holder = none → Turned now w .render
        { scheduler := scheduler, lock := ⟨some .worker, w.lock.queue⟩, activity := .rendering }
  /-- A render is due, and somebody has the target. -/
  | queues {scheduler : Scheduler} : w.activity = .listening → w.scheduler.start? now = some scheduler →
      w.lock.holder = some .caller → Turned now w .rest
        { scheduler := scheduler, lock := ⟨some .caller, w.lock.queue ++ [.worker]⟩, activity := .queued }
  /-- The worker was handed the target. -/
  | enters : w.activity = .queued → w.lock.holder = some .worker →
      Turned now w .render { w with activity := .rendering }
  | goesOn : w.activity = .rendering → Turned now w .goOn w
  | stays {turn : Turn} : turn ≠ .render → turn ≠ .goOn → Turned now w turn w

namespace Worker

variable {w : Worker}

theorem status_of_start? {s started : Scheduler} {now : Nat} (starts : s.start? now = some started) :
    started.status = s.status := by
  unfold Scheduler.start? at starts
  split at starts <;> cases starts
  rfl

theorem Orderly.turned (orderly : w.Orderly) (now : Nat) : Turned now w (w.turn now).1 (w.turn now).2 := by
  unfold Worker.turn
  cases activity : w.activity with
  | rendering => exact .goesOn activity
  | queued =>
      simp only
      split
      · next held => exact .enters activity (by simpa [Lock.isHeldBy] using held)
      · exact .stays (fun same => by cases same) (fun same => by cases same)
  | listening =>
      cases started : w.scheduler.start? now with
      | some scheduler =>
          unfold approach
          cases holder : w.lock.holder with
          | none =>
              have taken : w.lock.acquire .worker = { w.lock with holder := some .worker } := by
                simp [Lock.acquire, holder]
              simp only [taken, Lock.isHeldBy, decide_true, if_pos]
              exact .begins activity started holder
          | some party =>
              have other : party = .caller := by
                cases party with
                | caller => rfl
                | worker => exact absurd activity (orderly.has holder)
              subst other
              have waits : w.lock.acquire .worker = { w.lock with queue := w.lock.queue ++ [.worker] } := by
                simp [Lock.acquire, holder]
              simp only [waits, Lock.isHeldBy, holder]
              rw [if_neg (by decide)]
              exact .queues activity started holder
      | none =>
          simp only
          split <;> exact .stays (fun same => by cases same) (fun same => by cases same)

/-- A turn counts nothing. -/
theorem Orderly.status_turn (orderly : w.Orderly) (now : Nat) :
    (w.turn now).2.scheduler.status = w.scheduler.status := by
  have turned := orderly.turned now
  generalize w.turn now = outcome at turned
  obtain ⟨turn, worker⟩ := outcome
  cases turned with
  | begins _ started _ => exact status_of_start? started
  | queues _ started _ => exact status_of_start? started
  | enters _ _ => rfl
  | goesOn _ => rfl
  | stays _ _ => rfl

/-- A worker renders where a turn lets a render begin or go on. -/
theorem Orderly.activity_turn (orderly : w.Orderly) {now : Nat}
    (on : (w.turn now).1 = .render ∨ (w.turn now).1 = .goOn) : (w.turn now).2.activity = .rendering := by
  have turned := orderly.turned now
  generalize w.turn now = outcome at turned on
  obtain ⟨turn, worker⟩ := outcome
  cases turned with
  | begins _ _ _ => rfl
  | queues _ _ _ => rcases on with on | on <;> cases on
  | enters _ _ => rfl
  | goesOn rendering => exact rendering
  | stays off offToo => exact absurd on (not_or.mpr ⟨off, offToo⟩)

end Worker

/-! ## Components in their places -/

namespace Page

variable {page : Page} {task : Nat} {c d : Component}

theorem task_of_component? (found : page.component? task = some c) : c.task = task := by
  simpa using List.find?_some found

theorem component?_keep (here : page.component? c.task = some d) : (page.keep c).component? c.task = some c := by
  have place : (fun other : Component => decide (other.task = c.task)) ∘
      (fun other => if other.task = c.task then c else other) = fun other => decide (other.task = c.task) := by
    funext other
    simp only [Function.comp]
    split
    · next same => simp [same]
    · rfl
  unfold component? at here
  rw [component?, keep, List.find?_map, place, here, Option.map_some, if_pos (by simpa using List.find?_some here)]

theorem component?_onComponent {f : Component → Component} (here : page.component? task = some c)
    (same : (f c).task = task) : (page.onComponent task f).component? task = some (f c) := by
  rw [onComponent, here]
  subst same
  exact component?_keep here

theorem component?_onLock (here : page.component? task = some c) (f : Lock → Lock) :
    (page.onLock task f).component? task = some { c with worker := { c.worker with lock := f c.worker.lock } } :=
  component?_onComponent here (show c.task = task from task_of_component? here)

theorem component?_release (here : page.component? task = some c) :
    (page.release task).component? task =
      some { c with worker := { c.worker with lock := c.worker.lock.release } } := by
  unfold release
  dsimp only
  split <;> exact component?_onLock here _

theorem component?_request (here : page.component? task = some c) (delay : Option Nat) :
    (page.request task delay).component? task =
      some { c with worker := { c.worker with scheduler := c.worker.scheduler.request page.agenda.now delay } } := by
  unfold request onScheduler
  dsimp only
  split <;> exact component?_onComponent here (show c.task = task from task_of_component? here)

theorem hasWorker_of (here : page.component? task = some c) (holds : Worker → Bool) :
    page.hasWorker task holds = holds c.worker := by
  rw [hasWorker, here]
  rfl

end Page

/-! ## One step of a render -/

/-- States that differ in the count of displays and the faults only. -/
structure State.Alike (s t : State) : Prop where
  template : t.template = s.template
  data : t.data = s.data
  broken : t.broken = s.broken
  work : t.work = s.work
  quiet : t.quiet = s.quiet

namespace State.Alike

variable {s t u : State}

theorem refl (s : State) : s.Alike s := ⟨rfl, rfl, rfl, rfl, rfl⟩

theorem trans (first : s.Alike t) (second : t.Alike u) : s.Alike u :=
  ⟨second.template.trans first.template, second.data.trans first.data, second.broken.trans first.broken,
    second.work.trans first.work, second.quiet.trans first.quiet⟩

theorem display (s : State) : s.Alike s.display := ⟨rfl, rfl, rfl, rfl, rfl⟩

theorem fail (fault : Fault) (s : State) : s.Alike (s.fail fault) := by
  unfold State.fail
  split <;> exact ⟨rfl, rfl, rfl, rfl, rfl⟩

end State.Alike

/-- A component whose worker has taken its turn. -/
def Component.turned (now : Nat) (c : Component) : Component := { c with worker := (c.worker.turn now).2 }

/-- Data were rendered into the host of a component, in a document that has
become that of a page. -/
def Component.Showed (c : Component) (data : Datum) (document : Document) (page : Page) : Prop :=
  ∃ host template site, c.host = some host ∧
    Renderer.renderInto host data ⟨c.renderer.getD (.new template), document⟩ = .ok () site ∧
    page.document = site.document

/-- What a step of a component's render does: the render goes on or ends, and if
it ends without a fault, the data of the state were rendered. -/
inductive Component.Proceeds (c : Component) (document : Document) (page : Page) : Prop where
  | goesOn {c' : Component} : page.component? c.task = some c' → c'.worker = c.worker → c'.host = c.host →
      c.state.Alike c'.state → Proceeds c document page
  | ends {c' : Component} (now : Nat) (fault : Option Fault) : page.component? c.task = some c' →
      c'.worker = c.worker.finish now fault → c'.host = c.host → c.state.Alike c'.state →
      (fault = none → c.Showed c'.state.data document page) → Proceeds c document page

namespace Page

variable {page : Page} {c d : Component} {host : NodeId}

/-- A render ends. -/
theorem finish_spec (here : page.component? c.task = some d) (fault : Option Fault) :
    ∃ state, c.state.Alike state ∧ (page.finish c fault).document = page.document ∧
      (page.finish c fault).component? c.task =
        some { c with worker := c.worker.finish page.agenda.now fault, state := state, progress := .outset } := by
  cases fault with
  | none =>
      exact ⟨c.state, .refl c.state, rfl, component?_keep (c := { c with
        worker := c.worker.finish page.agenda.now none, progress := .outset }) here⟩
  | some fault =>
      exact ⟨c.state.fail fault, .fail fault c.state, rfl, component?_keep (c := { c with
        worker := c.worker.finish page.agenda.now (some fault), state := c.state.fail fault, progress := .outset }) here⟩

theorem finish_proceeds (here : page.component? c.task = some d) (fault : Fault) :
    c.Proceeds page.document (page.finish c (some fault)) := by
  obtain ⟨state, alike, -, kept⟩ := finish_spec here (some fault)
  exact .ends page.agenda.now (some fault) kept rfl rfl alike nofun

theorem showDisplay_proceeds (here : page.component? c.task = some d) (placed : c.host = some host)
    (template : Template) : c.Proceeds page.document (page.showDisplay c template) := by
  obtain ⟨task, worker, state, _, renderer, progress⟩ := c
  subst placed
  unfold showDisplay
  cases broken : state.broken with
  | some reason => exact finish_proceeds here _
  | none =>
      dsimp only
      split
      · next site rendered =>
        obtain ⟨state, alike, document, kept⟩ := @finish_spec { page with document := site.document }
          ⟨task, worker, state, some host, some site.renderer, progress⟩ d here none
        exact .ends page.agenda.now none kept rfl rfl alike fun _ =>
          ⟨host, template, site, rfl, alike.data ▸ rendered, document⟩
      · next fault site rendered =>
        obtain ⟨state, alike, -, kept⟩ := @finish_spec { page with document := site.document }
          ⟨task, worker, state, some host, some site.renderer, progress⟩ d here (some (.render fault))
        exact .ends page.agenda.now (some (.render fault)) kept rfl rfl alike nofun

theorem display_proceeds (here : page.component? c.task = some d) (placed : c.host = some host)
    (template : Template) : c.Proceeds page.document (page.display c template) := by
  unfold display
  dsimp only
  split
  · rcases showDisplay_proceeds (c := { c with state := c.state.display }) here placed template with
      ⟨kept, worker, host, alike⟩ | ⟨now, fault, kept, worker, host, alike, shown⟩
    · exact .goesOn kept worker host ((State.Alike.display _).trans alike)
    · exact .ends now fault kept worker host ((State.Alike.display _).trans alike) shown
  · exact .goesOn (component?_keep (c := { c with state := c.state.display, progress := .displaying template }) here)
      rfl rfl (.display _)

theorem note_proceeds (here : page.component? c.task = some d) (placed : c.host = some host) (name : String)
    (reply : (Library.Reply × List Nat) × Library) : c.Proceeds page.document (page.note c name reply) := by
  obtain ⟨⟨reply, woken⟩, library⟩ := reply
  unfold note
  cases reply with
  | ready template =>
      rcases @display_proceeds { page with library := library, agenda := page.agenda.wakeAll woken } c d host
        here placed template with ⟨kept, worker, host, alike⟩ | ⟨now, fault, kept, worker, host, alike, shown⟩
      · exact .goesOn kept worker host alike
      · exact .ends now fault kept worker host alike shown
  | refused fault =>
      obtain ⟨state, alike, -, kept⟩ := @finish_spec
        { page with library := library, agenda := page.agenda.wakeAll woken } c d here (some fault)
      exact .ends _ (some fault) kept rfl rfl alike nofun
  | waiting => exact .goesOn (component?_keep (c := { c with progress := .waiting }) here) rfl rfl (.refl _)
  | loading => exact .goesOn (component?_keep (c := { c with progress := .loading name }) here) rfl rfl (.refl _)

theorem beginRender_proceeds (here : page.component? c.task = some d) (placed : c.host = some host) :
    c.Proceeds page.document (page.beginRender c) := by
  rw [beginRender, placed]
  exact note_proceeds here placed _ _

theorem goOn_proceeds (here : page.component? c.task = some d) (placed : c.host = some host) :
    c.Proceeds page.document (page.goOn c) := by
  unfold goOn
  cases c.progress with
  | outset => exact beginRender_proceeds here placed
  | waiting => exact note_proceeds here placed _ _
  | loading name => exact note_proceeds here placed _ _
  | displaying template => exact showDisplay_proceeds here placed template

/-- Where a worker's turn leaves its component. -/
theorem go_spec {task : Nat} (here : page.component? task = some c) (placed : c.host = some host) :
    (c.worker.turn page.agenda.now).1 ≠ .render ∧ (c.worker.turn page.agenda.now).1 ≠ .goOn ∧
        (page.go task).component? task = some (c.turned page.agenda.now) ∨
      ((c.worker.turn page.agenda.now).1 = .render ∨ (c.worker.turn page.agenda.now).1 = .goOn) ∧
        (c.turned page.agenda.now).Proceeds page.document (page.go task) := by
  have named := task_of_component? here
  subst named
  have kept : ((page.keep (c.turned page.agenda.now)).onAgenda (·.silence c.task)).component? c.task =
      some (c.turned page.agenda.now) := component?_keep (c := c.turned page.agenda.now) here
  unfold go
  rw [here]
  dsimp only
  cases (c.worker.turn page.agenda.now).1 with
  | rest => exact .inl ⟨nofun, nofun, kept⟩
  | restUntil time => exact .inl ⟨nofun, nofun, kept⟩
  | render => exact .inr ⟨.inl rfl, beginRender_proceeds (c := c.turned page.agenda.now) kept placed⟩
  | goOn => exact .inr ⟨.inr rfl, goOn_proceeds (c := c.turned page.agenda.now) kept placed⟩

end Page

end Inlay.Host
