/-
# Host.Page — components on a document

A component is mounted on a host element. It has a state, from which its display
takes data after some work, and names the template that shows them. Its worker
renders when a display was asked for: it gets the template from the page's
library, lets the component display, and renders the data into the host.

While a render runs nobody else has access to the component. Whoever changes its
state waits for access, and asks for a display when the change is made.
-/
import Inlay.Host.Library
import Inlay.Host.Worker
import Inlay.Render.Renderer

namespace Inlay.Host

set_option autoImplicit false

/-- The state of a component, and what its displays did. -/
structure State where
  template : String
  data : Datum
  /-- Why the display fails, if it does. -/
  broken : Option String := none
  /-- How long the display takes. -/
  work : Nat := 0
  /-- Faults are not kept. -/
  quiet : Bool := false
  displays : Nat := 0
  failures : List Fault := []

namespace State

/-- A display begins. -/
def display (s : State) : State := { s with displays := s.displays + 1 }

/-- A render failed. -/
def fail (fault : Fault) (s : State) : State :=
  if s.quiet then s else { s with failures := s.failures ++ [fault] }

end State

/-- How far a render got. -/
inductive Progress where
  | outset
  /-- Waits for somebody else's load. -/
  | waiting
  /-- Loads the template of a name. -/
  | loading (name : String)
  /-- The display works. -/
  | displaying (template : Template)

structure Component where
  task : Nat
  worker : Worker
  state : State
  host : Option NodeId
  renderer : Option Render.Renderer := none
  progress : Progress := .outset

structure Page where
  agenda : Agenda := {}
  document : Document := .new
  library : Library
  components : List Component := []
  /-- The number of components that were mounted. -/
  mounted : Nat := 0

namespace Page

def onAgenda (f : Agenda → Agenda) (page : Page) : Page := { page with agenda := f page.agenda }

def component? (task : Nat) (page : Page) : Option Component :=
  page.components.find? (·.task = task)

/-- Puts a component in place of the one of its task. -/
def keep (c : Component) (page : Page) : Page :=
  { page with components := page.components.map fun other => if other.task = c.task then c else other }

/-! ## Renders -/

/-- The render of a component is done. -/
def finish (c : Component) (fault : Option Fault) (page : Page) : Page :=
  let state := match fault with
    | none => c.state
    | some fault => c.state.fail fault
  let worker := c.worker.finish page.agenda.now fault
  (page.keep { c with worker := worker, state := state, progress := .outset }).onAgenda
    (·.resume c.task)

/-- The display has worked: its data are rendered into the host. -/
def showDisplay (c : Component) (template : Template) (page : Page) : Page :=
  match c.state.broken, c.host with
  | some reason, _ => page.finish c (some (.display reason))
  | none, none => page.finish c none
  | none, some host =>
    let renderer := c.renderer.getD (.new template)
    match Render.Renderer.renderInto host c.state.data ⟨renderer, page.document⟩ with
    | .ok _ site =>
      { page with document := site.document }.finish { c with renderer := some site.renderer } none
    | .error fault site =>
      { page with document := site.document }.finish { c with renderer := some site.renderer }
        (some (.render fault))

/-- The template is there: the display begins. -/
def display (c : Component) (template : Template) (page : Page) : Page :=
  let c := { c with state := c.state.display }
  if c.state.work = 0 then page.showDisplay c template
  else
    (page.keep { c with progress := .displaying template }).onAgenda
      (·.setAlarm c.task (page.agenda.now + c.state.work))

/-- Takes notice of what the library replied. -/
def note (c : Component) (name : String) (reply : (Library.Reply × List Nat) × Library)
    (page : Page) : Page :=
  let ((reply, woken), library) := reply
  let page := { page with library := library, agenda := page.agenda.wakeAll woken }
  match reply with
  | .ready template => page.display c template
  | .refused fault => page.finish c (some fault)
  | .waiting => page.keep { c with progress := .waiting }
  | .loading =>
    (page.keep { c with progress := .loading name }).onAgenda
      (·.setAlarm c.task (page.agenda.now + library.latency))

/-- Asks the library for the component's template. -/
def seek (c : Component) (page : Page) : Page :=
  page.note c c.state.template (page.library.ask c.task c.state.template)

/-- The render of a component begins; without a host nothing is shown. -/
def beginRender (c : Component) (page : Page) : Page :=
  match c.host with
  | none => page.finish c none
  | some _ => page.seek c

/-- The render of a component goes on. -/
def goOn (c : Component) (page : Page) : Page :=
  match c.progress with
  | .outset => page.beginRender c
  | .waiting => page.seek c
  | .loading name => page.note c name (page.library.arrive name)
  | .displaying template => page.showDisplay c template

/-- A worker whose component was taken away ends: it stands in line for no
template any more. -/
def depart (task : Nat) (page : Page) : Page :=
  let (woken, cache) := page.library.cache.leave task
  { page with
    library := { page.library with cache := cache }
    agenda := page.agenda.wakeAll woken }

/-- Lets a component's worker go on. -/
def go (task : Nat) (page : Page) : Page :=
  match page.component? task with
  | none => page.depart task
  | some c =>
    let (turn, worker) := c.worker.turn page.agenda.now
    let c := { c with worker := worker }
    let page := (page.keep c).onAgenda (·.silence task)
    match turn with
    | .rest => page
    | .restUntil time => page.onAgenda (·.setAlarm task time)
    | .render => page.beginRender c
    | .goOn => page.goOn c

instance : Timed Page where
  agenda page := page.agenda
  setAgenda agenda page := { page with agenda := agenda }
  go := go
  patience page := page.agenda.ready.length + 16 * (page.components.length + 1)
  stamina page := 8 * (page.components.length + 1)

/-! ## What a caller does -/

/-- Mounts a component; its worker is about to look. -/
def mount (state : State) (host : NodeId) (delay : Nat) (page : Page) : Nat × Page :=
  let task := page.mounted
  let c : Component := { task := task, worker := .new delay, state := state, host := some host }
  (task,
    { page with
      components := page.components ++ [c]
      agenda := page.agenda.wake task
      mounted := task + 1 })

/-- Takes a component away; what it rendered stays. Its worker ends when it
comes to go on the next time. -/
def drop (task : Nat) (page : Page) : Page :=
  { page with
    components := page.components.filter (·.task ≠ task)
    agenda := (page.agenda.silence task).wake task }

/-- Takes a component away and lets go on whoever can, so that its worker has
ended. -/
def dismiss (task : Nat) (page : Page) : Page := Timed.settle (page.drop task)

def onComponent (task : Nat) (f : Component → Component) (page : Page) : Page :=
  match page.component? task with
  | none => page
  | some c => page.keep (f c)

/-- The component's worker has a property. -/
def hasWorker (task : Nat) (holds : Worker → Bool) (page : Page) : Bool :=
  (page.component? task).any (holds ·.worker)

/-- Changes a component's phase, which a worker that listens notices. -/
def onScheduler (task : Nat) (f : Scheduler → Scheduler) (page : Page) : Page :=
  let page := page.onComponent task fun c =>
    { c with worker := { c.worker with scheduler := f c.worker.scheduler } }
  if page.hasWorker task (·.listens) then page.onAgenda (·.wake task) else page

/-- Asks for a display. -/
def request (task : Nat) (delay : Option Nat) (page : Page) : Page :=
  page.onScheduler task (·.request page.agenda.now delay)

/-- No display of the component is asked for and no render runs. -/
def isIdle (task : Nat) (page : Page) : Bool := page.hasWorker task (·.phase = .idle)

/-- Waits until no display is asked for and no render runs; tells whether it
came to that in time. -/
def settled (task : Nat) (page : Page) : Bool × Page := Timed.await (·.isIdle task) page

def onLock (task : Nat) (f : Lock → Lock) (page : Page) : Page :=
  page.onComponent task fun c => { c with worker := { c.worker with lock := f c.worker.lock } }

/-- Waits until access to a component is granted. -/
def acquire (task : Nat) (page : Page) : Page :=
  Timed.attend (·.hasWorker task (·.lock.isHeldBy .caller))
    (page.onLock task (·.acquire .caller))

/-- Gives up access to a component. -/
def release (task : Nat) (page : Page) : Page :=
  let page := page.onLock task (·.release)
  if page.hasWorker task (·.isAdmitted) then page.onAgenda (·.wake task) else page

/-- Waits for access to a component and does something with it. -/
def withAccess (task : Nat) (f : Component → Component) (page : Page) : Page :=
  ((page.acquire task).onComponent task f).release task

/-- Changes a component's state and asks for a display. -/
def update (task : Nat) (f : State → State) (page : Page) : Page :=
  (page.withAccess task fun c => { c with state := f c.state }).request task none

/-- Puts a component on another host and asks for a display. -/
def reconnect (task : Nat) (host : NodeId) (page : Page) : Page :=
  (page.withAccess task ({ · with host := some host })).request task none

/-- Frees what a component rendered and takes it off its host; when freeing
fails, it stays on its host. -/
def detach (task : Nat) (page : Page) : Option Fault × Page :=
  match page.component? task with
  | none => (none, page)
  | some c =>
    match c.renderer with
    | none => (none, page.keep { c with host := none })
    | some renderer =>
      match Render.Renderer.clear ⟨renderer, page.document⟩ with
      | .ok _ site =>
        (none, { page with document := site.document }.keep { c with host := none, renderer := none })
      | .error fault site =>
        (some (.render fault), { page with document := site.document }.keep { c with renderer := none })

/-- Stops asking for displays, waits for a render that runs, however long it
takes, and detaches. -/
def disconnect (task : Nat) (page : Page) : Option Fault × Page :=
  let page := Timed.attend (·.isIdle task) (page.onScheduler task (·.cancel))
  let (fault, page) := (page.acquire task).detach task
  (fault, page.release task)

end Page

end Inlay.Host
