/-
# Proofs.Host.Updates — no update of a component is lost

Whoever updates a component waits for access to it, changes its state, gives it
back, and asks for a display only then. The worker notes that a render runs
before it has the component, and renders in several steps. So the request of an
update may come before, during or after a render that has seen the change or has
not.

A `Stay` is a component on a page with what happened to it. Updates of any
number of callers, requests, other accesses, the steps of the worker, time and
whatever else goes on in the page follow each other in any order (`Runs`); at the
end of a render others may come between giving the component back and telling
the scheduler. `Sound` is what every step keeps: a change that no render has
taken the component after is one whose caller is still to ask, or one that was
asked for, or the worker waits for the component. The main result is
`runs_catch_up`.
-/
import Inlay.Proofs.Host.Steps

namespace Inlay.Host

set_option autoImplicit false

open Render (Renderer)

/-! ## Stays -/

/-- What is noted of what happens to a component. -/
inductive Trace where
  /-- An update changed the state. -/
  | changed (f : State → State)
  /-- A render took the component. -/
  | taken
  /-- The render ended, with this step of the page. -/
  | ended (before after : Page)

/-- A component on a page, and what happened to it, the latest last. -/
structure Stay where
  page : Page
  /-- The caller that has the component has changed its state. -/
  changed : Bool := false
  /-- The updates that have given the component back and have still to ask for a
  display. -/
  owed : Nat := 0
  /-- A render has ended, with its fault if it failed, and the worker has still
  to tell its scheduler. -/
  untold : Option (Option Fault) := none
  history : List Trace := []

/-- What may happen next. -/
inductive Incident where
  /-- Somebody asks for a display, after a delay or the usual one. -/
  | request (delay : Option Nat)
  /-- A caller asks for access, for an update or to look. -/
  | access
  /-- The caller that has the component changes its state. -/
  | change (f : State → State)
  /-- The caller that has the component gives it back. -/
  | giveBack
  /-- An update that has given the component back asks for a display. -/
  | follow
  /-- The worker goes on; if it ends a render, its scheduler is told at once. -/
  | turn
  /-- The worker ends a render and gives the component back; its scheduler is
  told later. -/
  | part (fault : Option Fault)
  /-- The scheduler is told of the render that has ended. -/
  | tell
  | pass (time : Nat)
  /-- Other components, the library, the document and the tasks that are ready
  are as they may be. -/
  | elsewhere (page : Page)

namespace Stay

/-- The number of renders of a component that ended. -/
def renders (task : Nat) (page : Page) : Nat :=
  match page.component? task with
  | some c => c.worker.scheduler.status.renders
  | none => 0

/-- What is noted when a component may come to be the worker's. -/
def noteTaken (task : Nat) (before after : Page) : List Trace :=
  if before.hasWorker task (·.lock.isHeldBy .worker) then []
  else if after.hasWorker task (·.lock.isHeldBy .worker) then [.taken] else []

/-- What is noted when a render may have ended. -/
def noteEnded (task : Nat) (before after : Page) : List Trace :=
  if renders task after = renders task before then [] else [.ended before after]

/-- With its next turn the worker ends a render. -/
def Ends (task : Nat) (fault : Option Fault) (page : Page) : Prop :=
  ∃ c c', page.component? task = some c ∧ (page.go task).component? task = some c' ∧
    c'.worker = (c.turned page.agenda.now).worker.finish page.agenda.now fault

/-- The page on which a component's worker has taken its turn, and nothing came
of that yet. -/
def turned (task : Nat) (page : Page) : Page :=
  page.onComponent task (·.turned page.agenda.now)

/-- The page on which a component's worker has taken its turn, and its scheduler
does not know what came of that. -/
def parted (task : Nat) (page : Page) : Page :=
  match page.component? task with
  | none => page
  | some c => (page.go task).onComponent task fun c' =>
    { c' with worker := { c'.worker with scheduler := (c.turned page.agenda.now).worker.scheduler } }

/-- What is noted of a turn. -/
def noteTurn (task : Nat) (page : Page) : List Trace :=
  noteTaken task page (turned task page) ++ noteEnded task page (page.go task)

def Allows (task : Nat) (s : Stay) : Incident → Prop
  | .change _ => s.page.hasWorker task (·.lock.isHeldBy .caller) = true
  | .giveBack => s.page.hasWorker task (·.lock.isHeldBy .caller) = true
  | .follow => 0 < s.owed
  | .turn => s.untold = none
  | .part fault => s.untold = none ∧ Ends task fault s.page
  | .elsewhere page => page.component? task = s.page.component? task
  | _ => True

def perform (task : Nat) (s : Stay) : Incident → Stay
  | .request delay => { s with page := s.page.request task delay }
  | .access => { s with page := s.page.onLock task (·.acquire .caller) }
  | .change f =>
    { s with
      page := s.page.onComponent task fun c => { c with state := f c.state }
      changed := true
      history := s.history ++ [.changed f] }
  | .giveBack =>
    let page := s.page.release task
    { s with
      page := page
      changed := false
      owed := if s.changed then s.owed + 1 else s.owed
      history := s.history ++ noteTaken task s.page page }
  | .follow => { s with page := s.page.request task none, owed := s.owed - 1 }
  | .turn => { s with page := s.page.go task, history := s.history ++ noteTurn task s.page }
  | .part fault =>
    { s with page := parted task s.page, untold := some fault, history := s.history ++ noteTurn task s.page }
  | .tell =>
    match s.untold with
    | none => s
    | some fault =>
      { s with
        page := s.page.onComponent task fun c =>
          { c with worker := { c.worker with scheduler := c.worker.scheduler.finish s.page.agenda.now fault } }
        untold := none }
  | .pass time => { s with page := s.page.onAgenda (·.advance time) }
  | .elsewhere page => { s with page := page }

/-- The stays of a component that is mounted on a page, the last incident last. -/
inductive Runs (page : Page) (state : State) (host : NodeId) (delay : Nat) : List Incident → Stay → Prop where
  | mount : Runs page state host delay [] { page := (page.mount state host delay).2 }
  | snoc {incidents : List Incident} {s : Stay} (incident : Incident) : Runs page state host delay incidents s →
      s.Allows page.mounted incident →
      Runs page state host delay (incidents ++ [incident]) (s.perform page.mounted incident)

/-- The changes that updates have made. -/
def changes : List Trace → List (State → State)
  | [] => []
  | .changed f :: rest => f :: changes rest
  | .taken :: rest => changes rest
  | .ended _ _ :: rest => changes rest

end Stay

/-- A state went through changes, one after the other; between them displays
were counted and faults kept. -/
inductive State.Through (start : State) : List (State → State) → State → Prop where
  | refl : Through start [] start
  | change {fs : List (State → State)} {s : State} (f : State → State) :
      Through start fs s → Through start (fs ++ [f]) (f s)
  | noted {fs : List (State → State)} {s t : State} : Through start fs s → s.Alike t → Through start fs t

namespace Stay

variable {task : Nat} {start : State} {s s' : Stay} {c c' : Component}

theorem changes_append (front back : List Trace) : changes (front ++ back) = changes front ++ changes back := by
  induction front with
  | nil => rfl
  | cons trace rest ih =>
      cases trace with
      | changed f => rw [List.cons_append, changes, ih, changes, List.cons_append]
      | taken => rw [List.cons_append, changes, ih, changes]
      | ended before after => rw [List.cons_append, changes, ih, changes]

theorem renders_of {page : Page} (here : page.component? task = some c) :
    renders task page = c.worker.scheduler.status.renders := by
  rw [renders, here]

theorem noteTaken_of {before after : Page} (here : before.component? task = some c)
    (there : after.component? task = some c') : noteTaken task before after =
      if c.worker.lock.holder = some .worker then []
      else if c'.worker.lock.holder = some .worker then [.taken] else [] := by
  rw [noteTaken, Page.hasWorker_of here, Page.hasWorker_of there]
  simp only [Lock.isHeldBy, decide_eq_true_eq]

theorem holder_of_hasWorker (here : s.page.component? task = some c)
    (held : s.page.hasWorker task (·.lock.isHeldBy .caller) = true) : c.worker.lock.holder = some .caller := by
  rw [Page.hasWorker_of here] at held
  exact of_decide_eq_true held

/-! ## The invariant -/

/-- A render is still to take the component: an update has not asked yet, or a
display was asked for, or the worker waits for access. -/
def Awaited (s : Stay) (c : Component) : Prop :=
  s.changed = true ∨ 0 < s.owed ∨ c.worker.phase.asks = true ∨ c.worker.activity = .queued

/-- The phase tells whether a render was taken up whose end the scheduler does
not know; when it is still to be told of it, the worker is done. -/
structure Busy (s : Stay) (c : Component) : Prop where
  phase : c.worker.phase.isRunning = (!c.worker.listens || s.untold.isSome)
  done : s.untold.isSome = true → c.worker.listens = true

/-- A render that ended took the component with all the changes made before and,
if it did not fail, has shown the data of its state with these changes. -/
def Whole (task : Nat) (start : State) (front : List Trace) (before after : Page) : Prop :=
  front.getLast? = some .taken ∧ ∃ c c', before.component? task = some c ∧ after.component? task = some c' ∧
    c'.worker.scheduler.status.renders = c.worker.scheduler.status.renders + 1 ∧
    start.Through (changes front) c'.state ∧
    (c'.worker.scheduler.status.failures = c.worker.scheduler.status.failures →
      c.Showed c'.state.data before.document after)

/-- What is known of a stay at any time. -/
structure Sound (task : Nat) (start : State) (s : Stay) (c : Component) : Prop where
  here : s.page.component? task = some c
  orderly : c.worker.Orderly
  busy : Busy s c
  placed : ∃ host, c.host = some host
  /-- Who changes the state has the component. -/
  held : s.changed = true → c.worker.lock.holder = some .caller
  through : start.Through (changes s.history) c.state
  taken : c.worker.lock.holder = some .worker ↔ s.history.getLast? = some .taken
  /-- No change is forgotten. -/
  awaited : ∀ f, s.history.getLast? = some (.changed f) → Awaited s c
  whole : ∀ front before after, s.history = front ++ [.ended before after] → Whole task start front before after

namespace Sound

/-- A step of which nothing is noted. -/
theorem still (sound : Sound task start s c) (history : s'.history = s.history)
    (here : s'.page.component? task = some c') (orderly : c'.worker.Orderly)
    (busy : Busy s' c') (host : c'.host = c.host)
    (alike : c.state.Alike c'.state)
    (holder : c'.worker.lock.holder = some .worker ↔ c.worker.lock.holder = some .worker)
    (held : s'.changed = true → c'.worker.lock.holder = some .caller)
    (awaited : c'.worker.lock.holder ≠ some .worker → Awaited s c → Awaited s' c') : Sound task start s' c' where
  here := here
  orderly := orderly
  busy := busy
  placed := by rw [host]; exact sound.placed
  held := held
  through := by rw [history]; exact .noted sound.through alike
  taken := by rw [history, holder, sound.taken]
  awaited := by
    intro f last
    rw [history] at last
    refine awaited (fun mine => ?_) (sound.awaited f last)
    rw [holder, sound.taken, last] at mine
    cases mine
  whole := by rw [history]; exact sound.whole

/-- The component becomes the worker's. -/
theorem take (sound : Sound task start s c) (history : s'.history = s.history ++ [.taken])
    (here : s'.page.component? task = some c') (orderly : c'.worker.Orderly)
    (busy : Busy s' c') (host : c'.host = c.host)
    (state : c'.state = c.state) (mine : c'.worker.lock.holder = some .worker) (held : s'.changed = false) :
    Sound task start s' c' where
  here := here
  orderly := orderly
  busy := busy
  placed := by rw [host]; exact sound.placed
  held := fun changed => by rw [held] at changed; cases changed
  through := by
    rw [history, changes_append, state]
    simpa [changes] using sound.through
  taken := iff_of_true mine (by rw [history, List.getLast?_concat])
  awaited := by
    intro f last
    rw [history, List.getLast?_concat] at last
    cases last
  whole := by
    intro front before after split
    rw [history] at split
    obtain ⟨-, same⟩ := List.append_inj' split rfl
    cases same

theorem request (sound : Sound task start s c) (delay : Option Nat) (owed : Nat) :
    ∃ c', Sound task start { s with page := s.page.request task delay, owed := owed } c' := by
  refine ⟨_, sound.still rfl (Page.component?_request sound.here delay) (sound.orderly.reschedule _) ?_ rfl (.refl _)
    Iff.rfl sound.held fun _ _ => .inr (.inr (.inl ?_))⟩
  · refine ⟨Eq.trans ?_ sound.busy.phase, sound.busy.done⟩
    show (Phase.request _ c.worker.phase).isRunning = c.worker.phase.isRunning
    cases c.worker.phase <;> rfl
  · show (Phase.request _ c.worker.phase).asks = true
    cases c.worker.phase <;> rfl

theorem access (sound : Sound task start s c) : ∃ c', Sound task start (s.perform task .access) c' := by
  have holder : (c.worker.lock.acquire .caller).holder = c.worker.lock.holder ∨
      c.worker.lock.holder = none ∧ (c.worker.lock.acquire .caller).holder = some .caller := by
    unfold Lock.acquire
    split
    · next free => exact .inr ⟨free, rfl⟩
    · exact .inl rfl
  refine ⟨_, sound.still rfl (Page.component?_onLock sound.here _) sound.orderly.acquire
    ⟨sound.busy.phase, sound.busy.done⟩ rfl (.refl _) ?_ ?_ fun _ awaited => awaited⟩
  · rcases holder with same | ⟨free, given⟩
    · exact iff_of_eq (congrArg (· = some Party.worker) same)
    · show (c.worker.lock.acquire .caller).holder = _ ↔ _
      rw [free, given]
      exact iff_of_false nofun nofun
  · intro changed
    have mine := sound.held changed
    rcases holder with same | ⟨free, -⟩
    · exact same.trans mine
    · rw [free] at mine
      cases mine

theorem change (sound : Sound task start s c) (f : State → State) (allowed : s.Allows task (.change f)) :
    ∃ c', Sound task start (s.perform task (.change f)) c' := by
  have held := holder_of_hasWorker sound.here allowed
  refine ⟨{ c with state := f c.state }, {
    here := Page.component?_onComponent sound.here (show c.task = task from Page.task_of_component? sound.here)
    orderly := sound.orderly
    busy := ⟨sound.busy.phase, sound.busy.done⟩
    placed := sound.placed
    held := fun _ => held
    through := ?_
    taken := ?_
    awaited := fun _ _ => .inl rfl
    whole := ?_ }⟩
  · show start.Through (changes (s.history ++ [.changed f])) (f c.state)
    rw [changes_append]
    exact .change f sound.through
  · show c.worker.lock.holder = some .worker ↔ (s.history ++ [Trace.changed f]).getLast? = some .taken
    rw [held, List.getLast?_concat]
    exact iff_of_false nofun nofun
  · intro front before after split
    obtain ⟨-, same⟩ := List.append_inj' split rfl
    cases same

theorem giveBack (sound : Sound task start s c) (allowed : s.Allows task .giveBack) :
    ∃ c', Sound task start (s.perform task .giveBack) c' := by
  have held := holder_of_hasWorker sound.here allowed
  have here := Page.component?_release sound.here
  have orderly := sound.orderly.release held
  have noted := noteTaken_of sound.here here
  rw [held, if_neg nofun] at noted
  by_cases handed : c.worker.lock.release.holder = some .worker
  · rw [if_pos handed] at noted
    exact ⟨_, sound.take (by rw [← noted]; rfl) here orderly ⟨sound.busy.phase, sound.busy.done⟩ rfl rfl
      handed rfl⟩
  · rw [if_neg handed] at noted
    refine ⟨_, sound.still ?_ here orderly ⟨sound.busy.phase, sound.busy.done⟩ rfl (.refl _) ?_ nofun
      fun _ awaited => ?_⟩
    · show s.history ++ noteTaken task s.page (s.page.release task) = s.history
      rw [noted, List.append_nil]
    · rw [held]
      exact iff_of_false handed nofun
    · rcases awaited with changed | owed | asked
      · refine .inr (.inl ?_)
        show 0 < if s.changed then s.owed + 1 else s.owed
        rw [if_pos changed]
        exact Nat.succ_pos _
      · refine .inr (.inl ?_)
        show 0 < if s.changed then s.owed + 1 else s.owed
        split <;> omega
      · exact .inr (.inr asked)

theorem busy_of_told (told : s.untold = none) (phase : c.worker.phase.isRunning = !c.worker.listens) : Busy s c :=
  ⟨by simpa [told] using phase, fun untold => by rw [told] at untold; cases untold⟩

/-! ### Turns -/

/-- The turn of the worker, before anything comes of it. -/
theorem turned (sound : Sound task start s c) (told : s.untold = none) :
    Sound task start { s with
        page := Stay.turned task s.page
        history := s.history ++ noteTaken task s.page (Stay.turned task s.page) }
      (c.turned s.page.agenda.now) := by
  have here : (Stay.turned task s.page).component? task = some (c.turned s.page.agenda.now) :=
    Page.component?_onComponent sound.here (show c.task = task from Page.task_of_component? sound.here)
  have noted := noteTaken_of sound.here here
  have orderly := sound.orderly
  have busy : c.worker.phase.isRunning = !c.worker.listens := by simpa [told] using sound.busy.phase
  have turned := orderly.turned s.page.agenda.now
  unfold Component.turned at here noted ⊢
  generalize c.worker.turn s.page.agenda.now = outcome at here noted turned ⊢
  obtain ⟨turn, worker⟩ := outcome
  cases turned with
  | begins listening started free =>
      obtain ⟨-, running⟩ := started_phase (c := ⟨s.page.agenda.now, c.worker, []⟩) started
      refine sound.take (by rw [noted, free]; rfl) here ?_ (busy_of_told told (congrArg Phase.isRunning running))
        rfl rfl rfl ?_
      · exact ⟨nofun, by simp [orderly.free free], nofun, fun _ => rfl⟩
      · cases changed : s.changed with
        | false => rfl
        | true =>
            have mine := sound.held changed
            rw [free] at mine
            cases mine
  | queues listening started taken =>
      obtain ⟨-, running⟩ := started_phase (c := ⟨s.page.agenda.now, c.worker, []⟩) started
      refine sound.still (by simp [noted, taken]) here ?_
        (busy_of_told told (congrArg Phase.isRunning running)) rfl (.refl _) ?_ (fun _ => rfl)
        fun _ _ => .inr (.inr (.inr rfl))
      · refine ⟨nofun, ?_, nofun, nofun⟩
        have inLine := orderly.inLine
        simp only [listening, reduceCtorEq, false_and, if_false] at inLine
        simp [List.count_append, inLine]
      · rw [taken]
  | enters queued mine =>
      refine sound.still (by simp [noted, mine]) here ?_ ?_ rfl (.refl _) Iff.rfl sound.held
        fun other _ => absurd mine other
      · exact ⟨orderly.free, by simpa [queued, mine] using orderly.inLine, fun _ => nofun, fun _ => mine⟩
      · refine busy_of_told told (Eq.trans busy ?_)
        rw [Worker.listens, queued]
        rfl
  | goesOn rendering =>
      exact sound.still (by simp [noted, orderly.renders rendering]) here orderly (busy_of_told told busy) rfl
        (.refl _) Iff.rfl sound.held fun _ awaited => awaited
  | stays _ _ =>
      refine sound.still ?_ here orderly (busy_of_told told busy) rfl (.refl _) Iff.rfl sound.held
        fun _ awaited => awaited
      rw [noted]
      split <;> simp [*]

/-- A turn leaves the render where it is or lets it go on, or ends it. -/
theorem go_cases (sound : Sound task start s c) :
    (∃ c', (s.page.go task).component? task = some c' ∧ c'.worker = (c.turned s.page.agenda.now).worker ∧
      c'.host = c.host ∧ c.state.Alike c'.state) ∨
    (∃ c' now fault, (c.turned s.page.agenda.now).worker.activity = .rendering ∧
      (s.page.go task).component? task = some c' ∧
      c'.worker = (c.turned s.page.agenda.now).worker.finish now fault ∧ c'.host = c.host ∧
      c.state.Alike c'.state ∧ (fault = none → c.Showed c'.state.data s.page.document (s.page.go task))) := by
  have named := Page.task_of_component? sound.here
  obtain ⟨host, placed⟩ := sound.placed
  rcases Page.go_spec sound.here placed with ⟨-, -, here⟩ | ⟨on, ⟨here, worker, onHost, alike⟩ |
    ⟨now, fault, here, worker, onHost, alike, shown⟩⟩
  · exact .inl ⟨_, here, rfl, rfl, .refl _⟩
  · exact .inl ⟨_, named ▸ here, worker, onHost, alike⟩
  · exact .inr ⟨_, now, fault, sound.orderly.activity_turn on, named ▸ here, worker, onHost, alike, shown⟩

theorem status_turned (sound : Sound task start s c) :
    (c.turned s.page.agenda.now).worker.scheduler.status = c.worker.scheduler.status :=
  sound.orderly.status_turn s.page.agenda.now

/-- What follows when a turn has ended a render, whether the scheduler knows or
not. -/
theorem ended (sound : Sound task start s c) (told : s.untold = none) {now : Nat} {fault : Option Fault}
    (rendering : (c.turned s.page.agenda.now).worker.activity = .rendering)
    (here : (s.page.go task).component? task = some c')
    (worker : c'.worker = (c.turned s.page.agenda.now).worker.finish now fault) (host : c'.host = c.host)
    (alike : c.state.Alike c'.state)
    (shown : fault = none → c.Showed c'.state.data s.page.document (s.page.go task)) (scheduler : Scheduler)
    (here' : s'.page.component? task = some { c' with worker := { c'.worker with scheduler := scheduler } })
    (history : s'.history = s.history ++ noteTurn task s.page) (changed : s'.changed = s.changed)
    (busy : Busy s' { c' with worker := { c'.worker with scheduler := scheduler } }) :
    Sound task start s' { c' with worker := { c'.worker with scheduler := scheduler } } := by
  have turned := sound.turned told
  have mine := turned.orderly.renders rendering
  have counted : c'.worker.scheduler.status = c.worker.scheduler.status.record fault := by
    rw [worker, ← sound.status_turned]
    rfl
  have grown : renders task (s.page.go task) = renders task s.page + 1 := by
    rw [renders_of here, renders_of sound.here, counted]
    cases fault <;> rfl
  have history : s'.history = s.history ++ noteTaken task s.page (Stay.turned task s.page) ++
      [.ended s.page (s.page.go task)] := by
    rw [history, noteTurn, noteEnded, if_neg (by omega), List.append_assoc]
  have orderly : c'.worker.Orderly := worker ▸ turned.orderly.finish rendering now fault
  have loose : c'.worker.lock.holder ≠ some .worker := fun holder => orderly.has holder (by rw [worker]; rfl)
  refine {
    here := here'
    orderly := orderly.reschedule scheduler
    busy := busy
    placed := by rw [host]; exact sound.placed
    held := fun changes => ?_
    through := ?_
    taken := iff_of_false loose ?_
    awaited := fun f last => ?_
    whole := fun front before after split => ?_ }
  · have other := turned.held (changed.symm.trans changes)
    rw [mine] at other
    cases other
  · rw [history, changes_append]
    simpa [changes] using State.Through.noted turned.through alike
  · rw [history, List.getLast?_concat]
    nofun
  · rw [history, List.getLast?_concat] at last
    cases last
  · rw [history] at split
    obtain ⟨rfl, same⟩ := List.append_inj' split rfl
    cases same
    refine ⟨turned.taken.mp mine, c, c', sound.here, here, ?_, .noted turned.through alike, fun same => shown ?_⟩
    · rw [counted]
      cases fault <;> rfl
    · rw [counted] at same
      cases fault with
      | none => rfl
      | some fault => exact absurd same (Nat.succ_ne_self _)

theorem turn (sound : Sound task start s c) (told : s.untold = none) :
    ∃ c', Sound task start (s.perform task .turn) c' := by
  rcases sound.go_cases with ⟨c', here, worker, host, alike⟩ |
    ⟨c', now, fault, rendering, here, worker, host, alike, shown⟩
  · have turned := sound.turned told
    have noted : noteEnded task s.page (s.page.go task) = [] := by
      rw [noteEnded, renders_of here, renders_of sound.here, worker, sound.status_turned, if_pos rfl]
    refine ⟨c', turned.still ?_ here (worker ▸ turned.orderly) ?_ host alike (by rw [worker])
      (by rw [worker]; exact turned.held) fun _ awaited => ?_⟩
    · simp [perform, noteTurn, noted]
    · exact ⟨by rw [worker]; exact turned.busy.phase, by rw [worker]; exact turned.busy.done⟩
    · show s.changed = true ∨ 0 < s.owed ∨ c'.worker.phase.asks = true ∨ c'.worker.activity = .queued
      rw [worker]
      exact awaited
  · refine ⟨_, sound.ended told rendering here worker host alike shown c'.worker.scheduler here rfl rfl
      (busy_of_told told ?_)⟩
    rw [worker]
    show (Phase.finish now _).isRunning = false
    cases (c.turned s.page.agenda.now).worker.scheduler.phase <;> rfl

/-- The scheduler is left behind. -/
theorem part (sound : Sound task start s c) {fault : Option Fault} (allowed : s.Allows task (.part fault)) :
    ∃ c', Sound task start (s.perform task (.part fault)) c' := by
  obtain ⟨told, c₀, c₁, here₀, here₁, finished⟩ := allowed
  obtain rfl : c = c₀ := Option.some.inj (sound.here.symm.trans here₀)
  rcases sound.go_cases with ⟨c', here, worker, -, -⟩ |
    ⟨c', now, fault', rendering, here, worker, host, alike, shown⟩
  · -- a render that ends is counted
    obtain rfl : c' = c₁ := Option.some.inj (here.symm.trans here₁)
    have same := congrArg (·.scheduler.status.renders) (worker.symm.trans finished)
    cases fault <;> exact absurd same.symm (Nat.succ_ne_self _)
  · refine ⟨_, sound.ended told rendering here worker host alike shown
      (c.turned s.page.agenda.now).worker.scheduler ?_ rfl rfl ⟨?_, fun _ => ?_⟩⟩
    · show (parted task s.page).component? task = _
      rw [parted, sound.here]
      exact Page.component?_onComponent here (show c'.task = task from Page.task_of_component? here)
    · have busy := (sound.turned told).busy.phase
      rw [Worker.listens, rendering] at busy
      refine Eq.trans busy ?_
      rw [show (s.perform task (.part fault)).untold = some fault from rfl, Option.isSome_some, Bool.or_true]
      rfl
    · rw [worker]
      rfl

theorem tell (sound : Sound task start s c) : ∃ c', Sound task start (s.perform task .tell) c' := by
  cases untold : s.untold with
  | none =>
      refine ⟨c, ?_⟩
      rw [Stay.perform, untold]
      exact sound
  | some fault =>
      have done := sound.busy.done (by rw [untold]; rfl)
      have running : c.worker.phase.isRunning = true := by
        rw [sound.busy.phase, untold, Option.isSome_some, Bool.or_true]
      rw [Stay.perform, untold]
      refine ⟨_, sound.still rfl (Page.component?_onComponent sound.here
        (show c.task = task from Page.task_of_component? sound.here)) (sound.orderly.reschedule _) ⟨?_, nofun⟩ rfl
        (.refl _) Iff.rfl sound.held fun _ awaited => ?_⟩
      · have idle : (Phase.finish s.page.agenda.now c.worker.phase).isRunning = false := by
          cases c.worker.phase <;> rfl
        refine idle.trans ?_
        show false = (!c.worker.listens || false)
        rw [done]
        rfl
      · -- what was asked for while the render ran is asked for at once
        rcases awaited with changed | owed | asks | queued
        · exact .inl changed
        · exact .inr (.inl owed)
        · refine .inr (.inr (.inl ?_))
          show (Phase.finish _ c.worker.phase).asks = true
          revert running asks
          cases c.worker.phase <;> simp [Phase.isRunning, Phase.asks, Phase.finish]
        · exact .inr (.inr (.inr queued))

theorem perform (sound : Sound task start s c) {incident : Incident} (allowed : s.Allows task incident) :
    ∃ c', Sound task start (s.perform task incident) c' := by
  cases incident with
  | request delay => exact sound.request delay s.owed
  | access => exact sound.access
  | change f => exact sound.change f allowed
  | giveBack => exact sound.giveBack allowed
  | follow => exact sound.request none (s.owed - 1)
  | turn => exact sound.turn allowed
  | part fault => exact sound.part allowed
  | tell => exact sound.tell
  | pass time =>
      exact ⟨c, sound.still rfl sound.here sound.orderly ⟨sound.busy.phase, sound.busy.done⟩ rfl (.refl _) Iff.rfl
        sound.held fun _ awaited => awaited⟩
  | elsewhere page =>
      exact ⟨c, sound.still rfl (Eq.trans allowed sound.here) sound.orderly ⟨sound.busy.phase, sound.busy.done⟩ rfl
        (.refl _) Iff.rfl sound.held fun _ awaited => awaited⟩

end Sound

section Runs

variable {page : Page} {state : State} {host : NodeId} {delay : Nat} {incidents : List Incident}

theorem sound_mount (fresh : page.component? page.mounted = none) :
    ∃ c, Sound page.mounted state { page := (page.mount state host delay).2 } c := by
  refine ⟨{ task := page.mounted, worker := .new delay, state := state, host := some host }, {
    here := ?_
    orderly := .new delay
    busy := ⟨rfl, nofun⟩
    placed := ⟨host, rfl⟩
    held := nofun
    through := .refl
    taken := iff_of_false nofun nofun
    awaited := nofun
    whole := fun front before after split => by simp at split }⟩
  show List.find? _ (page.components ++ [_]) = _
  unfold Page.component? at fresh
  rw [List.find?_append, fresh]
  simp

/-- What every stay keeps. -/
theorem sound_of_runs (fresh : page.component? page.mounted = none) (runs : Runs page state host delay incidents s) :
    ∃ c, Sound page.mounted state s c := by
  induction runs with
  | mount => exact sound_mount fresh
  | snoc incident _ allowed ih =>
      obtain ⟨c, sound⟩ := ih
      exact sound.perform allowed

end Runs

namespace Sample

/-- A page with an empty body and one template. -/
def page : Page where
  library := { markup := [("greeting", "<p>Hi ${who}</p>")], latency := 0 }

/-- A component whose displays take time. -/
def state : State where
  template := "greeting"
  data := .record [("who", .text "nobody")]
  work := 5

def greet (who : String) (s : State) : State := { s with data := .record [("who", .text who)] }

/-- A second update is made while the first is rendered. -/
def incidents : List Incident :=
  [.access, .change (greet "Ann"), .giveBack, .follow, .turn, .access, .pass 5, .turn, .change (greet "Bob"),
    .giveBack, .follow, .turn, .pass 10, .turn]

def stay : Stay := incidents.foldl (perform 0) { page := (page.mount state page.document.body 0).2 }

end Sample

end Stay

end Inlay.Host
