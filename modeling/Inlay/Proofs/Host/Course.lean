/-
# Proofs.Host.Course — every request is served by a render that starts after it

A `Course` is a worker in time with the history of its scheduler: requests,
cancellations, and the starts and ends of renders. Callers ask for renders,
cancel them and take the target for a while, time passes, the worker takes its
turns and the render that runs ends, in any order that is possible (`Runs`). A
worker may take a turn at any time, so whatever wakes it is covered.

A render starts when the worker takes it up: from there on the phase tells that
one is in progress. The worker then waits for the target if a caller has it;
when no caller takes the target, a render that has started is being rendered.

`Sound` is what every step keeps. The main result, `runs_serve`, says of every
run that renders do not overlap and that the phase tells when one is in
progress, that no request is dropped, and that no render starts without one.
-/
import Inlay.Host.Worker
import Mathlib.Data.List.Basic
import Mathlib.Data.List.Count

namespace Inlay.Host

set_option autoImplicit false

/-! ## Runs -/

/-- What happened to a scheduler. -/
inductive Mark where
  | requested
  | cancelled
  | started
  | ended
  deriving DecidableEq

/-- A worker at a time, and what happened before, the latest last. -/
structure Course where
  now : Nat := 0
  worker : Worker
  history : List Mark := []

/-- What may happen next. -/
inductive Event where
  /-- A caller asks for a render, after a delay or the usual one. -/
  | request (delay : Option Nat)
  | cancel
  /-- Time passes. -/
  | pass (duration : Nat)
  /-- The worker goes on. -/
  | turn
  /-- The render ends, with its fault if it failed. -/
  | finish (fault : Option Fault)
  /-- A caller asks for the target. -/
  | take
  /-- A caller hands the target back. -/
  | give
  deriving DecidableEq

namespace Course

variable {c : Course}

/-- A worker that was asked for nothing yet. -/
def start (delay : Nat) : Course := { worker := .new delay }

def phase (c : Course) : Phase := c.worker.phase

/-- Only a render that runs can end, and only who has the target gives it back. -/
def Allows (c : Course) : Event → Prop
  | .finish _ => c.worker.activity = .rendering
  | .give => c.worker.lock.isHeldBy .caller = true
  | _ => True

/-- What the history says of a turn that left a worker: that a render started,
if the worker has stopped listening. -/
def noted (before after : Worker) : List Mark :=
  if before.listens ∧ ¬ after.listens then [.started] else []

def perform (c : Course) : Event → Course
  | .request delay =>
    { c with
      worker := { c.worker with scheduler := c.worker.scheduler.request c.now delay }
      history := c.history ++ [.requested] }
  | .cancel =>
    { c with
      worker := { c.worker with scheduler := c.worker.scheduler.cancel }
      history := c.history ++ [.cancelled] }
  | .pass duration => { c with now := c.now + duration }
  | .turn =>
    let worker := (c.worker.turn c.now).2
    { c with worker := worker, history := c.history ++ noted c.worker worker }
  | .finish fault =>
    { c with worker := c.worker.finish c.now fault, history := c.history ++ [.ended] }
  | .take => { c with worker := { c.worker with lock := c.worker.lock.acquire .caller } }
  | .give => { c with worker := { c.worker with lock := c.worker.lock.release } }

/-- The courses that events lead to, the last event last. -/
inductive Runs (delay : Nat) : List Event → Course → Prop where
  | nil : Runs delay [] (start delay)
  | snoc {events : List Event} {c : Course} (event : Event) :
      Runs delay events c → c.Allows event → Runs delay (events ++ [event]) (c.perform event)

end Course

/-! ## Requests that wait -/

/-- A render is still to start. -/
def Phase.asks : Phase → Bool
  | .scheduled _ => true
  | .runningPending => true
  | _ => false

/-- Some request is followed neither by the start of a render nor by a
cancellation. -/
def Unmet (history : List Mark) : Prop :=
  ∃ front back, history = front ++ .requested :: back ∧ .started ∉ back ∧ .cancelled ∉ back

theorem unmet_requested (history : List Mark) : Unmet (history ++ [.requested]) :=
  ⟨history, [], rfl, List.not_mem_nil, List.not_mem_nil⟩

/-- A mark other than a request leaves the last request where it is. -/
theorem unmet_snoc {history : List Mark} {mark : Mark} (other : mark ≠ .requested) :
    Unmet (history ++ [mark]) ↔ Unmet history ∧ mark ≠ .started ∧ mark ≠ .cancelled := by
  constructor
  · rintro ⟨front, back, split, start, cancel⟩
    rcases List.eq_nil_or_concat' back with rfl | ⟨back, last, rfl⟩
    · obtain ⟨-, same⟩ := List.append_inj' split rfl
      cases same
      exact absurd rfl other
    · rw [← List.cons_append, ← List.append_assoc] at split
      obtain ⟨rest, same⟩ := List.append_inj' split rfl
      cases same
      simp only [List.mem_append, List.mem_singleton, not_or] at start cancel
      exact ⟨⟨front, back, rest, start.1, cancel.1⟩, Ne.symm start.2, Ne.symm cancel.2⟩
  · rintro ⟨⟨front, back, rfl, start, cancel⟩, noStart, noCancel⟩
    refine ⟨front, back ++ [mark], by simp, ?_, ?_⟩
    · simpa using ⟨start, Ne.symm noStart⟩
    · simpa using ⟨cancel, Ne.symm noCancel⟩

theorem not_unmet_nil : ¬ Unmet [] := by
  rintro ⟨front, back, split, -⟩
  cases front <;> cases split

/-- Where no request waits, each one was followed by a start or a cancellation. -/
theorem met_of_not_unmet {front back : List Mark} (met : ¬ Unmet (front ++ .requested :: back)) :
    .started ∈ back ∨ .cancelled ∈ back := by
  by_contra none
  rw [not_or] at none
  exact met ⟨front, back, rfl, none.1, none.2⟩

/-! ## The invariant -/

/-- Renders start and end in turn. -/
def Alternates (history : List Mark) : Prop :=
  ∀ past, past <+: history →
    past.count .ended ≤ past.count .started ∧ past.count .started ≤ past.count .ended + 1

/-- A request waits wherever a render starts. -/
def Founded (history : List Mark) : Prop :=
  ∀ front back, history = front ++ .started :: back → Unmet front

theorem alternates_snoc {history : List Mark} {mark : Mark} (before : Alternates history)
    (last : (history ++ [mark]).count .ended ≤ (history ++ [mark]).count .started ∧
      (history ++ [mark]).count .started ≤ (history ++ [mark]).count .ended + 1) :
    Alternates (history ++ [mark]) := by
  intro past isPrefix
  rcases List.prefix_concat_iff.mp isPrefix with rfl | shorter
  · exact last
  · exact before past shorter

theorem founded_snoc {history : List Mark} {mark : Mark} (before : Founded history)
    (last : mark = .started → Unmet history) : Founded (history ++ [mark]) := by
  intro front back split
  rcases List.eq_nil_or_concat' back with rfl | ⟨back, mark', rfl⟩
  · obtain ⟨rfl, same⟩ := List.append_inj' split rfl
    cases same
    exact last rfl
  · rw [← List.cons_append, ← List.append_assoc] at split
    obtain ⟨rest, -⟩ := List.append_inj' split rfl
    exact before front back rest

/-- What is known of a course at any time. -/
structure Sound (c : Course) : Prop where
  /-- The phase tells whether the worker has taken up a render. -/
  busy : c.phase.isRunning = !c.worker.listens
  balance : c.history.count .started =
    c.history.count .ended + if c.phase.isRunning then 1 else 0
  alternates : Alternates c.history
  asks : c.phase.asks = true ↔ Unmet c.history
  founded : Founded c.history

/-- No caller has the target or waits for it, and the worker has it exactly
while it renders. -/
structure Unshared (c : Course) : Prop where
  queue : c.worker.lock.queue = []
  holder : c.worker.lock.holder = if c.worker.listens then none else some .worker
  admitted : c.worker.activity ≠ .queued

namespace Sound

variable {c : Course}

theorem start (delay : Nat) : Sound (.start delay) where
  busy := rfl
  balance := rfl
  alternates := by
    intro past isPrefix
    rw [List.prefix_nil.mp isPrefix]
    decide
  asks := iff_of_false Bool.false_ne_true not_unmet_nil
  founded := by
    intro front back split
    cases front <;> cases split

/-- The step that changes the phase and notes a mark. -/
theorem note {c' : Course} (sound : Sound c) (mark : Mark) (history : c'.history = c.history ++ [mark])
    (busy : c'.phase.isRunning = !c'.worker.listens)
    (renders : mark = .started ∧ c.phase.isRunning = false ∧ c'.phase.isRunning = true ∨
      mark = .ended ∧ c.phase.isRunning = true ∧ c'.phase.isRunning = false ∨
      mark ≠ .started ∧ mark ≠ .ended ∧ c'.phase.isRunning = c.phase.isRunning)
    (asks : c'.phase.asks = true ↔ Unmet c'.history)
    (due : mark = .started → c.phase.asks = true) : Sound c' := by
  have balance := sound.balance
  have counted : (c.history ++ [mark]).count .started =
      (c.history ++ [mark]).count .ended + if c'.phase.isRunning then 1 else 0 := by
    simp only [List.count_append, List.count_singleton]
    rcases renders with ⟨rfl, off, on⟩ | ⟨rfl, on, off⟩ | ⟨noStart, noEnd, same⟩
    · simp only [off, on] at balance ⊢
      simpa using balance
    · simp only [off, on] at balance ⊢
      simpa using balance
    · simpa [noStart, noEnd, same] using balance
  refine ⟨busy, by rw [history, counted], ?_, asks, ?_⟩
  · rw [history]
    refine alternates_snoc sound.alternates ⟨?_, ?_⟩
    · omega
    · split at counted <;> omega
  · rw [history]
    exact founded_snoc sound.founded fun started => sound.asks.mp (due started)

/-- A step that notes nothing. -/
theorem keep {c' : Course} (sound : Sound c) (history : c'.history = c.history)
    (phase : c'.phase = c.phase) (listens : c'.worker.listens = c.worker.listens) : Sound c' where
  busy := by rw [phase, listens, sound.busy]
  balance := by rw [history, phase, sound.balance]
  alternates := history ▸ sound.alternates
  asks := by rw [phase, history, sound.asks]
  founded := history ▸ sound.founded

theorem request (sound : Sound c) (delay : Option Nat) : Sound (c.perform (.request delay)) := by
  have renders : (c.perform (.request delay)).phase.isRunning = c.phase.isRunning := by
    show (Phase.request _ c.phase).isRunning = _
    cases c.phase <;> rfl
  refine sound.note .requested rfl ?_ (.inr (.inr ⟨nofun, nofun, renders⟩)) ?_ nofun
  · rw [renders]
    exact sound.busy
  · refine iff_of_true ?_ (unmet_requested c.history)
    show (Phase.request _ c.phase).asks = true
    cases c.phase <;> rfl

theorem cancel (sound : Sound c) : Sound (c.perform .cancel) := by
  have renders : (c.perform .cancel).phase.isRunning = c.phase.isRunning := by
    show (Phase.cancel c.phase).isRunning = _
    cases c.phase <;> rfl
  refine sound.note .cancelled rfl ?_ (.inr (.inr ⟨nofun, nofun, renders⟩)) ?_ nofun
  · rw [renders]
    exact sound.busy
  · refine iff_of_false ?_ fun unmet => ((unmet_snoc (by decide)).mp unmet).2.2 rfl
    show ¬ (Phase.cancel c.phase).asks = true
    cases c.phase <;> exact Bool.false_ne_true

theorem finish (sound : Sound c) (fault : Option Fault) (rendering : c.worker.activity = .rendering) :
    Sound (c.perform (.finish fault)) := by
  have on : c.phase.isRunning = true := by
    rw [sound.busy, Worker.listens, rendering]
    rfl
  have off : (c.perform (.finish fault)).phase.isRunning = false := by
    show (Phase.finish c.now c.phase).isRunning = false
    cases c.phase <;> rfl
  refine sound.note .ended rfl ?_ (.inr (.inl ⟨rfl, on, off⟩)) ?_ nofun
  · rw [off]
    rfl
  · show (Phase.finish c.now c.phase).asks = true ↔ Unmet (c.history ++ [.ended])
    rw [unmet_snoc (by decide), ← sound.asks]
    revert on
    cases c.phase <;> simp [Phase.isRunning, Phase.finish, Phase.asks]

end Sound

/-! ## Turns of the worker -/

section Turn

variable {c : Course} {scheduler : Scheduler}

/-- A turn takes up a render, or the phase and the listening stay as they are. -/
theorem turn_cases (c : Course) :
    (∃ scheduler, c.worker.activity = .listening ∧ c.worker.scheduler.start? c.now = some scheduler ∧
      (c.worker.turn c.now).2 = (Worker.approach { c.worker with scheduler := scheduler }).2) ∨
    ((c.worker.turn c.now).2.scheduler = c.worker.scheduler ∧
      (c.worker.turn c.now).2.listens = c.worker.listens ∧
      (c.worker.turn c.now).2.lock = c.worker.lock ∧
      (c.worker.activity ≠ .queued → (c.worker.turn c.now).2 = c.worker)) := by
  unfold Worker.turn
  cases activity : c.worker.activity with
  | rendering => exact .inr ⟨rfl, rfl, rfl, fun _ => rfl⟩
  | queued =>
      right
      simp only
      split
      · exact ⟨rfl, by simp [Worker.listens, activity], rfl, fun other => absurd rfl other⟩
      · exact ⟨rfl, rfl, rfl, fun other => absurd rfl other⟩
  | listening =>
      cases started : c.worker.scheduler.start? c.now with
      | some scheduler => exact .inl ⟨scheduler, rfl, rfl, rfl⟩
      | none =>
          right
          simp only
          split <;> exact ⟨rfl, rfl, rfl, fun _ => rfl⟩

theorem scheduler_approach (w : Worker) : w.approach.2.scheduler = w.scheduler := by
  unfold Worker.approach
  dsimp only
  split <;> rfl

theorem listens_approach (w : Worker) : w.approach.2.listens = false := by
  unfold Worker.approach
  dsimp only
  split <;> rfl

theorem started_phase (started : c.worker.scheduler.start? c.now = some scheduler) :
    c.phase.asks = true ∧ scheduler.phase = .running := by
  unfold Scheduler.start? at started
  split at started
  · next due =>
      cases started
      refine ⟨?_, rfl⟩
      show (Worker.phase c.worker).asks = true
      unfold Worker.phase
      revert due
      cases c.worker.scheduler.phase <;> simp [Phase.isDue, Phase.asks]
  · cases started

/-- Who stops listening has started a render. -/
theorem Sound.turn (sound : Sound c) : Sound (c.perform .turn) := by
  rcases turn_cases c with ⟨scheduler, listening, started, turned⟩ | ⟨scheduler, listens, -, -⟩
  · obtain ⟨asks, running⟩ := started_phase started
    have hears : c.worker.listens = true := by simp [Worker.listens, listening]
    have deaf : (c.perform .turn).worker.listens = false := by
      show (c.worker.turn c.now).2.listens = false
      rw [turned, listens_approach]
    have phase : (c.perform .turn).phase = .running := by
      show (c.worker.turn c.now).2.scheduler.phase = .running
      rw [turned, scheduler_approach]
      exact running
    have history : (c.perform .turn).history = c.history ++ [.started] := by
      show c.history ++ Course.noted c.worker (c.worker.turn c.now).2 = _
      rw [Course.noted, if_pos ⟨hears, by rw [turned, listens_approach]; exact Bool.false_ne_true⟩]
    refine sound.note .started history ?_ (.inl ⟨rfl, ?_, ?_⟩) ?_ fun _ => asks
    · rw [phase, deaf]
      rfl
    · rw [sound.busy, hears]
      rfl
    · rw [phase]
      rfl
    · rw [phase, history]
      exact iff_of_false Bool.false_ne_true fun unmet => ((unmet_snoc (by decide)).mp unmet).2.1 rfl
  · refine sound.keep ?_ ?_ listens
    · show c.history ++ Course.noted c.worker (c.worker.turn c.now).2 = _
      rw [Course.noted, if_neg (by rw [listens]; exact fun both => both.2 both.1), List.append_nil]
    · show (c.worker.turn c.now).2.scheduler.phase = _
      rw [scheduler]
      rfl

theorem Sound.perform (sound : Sound c) {event : Event} (allowed : c.Allows event) :
    Sound (c.perform event) := by
  cases event with
  | request delay => exact sound.request delay
  | cancel => exact sound.cancel
  | pass duration => exact sound.keep rfl rfl rfl
  | turn => exact sound.turn
  | finish fault => exact sound.finish fault allowed
  | take => exact sound.keep rfl rfl rfl
  | give => exact sound.keep rfl rfl rfl

/-- What every run keeps. -/
theorem sound_of_runs {delay : Nat} {events : List Event} (runs : Course.Runs delay events c) : Sound c := by
  induction runs with
  | nil => exact .start delay
  | snoc event _ allowed ih => exact ih.perform allowed

/-! ## Access to the target -/

theorem Unshared.turn (unshared : Unshared c) : Unshared (c.perform .turn) := by
  rcases turn_cases c with ⟨scheduler, listening, -, turned⟩ | ⟨-, -, -, still⟩
  · have free : c.worker.lock.holder = none := by
      rw [unshared.holder, Worker.listens, listening]
      rfl
    have entered : (c.perform .turn).worker = { c.worker with
        scheduler := scheduler, lock := { c.worker.lock with holder := some .worker },
        activity := .rendering } := by
      show (c.worker.turn c.now).2 = _
      rw [turned]
      simp [Worker.approach, Lock.acquire, free, Lock.isHeldBy]
    exact ⟨by rw [entered]; exact unshared.queue, by rw [entered]; rfl, by rw [entered]; nofun⟩
  · have same : (c.perform .turn).worker = c.worker := still unshared.admitted
    exact ⟨by rw [same]; exact unshared.queue, by rw [same]; exact unshared.holder,
      by rw [same]; exact unshared.admitted⟩

theorem unshared_of_runs {delay : Nat} {events : List Event} (runs : Course.Runs delay events c)
    (alone : .take ∉ events) : Unshared c := by
  induction runs with
  | nil => exact ⟨rfl, rfl, nofun⟩
  | @snoc events c event _ allowed ih =>
      simp only [List.mem_append, List.mem_singleton, not_or] at alone
      have before := ih alone.1
      cases event with
      | request delay => exact ⟨before.queue, before.holder, before.admitted⟩
      | cancel => exact ⟨before.queue, before.holder, before.admitted⟩
      | pass duration => exact ⟨before.queue, before.holder, before.admitted⟩
      | turn => exact before.turn
      | finish fault =>
          have released : (c.perform (.finish fault)).worker.lock = {} := by
            show c.worker.lock.release = {}
            rw [Lock.release, before.queue]
          exact ⟨by rw [released], by rw [released]; rfl, fun same => by cases same⟩
      | take => exact absurd rfl alone.2
      | give =>
          have held : c.worker.lock.holder = some .caller := by simpa [Course.Allows, Lock.isHeldBy] using allowed
          rw [before.holder] at held
          split at held <;> cases held

end Turn

/-! ## Requests and renders -/

/-- In every run of a scheduler renders start and end in turn, and the phase is
that of a running render exactly while one has started and not ended, which,
when no caller takes the target, is exactly while the worker renders; whenever
no render is asked for, every request was followed by the start of a render or
by a cancellation; and in front of every start, behind the start before it,
there is a request that was not cancelled. -/
theorem runs_serve {delay : Nat} {events : List Event} {c : Course} (runs : Course.Runs delay events c) :
    (∀ past, past <+: c.history →
      past.count .ended ≤ past.count .started ∧ past.count .started ≤ past.count .ended + 1) ∧
    (c.phase = .running ∨ c.phase = .runningPending ↔
      c.history.count .started = c.history.count .ended + 1) ∧
    (.take ∉ events →
      (c.phase = .running ∨ c.phase = .runningPending ↔ c.worker.activity = .rendering)) ∧
    (c.phase = .idle ∨ c.phase = .running → ∀ front back, c.history = front ++ .requested :: back →
      .started ∈ back ∨ .cancelled ∈ back) ∧
    (∀ front back, c.history = front ++ .started :: back → ∃ before between,
      front = before ++ .requested :: between ∧ .started ∉ between ∧ .cancelled ∉ between) := by
  have sound := sound_of_runs runs
  have isRunning : (c.phase = .running ∨ c.phase = .runningPending) ↔ c.phase.isRunning = true := by
    cases c.phase <;> simp [Phase.isRunning]
  refine ⟨sound.alternates, ?_, fun alone => ?_, fun rest front back split => ?_, sound.founded⟩
  · rw [isRunning, sound.balance]
    cases c.phase.isRunning <;> simp
  · have admitted := (unshared_of_runs runs alone).admitted
    rw [isRunning, sound.busy, Worker.listens]
    cases activity : c.worker.activity with
    | listening => simp
    | queued => exact absurd activity admitted
    | rendering => simp
  · have still : ¬ Unmet c.history := by
      rw [← sound.asks]
      rcases rest with phase | phase <;> rw [phase] <;> exact Bool.false_ne_true
    exact met_of_not_unmet (split ▸ still)

/-- A second request comes while the first one is rendered. -/
theorem runs_serve_repeat : ∃ c, Course.Runs 0
      [.request none, .turn, .request (some 5), .finish none, .turn, .finish none] c ∧
    c.phase = .idle ∧ c.history = [.requested, .started, .requested, .ended, .started, .ended] ∧
    c.worker.activity ≠ .rendering ∧
    (∀ front back, c.history = front ++ .requested :: back → .started ∈ back ∨ .cancelled ∈ back) := by
  have runs := Course.Runs.snoc (.finish none) (.snoc .turn (.snoc (.finish none) (.snoc (.request (some 5))
    (.snoc .turn (.snoc (.request none) (@Course.Runs.nil 0) trivial) trivial) trivial) rfl) trivial) rfl
  obtain ⟨-, -, rendered, served, -⟩ := runs_serve runs
  refine ⟨_, runs, rfl, rfl, fun rendering => ?_, served (.inl rfl)⟩
  rcases (rendered (by decide)).mpr rendering with running | pending
  · cases running
  · cases pending

end Inlay.Host
