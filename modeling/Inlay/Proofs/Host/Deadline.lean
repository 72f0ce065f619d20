/-
# Proofs.Host.Deadline — the deadline a render starts at

A render starts in a turn of the worker, when the phase is scheduled and the deadline is
reached (`starts_iff`). Two events set the deadline: a request while no render runs, and the
end of a render during which another one was asked for. From then on the deadline stays until
a render starts or an event comes that does not spare it (`Spares`): one that sets a new
deadline, a cancellation or the end of a render.

So the deadline of a render is that of the newest such request, earlier or later than the one
it replaced, or the time at which the last render ended. `runs_debounce` says this of every
run, together with what becomes of requests during a render: one more render serves them all.
-/
import Inlay.Proofs.Host.Course

namespace Inlay.Host

set_option autoImplicit false

namespace Course

variable {c c' : Course} {delay deadline : Nat} {events between : List Event} {event : Event}

/-! ## Parts of runs -/

/-- The courses that events lead to from a course, the last event last, when each of them is
such as is said. -/
inductive Leads (Such : Course → Event → Prop) (c : Course) : List Event → Course → Prop where
  | nil : Leads Such c [] c
  | snoc {events : List Event} {c' : Course} (event : Event) :
      Leads Such c events c' → c'.Allows event → Such c' event → Leads Such c (events ++ [event]) (c'.perform event)

/-- The event starts a render. -/
def Starts (c : Course) (event : Event) : Prop :=
  c.phase.isRunning = false ∧ (c.perform event).phase.isRunning = true

/-- The event sets no deadline and takes none away. -/
def Spares (c : Course) : Event → Prop
  | .request _ => c.phase.isRunning = true
  | .cancel => False
  | .finish _ => False
  | _ => True

/-- The event leaves a request that came during a render standing. -/
def KeepsPending (_ : Course) : Event → Prop
  | .cancel => False
  | .finish _ => False
  | _ => True

/-- The event asks for no render. -/
def AsksNothing (_ : Course) : Event → Prop
  | .request _ => False
  | _ => True

/-- The event sets the deadline: no render runs and one is asked for, or a render ends during
which another one was asked for. -/
def Sets (delay : Nat) (c : Course) (deadline : Nat) : Event → Prop
  | .request wait => c.phase.isRunning = false ∧ deadline = c.now + wait.getD delay
  | .finish _ => c.phase = .runningPending ∧ deadline = c.now
  | _ => False

theorem sound_of_leads {Such : Course → Event → Prop} (sound : Sound c) (leads : c.Leads Such between c') :
    Sound c' := by
  induction leads with
  | nil => exact sound
  | snoc event _ allowed _ ih => exact ih.perform allowed

/-! ## What an event does to the phase -/

theorem isRunning_request (phase : Phase) (deadline : Nat) :
    (phase.request deadline).isRunning = phase.isRunning := by
  cases phase <;> rfl

theorem isRunning_cancel (phase : Phase) : phase.cancel.isRunning = phase.isRunning := by
  cases phase <;> rfl

theorem isRunning_finish (phase : Phase) (now : Nat) : (phase.finish now).isRunning = false := by
  cases phase <;> rfl

/-- A turn starts the render that is due. -/
theorem phase_turn (sound : Sound c) :
    (c.perform .turn).phase = if c.phase.isDue c.now then .running else c.phase := by
  show (c.worker.turn c.now).2.scheduler.phase = _
  by_cases due : c.phase.isDue c.now = true
  · have rests : c.phase.isRunning = false := by
      revert due
      cases c.phase <;> simp [Phase.isDue, Phase.isRunning]
    have listening : c.worker.activity = .listening := by
      have busy := sound.busy
      rw [rests] at busy
      simpa [Worker.listens] using busy
    have started : c.worker.scheduler.start? c.now = some { c.worker.scheduler with phase := .running } :=
      if_pos due
    simp only [Worker.turn, listening, started, scheduler_approach, if_pos due]
  · rcases turn_cases c with ⟨scheduler, -, started, -⟩ | ⟨same, -⟩
    · have none : c.worker.scheduler.start? c.now = none := if_neg due
      rw [none] at started
      cases started
    · rw [same, if_neg due]
      rfl

theorem delay_perform (c : Course) (event : Event) :
    (c.perform event).worker.scheduler.delay = c.worker.scheduler.delay := by
  cases event with
  | turn =>
      show (c.worker.turn c.now).2.scheduler.delay = _
      rcases turn_cases c with ⟨scheduler, -, started, turned⟩ | ⟨same, -⟩
      · rw [turned, scheduler_approach]
        unfold Scheduler.start? at started
        split at started
        · cases started
          rfl
        · cases started
      · rw [same]
  | _ => rfl

theorem delay_of_runs (runs : Runs delay events c) : c.worker.scheduler.delay = delay := by
  induction runs with
  | nil => rfl
  | snoc event _ _ ih => rw [delay_perform, ih]

/-- A render starts exactly in a turn behind the deadline. -/
theorem starts_iff (sound : Sound c) (event : Event) :
    c.Starts event ↔ event = .turn ∧ ∃ deadline, c.phase = .scheduled deadline ∧ deadline ≤ c.now := by
  constructor
  · rintro ⟨rests, runs⟩
    cases event with
    | turn =>
        rw [phase_turn sound] at runs
        refine ⟨rfl, ?_⟩
        cases phase : c.phase with
        | scheduled deadline =>
            refine ⟨deadline, rfl, ?_⟩
            by_contra early
            rw [phase, Phase.isDue, decide_eq_false early] at runs
            cases runs
        | _ => simp_all [Phase.isDue, Phase.isRunning]
    | request wait => exact absurd (rests.symm.trans ((isRunning_request _ _).symm.trans runs)) Bool.false_ne_true
    | cancel => exact absurd (rests.symm.trans ((isRunning_cancel _).symm.trans runs)) Bool.false_ne_true
    | finish fault => exact absurd ((isRunning_finish _ c.now).symm.trans runs) Bool.false_ne_true
    | pass duration => exact absurd (rests.symm.trans runs) Bool.false_ne_true
    | take => exact absurd (rests.symm.trans runs) Bool.false_ne_true
    | give => exact absurd (rests.symm.trans runs) Bool.false_ne_true
  · rintro ⟨rfl, deadline, phase, reached⟩
    refine ⟨by rw [phase]; rfl, ?_⟩
    rw [phase_turn sound, phase, Phase.isDue, decide_eq_true reached]
    rfl

/-- An event that spares the deadline leaves it as it is, unless a render runs. -/
theorem kept_of_spares (sound : Sound c) (spares : c.Spares event)
    (kept : c.phase = .scheduled deadline ∨ c.phase.isRunning = true) :
    (c.perform event).phase = .scheduled deadline ∨ (c.perform event).phase.isRunning = true := by
  cases event with
  | request wait => exact .inr ((isRunning_request _ _).trans spares)
  | cancel => exact spares.elim
  | finish fault => exact spares.elim
  | turn =>
      rw [phase_turn sound]
      split
      · exact .inr rfl
      · exact kept
  | pass duration => exact kept
  | take => exact kept
  | give => exact kept

theorem phase_of_sets (usual : c.worker.scheduler.delay = delay) (sets : Sets delay c deadline event) :
    (c.perform event).phase = .scheduled deadline := by
  cases event with
  | request wait =>
      obtain ⟨rests, rfl⟩ := sets
      rw [← usual]
      show Phase.request _ c.phase = _
      cases phase : c.phase <;> rw [phase] at rests
      · rfl
      · rfl
      · cases rests
      · cases rests
  | finish fault =>
      obtain ⟨pending, rfl⟩ := sets
      show Phase.finish c.now c.phase = _
      rw [pending]
      rfl
  | cancel => exact sets.elim
  | pass duration => exact sets.elim
  | turn => exact sets.elim
  | take => exact sets.elim
  | give => exact sets.elim

/-- A deadline behind an event was set by it, or it was there before and spared. -/
theorem sets_or_spares (sound : Sound c) (usual : c.worker.scheduler.delay = delay)
    (phase : (c.perform event).phase = .scheduled deadline) :
    Sets delay c deadline event ∨ c.Spares event ∧ c.phase = .scheduled deadline := by
  cases event with
  | request wait =>
      left
      have rests : c.phase.isRunning = false := by
        rw [← isRunning_request c.phase, show c.phase.request _ = _ from phase]
        rfl
      have set : (c.perform (.request wait)).phase = .scheduled (c.now + wait.getD delay) :=
        phase_of_sets usual ⟨rests, rfl⟩
      exact ⟨rests, Phase.scheduled.inj (phase.symm.trans set)⟩
  | cancel =>
      have cancelled : c.phase.cancel = .scheduled deadline := phase
      cases before : c.phase <;> rw [before] at cancelled <;> cases cancelled
  | finish fault =>
      left
      have ended : c.phase.finish c.now = .scheduled deadline := phase
      cases before : c.phase <;> rw [before] at ended <;> cases ended
      exact ⟨before, rfl⟩
  | turn =>
      right
      rw [phase_turn sound] at phase
      split at phase
      · cases phase
      · exact ⟨trivial, phase⟩
  | pass duration => exact .inr ⟨trivial, phase⟩
  | take => exact .inr ⟨trivial, phase⟩
  | give => exact .inr ⟨trivial, phase⟩

/-! ## What a run does to the phase -/

/-- A deadline lasts while it is spared and no render starts. -/
theorem kept_of_leads (sound : Sound c) (set : c.phase = .scheduled deadline)
    (leads : c.Leads Spares between c') :
    c'.phase = .scheduled deadline ∨ c'.phase.isRunning = true := by
  induction leads with
  | nil => exact .inl set
  | snoc event leads _ spares ih => exact kept_of_spares (sound_of_leads sound leads) spares ih

/-- Every deadline was set by an event and spared since then. -/
theorem set_of_runs (runs : Runs delay events c) (phase : c.phase = .scheduled deadline) :
    ∃ front event between before, events = front ++ event :: between ∧ Runs delay front before ∧
      before.Allows event ∧ Sets delay before deadline event ∧
      (before.perform event).Leads Spares between c := by
  induction runs with
  | nil => cases phase
  | @snoc events c event runs allowed ih =>
      rcases sets_or_spares (sound_of_runs runs) (delay_of_runs runs) phase with sets | ⟨spares, kept⟩
      · exact ⟨events, event, [], c, rfl, runs, allowed, sets, .nil⟩
      · obtain ⟨front, first, between, before, rfl, start, allowed', sets, leads⟩ := ih kept
        refine ⟨front, first, between ++ [event], before, by simp, start, allowed', sets, ?_⟩
        exact leads.snoc event allowed spares

/-- A request during a render stands at its end, unless it is cancelled. -/
theorem pending_of_leads (sound : Sound c) (pending : c.phase = .runningPending)
    (leads : c.Leads KeepsPending between c') :
    c'.phase = .runningPending := by
  induction leads with
  | nil => exact pending
  | @snoc between c' event leads _ such ih =>
      cases event with
      | request wait => exact congrArg (Phase.request _) ih
      | turn =>
          rw [phase_turn (sound_of_leads sound leads), ih]
          rfl
      | cancel => exact such.elim
      | finish fault => exact such.elim
      | pass duration => exact ih
      | take => exact ih
      | give => exact ih

/-- Without a request nothing is asked for. -/
theorem quiet_of_leads (sound : Sound c) (quiet : c.phase.asks = false)
    (leads : c.Leads AsksNothing between c') :
    c'.phase.asks = false := by
  induction leads with
  | nil => exact quiet
  | @snoc between c' event leads _ such ih =>
      cases event with
      | request wait => exact such.elim
      | cancel =>
          show c'.phase.cancel.asks = false
          cases c'.phase <;> rfl
      | turn =>
          rw [phase_turn (sound_of_leads sound leads)]
          split
          · rfl
          · exact ih
      | finish fault =>
          show (c'.phase.finish c'.now).asks = false
          revert ih
          cases c'.phase <;> simp [Phase.finish, Phase.asks]
      | pass duration => exact ih
      | take => exact ih
      | give => exact ih

/-! ## Deadlines and starts -/

/-- In every run a render starts exactly in a turn behind the deadline. Every deadline was set by
an event, a request that found no render running or the end of a render during which there was a
request, and behind that event none came that sets a deadline, cancels or ends a render. And
behind such an event its deadline stands, whatever the one before was, until a render starts,
which is not before it. What is asked for during a render and not cancelled is asked for
at its end; and behind the start of a render, which may be such a repeat, none starts without a
new request. -/
theorem runs_debounce (runs : Runs delay events c) :
    (∀ event, c.Starts event ↔
      event = .turn ∧ ∃ deadline, c.phase = .scheduled deadline ∧ deadline ≤ c.now) ∧
    (∀ deadline, c.phase = .scheduled deadline → ∃ front event between before,
      events = front ++ event :: between ∧ Runs delay front before ∧ before.Allows event ∧
      Sets delay before deadline event ∧ (before.perform event).Leads Spares between c) ∧
    (∀ event deadline, c.Allows event → Sets delay c deadline event →
      ∀ between c', (c.perform event).Leads Spares between c' →
        (c'.phase = .scheduled deadline ∨ c'.phase.isRunning = true) ∧
        ∀ event', c'.Starts event' → c'.phase = .scheduled deadline ∧ deadline ≤ c'.now) ∧
    (∀ wait, c.phase.isRunning = true → ∀ between c',
      (c.perform (.request wait)).Leads KeepsPending between c' → c'.phase = .runningPending) ∧
    (∀ event, c.Starts event → ∀ between c', (c.perform event).Leads AsksNothing between c' →
      ∀ event', ¬ c'.Starts event') := by
  have sound := sound_of_runs runs
  refine ⟨starts_iff sound, fun _ => set_of_runs runs, ?_, ?_, ?_⟩
  · intro event deadline allowed sets between c' leads
    have sound' := sound.perform allowed
    have kept := kept_of_leads sound' (phase_of_sets (delay_of_runs runs) sets) leads
    refine ⟨kept, fun event' starts => ?_⟩
    obtain ⟨-, deadline', phase, reached⟩ := (starts_iff (sound_of_leads sound' leads) event').mp starts
    rcases kept with stands | busy
    · cases stands.symm.trans phase
      exact ⟨phase, reached⟩
    · exact absurd (starts.1.symm.trans busy) Bool.false_ne_true
  · intro wait busy between c' leads
    have pending : (c.perform (.request wait)).phase = .runningPending := by
      show Phase.request _ c.phase = _
      revert busy
      cases c.phase <;> simp [Phase.isRunning, Phase.request]
    exact pending_of_leads (sound.request wait) pending leads
  · intro event starts between c' leads event' starts'
    obtain ⟨rfl, deadline, phase, reached⟩ := (starts_iff sound event).mp starts
    have started : (c.perform .turn).phase = .running := by
      rw [phase_turn sound, phase, Phase.isDue, decide_eq_true reached]
      rfl
    have quiet := quiet_of_leads sound.turn (by rw [started]; rfl) leads
    obtain ⟨-, deadline', asked, -⟩ := (starts_iff (sound_of_leads sound.turn leads) event').mp starts'
    rw [asked] at quiet
    cases quiet

/-- The deadline is moved forward and then back. Of two requests during the render the repeat,
whose deadline is the time at which the render ends, serves both. -/
theorem runs_debounce_repeat : ∃ c, Runs 16
      [.request (some 50), .pass 10, .request (some 5), .pass 3, .request (some 40), .pass 40, .turn,
        .request (some 9), .pass 7, .request none, .finish none] c ∧
    c.now = 60 ∧ c.phase = .scheduled 60 ∧ c.Starts .turn ∧
    ∀ between c', (c.perform .turn).Leads AsksNothing between c' → ∀ event, ¬ c'.Starts event := by
  have runs := Runs.snoc (.finish none) (.snoc (.request none) (.snoc (.pass 7) (.snoc (.request (some 9))
    (.snoc .turn (.snoc (.pass 40) (.snoc (.request (some 40)) (.snoc (.pass 3) (.snoc (.request (some 5))
      (.snoc (.pass 10) (.snoc (.request (some 50)) (@Runs.nil 16) trivial) trivial) trivial) trivial)
        trivial) trivial) trivial) trivial) trivial) trivial) rfl
  obtain ⟨starts, -, -, -, once⟩ := runs_debounce runs
  have repeats := (starts .turn).mpr ⟨rfl, 60, rfl, by decide⟩
  exact ⟨_, runs, rfl, rfl, repeats, once .turn repeats⟩

end Course

end Inlay.Host
