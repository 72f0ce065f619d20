/-
# Host.Agenda — who has something to do, and when

Time is counted in milliseconds and moves only when nobody has anything to do
now. An agenda lists the tasks that are ready, first come first served, and the
alarms that tasks have set; a task has at most one. When time moves on to the
next alarm, the tasks whose alarms are due become ready in the order in which
the alarms were set.

A `Timed` state has an agenda and knows how to let one task go on. `settle` lets
ready tasks go on until nobody is ready, `sleep` lets time pass, and `await`
lets it pass until something is true, but not forever. `attend` waits for what
is sure to come, however long it takes.
-/

namespace Inlay.Host

set_option autoImplicit false

structure Agenda where
  now : Nat := 0
  /-- Tasks that can go on, the first in front. -/
  ready : List Nat := []
  /-- Tasks that go on at a time, in the order in which they asked. -/
  alarms : List (Nat × Nat) := []
  deriving DecidableEq

namespace Agenda

/-- The task can go on, behind those that can already. -/
def wake (task : Nat) (agenda : Agenda) : Agenda :=
  if agenda.ready.contains task then agenda else { agenda with ready := agenda.ready ++ [task] }

/-- The task goes on before any other. -/
def resume (task : Nat) (agenda : Agenda) : Agenda :=
  { agenda with ready := task :: agenda.ready.filter (· ≠ task) }

/-- The task has no alarm. -/
def silence (task : Nat) (agenda : Agenda) : Agenda :=
  { agenda with alarms := agenda.alarms.filter (·.1 ≠ task) }

/-- The task goes on at a time, and not at the time it asked for before. -/
def setAlarm (task time : Nat) (agenda : Agenda) : Agenda :=
  let agenda := agenda.silence task
  { agenda with alarms := agenda.alarms ++ [(task, time)] }

/-- The time of the next alarm. -/
def next? (agenda : Agenda) : Option Nat := (agenda.alarms.map (·.2)).min?

/-- Moves time on; the tasks whose alarms are due become ready. -/
def advance (time : Nat) (agenda : Agenda) : Agenda :=
  let due := (agenda.alarms.filter (·.2 ≤ time)).map (·.1)
  due.foldl (fun agenda task => agenda.wake task)
    { agenda with now := time, alarms := agenda.alarms.filter (time < ·.2) }

end Agenda

/-- A state with an agenda, in which tasks go on one at a time. -/
class Timed (σ : Type) where
  agenda : σ → Agenda
  setAgenda : Agenda → σ → σ
  /-- Lets a task go on until it has to wait. -/
  go : (task : Nat) → σ → σ
  /-- A bound on how often tasks go on at one time. -/
  patience : σ → Nat
  /-- A bound on how often time moves on until no alarm is left, when nobody asks
  for anything more. -/
  stamina : σ → Nat

namespace Timed

variable {σ : Type} [Timed σ]

/-- The time of a state. -/
def now (state : σ) : Nat := (agenda state).now

/-- Lets ready tasks go on, at most `fuel` times. -/
def settleWithin : (fuel : Nat) → σ → σ
  | 0, state => state
  | fuel + 1, state =>
    match (agenda state).ready with
    | [] => state
    | task :: rest =>
      settleWithin fuel (go task (setAgenda { agenda state with ready := rest } state))

/-- Lets ready tasks go on until nobody is ready. -/
def settle (state : σ) : σ := settleWithin (patience state) state

/-- Moves time on and lets go on whoever can. -/
def passTo (time : Nat) (state : σ) : σ :=
  settle (setAgenda ((agenda state).advance time) state)

/-- Lets time pass from alarm to alarm up to a limit, until something is true;
tells whether it came true. -/
def awaitUntil (holds : σ → Bool) (limit : Nat) (state : σ) : Bool × σ :=
  if holds state then (true, state)
  else
    match (agenda state).next? with
    | none => (false, passTo limit state)
    | some time =>
      if _later : now state < time ∧ time ≤ limit then
        let later := passTo time state
        if _moved : now later = time then awaitUntil holds limit later else (false, later)
      else (false, passTo limit state)
termination_by limit - now state
decreasing_by
  have moved : now (passTo time state) = time := _moved
  omega

/-- The longest time anybody waits for something to come true. -/
def patienceLimit : Nat := 3600000

/-- Waits until something is true; tells whether it came true in time. What is
true already does not let anybody go on. -/
def await (holds : σ → Bool) (state : σ) : Bool × σ :=
  if holds state then (true, state)
  else awaitUntil holds (now state + patienceLimit) (settle state)

/-- Lets time pass from alarm to alarm, at most `fuel` times, until something is
true or no alarm is left. -/
def attendWithin (holds : σ → Bool) : (fuel : Nat) → σ → σ
  | 0, state => state
  | fuel + 1, state =>
    if holds state then state
    else
      match (agenda state).next? with
      | none => state
      | some time => attendWithin holds fuel (passTo time state)

/-- Waits for something that is sure to come, however long it takes. What is
true already does not let anybody go on. -/
def attend (holds : σ → Bool) (state : σ) : σ :=
  if holds state then state else attendWithin holds (stamina state) (settle state)

/-- Lets time pass. -/
def sleep (duration : Nat) (state : σ) : σ :=
  (awaitUntil (fun _ => false) (now state + duration) (settle state)).2

end Timed

end Inlay.Host
