/-
# Host.Worker — a scheduler at work

A worker waits for its scheduler's deadline, then for exclusive access to the
target, and renders it. What a render does, and how long it takes, is up to the
target's side: a worker tells when to begin (`Turn.render`), and is told when
the render is done (`finish`).
-/
import Inlay.Host.Agenda
import Inlay.Host.Lock
import Inlay.Host.Scheduler

namespace Inlay.Host

set_option autoImplicit false

/-- What a worker is doing. -/
inductive Activity where
  /-- Waits for a request or for the deadline. -/
  | listening
  /-- Waits for access to the target. -/
  | queued
  | rendering
  deriving DecidableEq

structure Worker where
  scheduler : Scheduler
  lock : Lock := {}
  activity : Activity := .listening
  deriving DecidableEq

/-- What comes next for a worker that goes on. -/
inductive Turn where
  /-- Nothing until it is woken. -/
  | rest
  /-- Nothing until a time, unless it is woken before. -/
  | restUntil (time : Nat)
  /-- The render begins. -/
  | render
  /-- The render goes on. -/
  | goOn
  deriving DecidableEq

namespace Worker

/-- A worker whose scheduler renders after a delay. -/
def new (delay : Nat) : Worker := { scheduler := ⟨delay, .idle, {}⟩ }

def phase (w : Worker) : Phase := w.scheduler.phase

/-- Asks for the target. -/
def approach (w : Worker) : Turn × Worker :=
  let lock := w.lock.acquire .worker
  if lock.isHeldBy .worker then (.render, { w with lock := lock, activity := .rendering })
  else (.rest, { w with lock := lock, activity := .queued })

/-- What a woken worker does. -/
def turn (now : Nat) (w : Worker) : Turn × Worker :=
  match w.activity with
  | .rendering => (.goOn, w)
  | .queued =>
    if w.lock.isHeldBy .worker then (.render, { w with activity := .rendering }) else (.rest, w)
  | .listening =>
    match w.scheduler.start? now with
    | some scheduler => approach { w with scheduler := scheduler }
    | none =>
      match w.phase with
      | .scheduled deadline => (.restUntil deadline, w)
      | _ => (.rest, w)

/-- Ends a render: the target is released first. -/
def finish (now : Nat) (fault : Option Fault) (w : Worker) : Worker where
  scheduler := w.scheduler.finish now fault
  lock := w.lock.release
  activity := .listening

/-- The worker notices requests and cancellations. -/
def listens (w : Worker) : Bool := w.activity = .listening

/-- The worker has been handed the target. -/
def isAdmitted (w : Worker) : Bool := w.activity = .queued && w.lock.isHeldBy .worker

end Worker

end Inlay.Host
