/-
# Host.Scheduler — when to render

Requests for a render are gathered and served one render at a time. A request
sets a deadline, and a later one moves it; when it is reached, a render runs. A
request during a render is served by one more render right behind it. A
cancelled request is not served.

`Scheduler` has one function for each of the four events: a request, a
cancellation, the start of a render that is due, and its end.
-/
import Inlay.Host.Fault

namespace Inlay.Host

set_option autoImplicit false

inductive Phase where
  | idle
  /-- A render starts at the deadline. -/
  | scheduled (deadline : Nat)
  | running
  /-- A render runs, and another one was asked for. -/
  | runningPending
  deriving DecidableEq

namespace Phase

/-- A render is asked for, with a deadline for when none runs. -/
def request (deadline : Nat) : Phase → Phase
  | idle => scheduled deadline
  | scheduled _ => scheduled deadline
  | running => runningPending
  | runningPending => runningPending

/-- Nothing is asked for any more. -/
def cancel : Phase → Phase
  | idle => idle
  | scheduled _ => idle
  | running => running
  | runningPending => running

/-- The phase at the end of a render. -/
def finish (now : Nat) : Phase → Phase
  | runningPending => scheduled now
  | _ => idle

/-- The deadline is reached. -/
def isDue (now : Nat) : Phase → Bool
  | scheduled deadline => deadline ≤ now
  | _ => false

/-- A render runs. -/
def isRunning : Phase → Bool
  | running => true
  | runningPending => true
  | _ => false

end Phase

/-- How the renders so far went. -/
structure Status where
  /-- Renders that ended, failed ones included. -/
  renders : Nat := 0
  failures : Nat := 0
  lastFault : Option Fault := none
  deriving DecidableEq

namespace Status

/-- One more render, with its fault if it failed. -/
def record (fault : Option Fault) (status : Status) : Status :=
  match fault with
  | none => { status with renders := status.renders + 1 }
  | some fault => ⟨status.renders + 1, status.failures + 1, some fault⟩

end Status

structure Scheduler where
  /-- The delay of a request that names none. -/
  delay : Nat
  phase : Phase := .idle
  status : Status := {}
  deriving DecidableEq

namespace Scheduler

/-- A render is asked for, after a delay or after the usual one. -/
def request (now : Nat) (delay : Option Nat) (s : Scheduler) : Scheduler :=
  { s with phase := s.phase.request (now + delay.getD s.delay) }

def cancel (s : Scheduler) : Scheduler := { s with phase := s.phase.cancel }

/-- Starts a render that is due. -/
def start? (now : Nat) (s : Scheduler) : Option Scheduler :=
  if s.phase.isDue now then some { s with phase := .running } else none

/-- Ends a render. -/
def finish (now : Nat) (fault : Option Fault) (s : Scheduler) : Scheduler :=
  { s with phase := s.phase.finish now, status := s.status.record fault }

end Scheduler

end Inlay.Host
