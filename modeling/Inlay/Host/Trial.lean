/-
# Host.Trial — a scheduler over a target that only takes time

The target of a trial takes a fixed time to render and then succeeds, or fails
with a fixed fault. A caller asks for renders, cancels them, takes the target
for a while, and waits; the log lists when renders began and ended.
-/
import Inlay.Host.Worker

namespace Inlay.Host

set_option autoImplicit false

structure Trial where
  agenda : Agenda := {}
  worker : Worker
  /-- How long a render takes. -/
  work : Nat
  /-- How a render ends. -/
  fault : Option Fault
  /-- When the render that runs began. -/
  began : Nat := 0
  /-- When the renders that ended began and ended. -/
  log : List (Nat × Nat) := []

namespace Trial

/-- The only task of a trial. -/
def task : Nat := 0

/-- A trial in which nothing was asked for; its worker is about to look. -/
def new (delay work : Nat) (fault : Option Fault) : Trial where
  agenda := Agenda.wake task {}
  worker := .new delay
  work := work
  fault := fault

def onAgenda (f : Agenda → Agenda) (t : Trial) : Trial := { t with agenda := f t.agenda }

/-- The render that runs is done. -/
def finish (t : Trial) : Trial :=
  { t with
    worker := t.worker.finish t.agenda.now t.fault
    log := t.log ++ [(t.began, t.agenda.now)]
    agenda := t.agenda.resume task }

/-- A render begins; one that takes no time is done at once. -/
def beginRender (t : Trial) : Trial :=
  let t := { t with began := t.agenda.now }
  if t.work = 0 then t.finish else t.onAgenda (·.setAlarm task (t.agenda.now + t.work))

/-- Lets the worker go on. -/
def go (t : Trial) : Trial :=
  let (turn, worker) := t.worker.turn t.agenda.now
  let t := { t with worker := worker, agenda := t.agenda.silence task }
  match turn with
  | .rest => t
  | .restUntil time => t.onAgenda (·.setAlarm task time)
  | .render => t.beginRender
  | .goOn => t.finish

instance : Timed Trial where
  agenda t := t.agenda
  setAgenda agenda t := { t with agenda := agenda }
  go _ t := t.go
  patience _ := 16
  stamina _ := 8

/-! ## What a caller does -/

/-- Changes the phase, which a worker that listens notices. -/
def onScheduler (f : Scheduler → Scheduler) (t : Trial) : Trial :=
  let t := { t with worker := { t.worker with scheduler := f t.worker.scheduler } }
  if t.worker.listens then t.onAgenda (·.wake task) else t

/-- Asks for a render. -/
def request (delay : Option Nat) (t : Trial) : Trial := t.onScheduler (·.request t.agenda.now delay)

/-- Waits for a phase; tells whether it came. -/
def waitFor (holds : Phase → Bool) (t : Trial) : Bool × Trial :=
  Timed.await (fun t => holds t.worker.phase) t

/-- Waits until nothing is asked for and nothing runs. -/
def settled (t : Trial) : Bool × Trial := t.waitFor (· = .idle)

/-- Cancels what is asked for and waits for what runs. -/
def cancel (t : Trial) : Bool × Trial := (t.onScheduler (·.cancel)).settled

def onLock (f : Lock → Lock) (t : Trial) : Trial :=
  { t with worker := { t.worker with lock := f t.worker.lock } }

/-- Waits until the target is handed over. -/
def acquire (t : Trial) : Trial :=
  Timed.attend (·.worker.lock.isHeldBy .caller) (t.onLock (·.acquire .caller))

/-- Hands the target back. -/
def release (t : Trial) : Trial :=
  let t := t.onLock (·.release)
  if t.worker.isAdmitted then t.onAgenda (·.wake task) else t

/-- Takes the target, holds it for a while, changes it and hands it back. -/
def hold (duration : Nat) (change : Trial → Trial) (t : Trial) : Trial :=
  Timed.settle (change (Timed.sleep duration t.acquire)).release

end Trial

end Inlay.Host
