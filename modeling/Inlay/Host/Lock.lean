/-
# Host.Lock — exclusive access, first come first served

A lock has a holder and a queue of those who wait for it. Releasing it hands it
to the first of them.
-/

namespace Inlay.Host

set_option autoImplicit false

/-- Who asks for access to a scheduler's target: the worker that renders it, or
a caller. -/
inductive Party where
  | worker
  | caller
  deriving DecidableEq

structure Lock where
  holder : Option Party := none
  queue : List Party := []
  deriving DecidableEq

namespace Lock

/-- Takes the lock if it is free, or waits for it. -/
def acquire (party : Party) (lock : Lock) : Lock :=
  match lock.holder with
  | none => { lock with holder := some party }
  | some _ => { lock with queue := lock.queue ++ [party] }

/-- Hands the lock to whoever waits longest. -/
def release (lock : Lock) : Lock :=
  match lock.queue with
  | [] => {}
  | party :: rest => ⟨some party, rest⟩

def isHeldBy (party : Party) (lock : Lock) : Bool := lock.holder = some party

end Lock

end Inlay.Host
