/-
# Host.Reader — many who ask for templates at once

Readers ask a library for one template each, in the order in which they come,
and wait until they have it or a fault.
-/
import Inlay.Host.Library

namespace Inlay.Host

set_option autoImplicit false

structure Reader where
  task : Nat
  name : String
  /-- The reader's own load has begun. -/
  loading : Bool := false
  result : Option (Except Fault Template) := none

/-- Readers and their library. -/
structure ReadingRoom where
  agenda : Agenda := {}
  library : Library
  readers : List Reader := []
  /-- The number of readers that came. -/
  came : Nat := 0

namespace ReadingRoom

/-- Changes a reader. -/
def onReader (task : Nat) (f : Reader → Reader) (room : ReadingRoom) : ReadingRoom :=
  { room with readers := room.readers.map fun r => if r.task = task then f r else r }

/-- Takes notice of what a reader got. -/
def note (task : Nat) (reply : (Library.Reply × List Nat) × Library) (room : ReadingRoom) :
    ReadingRoom :=
  let ((reply, woken), library) := reply
  let room := { room with library := library, agenda := room.agenda.wakeAll woken }
  match reply with
  | .ready template => room.onReader task ({ · with result := some (.ok template) })
  | .refused fault => room.onReader task ({ · with result := some (.error fault) })
  | .waiting => room
  | .loading =>
    let time := room.agenda.now + library.latency
    { room.onReader task ({ · with loading := true }) with
      agenda := room.agenda.setAlarm task time }

/-- Lets a reader go on. -/
def go (task : Nat) (room : ReadingRoom) : ReadingRoom :=
  match room.readers.find? (·.task = task) with
  | none => room
  | some reader =>
    if reader.result.isSome then room
    else if reader.loading then room.note task (room.library.arrive reader.name)
    else room.note task (room.library.ask task reader.name)

instance : Timed ReadingRoom where
  agenda room := room.agenda
  setAgenda agenda room := { room with agenda := agenda }
  go := go
  patience room := 4 * (room.readers.length + 1)
  stamina room := room.readers.length + 1

/-- A reader comes. -/
def welcome (room : ReadingRoom) (name : String) : ReadingRoom :=
  { room with
    readers := room.readers ++ [{ task := room.came, name := name }]
    agenda := room.agenda.wake room.came
    came := room.came + 1 }

/-- Everybody who came has an answer. -/
def isServed (room : ReadingRoom) : Bool := room.readers.all (·.result.isSome)

/-- Readers come, one for each name, and leave when all of them have their
answers. -/
def get (names : List String) (room : ReadingRoom) :
    List (Except Fault Template) × ReadingRoom :=
  let room := Timed.attend isServed (names.foldl welcome room)
  (room.readers.filterMap (·.result), { room with readers := [] })

end ReadingRoom

end Inlay.Host
