/-
# Host.Library — a cache and the source it loads from

A library finds markup by name, compiles it and keeps the template in its cache.
Finding takes time (`latency`); the markup is the one that is there when this
time is over.
-/
import Inlay.Host.Agenda
import Inlay.Host.Cache
import Inlay.Host.Settings

namespace Inlay.Host

set_option autoImplicit false

/-- Compiles fetched markup. -/
def compileFetched (name : String) (fetched : Except Fault String) : Except Fault Template := do
  match Template.compile name (← fetched) with
  | .ok template => return template
  | .error fault => throw (.compile fault)

namespace Cache

/-- Gets a template from a source that takes no time, when nobody else loads. -/
def get (fetch : String → Except Fault String) (name : String) (cache : Cache) :
    Except Fault Template × Cache :=
  match cache.ask 0 name with
  | (.ready template, cache) => (.ok template, cache)
  | (_, cache) =>
    match compileFetched name (fetch name) with
    | .ok template => (.ok template, (cache.succeed name template).2)
    | .error fault => (.error fault, (cache.fail name).2)

end Cache

structure Library where
  cache : Cache := {}
  /-- Markup by name. -/
  markup : Fields String
  /-- How long it takes to find markup. -/
  latency : Nat
  /-- The names that were looked for, the first in front. -/
  sought : List String := []

namespace Library

/-- What a caller gets. -/
inductive Reply where
  | ready (template : Template)
  | refused (fault : Fault)
  /-- The caller's own load has begun. -/
  | loading
  /-- Somebody else loads. -/
  | waiting

/-- The markup of a name. -/
def fetch (name : String) (library : Library) : Except Fault String :=
  match library.markup.get? name with
  | some markup => .ok markup
  | none => .error (.load name .notFound)

/-- Markup is put under a name. -/
def insert (name markup : String) (library : Library) : Library :=
  { library with markup := library.markup.put name markup }

/-- A load ends: what the caller gets, and the callers that can go on. -/
def arrive (name : String) (library : Library) : (Reply × List Nat) × Library :=
  match compileFetched name (library.fetch name) with
  | .ok template =>
    let (woken, cache) := library.cache.succeed name template
    ((.ready template, woken), { library with cache := cache })
  | .error fault =>
    let (woken, cache) := library.cache.fail name
    ((.refused fault, woken), { library with cache := cache })

/-- A caller asks for a template. -/
def ask (caller : Nat) (name : String) (library : Library) : (Reply × List Nat) × Library :=
  match library.cache.ask caller name with
  | (.ready template, cache) => ((.ready template, []), { library with cache := cache })
  | (.wait, cache) => ((.waiting, []), { library with cache := cache })
  | (.load, cache) =>
    let library := { library with cache := cache, sought := library.sought ++ [name] }
    if library.latency = 0 then library.arrive name else ((.loading, []), library)

end Library

namespace Agenda

/-- All the tasks can go on, in order. -/
def wakeAll (tasks : List Nat) (agenda : Agenda) : Agenda :=
  tasks.foldl (fun agenda task => agenda.wake task) agenda

end Agenda

end Inlay.Host
