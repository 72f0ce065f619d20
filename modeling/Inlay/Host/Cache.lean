/-
# Host.Cache — every template loaded once

A cache keeps the templates that were loaded. Callers who ask for a name that is
not loaded stand in line: the first loads it, the others wait. When the load
succeeds they all have the template; when it fails, the first leaves with the
fault and the next in line loads again.
-/
import Inlay.Fields
import Inlay.Host.Fault

namespace Inlay.Host

set_option autoImplicit false

structure Cache where
  loaded : Fields Template := []
  /-- Callers by the name they ask for, the one who loads it in front. -/
  lines : Fields (List Nat) := []
  /-- The number of loads that were begun. -/
  loads : Nat := 0

namespace Cache

/-- What a caller is told. -/
inductive Reply where
  | ready (template : Template)
  /-- The caller is to load the template. -/
  | load
  | wait

/-- The name was loaded. -/
def isLoaded (name : String) (cache : Cache) : Bool := (cache.loaded.get? name).isSome

/-- The callers who stand in line for a name. -/
def line (name : String) (cache : Cache) : List Nat := (cache.lines.get? name).getD []

/-- The cache with another line for a name; an empty one is no line. -/
def setLine (name : String) (line : List Nat) (cache : Cache) : Cache :=
  { cache with
    lines := if line.isEmpty then cache.lines.drop name else cache.lines.put name line }

/-- A caller begins a load. -/
def beginLoad (cache : Cache) : Cache := { cache with loads := cache.loads + 1 }

/-- A caller asks for a name, or asks again when it is called up. -/
def ask (caller : Nat) (name : String) (cache : Cache) : Reply × Cache :=
  match cache.loaded.get? name with
  | some template => (.ready template, cache)
  | none =>
    match cache.line name with
    | [] => (.load, (cache.setLine name [caller]).beginLoad)
    | first :: rest =>
      if first = caller then (.load, cache.beginLoad)
      else if rest.contains caller then (.wait, cache)
      else (.wait, cache.setLine name (first :: rest ++ [caller]))

/-- The load of a name succeeded; the callers who waited for it. -/
def succeed (name : String) (template : Template) (cache : Cache) : List Nat × Cache :=
  ((cache.line name).drop 1,
    { cache.setLine name [] with loaded := cache.loaded.put name template })

/-- The load of a name failed; the caller who is to load it next. -/
def fail (name : String) (cache : Cache) : List Nat × Cache :=
  let rest := (cache.line name).drop 1
  (rest.take 1, cache.setLine name rest)

/-- A caller gives up; the callers who are to load in its place. -/
def leave (caller : Nat) (cache : Cache) : List Nat × Cache :=
  let next := cache.lines.flatMap fun (_, line) =>
    if line.head? = some caller then (line.drop 1).take 1 else []
  let lines := cache.lines.mapValues (·.filter (· ≠ caller))
  (next, { cache with lines := lines.filter (!·.2.isEmpty) })

/-- What a debugger shows of a cache. -/
def text (cache : Cache) : String :=
  s!"TemplateCache \x7b loads: {cache.loads}, .. \x7d"

/-- The only cache of a process: the first that is installed. -/
def install {α : Type} (current : Option α) (cache : α) : Except Fault α :=
  match current with
  | none => .ok cache
  | some _ => .error (.settings "a global template cache is already installed")

end Cache

end Inlay.Host
