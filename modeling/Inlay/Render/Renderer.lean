/-
# Render.Renderer — rendering data, pass after pass

A renderer shows data through a template. In a pass every selection of a
template in the data is shown by an instance, inner ones before outer ones; the
n-th selection of a name takes the n-th instance of that name from the pass
before, and instances without a selection are discarded when the pass is done.

Data are checked before anything is changed. `render` gives the top-level nodes
of the root's instance, `renderInto` places them in a host and `clear` frees
everything the renderer made.
-/
import Inlay.Data.Datum
import Inlay.Render.Instance

namespace Inlay.Render

set_option autoImplicit false

/-- The name under which the instances of the root are kept; no definition has
an empty name. -/
def rootName : String := ""

structure Renderer where
  template : Template
  /-- The instances of every name. -/
  pools : Fields (List Instance)
  /-- The nodes placed in the host. -/
  placed : List NodeId

/-! ## Checking data -/

mutual

/-- The names a datum selects, in the order in which they are checked. -/
def selections : Datum → List String
  | .null => []
  | .bool _ => []
  | .number _ => []
  | .text _ => []
  | .list items => selectionsOfItems items
  | .record fields => selectionsOfFields fields
  | .template name fields => name :: selectionsOfFields fields

/-- The names items select, the last item first. -/
def selectionsOfItems : List Datum → List String
  | [] => []
  | item :: rest => selectionsOfItems rest ++ selections item

/-- The names fields select, the last field first. -/
def selectionsOfFields : List (String × Datum) → List String
  | [] => []
  | (_, value) :: rest => selectionsOfFields rest ++ selections value

end

/-- The template the root of data selects, and its fields. -/
def rootOf : Datum → Except Fault (Option String × Fields Datum)
  | .record fields => .ok (none, fields)
  | .template name fields => .ok (some name, fields)
  | other => .error (.badRoot other.kind)

/-- The root of data that select defined templates only. -/
def checked (template : Template) (root : Datum) : Except Fault (Option String × Fields Datum) :=
  match (selections root).find? (!template.defines ·) with
  | some name => .error (.unknown template.name name)
  | none => rootOf root

/-! ## One pass -/

/-- What a pass works on. -/
structure Pass where
  stage : Stage
  pools : Fields (List Instance)
  /-- How many instances of a name the pass has used. -/
  used : Fields Nat

abbrev Passing := EStateM Fault Pass

namespace Passing

/-- An act on the stage of a pass. -/
def act {α : Type} (a : Act α) : Passing α := fun pass =>
  match a pass.stage with
  | .ok answer stage => .ok answer { pass with stage := stage }
  | .error fault stage => .error fault { pass with stage := stage }

/-- The ordinal of the next selection of a name. -/
def nextOrdinal (name : String) : Passing Nat := fun pass =>
  let ordinal := (pass.used.get? name).getD 0
  .ok ordinal { pass with used := pass.used.put name (ordinal + 1) }

/-- The instances of a name. -/
def pool (name : String) : Passing (List Instance) := fun pass =>
  .ok ((pass.pools.get? name).getD []) pass

def setPool (name : String) (instances : List Instance) : Passing Unit := fun pass =>
  .ok () { pass with pools := pass.pools.put name instances }

/-- The instance at an ordinal; a new one when the pool ends there. -/
def instanceAt (prototype : Template.Prototype) (name : String) (ordinal : Nat) :
    Passing Instance := do
  match (← pool name)[ordinal]? with
  | some inst => return inst
  | none =>
    let inst ← act (Instance.ofPrototype prototype)
    setPool name ((← pool name) ++ [inst])
    return inst

/-- Updates an instance in its pool, where it stays when that fails. -/
def updateAt (name : String) (ordinal : Nat) (context : Value) (inst : Instance) :
    Passing (List NodeId) := fun pass =>
  let ((fault, inst), stage) := inst.update context pass.stage
  let instances := ((pass.pools.get? name).getD []).set ordinal inst
  let pass := { pass with stage := stage, pools := pass.pools.put name instances }
  match fault with
  | none => .ok inst.nodes pass
  | some fault => .error fault pass

/-- Shows a context through the next instance of a name. -/
def showNext (template : Template) (name : Option String) (context : Value) :
    Passing (List NodeId) := do
  let key := name.getD rootName
  let ordinal ← nextOrdinal key
  match selected template name with
  | .error fault => throw fault
  | .ok prototype =>
    let inst ← instanceAt prototype key ordinal
    updateAt key ordinal context inst

mutual

/-- The value of a datum: every selection is shown, inner ones first. -/
def resolve (template : Template) : Datum → Passing Value
  | .null => return .null
  | .bool flag => return .bool flag
  | .number x => return .number x
  | .text content => return .string content
  | .list items => return .list (← resolveItems template items)
  | .record fields => return .map (← resolveFields template fields)
  | .template name fields => do
    let context ← resolveFields template fields
    return .nodes (← showNext template (some name) (.map context))

def resolveItems (template : Template) : List Datum → Passing (List Value)
  | [] => return []
  | item :: rest => do
    let value ← resolve template item
    return value :: (← resolveItems template rest)

def resolveFields (template : Template) : List (String × Datum) → Passing (List (String × Value))
  | [] => return []
  | (name, datum) :: rest => do
    let value ← resolve template datum
    return (name, value) :: (← resolveFields template rest)

end

/-- The instances a pass did not use, by name. -/
def surplus (pass : Pass) : List Instance :=
  pass.pools.flatMap fun (name, instances) => instances.drop ((pass.used.get? name).getD 0)

/-- The pools without surplus and without empty ones. -/
def usedPools (pass : Pass) : Fields (List Instance) :=
  (pass.pools.map fun (name, instances) =>
    (name, instances.take ((pass.used.get? name).getD 0))).filter (!·.2.isEmpty)

/-- Discards the instances a pass did not use; nodes of the others survive. -/
def collect : Passing Unit := fun pass =>
  let doomed := surplus pass
  let pools := usedPools pass
  let survivors := (pools.flatMap (·.2)).flatMap Instance.nodes
  let discardAll := doomed.forM (Instance.discard survivors)
  act discardAll { pass with pools := pools }

/-- Shows the root of checked data. -/
def run (template : Template) (name : Option String) (fields : Fields Datum) :
    Passing (List NodeId) := do
  let context ← resolveFields template fields
  let nodes ← showNext template name (.map context)
  collect
  return nodes

end Passing

/-! ## Renderers -/

/-- A renderer and the document it works in. -/
structure Site where
  renderer : Renderer
  document : Document

abbrev Rendering := EStateM Fault Site

namespace Renderer

/-- A renderer that has shown nothing. -/
def new (template : Template) : Renderer := ⟨template, [], []⟩

/-- The number of instances of a name. -/
def poolSize (renderer : Renderer) (name : String) : Nat :=
  ((renderer.pools.get? name).getD []).length

/-- Runs an act on the document, with claims of its own. -/
def act {α : Type} (a : Act α) : Rendering α := fun site =>
  match a ⟨site.document, []⟩ with
  | .ok answer stage => .ok answer { site with document := stage.document }
  | .error fault stage => .error fault { site with document := stage.document }

/-- The site behind a pass. -/
def after (site : Site) (pass : Pass) : Site :=
  ⟨{ site.renderer with pools := pass.pools }, pass.stage.document⟩

/-- Shows data and gives the top-level nodes. -/
def render (root : Datum) : Rendering (List NodeId) := fun site =>
  match checked site.renderer.template root with
  | .error fault => .error fault site
  | .ok (name, fields) =>
    match Passing.run site.renderer.template name fields ⟨⟨site.document, []⟩, site.renderer.pools, []⟩ with
    | .ok nodes pass => .ok nodes (after site pass)
    | .error fault pass => .error fault (after site pass)

/-- Shows data as the children of a host, in place of what was shown before. -/
def renderInto (host : NodeId) (root : Datum) : Rendering Unit := do
  let nodes ← render root
  act (reconcile (.within host) (← get).renderer.placed nodes)
  modify fun site => { site with renderer := { site.renderer with placed := nodes } }

/-- Frees everything the renderer made. -/
def clear : Rendering Unit := do
  let instances := (← get).renderer.pools.flatMap (·.2)
  modify fun site => { site with renderer := { site.renderer with pools := [] } }
  act (instances.forM (Instance.discard []))
  modify fun site => { site with renderer := { site.renderer with placed := [] } }

end Renderer

end Inlay.Render
