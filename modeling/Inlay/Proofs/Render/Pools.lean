/-
# Proofs.Render.Pools — the pools of a renderer, name by name

Whatever a renderer was used for, the names of its pools ascend (`Reached.orderly`), so
that every name has one pool. What a pass leaves of a pool are the instances it used
(`usedPools_getD`). Which instances it leaves over can be told name by name
(`flatMap_eq_of_getD`).
-/
import Inlay.Proofs.Data.Sorted
import Inlay.Proofs.Render.Ledger
import Inlay.Proofs.Render.Steady

namespace Inlay.Fields

set_option autoImplicit false

variable {α β : Type} {fields : Fields α} {name : String} {entry : String × α}

theorem get?_mapEntries (f : String → α → β) : ∀ fields : Fields α,
    Fields.get? name (fields.map fun entry => (entry.1, f entry.1 entry.2)) = (fields.get? name).map (f name)
  | [] => rfl
  | (other, old) :: rest => by
      have ih := get?_mapEntries f rest
      rw [get?, get?] at ih
      rw [List.map_cons, get?, get?, List.lookup_cons, List.lookup_cons]
      by_cases same : name = other
      · simp [same]
      · simpa [beq_false_of_ne same] using ih

theorem Sorted.mapEntries (sorted : fields.Sorted) (f : String → α → β) :
    Sorted (fields.map fun entry => (entry.1, f entry.1 entry.2)) := by
  unfold Sorted
  rwa [List.map_map]

theorem Sorted.tail (sorted : Sorted (entry :: fields)) : fields.Sorted := (List.pairwise_cons.mp sorted).2

/-- Nothing is found under a name that is not above all before it. -/
theorem get?_eq_none_of_le (sorted : Sorted (entry :: fields)) (low : name ≤ entry.1) : fields.get? name = none := by
  cases found : fields.get? name with
  | none => rfl
  | some value =>
      have mem := List.mem_map_of_mem (f := Prod.fst) (mem_of_get? found)
      exact absurd ((List.pairwise_cons.mp sorted).1 name mem) (not_lt.mpr low)

theorem get?_cons_of_ne (ne : name ≠ entry.1) : Fields.get? name (entry :: fields) = fields.get? name := by
  rw [get?, List.lookup_cons, beq_false_of_ne ne]
  rfl

theorem get?_cons_self (entry : String × α) (fields : Fields α) :
    Fields.get? entry.1 (entry :: fields) = some entry.2 := by
  rw [get?, List.lookup_cons, beq_self_eq_true]

section Lists

variable {f : String → List α → List β} {list : Fields (List α)} {first : String × List α}

/-- An entry of which nothing is made can be left out. -/
theorem made_tail (sorted : Sorted (first :: list)) (none_ : ∀ name, f name [] = []) (empty : f first.1 first.2 = [])
    (name : String) :
    f name ((Fields.get? name (first :: list)).getD []) = f name ((list.get? name).getD []) := by
  by_cases same : name = first.1
  · rw [same, get?_cons_self, get?_eq_none_of_le sorted le_rfl, Option.getD_some, Option.getD_none, empty, none_]
  · rw [get?_cons_of_ne same]

/-- What is found under each name, an empty list where there is nothing, tells what is made of all. -/
theorem flatMap_eq_of_getD (none_ : ∀ name, f name [] = []) : ∀ {before after : Fields (List α)}, before.Sorted →
    after.Sorted → (∀ name, f name ((before.get? name).getD []) = f name ((after.get? name).getD [])) →
      before.flatMap (fun entry => f entry.1 entry.2) = after.flatMap fun entry => f entry.1 entry.2
  | [], [], _, _, _ => rfl
  | entry :: before, [], sorted, sorted', same => by
      have empty : f entry.1 entry.2 = [] := by
        rw [← none_ entry.1, ← Option.getD_some (a := entry.2), ← get?_cons_self entry before, same]
        rfl
      have rest := flatMap_eq_of_getD none_ sorted.tail sorted' fun name => by
        rw [← made_tail sorted none_ empty, same]
      rw [List.flatMap_cons, rest, empty, List.nil_append]
  | [], entry :: after, sorted, sorted', same => by
      have empty : f entry.1 entry.2 = [] := by
        rw [← none_ entry.1, ← Option.getD_some (a := entry.2), ← get?_cons_self entry after, ← same]
        rfl
      have rest := flatMap_eq_of_getD none_ sorted sorted'.tail fun name => by
        rw [← made_tail sorted' none_ empty, same]
      rw [List.flatMap_cons, ← rest, empty, List.nil_append]
  | entry :: before, other :: after, sorted, sorted', same => by
      have here := same entry.1
      have there := same other.1
      rw [get?_cons_self, Option.getD_some] at here there
      rcases lt_trichotomy entry.1 other.1 with low | eq | high
      · have empty : f entry.1 entry.2 = [] := by
          rw [here, get?_cons_of_ne low.ne, get?_eq_none_of_le sorted' low.le, Option.getD_none, none_]
        have rest := flatMap_eq_of_getD none_ sorted.tail sorted' fun name => by
          rw [← made_tail sorted none_ empty, same]
        rw [List.flatMap_cons, rest, empty, List.nil_append]
      · rw [eq, get?_cons_self, Option.getD_some] at here
        have rest := flatMap_eq_of_getD none_ sorted.tail sorted'.tail fun name => by
          by_cases first_ : name = other.1
          · rw [get?_eq_none_of_le sorted (first_.trans eq.symm).le, get?_eq_none_of_le sorted' first_.le]
          · have both := same name
            rwa [get?_cons_of_ne first_, get?_cons_of_ne (eq ▸ first_)] at both
        rw [List.flatMap_cons, List.flatMap_cons, rest, eq, here]
      · have empty : f other.1 other.2 = [] := by
          rw [← there, get?_cons_of_ne high.ne, get?_eq_none_of_le sorted high.le, Option.getD_none, none_]
        have rest := flatMap_eq_of_getD none_ sorted sorted'.tail fun name => by
          rw [← made_tail sorted' none_ empty, same]
        rw [rest, List.flatMap_cons, empty, List.nil_append]
  termination_by before after => before.length + after.length

end Lists

end Inlay.Fields

namespace Inlay.Render

set_option autoImplicit false

variable {template : Template} {pass pass' : Pass} {name : String} {renderer : Renderer}

/-! ## What a pass leaves of the pools -/

/-- What is left of a pool are the instances that were used. -/
theorem usedPools_getD (sorted : pass.pools.Sorted) (name : String) :
    ((Passing.usedPools pass).get? name).getD [] = ((pass.pools.get? name).getD []).take (pass.count name) := by
  have kept : Fields.Sorted (pass.pools.map fun entry => (entry.1, entry.2.take (pass.count entry.1))) :=
    sorted.mapEntries fun name instances => instances.take (pass.count name)
  have found : Fields.get? name (pass.pools.map fun entry => (entry.1, entry.2.take (pass.count entry.1))) =
      (pass.pools.get? name).map fun instances => instances.take (pass.count name) :=
    Fields.get?_mapEntries (fun name instances => instances.take (pass.count name)) pass.pools
  show ((Fields.get? name ((pass.pools.map fun entry => (entry.1, entry.2.take (pass.count entry.1))).filter
    (!·.2.isEmpty))).getD []) = _
  rw [Fields.get?_filter kept, found]
  cases pass.pools.get? name with
  | none => simp
  | some instances =>
      cases empty : instances.take (pass.count name) with
      | nil => simp [empty, Option.filter]
      | cons first rest => simp [empty, Option.filter]

theorem sorted_usedPools (sorted : pass.pools.Sorted) : (Passing.usedPools pass).Sorted :=
  (sorted.mapEntries fun name instances => instances.take (pass.count name)).filter _

/-! ## Pools in the order of their names -/

section Programs

variable {ε σ α β : Type} {holds : σ → Prop}

/-- In both outcomes a program leaves a state of which something still holds. -/
def Preserves (holds : σ → Prop) (e : EStateM ε σ α) : Prop := ∀ s, holds s → holds (left e s)

namespace Preserves

theorem pure (a : α) : Preserves holds (Pure.pure a : EStateM ε σ α) := fun _ here => here

theorem throw (fault : ε) : Preserves holds (throw fault : EStateM ε σ α) := fun _ here => here

theorem bind {e : EStateM ε σ α} {f : α → EStateM ε σ β} (first : Preserves holds e)
    (rest : ∀ a, Preserves holds (f a)) : Preserves holds (e >>= f) := by
  intro s here
  have there := first s here
  cases done : e s with
  | ok a s' =>
      rw [left_ok done] at there
      exact left_bind done ▸ rest a s' there
  | error fault s' =>
      rw [left_error done] at there
      rwa [left_error (bind_error done)]

end Preserves

end Programs

namespace Passing

/-- The names of the pools ascend. -/
def Ordered (pass : Pass) : Prop := pass.pools.Sorted

theorem ordered_act {α : Type} (a : Act α) : Preserves Ordered (act a) := fun pass here => by
  cases done : a pass.stage <;> simpa [left, act, done, Ordered] using here

theorem ordered_setPool (name : String) (instances : List Instance) : Preserves Ordered (setPool name instances) :=
  fun _ here => Fields.sorted_put here

theorem ordered_instanceAt (prototype : Template.Prototype) (name : String) (ordinal : Nat) :
    Preserves Ordered (instanceAt prototype name ordinal) := by
  refine .bind (fun _ here => here) fun instances => ?_
  split
  · exact .pure _
  · exact .bind (ordered_act _) fun inst => .bind (fun _ here => here) fun _ =>
      .bind (ordered_setPool name _) fun _ => .pure _

theorem ordered_updateAt (name : String) (ordinal : Nat) (context : Value) (inst : Instance) :
    Preserves Ordered (updateAt name ordinal context inst) := fun pass here => by
  rcases result : inst.update context pass.stage with ⟨⟨fault, inst'⟩, stage⟩
  cases fault <;> simpa [left, updateAt, result, Ordered] using Fields.sorted_put here

theorem ordered_showNext (template : Template) (name : Option String) (context : Value) :
    Preserves Ordered (showNext template name context) := by
  refine .bind (fun _ here => here) fun ordinal => ?_
  cases selected template name with
  | error fault => exact .throw _
  | ok prototype =>
      exact .bind (ordered_instanceAt prototype _ ordinal) fun inst => ordered_updateAt _ _ _ inst

mutual

theorem ordered_resolve (template : Template) : ∀ datum, Preserves Ordered (resolve template datum)
  | .null => .pure _
  | .bool _ => .pure _
  | .number _ => .pure _
  | .text _ => .pure _
  | .list items => .bind (ordered_resolveItems template items) fun _ => .pure _
  | .record fields => .bind (ordered_resolveFields template fields) fun _ => .pure _
  | .template _ fields => .bind (ordered_resolveFields template fields) fun _ =>
      .bind (ordered_showNext template _ _) fun _ => .pure _

theorem ordered_resolveItems (template : Template) : ∀ items, Preserves Ordered (resolveItems template items)
  | [] => .pure _
  | item :: rest => .bind (ordered_resolve template item) fun _ =>
      .bind (ordered_resolveItems template rest) fun _ => .pure _

theorem ordered_resolveFields (template : Template) : ∀ fields, Preserves Ordered (resolveFields template fields)
  | [] => .pure _
  | (_, datum) :: rest => .bind (ordered_resolve template datum) fun _ =>
      .bind (ordered_resolveFields template rest) fun _ => .pure _

end

theorem ordered_collect : Preserves Ordered collect := fun pass here =>
  ordered_act ((surplus pass).forM (Instance.discard _)) { pass with pools := usedPools pass } (sorted_usedPools here)

theorem ordered_run (template : Template) (name : Option String) (fields : Fields Datum) :
    Preserves Ordered (run template name fields) :=
  .bind (ordered_resolveFields template fields) fun _ => .bind (ordered_showNext template _ _) fun _ =>
    .bind ordered_collect fun _ => .pure _

end Passing

namespace Renderer

/-- The renderer is one for the template, and the names of its pools ascend. -/
def Orderly (template : Template) (site : Site) : Prop :=
  site.renderer.template = template ∧ site.renderer.pools.Sorted

theorem orderly_act {α : Type} (a : Act α) : Preserves (Orderly template) (act a) := fun site here => by
  cases done : a ⟨site.document, []⟩ <;> simpa [left, act, done, Orderly] using here

theorem orderly_render (root : Datum) : Preserves (Orderly template) (render root) := fun site ⟨same, sorted⟩ => by
  subst same
  simp only [left, render]
  cases checked site.renderer.template root with
  | error fault => exact ⟨rfl, sorted⟩
  | ok selected =>
      have after := Passing.ordered_run site.renderer.template selected.1 selected.2
        ⟨⟨site.document, []⟩, site.renderer.pools, []⟩ sorted
      cases done : Passing.run site.renderer.template selected.1 selected.2
        ⟨⟨site.document, []⟩, site.renderer.pools, []⟩ <;>
          simpa [left, done, Renderer.after, Orderly, Passing.Ordered] using after

theorem orderly_renderInto (host : NodeId) (root : Datum) : Preserves (Orderly template) (renderInto host root) :=
  .bind (orderly_render root) fun _ => .bind (fun _ here => here) fun _ => .bind (orderly_act _) fun _ _ here => here

theorem orderly_clear : Preserves (Orderly template) clear :=
  .bind (fun _ here => here) fun _ => .bind (fun _ here => ⟨here.1, Fields.sorted_nil⟩) fun _ =>
    .bind (orderly_act _) fun _ _ here => here

/-- What a renderer can be when it is used, in whatever documents and with whatever outcomes. -/
inductive Reached (template : Template) : Renderer → Prop
  | new : Reached template (.new template)
  | render {renderer : Renderer} (d : Document) (root : Datum) : Reached template renderer →
      Reached template (left (Renderer.render root) ⟨renderer, d⟩).renderer
  | renderInto {renderer : Renderer} (d : Document) (host : NodeId) (root : Datum) : Reached template renderer →
      Reached template (left (Renderer.renderInto host root) ⟨renderer, d⟩).renderer
  | clear {renderer : Renderer} (d : Document) : Reached template renderer →
      Reached template (left Renderer.clear ⟨renderer, d⟩).renderer

theorem Reached.orderly (reached : Reached template renderer) :
    renderer.template = template ∧ renderer.pools.Sorted := by
  induction reached with
  | new => exact ⟨rfl, Fields.sorted_nil⟩
  | render d root _ ih => exact orderly_render root _ ih
  | renderInto d host root _ ih => exact orderly_renderInto host root _ ih
  | clear d _ ih => exact orderly_clear _ ih

end Renderer

end Inlay.Render
