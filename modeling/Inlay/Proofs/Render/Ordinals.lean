/-
# Proofs.Render.Ordinals — the n-th selection of a name has the n-th instance

A pass makes a `Call` for each selection in the data, inner ones before outer ones.
The n-th call of a name is made by the n-th instance that the name had before the
pass, or by a new one if it had no more than n (`Performs`). Between two calls the
pool of a name holds the instances of the calls made so far and then those it had
before at the ordinals that are still to come (`Staffed`); one turn keeps it so
(`Staffed.turn`), and so does a pass (`Staffed.plays`).

When the pass is done, the instances at the ordinals that did not come are discarded
(`spare`). So two passes in a row show the selections that both have by the same
instances (`render_ordinals`).
-/
import Inlay.Proofs.Render.Leaks
import Inlay.Proofs.Render.Pools
import Inlay.Proofs.Render.Reprise
import Inlay.Proofs.Render.Shield

namespace Inlay.Render

set_option autoImplicit false

open Inlay.Document Inlay.Template Relation

variable {template : Template} {before : Fields (List Instance)} {pass pass' : Pass} {done calls : List Call}
  {call : Call} {t : Turn} {inst inst' : Instance} {d d' : Document} {x : NodeId} {survivors : List NodeId}
  {root : Datum} {selection : Option String} {fields : Fields Datum} {name source : String}

/-! ## Calls of a pass -/

/-- The selections that are shown with a root, in the order in which they are resolved: fields by name, items
in order, and a selection behind those inside it. A record shows the root of the template. -/
def appearances : Datum → List (Option String × Fields Datum)
  | .record fields => showingsOfFields fields ++ [(none, fields)]
  | root => showings root

/-- Two states of one instance: its fragment and its top-level nodes are always the same. -/
structure Instance.Same (inst other : Instance) : Prop where
  fragment : inst.fragment = other.fragment
  tops : inst.tops = other.tops

theorem Instance.same_of_update {context : Value} {stage stage' : Stage} {fault : Option Fault}
    (updated : inst.update context stage = ((fault, inst'), stage')) : inst'.Same inst := by
  rw [Instance.update] at updated
  rcases wrote : Slot.writeAll context inst.slots stage with ⟨⟨fault', slots⟩, stage₁⟩
  rw [wrote] at updated
  cases updated
  exact ⟨rfl, rfl⟩

/-- How a call comes by an instance: the pool has one at its ordinal, or it ends before and one is made. -/
inductive Obtains (template : Template) (pool : List Instance) (call : Call) (ordinal : Nat) (stage : Stage) :
    Instance → Stage → Prop
  | kept {inst : Instance} : pool[ordinal]? = some inst → Obtains template pool call ordinal stage inst stage
  | made {prototype : Prototype} {inst : Instance} {stage' : Stage} : pool.length ≤ ordinal →
      template.prototype? call.selection = some prototype → Instance.ofPrototype prototype stage = .ok inst stage' →
      Obtains template pool call ordinal stage inst stage'

/-- Calls are made behind earlier ones, each by the instance of its ordinal in the pools of before. -/
def Performs (template : Template) (before : Fields (List Instance)) :
    (earlier calls : List Call) → Stage → Stage → Prop
  | _, [], stage, stage' => stage' = stage
  | earlier, call :: rest, stage, stage' => ∃ inst stage₁ stage₂,
      Obtains template ((before.get? call.key).getD []) call (earlier.countP (·.key = call.key)) stage inst stage₁ ∧
      inst.update call.context stage₁ = ((none, call.inst), stage₂) ∧
      Performs template before (earlier ++ [call]) rest stage₂ stage'

/-- The pools between two calls: the instances of the calls that were made, and then those of before. -/
structure Staffed (before : Fields (List Instance)) (done : List Call) (pass : Pass) : Prop where
  sorted : pass.pools.Sorted
  count : ∀ key, pass.count key = done.countP (·.key = key)
  pool : ∀ key, (pass.pools.get? key).getD [] = (done.filter (·.key = key)).map Call.inst ++
    ((before.get? key).getD []).drop (done.countP (·.key = key))

theorem staffed_start (stage : Stage) (sorted : before.Sorted) : Staffed before [] ⟨stage, before, []⟩ :=
  ⟨sorted, fun _ => rfl, fun _ => rfl⟩

namespace Staffed

/-- The instance that a turn shows takes the place of the one of its ordinal. -/
theorem obtains {prototype : Prototype} {instances : List Instance} {stage : Stage} (staffed : Staffed before done pass)
    (known : template.prototype? call.selection = some prototype)
    (called : Called prototype call.key pass instances inst stage) (next : Instance) :
    Obtains template ((before.get? call.key).getD []) call (done.countP (·.key = call.key)) pass.stage inst stage ∧
      instances.set (pass.count call.key) next = (done.filter (·.key = call.key)).map Call.inst ++
        next :: ((before.get? call.key).getD []).drop (done.countP (·.key = call.key) + 1) := by
  have pool := staffed.pool call.key
  have count := staffed.count call.key
  generalize (before.get? call.key).getD [] = old at pool ⊢
  have size : ((done.filter (·.key = call.key)).map Call.inst).length = pass.count call.key := by
    rw [count, List.length_map, List.countP_eq_length_filter]
  rw [← count] at pool ⊢
  generalize (done.filter (·.key = call.key)).map Call.inst = front at pool size ⊢
  cases called with
  | again found =>
      change ((pass.pools.get? call.key).getD [])[pass.count call.key]? = _ at found
      rw [pool, List.getElem?_append_right size.le, size, Nat.sub_self, List.getElem?_drop, Nat.add_zero] at found
      obtain ⟨inside, here⟩ := List.getElem?_eq_some_iff.mp found
      refine ⟨.kept found, ?_⟩
      rw [pool, List.set_append_right _ _ size.le, size, Nat.sub_self, List.drop_eq_getElem_cons inside,
        List.set_cons_zero]
  | anew found made =>
      have long : old.length ≤ pass.count call.key := by
        change ((pass.pools.get? call.key).getD [])[pass.count call.key]? = _ at found
        rw [pool] at found
        have := List.getElem?_eq_none_iff.mp found
        rw [List.length_append, List.length_drop, size] at this
        omega
      refine ⟨.made long known made, ?_⟩
      rw [pool, List.drop_eq_nil_of_le long, List.drop_eq_nil_of_le (Nat.le_succ_of_le long), List.append_nil,
        List.set_append_right _ _ size.le, size, Nat.sub_self, List.set_cons_zero]

/-- A turn is a call by the instance of its ordinal. -/
theorem turn (staffed : Staffed before done pass)
    (shown : Passing.showNext template t.selection t.context pass = .ok t.nodes pass') :
    ∃ call : Call, call.turn = t ∧ (template.prototype? call.selection).isSome = true ∧
      (∃ inst stage, Obtains template ((before.get? call.key).getD []) call (done.countP (·.key = call.key)) pass.stage
        inst stage ∧ inst.update call.context stage = ((none, call.inst), pass'.stage)) ∧
      Staffed before (done ++ [call]) pass' := by
  obtain ⟨prototype, instances, inst, stage, inst', stage', known, called, updated, nodes, rfl⟩ := of_showNext shown
  let call : Call := ⟨t.selection, t.context, inst'⟩
  have known_ : template.prototype? call.selection = some prototype := known
  obtain ⟨obtained, replaced⟩ := staffed.obtains known_ called inst'
  change instances.set (pass.count (t.selection.getD rootName)) inst' = _ at replaced
  refine ⟨call, by rw [Call.turn, ← nodes], Option.isSome_iff_exists.mpr ⟨prototype, known⟩,
    ⟨inst, stage, obtained, updated⟩, ?_⟩
  have counts : ∀ key, (done ++ [call]).countP (·.key = key) =
      if key = call.key then done.countP (·.key = call.key) + 1 else done.countP (·.key = key) := fun key => by
    rw [List.countP_append, List.countP_singleton]
    by_cases same : key = call.key
    · simp [same]
    · simp [same, Ne.symm same]
  refine ⟨Fields.sorted_put staffed.sorted, fun key => ?_, fun key => ?_⟩
  · show ((pass.used.put call.key (pass.count call.key + 1)).get? key).getD 0 = _
    rw [Fields.get?_put, counts]
    split
    · rw [Option.getD_some, staffed.count]
    · exact staffed.count key
  · show ((pass.pools.put call.key _).get? key).getD [] = _
    rw [Fields.get?_put, counts, List.filter_append, List.map_append]
    by_cases same : key = call.key
    · subst same
      rw [if_pos rfl, if_pos rfl, Option.getD_some, replaced, List.filter_cons_of_pos (by simp)]
      simp [call]
    · rw [if_neg same, if_neg same, List.filter_cons_of_neg (by simpa using Ne.symm same), staffed.pool]
      simp

/-- A pass makes its calls in order. -/
theorem plays : ∀ {turns : List Turn} {done : List Call} {pass : Pass} {pile pile' : List (List NodeId)},
    Staffed before done pass → Plays template turns pass pile pass' pile' → ∃ calls : List Call,
      calls.map Call.turn = turns ∧ (∀ call ∈ calls, (template.prototype? call.selection).isSome = true) ∧
      Performs template before done calls pass.stage pass'.stage ∧ Staffed before (done ++ calls) pass'
  | [], done, _, _, _, staffed, ⟨rfl, _⟩ => ⟨[], rfl, by simp, rfl, by rwa [List.append_nil]⟩
  | _ :: _, done, pass, _, _, staffed, ⟨pass₁, _, _, shown, played⟩ => by
      obtain ⟨call, rfl, known, ⟨inst, stage, obtained, updated⟩, next⟩ := staffed.turn shown
      obtain ⟨calls, rfl, others, performs, last⟩ := next.plays played
      refine ⟨call :: calls, rfl, List.forall_mem_cons.mpr ⟨known, others⟩,
        ⟨inst, stage, pass₁.stage, obtained, updated, performs⟩, ?_⟩
      rwa [List.append_assoc] at last

end Staffed

/-- The instance of a call is one of before, or the pool of before has none at the ordinal. -/
theorem Performs.origin : ∀ {calls earlier : List Call} {stage stage' : Stage} {key : String} {k : Nat},
    Performs template before earlier calls stage stage' → (calls.filter (·.key = key))[k]? = some call →
      ∀ old, ((before.get? key).getD [])[earlier.countP (·.key = key) + k]? = some old → call.inst.Same old
  | [], _, _, _, _, _, _, found, _, _ => by simp at found
  | first :: rest, earlier, stage, stage', key, k, ⟨inst, stage₁, stage₂, obtained, updated, performs⟩, found, old,
      here => by
      have counts : (earlier ++ [first]).countP (·.key = key) =
          earlier.countP (·.key = key) + if first.key = key then 1 else 0 := by
        rw [List.countP_append, List.countP_singleton]
        simp
      by_cases same : first.key = key
      · rw [List.filter_cons_of_pos (by simpa using same)] at found
        cases k with
        | zero =>
            cases found
            subst same
            rw [Nat.add_zero] at here
            cases obtained with
            | kept there =>
                cases there.symm.trans here
                exact Instance.same_of_update updated
            | made long =>
                rw [List.getElem?_eq_none long] at here
                cases here
        | succ k =>
            refine performs.origin found old ?_
            rw [counts, if_pos same, Nat.add_assoc, Nat.add_comm 1 k]
            exact here
      · rw [List.filter_cons_of_neg (by simpa using same)] at found
        refine performs.origin found old ?_
        rw [counts, if_neg same, Nat.add_zero]
        exact here

/-! ## Instances without a selection -/

/-- The instances of before at the ordinals that no call has. -/
def spare (before : Fields (List Instance)) (calls : List Call) : List Instance :=
  before.flatMap fun entry => entry.2.drop (calls.countP (·.key = entry.1))

namespace Staffed

theorem surplus_eq (staffed : Staffed before done pass) (sorted : before.Sorted) :
    Passing.surplus pass = spare before done := by
  have counted : Passing.surplus pass =
      pass.pools.flatMap fun entry => entry.2.drop (done.countP (·.key = entry.1)) :=
    congrArg pass.pools.flatMap (funext fun entry => congrArg entry.2.drop (staffed.count entry.1))
  rw [counted]
  let past (key : String) (instances : List Instance) := instances.drop (done.countP (·.key = key))
  refine Fields.flatMap_eq_of_getD (f := past) (fun _ => List.drop_nil) staffed.sorted sorted fun key => ?_
  show List.drop _ _ = List.drop _ _
  rw [staffed.pool, List.drop_append, List.length_map, ← List.countP_eq_length_filter, Nat.sub_self, List.drop_zero,
    List.drop_eq_nil_of_le (by rw [List.length_map, List.countP_eq_length_filter]), List.nil_append]

/-- What is left of a pool are the instances of the calls. -/
theorem kept (staffed : Staffed before done pass) (key : String) :
    ((Passing.usedPools pass).get? key).getD [] = (done.filter (·.key = key)).map Call.inst := by
  rw [usedPools_getD staffed.sorted, staffed.pool, staffed.count, List.countP_eq_length_filter]
  exact List.take_left' (List.length_map _)

end Staffed

/-- Instances were discarded for survivors: their fragments and their nodes are gone, and what was below
neither is still there. -/
structure Retired (survivors : List NodeId) (doomed : List Instance) (d d' : Document) : Prop where
  pruned : Pruned d d'
  fragments : ∀ inst ∈ doomed, d'.contains inst.fragment = false
  nodes : ∀ inst ∈ doomed, ∀ n ∈ inst.nodes, n ∉ survivors → d'.contains n = false
  others : ∀ x, d.contains x = true →
    (∀ inst ∈ doomed, ¬ Below d x inst.fragment ∧ ∀ n ∈ inst.nodes, ¬ Below d x n) → d'.contains x = true

theorem Pruned.dead (pruned : Pruned d d') (dead : d.contains x = false) : d'.contains x = false :=
  Bool.eq_false_iff.mpr fun live => Bool.eq_false_iff.mp dead (pruned.contains x live)

theorem retired_of_forM : ∀ {doomed : List Instance} {stage stage' : Stage}, WellFormed stage.document →
    doomed.forM (Instance.discard survivors) stage = .ok () stage' →
      Retired survivors doomed stage.document stage'.document
  | [], _, _, wf, ran => by
      cases ran
      exact ⟨.refl wf, by simp, by simp, fun _ live _ => live⟩
  | inst :: rest, ⟨d, claims⟩, stage', wf, ran => by
      obtain ⟨⟨⟩, stage₁, gone, ran⟩ := of_bind_ok ran
      obtain ⟨pruned, -⟩ := (discard_frees claims wf inst survivors).2 _ gone
      obtain ⟨-, -, nodes, fragment, spared⟩ := (discard_shields claims wf inst survivors).2 _ gone
      have later := retired_of_forM pruned.wellFormed ran
      refine ⟨pruned.trans later.pruned, List.forall_mem_cons.mpr ⟨later.pruned.dead fragment, later.fragments⟩,
        List.forall_mem_cons.mpr ⟨fun n mem goes => later.pruned.dead (nodes n mem goes), later.nodes⟩,
        fun x live off => ?_⟩
      obtain ⟨⟨outside, above⟩, others⟩ := List.forall_mem_cons.mp off
      exact later.others x (spared x live above outside) fun inst mem =>
        ⟨fun below => (others inst mem).1 (pruned.below below),
          fun n here below => (others inst mem).2 n here (pruned.below below)⟩

/-! ## A rendering -/

/-- What a successful rendering did: a call for each selection of the data, of which the pools keep the instances;
those of before that no call took were discarded at the end. -/
structure Performed (template : Template) (root : Datum) (calls : List Call) (site site' : Site) : Prop where
  told : List.Forall₂ (fun source call => call.turn.Tells source) (appearances root) calls
  known : ∀ call ∈ calls, (template.prototype? call.selection).isSome = true
  work : ∃ stage, Performs template site.renderer.pools [] calls ⟨site.document, []⟩ stage ∧
    Retired ((site'.renderer.pools.flatMap (·.2)).flatMap Instance.nodes) (spare site.renderer.pools calls)
      stage.document site'.document
  pools : ∀ key, (site'.renderer.pools.get? key).getD [] = (calls.filter (·.key = key)).map Call.inst

theorem appearances_of_rootOf (rooted : rootOf root = .ok (selection, fields)) :
    appearances root = showingsOfFields fields ++ [(selection, fields)] := by
  cases root <;> cases rooted <;> rfl

/-- A pass that collects what it left over. -/
theorem of_collect (collected : Passing.collect pass = .ok () pass') : pass'.pools = Passing.usedPools pass ∧
    (Passing.surplus pass).forM (Instance.discard ((pass'.pools.flatMap (·.2)).flatMap Instance.nodes)) pass.stage =
      .ok () pass'.stage := by
  rw [Passing.collect, Passing.act] at collected
  dsimp only at collected
  split at collected
  · next stage ran =>
      cases collected
      exact ⟨rfl, ran⟩
  · cases collected

/-- Every successful rendering is one in which calls are made. -/
theorem performed_of_render {site site' : Site} {nodes : List NodeId} (sorted : site.renderer.pools.Sorted)
    (wf : WellFormed site.document) (rendered : Renderer.render root site = .ok nodes site') :
    ∃ calls, Performed site.renderer.template root calls site site' := by
  rw [Renderer.render] at rendered
  split at rendered
  · cases rendered
  · next selection fields checks =>
    split at rendered
    · next shown pass ran =>
      cases rendered
      obtain ⟨pass₁, turned, collected⟩ := of_run ran
      obtain ⟨turns, stretch⟩ := show_stretch turned
      obtain ⟨calls, rfl, known, performs, staffed⟩ := (staffed_start _ sorted).plays (stretch.plays [])
      rw [List.nil_append] at staffed
      obtain ⟨kept, discards⟩ := of_collect collected
      refine ⟨calls, ?_, known, ⟨pass₁.stage, performs, ?_⟩, fun key => ?_⟩
      · rw [appearances_of_rootOf (rooted_of_checked checks)]
        exact List.forall₂_map_right_iff.mp stretch.told
      · rw [← staffed.surplus_eq sorted]
        exact retired_of_forM ((stretch.plays []).sequel wf).wellFormed discards
      · rw [show (Renderer.after site pass).renderer.pools = pass.pools from rfl, kept]
        exact staffed.kept key
    · cases rendered

/-! ## How many instances a name has -/

mutual

/-- All that is selected inside a root has a name. -/
theorem named_of_showings : ∀ datum : Datum, ∀ s ∈ showings datum, s.1 ≠ none
  | .null, _, mem => by cases mem
  | .bool _, _, mem => by cases mem
  | .number _, _, mem => by cases mem
  | .text _, _, mem => by cases mem
  | .list items, s, mem => named_of_showingsOfItems items s mem
  | .record fields, s, mem => named_of_showingsOfFields fields s mem
  | .template name fields, s, mem => by
      rcases List.mem_append.mp mem with inner | here
      · exact named_of_showingsOfFields fields s inner
      · cases List.mem_singleton.mp here
        nofun

theorem named_of_showingsOfItems : ∀ items : List Datum, ∀ s ∈ showingsOfItems items, s.1 ≠ none
  | [], _, mem => by cases mem
  | item :: rest, s, mem =>
      (List.mem_append.mp mem).elim (named_of_showings item s) (named_of_showingsOfItems rest s)

theorem named_of_showingsOfFields : ∀ fields : List (String × Datum), ∀ s ∈ showingsOfFields fields, s.1 ≠ none
  | [], _, mem => by cases mem
  | (_, datum) :: rest, s, mem =>
      (List.mem_append.mp mem).elim (named_of_showings datum s) (named_of_showingsOfFields rest s)

end

/-- How many instances a renderer has of each name after data were shown: as many as the data have templates of
that name. Those of the root are counted under a name that no template has. -/
structure Sized (root : Datum) (renderer : Renderer) : Prop where
  named : ∀ name, name ≠ rootName → renderer.poolSize name = (showings root).countP (·.1 = some name)
  record : ∀ fields, root = .record fields → renderer.poolSize rootName = 1
  selected : ∀ name fields, root = .template name fields → renderer.poolSize rootName = 0

theorem Call.key_eq_iff (other : name ≠ rootName) : call.key = name ↔ call.selection = some name := by
  rw [Call.key]
  cases call.selection with
  | none => simpa using other.symm
  | some chosen => simp

theorem Call.key_eq_root (unnamed : template.prototype? (some rootName) = none)
    (known : (template.prototype? call.selection).isSome = true) : call.key = rootName ↔ call.selection = none := by
  rw [Call.key]
  cases chosen : call.selection with
  | none => simp
  | some name =>
      rw [chosen] at known
      refine iff_of_false ?_ (Option.some_ne_none name)
      rintro rfl
      rw [unnamed] at known
      cases known

theorem countP_of_told {sources : List (Option String × Fields Datum)} (selection : Option String)
    (told : List.Forall₂ (fun source (call : Call) => call.turn.Tells source) sources calls) :
    calls.countP (·.selection = selection) = sources.countP (·.1 = selection) := by
  induction told with
  | nil => rfl
  | @cons source call sources calls tells _ ih =>
      have same : call.selection = source.1 := tells.1
      rw [List.countP_cons, List.countP_cons, ih, same]

theorem countP_appearances (name : String) :
    (appearances root).countP (·.1 = some name) = (showings root).countP (·.1 = some name) := by
  cases root <;> simp [appearances, showings]

namespace Performed

variable {site site' : Site}

theorem poolSize (performed : Performed template root calls site site') (name : String) :
    site'.renderer.poolSize name = calls.countP (·.key = name) := by
  rw [Renderer.poolSize, performed.pools, List.length_map, List.countP_eq_length_filter]

theorem sized (performed : Performed template root calls site site')
    (unnamed : template.prototype? (some rootName) = none) : Sized root site'.renderer := by
  have ofRoot : site'.renderer.poolSize rootName = (appearances root).countP (·.1 = none) := by
    rw [performed.poolSize, ← countP_of_told none performed.told]
    exact List.countP_congr fun call mem =>
      decide_eq_true_iff.trans ((Call.key_eq_root unnamed (performed.known call mem)).trans decide_eq_true_iff.symm)
  refine ⟨fun name other => ?_, ?_, ?_⟩
  · rw [performed.poolSize, ← countP_appearances, ← countP_of_told _ performed.told]
    exact List.countP_congr fun call _ =>
      decide_eq_true_iff.trans ((Call.key_eq_iff other).trans decide_eq_true_iff.symm)
  · rintro fields rfl
    rw [ofRoot, appearances, List.countP_append,
      List.countP_eq_zero.mpr fun s mem => by simpa using named_of_showingsOfFields fields s mem]
    rfl
  · rintro name fields rfl
    rw [ofRoot]
    exact List.countP_eq_zero.mpr fun s mem => by simpa using named_of_showings (.template name fields) s mem

/-- The selections that two renderings in a row have in common are shown by the same instances. -/
theorem same {site₁ site₂ : Site} {root' : Datum} {calls' : List Call} {call call' : Call} {k : Nat}
    (first : Performed template root calls site site₁) (second : Performed template root' calls' site₂ site')
    (kept : site₂.renderer.pools = site₁.renderer.pools) {key : String}
    (there : (calls.filter (·.key = key))[k]? = some call) (here : (calls'.filter (·.key = key))[k]? = some call') :
    call'.inst.Same call.inst := by
  obtain ⟨stage, performs, -⟩ := second.work
  refine performs.origin here call.inst ?_
  rw [kept, first.pools, List.countP_nil, Nat.zero_add, List.getElem?_map, there]
  rfl

end Performed

/-- Two successful renderings in a row, whatever the renderer did before and whatever happened to the document in
between. Each selection of the data is a call, by the instance that the name had at its ordinal before or by a new one
if it had none there; so the selections that both have are shown by the same instances, with the same nodes at their
tops. Afterwards the renderer has just the instances of the calls; those of before at higher ordinals, and no others,
were discarded. -/
theorem render_ordinals {renderer : Renderer} {site site' : Site} {root' : Datum} {nodes nodes' placed : List NodeId}
    (compiled : Template.compile name source = .ok template) (reached : Renderer.Reached template renderer)
    (wf : WellFormed d) (first : Renderer.render root ⟨renderer, d⟩ = .ok nodes site) (wf' : WellFormed d')
    (second : Renderer.render root' ⟨{ site.renderer with placed := placed }, d'⟩ = .ok nodes' site') :
    ∃ calls calls' : List Call, Performed template root calls ⟨renderer, d⟩ site ∧
      Performed template root' calls' ⟨{ site.renderer with placed := placed }, d'⟩ site' ∧
      Sized root site.renderer ∧ Sized root' site'.renderer ∧
      ∀ (key : String) (k : Nat) (call call' : Call), (calls.filter (·.key = key))[k]? = some call →
        (calls'.filter (·.key = key))[k]? = some call' → call'.inst.Same call.inst := by
  have unnamed := unnamed_of_compile compiled
  obtain ⟨shows, sorted⟩ := reached.orderly
  have after := reached.render d root
  rw [left_ok first] at after
  obtain ⟨shows', sorted'⟩ := after.orderly
  obtain ⟨calls, performed⟩ := performed_of_render sorted wf first
  let between : Site := ⟨{ site.renderer with placed := placed }, d'⟩
  have sorted_ : between.renderer.pools.Sorted := sorted'
  obtain ⟨calls', performed'⟩ := performed_of_render sorted_ wf' second
  change Performed renderer.template root calls _ _ at performed
  change Performed site.renderer.template root' calls' _ _ at performed'
  rw [shows] at performed
  rw [shows'] at performed'
  exact ⟨calls, calls', performed, performed', performed.sized unnamed, performed'.sized unnamed,
    fun key k call call' there here => performed.same performed' rfl there here⟩

/-- Rows are shown, and then fewer of them. -/
def Sample.shrinks (template : Template) : Bool :=
  match Renderer.render (.record Sample.fields) ⟨.new template, Sample.document⟩ with
  | .error _ _ => false
  | .ok _ site =>
    match Renderer.render (.record Sample.fewer) site with
    | .error _ _ => false
    | .ok _ _ => true

theorem render_ordinals_rows : ∃ template nodes nodes' site site',
    Template.compile "page" Sample.source = .ok template ∧
    Renderer.render (.record Sample.fields) ⟨.new template, Sample.document⟩ = .ok nodes site ∧
    Renderer.render (.record Sample.fewer) site = .ok nodes' site' ∧
    site.renderer.poolSize "r" = 2 ∧ site'.renderer.poolSize "r" = 1 := by
  have goes : (Template.compile "page" Sample.source).map Sample.shrinks = .ok true := by decide +kernel
  cases compiled : Template.compile "page" Sample.source with
  | error fault => rw [compiled] at goes; cases goes
  | ok template =>
      simp only [compiled, Except.map, Except.ok.injEq, Sample.shrinks] at goes
      split at goes
      · cases goes
      · next nodes site first =>
        split at goes
        · cases goes
        · next nodes' site' second =>
          have wf : WellFormed Sample.document := (create_becomes wellFormed_new _).2.wellFormed
          have later := Renderer.steady_render (.record Sample.fields) ⟨.new template, Sample.document⟩ wf
          rw [left_ok first] at later
          obtain ⟨-, -, -, -, sized, sized', -⟩ :=
            render_ordinals compiled .new wf first later.wellFormed second
          refine ⟨template, nodes, nodes', site, site', rfl, first, second, ?_, ?_⟩
          · rw [sized.named "r" (by decide)]
            decide
          · rw [sized'.named "r" (by decide)]
            decide

/-- Under the name of the root there is its instance, although no template of the data has that name. -/
theorem poolSize_root : ∃ template nodes site, Template.compile "page" "<p></p>" = .ok template ∧
    Renderer.render (.record []) ⟨.new template, .new⟩ = .ok nodes site ∧ site.renderer.poolSize "" = 1 ∧
    (showings (.record [])).countP (·.1 = some "") = 0 := by
  have facts : (Template.compile "page" "<p></p>").toOption.any (fun template =>
      match Renderer.render (.record []) ⟨.new template, .new⟩ with
      | .error _ _ => false
      | .ok _ site => site.renderer.poolSize "" = 1) = true := by decide +kernel
  cases compiled : Template.compile "page" "<p></p>" with
  | error fault =>
      rw [compiled] at facts
      cases facts
  | ok template =>
      simp only [compiled, Except.toOption, Option.any_some] at facts
      split at facts
      · cases facts
      · next nodes site rendered => exact ⟨template, nodes, site, rfl, rendered, of_decide_eq_true facts, rfl⟩

end Inlay.Render
