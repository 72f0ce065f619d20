/-
# Proofs.Render.Debut — the first pass, remembered for a second one

In a first pass every turn makes an instance of its own and writes it. `Debut`
is what holds between the turns of such a pass, of the document and of the pools:
whatever was placed, written and made can be found again. One more turn keeps it
(`Debut.turn`).
-/
import Inlay.Proofs.Render.FirstPass
import Inlay.Proofs.Render.Pieces

namespace Inlay.Render

set_option autoImplicit false

open Inlay.Document Inlay.Document.Planted Inlay.Markup
open Inlay.Template hiding root

variable {d d' d₀ : Document} {level level' : Level} {strict : Prop} {x : NodeId} {template : Template}

/-! ## The anchors of a prototype -/

mutual

/-- The anchors of a new instance: their paths are those of the prototype, and
they are comments among its nodes, each with nothing behind it. -/
theorem anchorsOf_slots (parent : Option (String × NodeId)) : ∀ r : Planted,
    (anchorsOf (slots .blank parent r)).map (·.1) = treeAnchors r.tree ∧
      ((anchorsOf (slots .blank parent r)).map (·.2.comment)).Sublist r.ids ∧
      ∀ pair ∈ anchorsOf (slots .blank parent r), pair.2 = .new pair.2.comment
  | .text id content => by simp [slots, tree, treeAnchors]
  | .comment id body => by
      cases found : anchorPath? body with
      | none => simp [slots, commentSlots, found, tree, treeAnchors, anchorsOf]
      | some path =>
          simp [slots, commentSlots, found, tree, treeAnchors, anchorsOf, Slot.anchor?, Memory.anchor,
            Memory.blank, Anchor.new, ids]
  | .element id tag attributes children => by
      obtain ⟨paths, comments, new⟩ := anchorsOf_slotsAll (some (tag, id)) children
      rw [slots, anchorsOf_append, anchorsOf_attributes, List.nil_append]
      exact ⟨paths, comments.cons id, new⟩

theorem anchorsOf_slotsAll (parent : Option (String × NodeId)) : ∀ rs : List Planted,
    (anchorsOf (slotsAll .blank parent rs)).map (·.1) = anchors (trees rs) ∧
      ((anchorsOf (slotsAll .blank parent rs)).map (·.2.comment)).Sublist (idsAll rs) ∧
      ∀ pair ∈ anchorsOf (slotsAll .blank parent rs), pair.2 = .new pair.2.comment
  | [] => ⟨rfl, .slnil, by simp [slotsAll, anchorsOf]⟩
  | r :: rest => by
      obtain ⟨paths, comments, new⟩ := anchorsOf_slots parent r
      obtain ⟨paths', comments', new'⟩ := anchorsOf_slotsAll parent rest
      rw [slotsAll, anchorsOf_append, List.map_append, List.map_append, paths, paths']
      exact ⟨rfl, comments.append comments', fun pair mem => (List.mem_append.mp mem).elim (new pair) (new' pair)⟩

end

/-- What the anchors of an instance reach is what its prototype reaches. -/
theorem reach_slotsAll (context : Value) (rs : List Planted) :
    reach context (slotsAll .blank none rs) = reached (trees rs) context := by
  rw [reached, ← (anchorsOf_slotsAll none rs).1, List.flatMap_map]
  rfl

/-! ## One turn -/

/-- A turn for which there is no instance of before. -/
structure Fresh (pass pass' : Pass) (library : Library) (selection : Option String) (context : Value)
    (d₁ : Document) (inst : Instance) (rs : List Planted) : Prop where
  potted : Potted pass.stage.document d₁ inst.fragment (clearedPlants rs)
  source : trees rs = library selection
  tops : inst.tops = rs.map root
  wrote : Slot.writeAll context (slotsAll .blank none rs) ⟨d₁, pass.stage.claims⟩ =
    ((none, inst.slots), pass'.stage)
  grown : ∃ blank, pass' = pass.grown (selection.getD rootName) blank inst pass'.stage

theorem fresh_of_showNext {pass pass' : Pass} {library : Library} (compiled : Compiled template library)
    {selection : Option String} {context : Value} {nodes : List NodeId} (unspared : Unspared pass)
    (wf : WellFormed pass.stage.document)
    (shown : Passing.showNext template selection context pass = .ok nodes pass') :
    ∃ d₁ inst rs, nodes = inst.nodes ∧ (∃ prototype, selected template selection = .ok prototype) ∧
      Fresh pass pass' library selection context d₁ inst rs := by
  cases known : template.prototype? selection with
  | none =>
      simp only [Passing.showNext, bind, EStateM.bind, Passing.nextOrdinal, selected, known, throw, throwThe,
        MonadExceptOf.throw] at shown
      cases shown
  | some prototype =>
      have chosen : selected template selection = .ok prototype := by simp [selected, known]
      obtain ⟨fragment, rs, d₁, made, source, potted⟩ :=
        ofPrototype_ok wf pass.stage.claims (compiled.of_selection known)
      cases wrote : Slot.writeAll context (slotsAll .blank none rs) ⟨d₁, pass.stage.claims⟩ with
      | mk result stage =>
          obtain ⟨fault, slots'⟩ := result
          have updated : (Instance.mk fragment (rs.map root) (slotsAll .blank none rs)).update context
              ⟨d₁, pass.stage.claims⟩ = ((fault, ⟨fragment, rs.map root, slots'⟩), stage) := by
            simp only [Instance.update, wrote]
          rw [showNext_eq_grown chosen unspared made updated] at shown
          cases fault with
          | some fault => cases shown
          | none =>
              cases shown
              exact ⟨d₁, ⟨fragment, rs.map root, slots'⟩, rs, rfl, ⟨prototype, chosen⟩, potted, source, rfl,
                wrote, _, rfl⟩

/-- A turn and the instance it left. -/
structure Call where
  selection : Option String
  context : Value
  inst : Instance

namespace Call

def key (call : Call) : String := call.selection.getD rootName

def turn (call : Call) : Turn := ⟨call.selection, call.context, call.inst.nodes⟩

end Call

variable {calls : List Call} {pile under : List (List NodeId)} {pass pass' : Pass}

/-- The moves of calls, in order. -/
def madeBy (calls : List Call) : List Move := calls.flatMap fun call => movesOf call.inst.slots

theorem madeBy_append (calls : List Call) (call : Call) :
    madeBy (calls ++ [call]) = madeBy calls ++ movesOf call.inst.slots := by
  simp [madeBy]

/-! ## Between turns -/

/-- What there is to find again between the turns of a first pass, which began
with the document `d₀`. -/
structure Debut (strict : Prop) (template : Template) (d₀ : Document) (pass : Pass) (level : Level)
    (calls : List Call) (pile : List (List NodeId)) : Prop where
  poised : Poised strict pass.stage.document level (madeBy calls)
  usable : ∀ nodes ∈ pile, Usable pass.stage.document level (madeBy calls) calls.length nodes
  old : ∀ x, d₀.contains x = true → level x = ⊤ ∧
    (pass.stage.document.content? x).map Content.isContainer = (d₀.content? x).map Content.isContainer
  told : ∀ call ∈ calls, Told pass.stage.document call.context call.inst.slots
  refinds : ∀ call ∈ calls, Refinds call.context call.inst.slots
  clear : ∀ call ∈ calls, call.inst.slots.Pairwise (Clear strict)
  known : ∀ call ∈ calls, ∃ prototype, selected template call.selection = .ok prototype
  unspared : Unspared pass
  stocked : ∀ key, (pass.pools.get? key).getD [] = (calls.filter (·.key = key)).map Call.inst
  filled : ∀ entry ∈ pass.pools, entry.2 ≠ []
  apart : strict → pile.flatten.Nodup
  pieces : strict → ∀ m ∈ madeBy calls, ∀ nodes ∈ pile, Unsplit m.run nodes

namespace Debut

theorem start (wf : WellFormed d₀) :
    Debut strict template d₀ ⟨⟨d₀, []⟩, [], []⟩ (fun _ => ⊤) [] [] where
  poised := .start wf
  usable := by simp
  old := fun _ _ => ⟨rfl, rfl⟩
  told := by simp
  refinds := by simp
  clear := by simp
  known := by simp
  unspared := ⟨fun _ => rfl, by simp⟩
  stocked := fun _ => rfl
  filled := by simp
  apart := by simp
  pieces := by simp

end Debut

section Turn

variable {library : Library} {selection : Option String} {context : Value} {d₁ : Document} {inst : Instance}
  {rs : List Planted}

theorem Fresh.spawned (fresh : Fresh pass pass' library selection context d₁ inst rs) :
    Spawned pass.stage.document d₁ (inst.fragment :: idsAll rs) := by
  simpa using spawned_of_potted fresh.potted

theorem Fresh.nodup (fresh : Fresh pass pass' library selection context d₁ inst rs) : (idsAll rs).Nodup := by
  simpa using (List.nodup_cons.mp fresh.potted.nodup).2

theorem Fresh.attached (fresh : Fresh pass pass' library selection context d₁ inst rs) (mem : x ∈ idsAll rs) :
    Attached d₁ x :=
  attached_of_potted fresh.potted (by simpa using mem)

/-- What is on the pile may be shown by the new instance. -/
theorem Debut.bench (debut : Debut strict template d₀ pass level calls (under ++ leaves context))
    (fresh : Fresh pass pass' library selection context d₁ inst rs)
    (once : strict → (reached (library selection) context).flatten.Nodup) :
    Bench strict d₁ (level.raise (inst.fragment :: idsAll rs) (storey (calls.length + 1))) calls.length
      (madeBy calls) context (slotsAll .blank none rs) := by
  have wf := debut.poised.wellFormed
  have spawned := fresh.spawned
  obtain ⟨-, comments, new⟩ := anchorsOf_slotsAll none rs
  have absent : ∀ m ∈ madeBy calls, ∀ x ∈ m.run, x ∉ inst.fragment :: idsAll rs := fun m mem x here =>
    spawned.old ((debut.poised.attached_run mem here).contains wf)
  refine ⟨debut.poised.spawn spawned _, fun nodes mem => ?_, fun path a mem => ?_, comments.nodup fresh.nodup,
    fun all => ?_, fun all m mem nodes there => ?_⟩
  · obtain ⟨attached, low, whole⟩ := debut.usable nodes (List.mem_append_right _ mem)
    refine ⟨fun x here => spawned.attached wf (attached x here), fun x here => ?_, whole⟩
    rw [Level.raise, if_neg (spawned.old ((attached x here).contains wf))]
    exact low x here
  · have anchor : (path, a) ∈ anchorsOf (slotsAll .blank none rs) := List.mem_filterMap.mpr ⟨_, mem, rfl⟩
    have inside : a.comment ∈ idsAll rs := comments.subset (List.mem_map_of_mem anchor)
    refine ⟨new _ anchor, fresh.attached inside, if_pos (List.mem_cons_of_mem _ inside), fun m there here => ?_⟩
    exact absent m there _ here (List.mem_cons_of_mem _ inside)
  · rw [reach_slotsAll, fresh.source]
    exact once all
  · exact debut.pieces all m mem nodes (List.mem_append_right _ (reach_subset _ _ there))

/-- The new instance is written. -/
theorem Debut.finished (debut : Debut strict template d₀ pass level calls (under ++ leaves context))
    (fresh : Fresh pass pass' library selection context d₁ inst rs)
    (once : strict → (reached (library selection) context).flatten.Nodup) :
    ∃ level', Finished strict d₁ pass'.stage.document
      (level.raise (inst.fragment :: idsAll rs) (storey (calls.length + 1))) level' calls.length (madeBy calls)
      context (slotsAll .blank none rs) inst.slots inst.tops := by
  have wf := debut.poised.wellFormed
  obtain ⟨level', furnished⟩ := furnish (debut.bench fresh once) fresh.wrote
  have top : ∀ t ∈ inst.tops, t ∈ idsAll rs := fun t mem =>
    (map_root_sublist rs).subset (fresh.tops ▸ mem)
  refine ⟨level', furnished, (debut.bench fresh once).comments, ?_, fun t mem => fresh.attached (top t mem),
    fun t mem => if_pos (List.mem_cons_of_mem _ (top t mem)), fun t mem m there here => ?_⟩
  · rw [fresh.tops]
    exact fresh.nodup.sublist (map_root_sublist rs)
  · exact fresh.spawned.old ((debut.poised.attached_run there here).contains wf)
      (List.mem_cons_of_mem _ (top t mem))

/-- The slots of an instance write to its own nodes. -/
theorem mem_cells_own {cell : Cell} (mem : cell ∈ (slotsAll .blank none rs).flatMap Slot.cells) :
    cell.1 ∈ idsAll rs := by
  obtain ⟨slot, there, here⟩ := List.mem_flatMap.mp mem
  rcases mem_cells_slotsAll there here with inside | ⟨impossible, -, -⟩
  · exact inside
  · cases impossible

/-- Writing does not change what slots share. -/
theorem clear_unwritten {slots slots' : List Slot} (same : slots'.map Slot.unwritten = slots.map Slot.unwritten)
    (clear : slots.Pairwise (Clear strict)) : slots'.Pairwise (Clear strict) := by
  have cells : ∀ slot : Slot, slot.unwritten.cells = slot.cells := fun slot => by cases slot <;> rfl
  refine (congr_unwritten (f := List.Pairwise (Clear strict)) (fun list => ?_) same).mpr clear
  rw [List.pairwise_map]
  simp only [Clear, cells]
  rfl

section Finished

variable (debut : Debut strict template d₀ pass level calls (under ++ leaves context))
  (fresh : Fresh pass pass' library selection context d₁ inst rs)
  (finished : Finished strict d₁ pass'.stage.document
    (level.raise (inst.fragment :: idsAll rs) (storey (calls.length + 1))) level' calls.length (madeBy calls)
    context (slotsAll .blank none rs) inst.slots inst.tops)

include finished

/-- The comments of the new instance are new. -/
theorem Finished.place_mem {m : Move} (mem : m ∈ movesOf inst.slots) : m.position.place ∈ idsAll rs := by
  exact (anchorsOf_slotsAll none rs).2.1.subset (place_mem_comments finished.furnished.form mem)

include fresh

/-- What held before the turn still holds. -/
theorem Fresh.keeps (f : Fact) (holds : f.Holds pass.stage.document) : f.Holds pass'.stage.document := by
  refine finished.furnished.keeps f (fresh.spawned.holds holds) fun cell about mem => ?_
  have here : cell.1 = f.node := by
    cases f <;> cases about <;> rfl
  exact fresh.spawned.old holds.contains (List.mem_cons_of_mem _ (here ▸ mem_cells_own mem))

/-- The nodes that were there are on the levels where they were. -/
theorem Fresh.level_eq (live : pass.stage.document.contains x = true) : level' x = level x := by
  rw [finished.furnished.levels x (fresh.spawned.alive live), Level.raise, if_neg (fresh.spawned.old live)]

/-- A node in the run of a new move was on top of the pile, or is new. -/
theorem Fresh.origin {m : Move} (mem : m ∈ movesOf inst.slots) (here : x ∈ m.run) :
    x ∈ (leaves context).flatten ∨ pass.stage.document.contains x = false := by
  rw [run_eq mem] at here
  rcases List.mem_cons.mp here with rfl | here
  · exact .inr (fresh.spawned.dead _ (List.mem_cons_of_mem _ (finished.place_mem mem)))
  · rcases finished.furnished.origin m mem x here with old | new
    · obtain ⟨list, there, inside⟩ := List.mem_flatten.mp old
      exact .inl (List.mem_flatten.mpr ⟨list, reach_subset _ _ there, inside⟩)
    · right
      by_contra live
      rw [fresh.spawned.alive (by simpa using live)] at new
      cases new

/-- A node that the new instance gives was on top of the pile, or is new. -/
theorem Fresh.origin_nodes (mem : x ∈ inst.nodes) :
    x ∈ (leaves context).flatten ∨ pass.stage.document.contains x = false := by
  rw [nodes_eq_pieces] at mem
  rcases mem_pieces mem with top | ⟨m, there, here⟩
  · exact .inr (fresh.spawned.dead x (List.mem_cons_of_mem _ ((map_root_sublist rs).subset (fresh.tops ▸ top))))
  · exact fresh.origin finished there (List.mem_append_right _ here)

include debut

/-- What is left on the pile may be shown later. -/
theorem Debut.usable_under {nodes : List NodeId} (mem : nodes ∈ under) :
    Usable pass'.stage.document level' (madeBy calls ++ movesOf inst.slots) (calls.length + 1) nodes := by
  have wf := debut.poised.wellFormed
  obtain ⟨attached, low, whole⟩ := debut.usable nodes (List.mem_append_left _ mem)
  refine ⟨fun x here => ?_, fun x here => ?_, fun m there => ?_⟩
  · exact finished.furnished.attached x (fresh.spawned.attached wf (attached x here))
  · rw [fresh.level_eq finished ((attached x here).contains wf)]
    exact (low x here).trans ((storey_lt _).trans (mezzanine_lt _)).le
  · rcases List.mem_append.mp there with old | new
    · exact whole m old
    · -- the comment of a new move is a new node
      intro c cursor here
      have inside := Position.place_of_cursor cursor ▸ finished.place_mem new
      exact absurd (List.mem_cons_of_mem _ inside) (fresh.spawned.old ((attached c here).contains wf))

/-- Nothing on the pile is torn apart, and no node is on it twice. -/
theorem Debut.apart_under (all : strict) :
    (under ++ [inst.nodes]).flatten.Nodup ∧
      ∀ m ∈ movesOf inst.slots, ∀ nodes ∈ under, Unsplit m.run nodes := by
  have wf := debut.poised.wellFormed
  have nodup := debut.apart all
  rw [List.flatten_append] at nodup
  obtain ⟨below, -, apart⟩ := List.nodup_append.mp nodup
  have away : ∀ x ∈ under.flatten,
      ¬(x ∈ (leaves context).flatten ∨ pass.stage.document.contains x = false) := by
    rintro x here (there | dead)
    · exact apart x here x there rfl
    · obtain ⟨nodes, mem, inside⟩ := List.mem_flatten.mp here
      have attached := (debut.usable nodes (List.mem_append_left _ mem)).attached x inside
      rw [attached.contains wf] at dead
      cases dead
  constructor
  · rw [List.flatten_append, List.flatten_singleton]
    refine List.nodup_append.mpr ⟨below, ?_, ?_⟩
    · rw [nodes_eq_pieces]
      exact finished.nodup_nodes fresh.potted.wellFormed all
    · rintro x here _ there rfl
      exact away x here (fresh.origin_nodes finished there)
  · refine fun m mem nodes there => .inr fun x here inside => ?_
    exact away x (List.mem_flatten.mpr ⟨nodes, there, inside⟩) (fresh.origin finished mem here)

/-- One more turn of a first pass. -/
theorem Debut.turn (known : ∃ prototype, selected template selection = .ok prototype)
    (clear : inst.slots.Pairwise (Clear strict)) :
    Debut strict template d₀ pass' level' (calls ++ [⟨selection, context, inst⟩]) (under ++ [inst.nodes]) := by
  have wf := debut.poised.wellFormed
  have furnished := finished.furnished
  obtain ⟨blank, grown⟩ := fresh.grown
  have pools := congrArg Pass.pools grown
  rw [Pass.grown] at pools
  refine ⟨?_, ?_, fun x live => ?_, ?_, ?_, ?_, ?_, ?_, fun key => ?_, ?_, fun all => ?_, fun all => ?_⟩
  · rw [madeBy_append]
    exact furnished.poised
  · rw [madeBy_append, List.length_append, List.length_singleton]
    intro nodes mem
    rcases List.mem_append.mp mem with old | new
    · exact debut.usable_under fresh finished old
    · rw [List.mem_singleton.mp new, nodes_eq_pieces]
      exact finished.usable fresh.potted.wellFormed
  · obtain ⟨high, kind⟩ := debut.old x live
    have alive := (contains_of_kind kind).trans live
    rw [fresh.level_eq finished alive, furnished.kinds x (fresh.spawned.alive alive),
      fresh.spawned.content x (fresh.spawned.old alive)]
    exact ⟨high, kind⟩
  · refine List.forall_mem_append.mpr ⟨fun call mem => (debut.told call mem).mono (fresh.keeps finished), ?_⟩
    simpa using furnished.told
  · exact List.forall_mem_append.mpr ⟨debut.refinds, by simpa using furnished.refinds⟩
  · exact List.forall_mem_append.mpr ⟨debut.clear, by simpa using clear⟩
  · exact List.forall_mem_append.mpr ⟨debut.known, by simpa using known⟩
  · rw [grown]
    exact debut.unspared.grown _ _ _ _
  · rw [pools, Fields.get?_put, Fields.get?_put, List.filter_append, List.map_append, ← debut.stocked key]
    by_cases same : key = selection.getD rootName
    · simp [same, Call.key]
    · simp [same, Call.key, Ne.symm same]
  · intro entry mem
    rw [pools] at mem
    rcases Fields.mem_put mem with rfl | mem
    · simp
    rcases Fields.mem_put mem with rfl | mem
    · simp
    · exact debut.filled entry mem
  · exact (debut.apart_under fresh finished all).1
  · rw [madeBy_append]
    intro m mem nodes there
    rcases List.mem_append.mp there with old | new
    · rcases List.mem_append.mp mem with before | own
      · exact debut.pieces all m before nodes (List.mem_append_left _ old)
      · exact (debut.apart_under fresh finished all).2 m own nodes old
    · rw [List.mem_singleton.mp new, nodes_eq_pieces]
      exact finished.unsplit fresh.potted.wellFormed all mem

end Finished

end Turn

/-- All turns of a first pass. Where it is strict, no turn reaches a template
twice, and no `<textarea>` has two values. -/
theorem Debut.plays {library : Library} (compiled : Compiled template library)
    (ways : strict → ∀ selection,
      EverywhereAll Slim (library selection) ∧ oneValueAll (library selection) = true) :
    ∀ {turns : List Turn} {pass pass' : Pass} {level : Level} {calls : List Call}
      {pile pile' : List (List NodeId)},
      Debut strict template d₀ pass level calls pile → Plays template turns pass pile pass' pile' →
      (strict → ∀ turn ∈ turns, turn.Once library) →
      ∃ level' more, Debut strict template d₀ pass' level' (calls ++ more) pile' ∧ more.map Call.turn = turns
  | [], pass, pass', level, calls, pile, pile', debut, ⟨same, rest⟩, _ => by
      subst same rest
      exact ⟨level, [], by rwa [List.append_nil], rfl⟩
  | turn :: turns, pass, pass', level, calls, pile, pile', debut, ⟨pass₁, under, split, shown, rest⟩, once => by
      subst split
      have wf := debut.poised.wellFormed
      obtain ⟨d₁, inst, rs, nodes, known, fresh⟩ := fresh_of_showNext compiled debut.unspared wf shown
      have single : strict → (reached (library turn.selection) turn.context).flatten.Nodup := fun all => by
        refine (once all turn List.mem_cons_self).nodup ((debut.apart all).sublist ?_)
        exact (List.sublist_append_right under _).flatten
      obtain ⟨level₁, finished⟩ := debut.finished fresh single
      have clear : inst.slots.Pairwise (Clear strict) := by
        refine clear_unwritten finished.furnished.form ?_
        refine clear_slotsAll fresh.nodup nofun (fresh.source ▸ compiled.tidy turn.selection) fun all => ?_
        rw [fresh.source]
        exact ⟨(ways all turn.selection).1, (ways all turn.selection).2, nofun⟩
      have next := debut.turn fresh finished known clear
      rw [← nodes] at next
      obtain ⟨level', more, last, turns_eq⟩ :=
        next.plays compiled ways rest fun all turn mem => once all turn (List.mem_cons_of_mem _ mem)
      refine ⟨level', ⟨turn.selection, turn.context, inst⟩ :: more, ?_, ?_⟩
      · rwa [List.append_assoc] at last
      · rw [List.map_cons, turns_eq, Call.turn, ← nodes]

end Inlay.Render
