/-
# Proofs.Render.Pieces — the nodes an instance gives

An instance gives its top-level nodes, each with what stands behind it: one piece
for every top-level node. A piece is a node alone or the run of one move, so
where the moves of an instance do not tear each other apart neither does a move
of all its nodes.
-/
import Inlay.Proofs.Render.Furnish

namespace Inlay.Render

set_option autoImplicit false

open Inlay.Document Inlay.Document.Planted

variable {d d' : Document} {level level' : Level} {n : Nat} {moves : List Move} {context : Value}
  {slots slots' : List Slot} {strict : Prop} {x t : NodeId} {tops : List NodeId} {m : Move}

/-- A node of an instance with what stands behind it. -/
def piece (slots : List Slot) (x : NodeId) : List NodeId := x :: behindIn slots x

theorem nodes_eq_pieces (inst : Instance) : inst.nodes = inst.tops.flatMap (piece inst.slots) := by
  refine List.flatMap_congr fun t _ => ?_
  rw [piece, behindIn]
  cases inst.slots.findSome? (Slot.anchorAt? t) <;> rfl

/-- A piece is a node alone, which is no anchor, or the run of a move. -/
theorem piece_cases (slots : List Slot) (t : NodeId) :
    (piece slots t = [t] ∧ ∀ m ∈ movesOf slots, m.position.place ≠ t) ∨
      ∃ m ∈ movesOf slots, m.position.place = t ∧ piece slots t = m.run := by
  rw [piece, behindIn]
  cases found : slots.findSome? (Slot.anchorAt? t) with
  | none =>
      refine .inl ⟨rfl, fun m mem same => ?_⟩
      obtain ⟨path, a, there, rfl⟩ := mem_movesOf.mp mem
      have absent := List.findSome?_eq_none_iff.mp found _ there
      have here : a.comment = t := same
      rw [Slot.anchorAt?, if_pos here] at absent
      cases absent
  | some a =>
      obtain ⟨slot, there, here⟩ := List.exists_of_findSome?_eq_some found
      obtain ⟨path, rfl, same⟩ := anchorAt?_eq_some.mp here
      exact .inr ⟨_, mem_movesOf.mpr ⟨path, a, there, rfl⟩, same, by rw [← same]; rfl⟩

/-- The run of an anchor's move begins with its comment. -/
theorem run_eq (mem : m ∈ movesOf slots) : m.run = m.position.place :: m.nodes := by
  obtain ⟨path, a, -, rfl⟩ := mem_movesOf.mp mem
  rfl

/-- What an instance gives is its top-level nodes and what its moves put there. -/
theorem mem_pieces (mem : x ∈ tops.flatMap (piece slots')) : x ∈ tops ∨ ∃ m ∈ movesOf slots', x ∈ m.nodes := by
  obtain ⟨t, top, here⟩ := List.mem_flatMap.mp mem
  rcases piece_cases slots' t with ⟨alone, -⟩ | ⟨m, there, same, run⟩
  · rw [alone, List.mem_singleton] at here
    exact .inl (here ▸ top)
  · rw [run, run_eq there, same] at here
    rcases List.mem_cons.mp here with rfl | here
    · exact .inl top
    · exact .inr ⟨m, there, here⟩

/-- The instance is furnished, and its nodes are new: a turn that gave no fault. -/
structure Finished (strict : Prop) (d d' : Document) (level level' : Level) (n : Nat) (moves : List Move)
    (context : Value) (slots slots' : List Slot) (tops : List NodeId) : Prop where
  furnished : Furnished strict d d' level level' n moves context slots slots'
  comments : ((anchorsOf slots).map (·.2.comment)).Nodup
  nodup : tops.Nodup
  attached : ∀ t ∈ tops, Attached d t
  high : ∀ t ∈ tops, level t = storey (n + 1)
  absent : ∀ t ∈ tops, ∀ m ∈ moves, t ∉ m.run

namespace Finished

variable (finished : Finished strict d d' level level' n moves context slots slots' tops)

include finished

theorem level_top (wf : WellFormed d) (mem : t ∈ tops) : level' t = storey (n + 1) := by
  rw [finished.furnished.levels t ((finished.attached t mem).contains wf), finished.high t mem]

/-- No top-level node was moved by the instance itself. -/
theorem not_mem_nodes (wf : WellFormed d) (mem : t ∈ tops) (here : m ∈ movesOf slots') : t ∉ m.nodes := by
  intro inside
  exact ne_storey_of_le (finished.furnished.low m here t inside) (finished.level_top wf mem)

theorem place_not_mem {m' : Move} (mem : m ∈ movesOf slots') (mem' : m' ∈ movesOf slots') :
    m.position.place ∉ m'.nodes := by
  intro inside
  exact ne_storey_of_le (finished.furnished.low m' mem' _ inside) (finished.furnished.high m mem)

/-- Two moves of an instance have two comments. -/
theorem eq_of_place {m' : Move} (mem : m ∈ movesOf slots') (mem' : m' ∈ movesOf slots')
    (same : m.position.place = m'.position.place) : m = m' := by
  have nodup : ((movesOf slots').map (·.position.place)).Nodup := by
    rw [places_movesOf, comments_unwritten finished.furnished.form]
    exact finished.comments
  exact List.inj_on_of_nodup_map nodup mem mem' same

/-- Two moves of an instance share no node, if no node was to be reached twice. -/
theorem disjoint (all : strict) {m' : Move} (mem : m ∈ movesOf slots') (mem' : m' ∈ movesOf slots')
    (ne : m ≠ m') : ∀ x ∈ m.run, x ∉ m'.run := by
  have : Std.Symm fun m m' : Move => ∀ x ∈ m.run, x ∉ m'.run :=
    ⟨fun _ _ apart x here there => apart x there here⟩
  exact (finished.furnished.apart all).forall mem mem' ne

/-- What an instance gives may be shown by the next one. -/
theorem usable (wf : WellFormed d) :
    Usable d' level' (moves ++ movesOf slots') (n + 1) (tops.flatMap (piece slots')) := by
  have furnished := finished.furnished
  refine ⟨fun x mem => ?_, fun x mem => ?_, fun m mem c cursor here => ?_⟩
  · rcases mem_pieces mem with top | ⟨m, there, here⟩
    · exact furnished.attached x (finished.attached x top)
    · exact furnished.poised.attached m (List.mem_append_right _ there) x here
  · rcases mem_pieces mem with top | ⟨m, there, here⟩
    · exact (finished.level_top wf top).le
    · exact (furnished.low m there x here).trans (mezzanine_lt n).le
  · obtain ⟨t, top, here⟩ := List.mem_flatMap.mp here
    refine List.Subset.trans ?_ fun y inside => List.mem_flatMap.mpr ⟨t, top, inside⟩
    have ahead : c = t → m ∈ movesOf slots' := by
      rintro rfl
      rcases List.mem_append.mp mem with old | new
      · exact absurd (List.mem_append_left _ (by simp [cursor])) (finished.absent c top m old)
      · exact new
    have place := Position.place_of_cursor cursor
    rcases piece_cases slots' t with ⟨alone, none_⟩ | ⟨m', there, same, run⟩
    · rw [alone, List.mem_singleton] at here
      exact absurd (place.trans here) (none_ m (ahead here))
    · rw [run, run_eq there] at here ⊢
      rcases List.mem_cons.mp here with first | here
      · have new := ahead (first.trans same)
        rw [finished.eq_of_place new there (place.trans first)]
        exact List.subset_cons_self _ _
      · exact List.Subset.trans (furnished.whole m mem m' there c cursor here) (List.subset_cons_self _ _)

/-- No move so far is torn apart when all that the instance gives is moved. -/
theorem unsplit (wf : WellFormed d) (all : strict) (mem : m ∈ moves ++ movesOf slots') :
    Unsplit m.run (tops.flatMap (piece slots')) := by
  refine .flatMap fun t top => ?_
  have alone : m ∈ moves ∨ m.position.place ≠ t → Unsplit m.run [t] := by
    intro other
    refine .inr fun x here there => ?_
    rw [List.mem_singleton] at there
    subst there
    rcases List.mem_append.mp mem with old | new
    · exact finished.absent x top m old here
    · rw [run_eq new] at here
      rcases List.mem_cons.mp here with same | here
      · rcases other with old | ne
        · exact finished.absent x top m old (by rw [run_eq new, same]; exact List.mem_cons_self)
        · exact ne same.symm
      · exact finished.not_mem_nodes wf top new here
  rcases piece_cases slots' t with ⟨single, none_⟩ | ⟨m', there, same, run⟩
  · rw [single]
    refine alone ?_
    rcases List.mem_append.mp mem with old | new
    · exact .inl old
    · exact .inr (none_ m new)
  · rw [run]
    rcases List.mem_append.mp mem with old | new
    · rw [run_eq there, same]
      exact (alone (.inl old)).append (finished.furnished.pieces all m old m' there)
    · by_cases eq : m = m'
      · exact .inl (eq ▸ List.infix_refl _)
      · exact .inr (finished.disjoint all new there eq)

/-- The nodes an instance gives are distinct, if no node was to be reached twice. -/
theorem nodup_nodes (wf : WellFormed d) (all : strict) : (tops.flatMap (piece slots')).Nodup := by
  refine List.nodup_flatMap.mpr ⟨fun t top => ?_, ?_⟩
  · rcases piece_cases slots' t with ⟨single, -⟩ | ⟨m, there, -, run⟩
    · rw [single]
      exact List.nodup_singleton t
    · rw [run, run_eq there]
      exact List.nodup_cons.mpr ⟨finished.place_not_mem there there, finished.furnished.nodup all m there⟩
  · refine List.Pairwise.imp_of_mem (fun {s t} top top' ne => ?_) finished.nodup
    rw [Function.onFun]
    intro x here there
    rcases piece_cases slots' s with ⟨single, -⟩ | ⟨m, mem, place, run⟩ <;>
      rcases piece_cases slots' t with ⟨single', -⟩ | ⟨m', mem', place', run'⟩
    · rw [single, List.mem_singleton] at here
      rw [single', List.mem_singleton] at there
      exact ne (here.symm.trans there)
    · rw [single, List.mem_singleton] at here
      subst here
      rw [run', run_eq mem'] at there
      rcases List.mem_cons.mp there with same | there
      · exact ne (same.trans place')
      · exact finished.not_mem_nodes wf top mem' there
    · rw [single', List.mem_singleton] at there
      subst there
      rw [run, run_eq mem] at here
      rcases List.mem_cons.mp here with same | here
      · exact ne (same.trans place).symm
      · exact finished.not_mem_nodes wf top' mem here
    · rw [run] at here
      rw [run'] at there
      refine finished.disjoint all mem mem' (fun same => ne ?_) x here there
      rw [← place, ← place', same]

end Finished

end Inlay.Render
