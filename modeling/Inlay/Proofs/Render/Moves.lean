/-
# Proofs.Render.Moves — moving nodes a second time

All that a pass does to the lists of children is a sequence of moves: some nodes
leave the lists they stand in and stand behind a comment, or at the start of a
container. A node may be moved more than once in a pass, and where it stands in
the end is where the last move put it.

Doing all the moves of a pass again on the lists that they left gives the same
lists (`replay_eq`). The reason is what each move leaves behind: apart from the
nodes that later moves touch, its nodes lie where it put them (`Move.Lies`), and
this survives later moves (`Settled.add`), as long as a move that takes a comment
along takes the nodes behind it along (`Move.Whole`).

A list that no later move tears apart goes on standing in one piece
(`Move.infix_apply`); that is why nothing at all is moved again when no node is
moved twice.
-/
import Inlay.Proofs.Render.Reconcile

namespace Inlay.Render

set_option autoImplicit false

/-- The lists of children of a document. -/
abbrev Kids := NodeId → List NodeId

variable {kids now : Kids} {p x : NodeId} {new list ids : List NodeId} {position : Position}

/-! ## Putting nodes at a position -/

/-- A list of children with new nodes at a position. -/
def insertAt (position : Position) (new : List NodeId) (p : NodeId) (list : List NodeId) : List NodeId :=
  match position with
  | .behind comment => insertBehind comment new list
  | .within container => if p = container then new ++ list else list

theorem insertAt_nil (position : Position) (p : NodeId) (list : List NodeId) :
    insertAt position [] p list = list := by
  cases position with
  | behind comment => simp [insertAt, insertBehind]
  | within container => simp [insertAt]

/-- Neither the container nor a list with its comment. -/
theorem insertAt_away (elsewhere : position ≠ .within p)
    (absent : ∀ c, position.cursor? = some c → c ∉ list) : insertAt position new p list = list := by
  cases position with
  | behind comment => exact insertBehind_of_not_mem new (absent comment rfl)
  | within container =>
      have ne : p ≠ container := fun same => elsewhere (same ▸ rfl)
      exact if_neg ne

theorem filter_insertBehind {comment : NodeId} {keep : NodeId → Bool} (stays : keep comment = true) :
    (insertBehind comment new list).filter keep =
      insertBehind comment (new.filter keep) (list.filter keep) := by
  induction list with
  | nil => rfl
  | cons y rest ih =>
      rw [insertBehind, List.flatMap_cons, ← insertBehind, List.filter_append, ih]
      by_cases here : y = comment
      · subst here
        rw [if_pos rfl, List.filter_cons_of_pos stays, List.filter_cons_of_pos stays, insertBehind,
          insertBehind, List.flatMap_cons, if_pos rfl]
      · rw [if_neg here]
        by_cases kept : keep y = true
        · rw [List.filter_cons_of_pos kept, List.filter_cons_of_pos kept, List.filter_nil, insertBehind,
            insertBehind, List.flatMap_cons, if_neg here]
        · rw [List.filter_cons_of_neg kept, List.filter_cons_of_neg kept, List.filter_nil,
            List.nil_append]

theorem filter_insertAt {keep : NodeId → Bool}
    (stays : ∀ c, position.cursor? = some c → keep c = true) (p : NodeId) :
    (insertAt position new p list).filter keep = insertAt position (new.filter keep) p (list.filter keep) := by
  cases position with
  | behind comment => exact filter_insertBehind (stays comment rfl)
  | within container =>
      simp only [insertAt]
      split
      · exact List.filter_append new list
      · rfl

/-- New nodes that are left out again leave no trace. -/
theorem filter_insertAt_of_none {keep : NodeId → Bool} (none_ : new.filter keep = [])
    (position : Position) (p : NodeId) :
    (insertAt position new p list).filter keep = list.filter keep := by
  cases position with
  | behind comment =>
      rw [insertAt, insertBehind]
      induction list with
      | nil => rfl
      | cons y rest ih =>
          rw [List.flatMap_cons, List.filter_append, ih]
          split
          · rw [List.filter_cons, List.filter_cons, none_]
            split <;> rfl
          · rw [← List.filter_append, List.singleton_append]
  | within container =>
      simp only [insertAt]
      split
      · rw [List.filter_append, none_, List.nil_append]
      · rfl

/-- A list has room for new nodes at a position: it is that of the container, or
the comment is in it. -/
def Receives (position : Position) (p : NodeId) (list : List NodeId) : Prop :=
  match position with
  | .behind comment => comment ∈ list
  | .within container => p = container

theorem mem_insertAt :
    x ∈ insertAt position new p list ↔ (x ∈ new ∧ Receives position p list) ∨ x ∈ list := by
  cases position with
  | behind comment =>
      simp only [insertAt, insertBehind, Receives, List.mem_flatMap]
      constructor
      · rintro ⟨y, there, here⟩
        split at here
        · next same =>
          rcases List.mem_cons.mp here with rfl | here
          · exact .inr there
          · exact .inl ⟨here, same ▸ there⟩
        · rw [List.mem_singleton.mp here]
          exact .inr there
      · rintro (⟨here, there⟩ | there)
        · exact ⟨comment, there, by simp [here]⟩
        · refine ⟨x, there, ?_⟩
          split
          · exact List.mem_cons_self
          · exact List.mem_singleton_self x
  | within container =>
      simp only [insertAt, Receives]
      split
      · next same => simp [same]
      · next other => simp [other]

/-! ## Moves -/

/-- Nodes and the position where they are put, in order. -/
structure Move where
  position : Position
  nodes : List NodeId

namespace Move

variable {m last : Move} {later : List NodeId}

/-- The lists of children once the nodes were moved. A node that is named twice
stands where it is named last. -/
def apply (m : Move) (kids : Kids) : Kids := fun p =>
  insertAt m.position m.nodes.dedup p (without m.nodes kids p)

/-- Some nodes hold those of the move if they hold the comment in front of them. -/
def Whole (m : Move) (ids : List NodeId) : Prop :=
  ∀ c, m.position.cursor? = some c → c ∈ ids → m.nodes ⊆ ids

/-- What some nodes leave of a position and of the nodes there. -/
theorem Whole.filter (whole : m.Whole ids) (sub : new ⊆ m.nodes) (p : NodeId) :
    (insertAt m.position new p list).filter (· ∉ ids) =
      insertAt m.position (new.filter (· ∉ ids)) p (list.filter (· ∉ ids)) := by
  by_cases taken : ∃ c, m.position.cursor? = some c ∧ c ∈ ids
  · obtain ⟨c, cursor, mem⟩ := taken
    have none_ : new.filter (· ∉ ids) = [] := by
      refine List.filter_eq_nil_iff.mpr fun y here => ?_
      simpa using whole c cursor mem (sub here)
    rw [filter_insertAt_of_none none_, none_, insertAt_nil]
  · refine filter_insertAt (fun c cursor => ?_) p
    simpa using fun mem => taken ⟨c, cursor, mem⟩

/-- Away from its nodes a move changes nothing. -/
theorem without_apply (sub : m.nodes ⊆ ids) (kids : Kids) : without ids (m.apply kids) = without ids kids := by
  funext p
  have none_ : m.nodes.dedup.filter (· ∉ ids) = [] := by
    refine List.filter_eq_nil_iff.mpr fun y mem => ?_
    simpa using sub (List.mem_dedup.mp mem)
  rw [without, apply, filter_insertAt_of_none none_, without, without, List.filter_filter]
  refine List.filter_congr fun y _ => ?_
  by_cases mem : y ∈ ids
  · simp [mem]
  · have away : y ∉ m.nodes := fun here => mem (sub here)
    simp [mem, away]

theorem mem_apply : x ∈ m.apply kids p ↔
    (x ∈ m.nodes ∧ Receives m.position p (without m.nodes kids p)) ∨ (x ∈ kids p ∧ x ∉ m.nodes) := by
  rw [apply, mem_insertAt, List.mem_dedup, without, List.mem_filter, decide_eq_true_eq]

/-- The nodes of the move lie where it put them, but for those that were touched
later. -/
def Lies (m : Move) (later : List NodeId) (kids : Kids) : Prop :=
  ∀ p, without later kids p =
    insertAt m.position (m.nodes.dedup.filter (· ∉ later)) p (without (m.nodes ++ later) kids p)

theorem lies_apply (m : Move) (kids : Kids) : m.Lies [] (m.apply kids) := by
  intro p
  have all : m.nodes.dedup.filter (· ∉ ([] : List NodeId)) = m.nodes.dedup :=
    List.filter_eq_self.mpr fun _ _ => by simp
  rw [without_nil, List.append_nil, without_apply (List.Subset.refl _), all]
  rfl

/-- A later move leaves the nodes it does not touch where they lie. -/
theorem Lies.add (lies : m.Lies later kids) (whole : m.Whole last.nodes) :
    m.Lies (later ++ last.nodes) (last.apply kids) := by
  intro p
  have twice : (m.nodes.dedup.filter (· ∉ later)).filter (· ∉ last.nodes) =
      m.nodes.dedup.filter (· ∉ later ++ last.nodes) := by
    simp [List.filter_filter, Bool.and_comm]
  have sub : m.nodes.dedup.filter (· ∉ later) ⊆ m.nodes := fun y mem =>
    List.mem_dedup.mp (List.mem_filter.mp mem).1
  calc without (later ++ last.nodes) (last.apply kids) p
      = without last.nodes (without later kids) p := by
        rw [without_apply (List.subset_append_right _ _), without_without]
    _ = (insertAt m.position (m.nodes.dedup.filter (· ∉ later)) p
          (without (m.nodes ++ later) kids p)).filter (· ∉ last.nodes) := by
        rw [without, lies p]
    _ = insertAt m.position (m.nodes.dedup.filter (· ∉ later ++ last.nodes)) p
          (without last.nodes (without (m.nodes ++ later) kids) p) := by
        rw [whole.filter sub, twice]
        rfl
    _ = insertAt m.position (m.nodes.dedup.filter (· ∉ later ++ last.nodes)) p
          (without (m.nodes ++ (later ++ last.nodes)) (last.apply kids) p) := by
        rw [without_without, ← List.append_assoc, without_apply (List.subset_append_right _ _)]

/-- New lists of children, in which nothing of the move occurs, change nothing. -/
theorem Lies.congr (lies : m.Lies later kids) (same : ∀ p, now p = kids p ∨
    (m.position ≠ .within p ∧ (∀ c, m.position.cursor? = some c → c ∉ now p) ∧ ∀ x ∈ m.nodes, x ∉ now p)) :
    m.Lies later now := by
  intro p
  rcases same p with same | ⟨elsewhere, ahead, apart⟩
  · simpa only [without, same] using lies p
  · have alone : without (m.nodes ++ later) now p = without later now p := by
      refine List.filter_congr fun y mem => ?_
      have away : y ∉ m.nodes := fun here => apart y here mem
      simp [away]
    rw [alone]
    exact (insertAt_away elsewhere fun c cursor mem => ahead c cursor (List.mem_filter.mp mem).1).symm

end Move

/-! ## Many moves -/

/-- The nodes that moves touch. -/
def touched (moves : List Move) : List NodeId := moves.flatMap Move.nodes

/-- The nodes of every move lie where it put them, but for later moves. -/
def Settled (kids : Kids) : List Move → Prop
  | [] => True
  | m :: rest => m.Lies (touched rest) kids ∧ Settled kids rest

/-- No move takes a comment away from nodes that an earlier one put behind it. -/
def Closed (moves : List Move) : Prop := moves.Pairwise fun m m' => m.Whole m'.nodes

theorem Closed.whole_touched {m : Move} {rest : List Move} (whole : ∀ m' ∈ rest, m.Whole m'.nodes) :
    m.Whole (touched rest) := by
  intro c cursor mem y here
  obtain ⟨m', there, inside⟩ := List.mem_flatMap.mp mem
  exact List.mem_flatMap.mpr ⟨m', there, whole m' there c cursor inside here⟩

theorem Settled.add {last : Move} : ∀ {moves : List Move}, Settled kids moves →
    (∀ m ∈ moves, m.Whole last.nodes) → Settled (last.apply kids) (moves ++ [last])
  | [], _, _ => ⟨last.lies_apply kids, trivial⟩
  | m :: rest, ⟨lies, settled⟩, whole => by
      obtain ⟨here, others⟩ := List.forall_mem_cons.mp whole
      refine ⟨?_, settled.add others⟩
      have here := lies.add here
      simpa [touched] using here

theorem Settled.congr : ∀ {moves : List Move}, Settled kids moves →
    (∀ m ∈ moves, ∀ p, now p = kids p ∨ (m.position ≠ .within p ∧
      (∀ c, m.position.cursor? = some c → c ∉ now p) ∧ ∀ x ∈ m.nodes, x ∉ now p)) → Settled now moves
  | [], _, _ => trivial
  | _ :: _, ⟨lies, settled⟩, same =>
      ⟨lies.congr (same _ List.mem_cons_self),
        settled.congr fun m mem => same m (List.mem_cons_of_mem _ mem)⟩

/-- The lists of children once all moves were made, the first one first. -/
def replay (moves : List Move) (kids : Kids) : Kids := moves.foldl (fun kids m => m.apply kids) kids

/-- Moves made again, from lists that agree on what they do not touch. -/
theorem replay_eq : ∀ {moves : List Move} {now : Kids}, Settled kids moves → Closed moves →
    without (touched moves) now = without (touched moves) kids → replay moves now = kids
  | [], now, _, _, same => by
      rw [touched, List.flatMap_nil, without_nil, without_nil] at same
      exact same
  | m :: rest, now, ⟨lies, settled⟩, closed, same => by
      obtain ⟨here, others⟩ := List.pairwise_cons.mp closed
      have whole := Closed.whole_touched here
      have again : without (touched rest) (m.apply now) = without (touched rest) kids := by
        funext p
        have rest_eq : without (m.nodes ++ touched rest) now p = without (m.nodes ++ touched rest) kids p :=
          congrFun same p
        calc without (touched rest) (m.apply now) p
            = insertAt m.position (m.nodes.dedup.filter (· ∉ touched rest)) p
                (without (touched rest) (without m.nodes now) p) := by
              rw [without, Move.apply, whole.filter (List.dedup_subset _)]
              rfl
          _ = insertAt m.position (m.nodes.dedup.filter (· ∉ touched rest)) p
                (without (m.nodes ++ touched rest) kids p) := by
              rw [without_without, rest_eq]
          _ = without (touched rest) kids p := (lies p).symm
      show replay rest (m.apply now) = kids
      exact replay_eq settled others again

/-! ## Lists in one piece -/

/-- A list stands in one piece in another one, or not at all. -/
def Unsplit (run list : List NodeId) : Prop := run <:+: list ∨ ∀ x ∈ run, x ∉ list

theorem Unsplit.nil (run : List NodeId) : Unsplit run [] := .inr fun _ _ => List.not_mem_nil

theorem Unsplit.append {run first second : List NodeId} (one : Unsplit run first) (two : Unsplit run second) :
    Unsplit run (first ++ second) := by
  rcases one with inside | away
  · exact .inl (inside.trans (List.prefix_append _ _).isInfix)
  rcases two with inside | away'
  · exact .inl (inside.trans (List.suffix_append _ _).isInfix)
  · refine .inr fun x mem here => ?_
    rcases List.mem_append.mp here with first | second
    · exact away x mem first
    · exact away' x mem second

theorem Unsplit.flatMap {α : Type} {run : List NodeId} {f : α → List NodeId} {list : List α}
    (each : ∀ a ∈ list, Unsplit run (f a)) : Unsplit run (list.flatMap f) := by
  induction list with
  | nil => exact .nil run
  | cons a rest ih =>
      obtain ⟨here, others⟩ := List.forall_mem_cons.mp each
      exact here.append (ih others)

namespace Move

variable {m : Move}

/-- The comment and the nodes behind it. -/
def run (m : Move) : List NodeId := m.position.cursor?.toList ++ m.nodes

/-- A list with no node of the move in it, and not with its comment either, stays
in one piece. -/
theorem infix_apply_of_away {run : List NodeId} (stands : run <:+: kids p) (away : ∀ x ∈ run, x ∉ m.nodes)
    (ahead : ∀ c, m.position.cursor? = some c → c ∉ run) : run <:+: m.apply kids p := by
  obtain ⟨front, back, split⟩ := stands
  have stays : run.filter (· ∉ m.nodes) = run :=
    List.filter_eq_self.mpr fun x mem => by simpa using away x mem
  have rest : without m.nodes kids p =
      front.filter (· ∉ m.nodes) ++ run ++ back.filter (· ∉ m.nodes) := by
    rw [without, ← split, List.filter_append, List.filter_append, stays]
  rw [apply, rest]
  cases position : m.position with
  | behind comment =>
      rw [position] at ahead
      rw [insertAt, insertBehind_append, insertBehind_append, insertBehind_of_not_mem _ (ahead comment rfl)]
      exact List.infix_append _ _ _
  | within container =>
      rw [insertAt]
      split
      · rw [← List.append_assoc, ← List.append_assoc]
        exact List.infix_append _ _ _
      · exact List.infix_append _ _ _

/-- The nodes of a move stand in one piece behind the comment, which stands somewhere. -/
theorem infix_apply_self {comment : NodeId} (position : m.position = .behind comment)
    (stands : comment ∈ kids p) (apart : comment ∉ m.nodes) (nodup : m.nodes.Nodup) :
    comment :: m.nodes <:+: m.apply kids p := by
  have mem : comment ∈ without m.nodes kids p := by
    rw [without, List.mem_filter, decide_eq_true_eq]
    exact ⟨stands, apart⟩
  obtain ⟨front, back, split⟩ := List.append_of_mem mem
  rw [apply, split, position, insertAt, insertBehind_append, insertBehind, insertBehind, List.flatMap_cons,
    if_pos rfl, List.dedup_eq_self.mpr nodup, ← List.append_assoc]
  exact List.infix_append _ _ _

/-- What a move puts somewhere, or does not touch, goes on standing in one piece. -/
theorem infix_apply {run : List NodeId} {comment q : NodeId} (position : m.position = .behind comment)
    (held : comment ∈ kids q) (apart : comment ∉ m.nodes) (nodup : m.nodes.Nodup)
    (ahead : comment ∉ run) (pieces : Unsplit run m.nodes) (stands : ∃ p, run <:+: kids p) :
    ∃ p, run <:+: m.apply kids p := by
  rcases pieces with inside | away
  · have whole := infix_apply_self position held apart nodup
    exact ⟨q, inside.trans ((List.suffix_cons comment m.nodes).isInfix.trans whole)⟩
  · obtain ⟨p, there⟩ := stands
    refine ⟨p, infix_apply_of_away there away fun c cursor => ?_⟩
    rw [position] at cursor
    exact Option.some.inj cursor ▸ ahead

end Move

end Inlay.Render
