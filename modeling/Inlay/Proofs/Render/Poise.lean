/-
# Proofs.Render.Poise — a document that can be moved through again

Every node has a level that does not fall on the way up. What is moved behind a
comment is of a lower level than the comment, so no node is ever moved into
itself, now or when the same moves are made again (`reconcile_apply`).

`Poised` is the state between the moves of a pass: the nodes of every move lie
where it put them, but for later moves, and every node that is moved, and every
comment that something is moved behind, has a parent. One more move keeps it
(`Poised.move`), and so do new trees (`Poised.spawn`) and writes.
-/
import Inlay.Proofs.Render.Facts
import Inlay.Proofs.Render.Moves
import Mathlib.Data.ENat.Basic

namespace Inlay.Render

set_option autoImplicit false

open Relation Inlay.Document

variable {d d' : Document} {claims : Claims} {position : Position} {x : NodeId}
  {next previous fresh : List NodeId} {moves : List Move} {strict : Prop}

/-- A number for every node, or more than any number. -/
abbrev Level := NodeId → ℕ∞

/-- The level does not fall on the way up. -/
def Descends (level : Level) (kids : Kids) : Prop := ∀ p, ∀ x ∈ kids p, level x ≤ level p

/-- The node has a parent. -/
def Attached (d : Document) (x : NodeId) : Prop := ∃ p, x ∈ d.children p

/-- The node may be put somewhere. -/
structure Portable (d : Document) (x : NodeId) : Prop where
  live : d.contains x = true
  solid : d.content? x ≠ some .fragment
  inner : x ≠ d.body

theorem Attached.portable (wf : WellFormed d) (attached : Attached d x) : Portable d x := by
  obtain ⟨p, mem⟩ := attached
  have up := wf.parent_iff.mpr mem
  refine ⟨wf.contains_child mem, fun fragment => ?_, ?_⟩
  · rw [wf.linked.placeable x fragment] at up
    cases up
  · rintro rfl
    exact wf.body_not_mem_children p mem

theorem Attached.contains (wf : WellFormed d) (attached : Attached d x) : d.contains x = true :=
  (attached.portable wf).live

namespace Position

/-- The comment, or the container. -/
def place : Position → NodeId
  | behind comment => comment
  | within container => container

/-- Something can stand at the position. -/
def Stands (d : Document) : Position → Prop
  | behind comment => Attached d comment
  | within container => ∃ c, d.content? container = some c ∧ c.isContainer = true

theorem place_of_cursor {c : NodeId} (cursor : position.cursor? = some c) : position.place = c := by
  cases position with
  | behind comment => exact Option.some.inj cursor
  | within container => cases cursor

end Position

theorem level_of_below {level : Level} (wf : WellFormed d) (descends : Descends level d.children)
    {a : NodeId} (below : Below d x a) : level x ≤ level a := by
  induction below with
  | refl => exact le_refl _
  | tail _ step ih => exact ih.trans (descends _ _ (wf.parent_iff.mp step))

/-- Reconciling a list that keeps all nodes of the one before is a move. -/
theorem reconcile_apply {level : Level} (wf : WellFormed d) (descends : Descends level d.children)
    (stands : position.Stands d) (sub : previous ⊆ next) (portable : ∀ x ∈ next, Portable d x)
    (lower : ∀ x ∈ next, level x < level position.place) (claims : Claims) :
    ∃ d' claims', reconcile position previous next ⟨d, claims⟩ = .ok () ⟨d', claims'⟩ ∧
      Becomes d d' d.content? (Move.apply ⟨position, next⟩ d.children) := by
  have nothing : dropped d claims next previous = [] := by
    refine List.filter_eq_nil_iff.mpr fun y mem => ?_
    simpa using fun away => absurd (sub mem) away
  have leave : leaving d claims next previous = next := by rw [leaving, nothing, List.nil_append]
  have inner : d.body ∉ previous := fun mem => (portable _ (sub mem)).inner rfl
  have movable : ∀ p, level position.place ≤ level p → ∀ y ∈ next, Movable d p y := by
    intro p above y mem
    obtain ⟨live, solid, inner⟩ := portable y mem
    refine ⟨live, solid, inner, fun below => ?_⟩
    exact absurd (lower y mem) (not_lt.mpr (above.trans (level_of_below wf descends below)))
  cases position with
  | within container =>
      obtain ⟨d', claims', done, becomes, -⟩ :=
        reconcile_within wf claims stands inner (movable container (le_refl _))
      rw [leave] at becomes
      refine ⟨d', claims', done, ?_⟩
      have same : Move.apply ⟨.within container, next⟩ d.children = fun p =>
          if p = container then next.dedup ++ without next d.children p else without next d.children p := rfl
      rwa [same]
  | behind comment =>
      obtain ⟨p, mem⟩ := stands
      have apart : comment ∉ next := fun here => lt_irrefl _ (lower comment here)
      obtain ⟨d', claims', done, becomes, -⟩ := reconcile_behind wf claims (wf.parent_iff.mpr mem)
        (by rwa [leave]) inner (movable p (descends p comment mem))
      rw [leave] at becomes
      refine ⟨d', claims', done, ?_⟩
      have same : Move.apply ⟨.behind comment, next⟩ d.children = fun q =>
          if q = p then insertBehind comment next.dedup (without next d.children q)
          else without next d.children q := by
        funext q
        by_cases here : q = p
        · rw [if_pos here]
          rfl
        · rw [if_neg here]
          refine insertBehind_of_not_mem _ fun there => here ?_
          exact wf.linked.parent_unique (List.mem_filter.mp there).1 mem
      rwa [same]

/-- What has a parent has one after a move, and what is moved has one then. -/
theorem attached_apply (becomes : d'.children = Move.apply ⟨position, next⟩ d.children)
    (stands : position.Stands d) (apart : ∀ c, position.cursor? = some c → c ∉ next) :
    (∀ x, Attached d x → Attached d' x) ∧ ∀ x ∈ next, Attached d' x := by
  have moved : ∀ x ∈ next, Attached d' x := by
    intro x mem
    cases position with
    | within container =>
        refine ⟨container, ?_⟩
        rw [becomes, Move.mem_apply]
        exact .inl ⟨mem, rfl⟩
    | behind comment =>
        obtain ⟨p, there⟩ := stands
        refine ⟨p, ?_⟩
        rw [becomes, Move.mem_apply]
        refine .inl ⟨mem, ?_⟩
        show comment ∈ without next d.children p
        rw [without, List.mem_filter, decide_eq_true_eq]
        exact ⟨there, apart comment rfl⟩
  refine ⟨fun x attached => ?_, moved⟩
  by_cases mem : x ∈ next
  · exact moved x mem
  · obtain ⟨p, there⟩ := attached
    refine ⟨p, ?_⟩
    rw [becomes, Move.mem_apply]
    exact .inr ⟨there, mem⟩

/-- Levels go on falling on the way down. -/
theorem descends_apply {level : Level} {kids : Kids} (descends : Descends level kids)
    (lower : ∀ x ∈ next, level x < level position.place) : Descends level (Move.apply ⟨position, next⟩ kids) := by
  intro p x mem
  rcases Move.mem_apply.mp mem with ⟨new, room⟩ | ⟨old, -⟩
  · refine (lower x new).le.trans ?_
    cases position with
    | within container => exact (show p = container from room) ▸ le_refl _
    | behind comment => exact descends p comment (List.mem_filter.mp room).1
  · exact descends p x old

/-! ## Poise -/

/-- The nodes of a move stand in one piece, with the comment in front of them. -/
def Move.InPlace (m : Move) (kids : Kids) : Prop := ∃ p, m.run <:+: kids p

/-- The state between moves. In the strict case no move was torn apart. -/
structure Poised (strict : Prop) (d : Document) (level : Level) (moves : List Move) : Prop where
  wellFormed : WellFormed d
  descends : Descends level d.children
  settled : Settled d.children moves
  closed : Closed moves
  lower : ∀ m ∈ moves, ∀ x ∈ m.nodes, level x < level m.position.place
  stands : ∀ m ∈ moves, Attached d m.position.place
  attached : ∀ m ∈ moves, ∀ x ∈ m.nodes, Attached d x
  whole : strict → ∀ m ∈ moves, m.InPlace d.children

namespace Poised

variable {level level' : Level}

/-- The document before a pass: no node of it is ever moved. -/
theorem start (wf : WellFormed d) : Poised strict d (fun _ => ⊤) [] where
  wellFormed := wf
  descends := fun _ _ _ => le_refl _
  settled := trivial
  closed := .nil
  lower := by simp
  stands := by simp
  attached := by simp
  whole := by simp

theorem congr (poised : Poised strict d level moves) (wf : WellFormed d') (same : d'.children = d.children) :
    Poised strict d' level moves := by
  obtain ⟨-, descends, settled, closed, lower, stands, attached, whole⟩ := poised
  simp only [Attached, ← same] at descends settled stands attached whole
  exact ⟨wf, descends, settled, closed, lower, stands, attached, whole⟩

/-- What moved, and what it was moved behind, has a parent. -/
theorem attached_run (poised : Poised strict d level moves) {m : Move} (mem : m ∈ moves) (here : x ∈ m.run) :
    Attached d x := by
  rcases List.mem_append.mp here with ahead | behind
  · have place := Position.place_of_cursor (Option.mem_toList.mp ahead)
    exact place ▸ poised.stands m mem
  · exact poised.attached m mem x behind

/-- What a move behind a comment has to meet. -/
structure Next (strict : Prop) (d : Document) (level : Level) (moves : List Move) (comment : NodeId)
    (next : List NodeId) : Prop where
  stands : Attached d comment
  portable : ∀ x ∈ next, Portable d x
  lower : ∀ x ∈ next, level x < level comment
  whole : ∀ m ∈ moves, m.Whole next
  nodup : strict → next.Nodup
  pieces : strict → ∀ m ∈ moves, comment ∉ m.run ∧ Unsplit m.run next

theorem move (poised : Poised strict d level moves) {comment : NodeId}
    (ready : Next strict d level moves comment next) (claims : Claims) :
    ∃ d' claims', reconcile (.behind comment) [] next ⟨d, claims⟩ = .ok () ⟨d', claims'⟩ ∧
      d'.content? = d.content? ∧ Poised strict d' level (moves ++ [⟨.behind comment, next⟩]) ∧
      ∀ x, Attached d x → Attached d' x := by
  have apart : comment ∉ next := fun here => lt_irrefl _ (ready.lower comment here)
  have away : ∀ c, (Position.behind comment).cursor? = some c → c ∉ next := fun c same =>
    Option.some.inj same ▸ apart
  have stands : (Position.behind comment).Stands d := ready.stands
  obtain ⟨d', claims', done, becomes⟩ := reconcile_apply poised.wellFormed poised.descends stands
    (List.nil_subset _) ready.portable ready.lower claims
  obtain ⟨kept, moved⟩ := attached_apply becomes.children stands away
  refine ⟨d', claims', done, becomes.content, ⟨becomes.wellFormed, ?_, ?_, ?_, ?_, ?_, ?_, ?_⟩, kept⟩
  · rw [becomes.children]
    exact descends_apply poised.descends ready.lower
  · rw [becomes.children]
    exact poised.settled.add ready.whole
  · refine List.pairwise_append.mpr ⟨poised.closed, List.pairwise_singleton _ _, fun m mem last here => ?_⟩
    rw [List.mem_singleton.mp here]
    exact ready.whole m mem
  · rintro m mem
    rcases List.mem_append.mp mem with old | new
    · exact poised.lower m old
    · rw [List.mem_singleton.mp new]
      exact ready.lower
  · rintro m mem
    rcases List.mem_append.mp mem with old | new
    · exact kept _ (poised.stands m old)
    · rw [List.mem_singleton.mp new]
      exact kept _ ready.stands
  · intro m mem x here
    rcases List.mem_append.mp mem with old | new
    · exact kept x (poised.attached m old x here)
    · rw [List.mem_singleton.mp new] at here
      exact moved x here
  · intro all m mem
    obtain ⟨p, there⟩ := ready.stands
    rw [becomes.children]
    rcases List.mem_append.mp mem with old | new
    · obtain ⟨ahead, pieces⟩ := ready.pieces all m old
      exact Move.infix_apply (m := ⟨.behind comment, next⟩) rfl there apart (ready.nodup all) ahead pieces
        (poised.whole all m old)
    · rw [List.mem_singleton.mp new]
      exact ⟨p, Move.infix_apply_self (m := ⟨.behind comment, next⟩) rfl there apart (ready.nodup all)⟩

end Poised

/-- New nodes are there, among themselves; the children of the others are the same. -/
structure Spawned (d d' : Document) (fresh : List NodeId) : Prop where
  wellFormed : WellFormed d'
  dead : ∀ x ∈ fresh, d.contains x = false
  content : ∀ x, x ∉ fresh → d'.content? x = d.content? x
  children : ∀ p, p ∉ fresh → d'.children p = d.children p
  inside : ∀ p ∈ fresh, d'.children p ⊆ fresh

/-- The new nodes have a level of their own. -/
def Level.raise (level : Level) (fresh : List NodeId) (n : ℕ∞) : Level := fun x =>
  if x ∈ fresh then n else level x

namespace Spawned

theorem old (spawned : Spawned d d' fresh) (live : d.contains x = true) : x ∉ fresh := by
  intro mem
  rw [spawned.dead x mem] at live
  cases live

theorem alive (spawned : Spawned d d' fresh) (live : d.contains x = true) : d'.contains x = true := by
  obtain ⟨c, found⟩ := contains_iff_content?.mp live
  exact contains_iff_content?.mpr ⟨c, (spawned.content x (spawned.old live)).trans found⟩

theorem attached (spawned : Spawned d d' fresh) (wf : WellFormed d) (attached : Attached d x) :
    Attached d' x := by
  obtain ⟨p, mem⟩ := attached
  refine ⟨p, ?_⟩
  rwa [spawned.children p (spawned.old (wf.contains_parent mem))]

theorem holds (spawned : Spawned d d' fresh) {f : Fact} (holds : f.Holds d) : f.Holds d' :=
  holds.congr (spawned.content _ (spawned.old holds.contains))

end Spawned

theorem Poised.spawn {level : Level} (poised : Poised strict d level moves) (spawned : Spawned d d' fresh)
    (n : ℕ∞) : Poised strict d' (level.raise fresh n) moves := by
  have wf := poised.wellFormed
  have same : ∀ {y}, Attached d y → level.raise fresh n y = level y := fun attached =>
    if_neg (spawned.old (attached.contains wf))
  refine ⟨spawned.wellFormed, ?_, ?_, poised.closed, ?_, ?_, ?_, ?_⟩
  · intro p y mem
    by_cases new : p ∈ fresh
    · rw [Level.raise, if_pos (spawned.inside p new mem), Level.raise, if_pos new]
    · rw [spawned.children p new] at mem
      rw [same ⟨p, mem⟩, Level.raise, if_neg new]
      exact poised.descends p y mem
  · refine poised.settled.congr fun m mem p => ?_
    by_cases new : p ∈ fresh
    · -- nothing old is among the new nodes
      have away : ∀ y, Attached d y → y ∉ d'.children p := fun y attached here =>
        spawned.old (attached.contains wf) (spawned.inside p new here)
      refine .inr ⟨fun same => ?_, fun c cursor => ?_, fun y here => away y (poised.attached m mem y here)⟩
      · have there := poised.stands m mem
        rw [same] at there
        exact spawned.old (there.contains wf) new
      · rw [← Position.place_of_cursor cursor]
        exact away _ (poised.stands m mem)
    · exact .inl (spawned.children p new)
  · intro m mem y here
    rw [same (poised.attached m mem y here), same (poised.stands m mem)]
    exact poised.lower m mem y here
  · exact fun m mem => spawned.attached wf (poised.stands m mem)
  · exact fun m mem y here => spawned.attached wf (poised.attached m mem y here)
  · intro all m mem
    obtain ⟨p, piece⟩ := poised.whole all m mem
    refine ⟨p, ?_⟩
    by_cases new : p ∈ fresh
    · have empty := wf.children_eq_nil (spawned.dead p new)
      rw [empty, List.infix_nil] at piece
      rw [piece]
      exact List.nil_infix
    · rwa [spawned.children p new]

end Inlay.Render
