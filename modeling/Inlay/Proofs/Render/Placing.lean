/-
# Proofs.Render.Placing — what reconciling moves, and what it is told to move

Behind a position stand the nodes of the new list and then those of before that
stay, in their order. What leaves its place is known beforehand (`stays`): the nodes
of the new list, and those of the old one that nobody claimed. So every list of
children is its old one without these, but for the one of the position
(`reconcile_settles`), and nobody else is told to have been moved
(`reconcile_reports`).

When the old list is what stands behind the position, and the new one keeps its order,
reconciling is minimal: every dropped node is removed once, every new one inserted
once, and the nodes of both lists stay where they are (`reconcile_exact`). The cursor
then has the first kept node of the rest behind it, which is the next one to be placed
or is passed over by an insertion.
-/
import Inlay.Proofs.Document.Insertion
import Inlay.Proofs.Document.Told
import Inlay.Proofs.Render.Calm
import Inlay.Proofs.Render.Reconcile
import Inlay.Proofs.Render.Shuffle

namespace Inlay

set_option autoImplicit false

namespace Record

/-- The nodes that a record says to have come or gone. -/
def moved : Record → List NodeId
  | .childList _ added removed => added ++ removed
  | _ => []

/-- The record of a node that left a parent. -/
def leaves (parent node : NodeId) : Record := .childList parent [] [node]

/-- The record of a node that came into a parent. -/
def enters (parent node : NodeId) : Record := .childList parent [node] []

end Record

namespace Render

open Relation Inlay.Document

variable {d d' d'' : Document} {claims : Claims} {stage : Stage} {node parent x : NodeId}
  {next previous : List NodeId} {position : Position}

/-! ## Positions -/

namespace Position

/-- The siblings up to the position. -/
def front (position : Position) (d : Document) : List NodeId :=
  match position with
  | .behind node =>
    match d.parent? node with
    | some parent => (d.children parent).takeWhile (· ≠ node) ++ [node]
    | none => []
  | .within _ => []

/-- The siblings from the position on. -/
def rest (position : Position) (d : Document) : List NodeId :=
  match position with
  | .behind node =>
    match d.parent? node with
    | some parent => ((d.children parent).dropWhile (· ≠ node)).tail
    | none => []
  | .within container => d.children container

/-- What a list of nodes must be like to be placed at a position. -/
structure Accepts (position : Position) (d : Document) (previous next : List NodeId) : Prop where
  /-- A node to stand behind is alive and in neither list. -/
  cursor : ∀ c, position.cursor? = some c → d.contains c = true ∧ c ∉ previous ∧ c ∉ next
  /-- A container is an element or a fragment. -/
  container : ∀ c, position = .within c → ∃ content, d.content? c = some content ∧ content.isContainer = true
  nodup : next.Nodup
  live : ∀ x ∈ next, d.contains x = true
  solid : ∀ x ∈ next, d.content? x ≠ some .fragment
  inner : d.body ∉ next
  outside : ∀ p, position.parent? d = some p → ∀ x ∈ next, d.isInclusiveAncestor x p = false
  spared : d.body ∉ previous

theorem parts_of_split {before after : List NodeId} (wf : WellFormed d)
    (split : d.children parent = before ++ node :: after) :
    (behind node).front d = before ++ [node] ∧ (behind node).rest d = after := by
  have up : d.parent? node = some parent := wf.parent_iff.mpr (by simp [split])
  have nodup := wf.nodup parent
  rw [split] at nodup
  have absent := (List.nodup_cons.mp (List.nodup_middle.mp nodup)).1
  have other : ∀ x ∈ before, decide (x ≠ node) = true := fun x mem => by
    simpa using fun same : x = node => absent (List.mem_append_left _ (same ▸ mem))
  refine ⟨?_, ?_⟩
  · simp only [front, up, split]
    rw [List.takeWhile_append_of_pos other]
    simp
  · simp only [rest, up, split]
    rw [List.dropWhile_append_of_pos other]
    simp

/-- The container's children are those up to the position and those behind it. -/
theorem children_eq (wf : WellFormed d) (up : position.parent? d = some parent) :
    d.children parent = position.front d ++ position.rest d := by
  cases position with
  | behind node =>
      obtain ⟨before, after, split⟩ := List.append_of_mem (wf.parent_iff.mp up)
      obtain ⟨ahead, rest⟩ := parts_of_split wf split
      rw [ahead, rest, split]
      simp
  | within container =>
      cases up
      rfl

theorem Accepts.movable (wf : WellFormed d) (accepts : position.Accepts d previous next)
    (up : position.parent? d = some parent) : ∀ x ∈ next, Movable d parent x := fun x mem =>
  { live := accepts.live x mem
    solid := accepts.solid x mem
    inner := fun same => accepts.inner (same ▸ mem)
    outside := fun below => by
      have apart := accepts.outside parent up x mem
      rw [wf.isInclusiveAncestor_iff.mpr below] at apart
      cases apart }

/-- The container of a position takes children. -/
theorem Accepts.takes (wf : WellFormed d) (accepts : position.Accepts d previous next)
    (up : position.parent? d = some parent) : ∃ c, d.content? parent = some c ∧ c.isContainer = true := by
  cases position with
  | behind node => exact wf.linked.container parent (List.ne_nil_of_mem (wf.parent_iff.mp up))
  | within container =>
      cases up
      exact accepts.container _ rfl

end Position

/-! ## What stays -/

/-- A node that is in no new list, and claimed if it is in the old one, stays. -/
def stays (claims : Claims) (previous next : List NodeId) (x : NodeId) : Bool :=
  x ∉ next ∧ (x ∈ previous → x ∈ claims)

theorem without_leaving_eq_filter (wf : WellFormed d) (p : NodeId) :
    without (leaving d claims next previous) d.children p = (d.children p).filter (stays claims previous next) := by
  refine List.filter_congr fun y mem => ?_
  have live := wf.contains_child mem
  simp only [leaving, dropped, stays, List.mem_append, List.mem_filter, live, decide_eq_decide]
  by_cases new : y ∈ next <;> by_cases claimed : y ∈ claims <;> by_cases old : y ∈ previous <;> simp [new, claimed, old]

/-- The lists of children once a list of nodes stands at the position. -/
def settled (position : Position) (claims : Claims) (previous next : List NodeId) (d : Document) (p : NodeId) :
    List NodeId :=
  if position.parent? d = some p then
    (position.front d).filter (stays claims previous next) ++ next ++
      (position.rest d).filter (stays claims previous next)
  else (d.children p).filter (stays claims previous next)

theorem reconcile_settles (wf : WellFormed d) (claims : Claims) (accepts : position.Accepts d previous next) :
    ∃ d' claims', reconcile position previous next ⟨d, claims⟩ = .ok () ⟨d', claims'⟩ ∧
      Becomes d d' d.content? (settled position claims previous next d) ∧
      ∀ x, x ∈ claims' ↔ x ∈ claims ∨ x ∈ next := by
  have once : next.dedup = next := List.dedup_eq_self.mpr accepts.nodup
  cases up : position.parent? d with
  | none =>
      cases position with
      | within container => cases up
      | behind comment =>
          obtain ⟨d', claims', done, becomes, claimed⟩ := reconcile_nowhere wf claims up accepts.spared
          have lists : without (leaving d claims next previous) d.children =
              settled (.behind comment) claims previous next d := by
            funext p
            rw [without_leaving_eq_filter wf, settled, if_neg (by rw [up]; simp)]
          exact ⟨d', claims', done, lists ▸ becomes, claimed⟩
  | some parent =>
      have movable := accepts.movable wf up
      have takes := accepts.takes wf up
      cases position with
      | within container =>
          cases up
          obtain ⟨d', claims', done, becomes, claimed⟩ := reconcile_within wf claims takes accepts.spared movable
          have lists : settled (.within parent) claims previous next d = fun p =>
              if p = parent then next.dedup ++ without (leaving d claims next previous) d.children p
              else without (leaving d claims next previous) d.children p := by
            funext p
            simp only [without_leaving_eq_filter wf, settled, once, Position.parent?, Option.some.injEq, @eq_comm _ parent p]
            split
            · next here => simp [here, Position.front, Position.rest]
            · rfl
          exact ⟨d', claims', done, lists ▸ becomes, claimed⟩
      | behind comment =>
          obtain ⟨-, old, new⟩ := accepts.cursor comment rfl
          have apart : comment ∉ leaving d claims next previous := by simp [leaving, dropped, old, new]
          obtain ⟨d', claims', done, becomes, claimed⟩ :=
            reconcile_behind wf claims up apart accepts.spared movable
          obtain ⟨before, after, split⟩ := List.append_of_mem (wf.parent_iff.mp up)
          obtain ⟨ahead, rest⟩ := Position.parts_of_split wf split
          have keeps : stays claims previous next comment = true := by simp [stays, old, new]
          have lists : settled (.behind comment) claims previous next d = fun p =>
              if p = parent then
                insertBehind comment next.dedup (without (leaving d claims next previous) d.children p)
              else without (leaving d claims next previous) d.children p := by
            funext p
            have same : (Position.behind comment).parent? d = some p ↔ p = parent := by
              rw [up, Option.some.injEq, eq_comm]
            simp only [without_leaving_eq_filter wf, settled, once, same]
            split
            · next here =>
                subst here
                have kept : (before ++ comment :: after).filter (stays claims previous next) =
                    before.filter (stays claims previous next) ++
                      comment :: after.filter (stays claims previous next) := by
                  rw [List.filter_append, List.filter_cons_of_pos keeps]
                have nodup := (wf.nodup p).filter (stays claims previous next)
                rw [split, kept] at nodup
                rw [ahead, rest, split, kept, insertBehind_split next nodup, List.filter_append,
                  List.filter_cons_of_pos keeps, List.filter_nil]
                simp
            · rfl
          exact ⟨d', claims', done, lists ▸ becomes, claimed⟩

/-! ## What is told -/

/-- On the way from one document to another only nodes of one kind are told to have come or gone. -/
def Reports (who : NodeId → Prop) (d d' : Document) : Prop :=
  ∃ news, Account d d' news ∧ ∀ record ∈ news, ∀ x ∈ record.moved, who x

namespace Reports

variable {who : NodeId → Prop}

theorem refl (d : Document) : Reports who d d := ⟨[], .refl d, nofun⟩

theorem trans (first : Reports who d d') (second : Reports who d' d'') : Reports who d d'' := by
  obtain ⟨news, account, each⟩ := first
  obtain ⟨more, account', each'⟩ := second
  refine ⟨news ++ more, account.trans account', fun record mem => ?_⟩
  rcases List.mem_append.mp mem with early | late
  · exact each record early
  · exact each' record late

end Reports

theorem moved_of_withdrawal {record : Record} (mem : record ∈ withdrawal d node) : record.moved = [node] := by
  unfold withdrawal at mem
  split at mem
  · split at mem
    · cases List.mem_singleton.mp mem
      rfl
    · cases mem
  · cases mem

theorem moved_of_arrival {record : Record} (mem : record ∈ arrival d parent node) : record.moved = [node] := by
  unfold arrival at mem
  split at mem
  · cases List.mem_singleton.mp mem
    rfl
  · cases mem

/-- Inserting a node that is no fragment is told as one move. -/
theorem account_insertBefore {reference : Option NodeId} (wf : WellFormed d) (solid : d.content? node ≠ some .fragment)
    (done : insertBefore parent node reference d = .ok () d') :
    Account d d' (withdrawal d node ++ arrival d' parent node) := by
  obtain ⟨-, moves⟩ := of_insertBefore wf done
  rw [carried_of_solid solid] at moves
  obtain ⟨_, d₁, first, last⟩ := Document.Edit.of_bind_ok moves
  cases last
  exact account_insertNode first

section Reports

variable {who : NodeId → Prop}

theorem remove_reports (one : who node) (done : Document.remove node d = .ok () d') : Reports who d d' := by
  refine ⟨_, account_remove done, fun record mem x named => ?_⟩
  rw [moved_of_withdrawal mem, List.mem_singleton] at named
  exact named ▸ one

theorem detachOld_reports : ∀ (previous : List NodeId) {d : Document},
    (∀ x ∈ previous, x ∉ next → x ∉ claims → who x) → detachOld next previous ⟨d, claims⟩ = .ok () stage →
    ∃ d', stage = ⟨d', claims⟩ ∧ Reports who d d'
  | [], d, _, done => by
      cases done
      exact ⟨d, rfl, .refl d⟩
  | node :: rest, d, each, done => by
      obtain ⟨here, later⟩ := List.forall_mem_cons.mp each
      rw [detachOld, Act.bind_isClaimed, Act.bind_ask] at done
      split at done
      · next drop =>
          have one : who node := here (by simp_all) (by simp_all)
          obtain ⟨⟨⟩, stage₁, removed, others⟩ := of_bind_ok done
          obtain ⟨d₁, gone, rfl⟩ := Act.of_edit removed
          obtain ⟨d₂, rfl, second⟩ := detachOld_reports rest later others
          exact ⟨d₂, rfl, (remove_reports one gone).trans second⟩
      · exact detachOld_reports rest later done

theorem placeIn_reports : ∀ (next : List NodeId) {d : Document} {claims : Claims} {cursor : Option NodeId},
    WellFormed d → (∀ x ∈ next, d.content? x ≠ some .fragment ∧ who x) →
    placeIn parent cursor next ⟨d, claims⟩ = .ok () stage → Reports who d stage.document
  | [], d, claims, cursor, _, _, done => by
      cases done
      exact .refl d
  | node :: rest, d, claims, cursor, wf, each, done => by
      obtain ⟨⟨solid, one⟩, later⟩ := List.forall_mem_cons.mp each
      rw [placeIn, Act.bind_claim] at done
      obtain ⟨⟨⟩, stage₁, put, others⟩ := of_bind_ok done
      rw [placeOne, Act.bind_ask] at put
      split at put
      · obtain ⟨d₁, inserted, rfl⟩ := Act.of_edit put
        have becomes := (becomes_of_solid wf solid inserted).2
        have first : Reports who d d₁ := by
          refine ⟨_, account_insertBefore wf solid inserted, fun record mem x named => ?_⟩
          have single : record.moved = [node] :=
            (List.mem_append.mp mem).elim moved_of_withdrawal moved_of_arrival
          rw [single, List.mem_singleton] at named
          exact named ▸ one
        exact first.trans (placeIn_reports rest becomes.wellFormed (by rwa [becomes.content]) others)
      · cases put
        exact placeIn_reports rest wf later others

theorem placeNowhere_reports : ∀ (next : List NodeId) {d : Document} {claims : Claims}, (∀ x ∈ next, who x) →
    placeNowhere next ⟨d, claims⟩ = .ok () stage → Reports who d stage.document
  | [], d, claims, _, done => by
      cases done
      exact .refl d
  | node :: rest, d, claims, each, done => by
      obtain ⟨one, later⟩ := List.forall_mem_cons.mp each
      rw [placeNowhere, Act.bind_claim] at done
      obtain ⟨⟨⟩, stage₁, put, others⟩ := of_bind_ok done
      rw [detachPlaced, Act.bind_ask] at put
      split at put
      · obtain ⟨d₁, gone, rfl⟩ := Act.of_edit put
        exact (remove_reports one gone).trans (placeNowhere_reports rest later others)
      · cases put
        exact placeNowhere_reports rest later others

end Reports

/-- Only the nodes of the new list and those that nobody keeps are told to be moved. -/
theorem reconcile_reports (wf : WellFormed d) (accepts : position.Accepts d previous next)
    (done : reconcile position previous next ⟨d, claims⟩ = .ok () stage) :
    Reports (fun x => x ∈ next ∨ x ∈ previous ∧ x ∉ claims) d stage.document := by
  obtain ⟨⟨⟩, stage₁, detached, others⟩ := of_bind_ok done
  have mine : ∀ x ∈ previous, x ∉ next → x ∉ claims → x ∈ next ∨ x ∈ previous ∧ x ∉ claims :=
    fun x old _ free => .inr ⟨old, free⟩
  obtain ⟨d₁, rfl, first⟩ := detachOld_reports previous mine detached
  obtain ⟨d₂, done', out⟩ := detachOld_becomes claims next previous wf accepts.spared
  cases detached.symm.trans done'
  rw [Act.bind_ask] at others
  refine first.trans ?_
  cases up : position.parent? d₁ with
  | some parent =>
      rw [up] at others
      refine placeIn_reports next out.wellFormed (fun x mem => ⟨?_, .inl mem⟩) others
      rw [out.content]
      exact accepts.solid x mem
  | none =>
      rw [up] at others
      exact placeNowhere_reports next (fun x mem => .inl mem) others

/-! ## What is moved when the order is kept -/

/-- Taking a child out of a connected parent is told once, and leaves the parent connected. -/
theorem remove_exact (wf : WellFormed d) (child : node ∈ d.children parent) (connected : Connected d parent)
    (done : Document.remove node d = .ok () d') : Account d d' [Record.leaves parent node] ∧ Connected d' parent := by
  have up : d.Up node parent := wf.parent_iff.mpr child
  have told : withdrawal d node = [Record.leaves parent node] := by
    rw [withdrawal, up]
    simp [wf.isConnected_iff.mpr connected, Record.leaves]
  have inner : node ≠ d.body := fun same => wf.body_not_mem_children parent (same ▸ child)
  obtain ⟨d₁, done', becomes⟩ := remove_becomes wf (wf.contains_child child) inner
  cases done.symm.trans done'
  refine ⟨told ▸ account_remove done, ?_⟩
  unfold Connected
  rw [becomes.body]
  refine Below.of_agree (fun z p below step => ?_) connected
  have other : z ≠ node := fun same => wf.acyclic.not_below up (same ▸ below)
  refine becomes.wellFormed.parent_iff.mpr ?_
  rw [becomes.children, List.mem_erase_of_ne other]
  exact wf.parent_iff.mp step

/-- The children of a connected parent that nobody claimed are taken out once each, if they are not kept. -/
theorem detachOld_exact : ∀ (previous : List NodeId) {d : Document}, WellFormed d → previous.Nodup →
    (∀ x ∈ previous, x ∈ d.children parent ∧ x ∉ claims) → Connected d parent →
    detachOld next previous ⟨d, claims⟩ = .ok () ⟨d', claims⟩ →
    Account d d' ((previous.filter (· ∉ next)).map (Record.leaves parent)) ∧ Connected d' parent
  | [], d, _, _, _, connected, done => by
      cases done
      exact ⟨.refl _, connected⟩
  | node :: rest, d, wf, nodup, inside, connected, done => by
      obtain ⟨absent, nodup⟩ := List.nodup_cons.mp nodup
      obtain ⟨⟨child, free⟩, inside⟩ := List.forall_mem_cons.mp inside
      have live := wf.contains_child child
      rw [detachOld, Act.bind_isClaimed, Act.bind_ask] at done
      by_cases kept : node ∈ next
      · rw [if_neg (by simp [kept])] at done
        rw [List.filter_cons_of_neg (by simpa using kept)]
        exact detachOld_exact rest wf nodup inside connected done
      · rw [if_pos (by simp [kept, free, live])] at done
        obtain ⟨⟨⟩, stage₁, removed, others⟩ := of_bind_ok done
        obtain ⟨d₁, gone, rfl⟩ := Act.of_edit removed
        obtain ⟨account, connected₁⟩ := remove_exact wf child connected gone
        have inner : node ≠ d.body := fun same => wf.body_not_mem_children parent (same ▸ child)
        obtain ⟨d₂, done', becomes⟩ := remove_becomes wf live inner
        cases gone.symm.trans done'
        have inside₁ : ∀ x ∈ rest, x ∈ d₁.children parent ∧ x ∉ claims := by
          intro x mem
          have other : x ≠ node := fun same => absent (same ▸ mem)
          rw [becomes.children, List.mem_erase_of_ne other]
          exact inside x mem
        obtain ⟨more, after⟩ := detachOld_exact rest becomes.wellFormed nodup inside₁ connected₁ others
        rw [List.filter_cons_of_pos (by simpa using kept), List.map_cons]
        exact ⟨account.trans more, after⟩

/-- A node that stands behind the cursor is left there. -/
theorem placeOne_stays {before after : List NodeId} (wf : WellFormed d) (split : d.children parent = before ++ x :: after) :
    placeOne parent before.getLast? x ⟨d, claims⟩ = .ok () ⟨d, claims⟩ := by
  rw [placeOne, Act.bind_ask, behindCursor_eq wf split, if_neg (by simp)]
  rfl

/-- A node without a parent comes into it, which is told once. -/
theorem placeOne_exact (claims : Claims) {before after : List NodeId} (wf : WellFormed d)
    (takes : ∃ c, d.content? parent = some c ∧ c.isContainer = true) (split : d.children parent = before ++ after)
    (movable : Movable d parent x) (loose : d.parent? x = none) (connected : Connected d parent) :
    ∃ d', placeOne parent before.getLast? x ⟨d, claims⟩ = .ok () ⟨d', claims⟩ ∧
      Becomes d d' d.content? (placed parent x before after d.children) ∧ Rehung d d' parent x ∧
      Account d d' [Record.enters parent x] := by
  have absent : x ∉ d.children parent := fun mem => by
    rw [wf.parent_iff.mpr mem] at loose
    cases loose
  have away : after.head? ≠ some x := fun head =>
    absent (split ▸ List.mem_append_right _ (List.mem_of_mem_head? head))
  have admitted : Admitted d parent after.head? :=
    ⟨takes, fun r head => split ▸ List.mem_append_right _ (List.mem_of_mem_head? head)⟩
  obtain ⟨d₁, put, becomes⟩ := insertBefore_becomes wf admitted movable
  have rehung := rehung_of_moved wf admitted movable becomes
  have connected₁ := becomes.wellFormed.isConnected_iff.mpr (rehung.connected_parent.mpr connected)
  have told : withdrawal d x ++ arrival d₁ parent x = [Record.enters parent x] := by
    simp [withdrawal, loose, arrival, connected₁, Record.enters]
  have lists : moved d.children parent x after.head? = placed parent x before after d.children :=
    moved_of_split wf split away
  refine ⟨d₁, ?_, lists ▸ becomes, rehung, told ▸ account_insertBefore wf movable.solid put⟩
  rw [placeOne, Act.bind_ask, behindCursor_eq wf split, if_pos away]
  exact Act.edit_ok put

/-- Placing a list that holds the next children in their order leaves these and puts in the others, which
had no parent. -/
theorem placeIn_exact : ∀ (next : List NodeId) (claims : Claims) {d : Document} {before kept after : List NodeId},
    WellFormed d → (∃ c, d.content? parent = some c ∧ c.isContainer = true) →
    d.children parent = before ++ (kept ++ after) → next.filter (· ∈ kept) = kept → next.Nodup →
    (∀ x ∈ next, Movable d parent x) → (∀ x ∈ next, x ∉ kept → d.parent? x = none) → Connected d parent →
    ∃ d' claims', placeIn parent before.getLast? next ⟨d, claims⟩ = .ok () ⟨d', claims'⟩ ∧
      Account d d' ((next.filter (· ∉ kept)).map (Record.enters parent))
  | [], claims, d, before, kept, after, _, _, _, _, _, _, _, _ => ⟨d, claims, rfl, .refl d⟩
  | x :: rest, claims, d, before, kept, after, wf, takes, split, order, nodup, movable, loose, connected => by
      obtain ⟨absent, nodup⟩ := List.nodup_cons.mp nodup
      obtain ⟨first, later⟩ := List.forall_mem_cons.mp movable
      obtain ⟨looseHere, loose⟩ := List.forall_mem_cons.mp loose
      by_cases stay : x ∈ kept
      · -- it is the first of those that are kept, and stands behind the cursor
        rw [List.filter_cons_of_pos (by simpa using stay)] at order
        obtain ⟨kept, rfl⟩ : ∃ others, kept = x :: others := ⟨_, order.symm⟩
        have drop : ∀ y ∈ rest, (y ∈ x :: kept ↔ y ∈ kept) := fun y mem => by
          have other : y ≠ x := fun same => absent (same ▸ mem)
          simp [other]
        have order : rest.filter (· ∈ kept) = kept := by
          refine Eq.trans (List.filter_congr fun y mem => ?_) (List.cons.inj order).2
          simp [drop y mem]
        have fresh : (x :: rest).filter (· ∉ x :: kept) = rest.filter (· ∉ kept) := by
          rw [List.filter_cons_of_neg (by simp)]
          exact List.filter_congr fun y mem => by simp [drop y mem]
        have split₁ : d.children parent = (before ++ [x]) ++ (kept ++ after) := by simp [split]
        obtain ⟨d₂, claims₂, done, account⟩ := placeIn_exact rest (claims.add x) wf takes split₁ order nodup later
          (fun y mem out => loose y mem (mt (drop y mem).mp out)) connected
        rw [List.getLast?_concat] at done
        refine ⟨d₂, claims₂, ?_, fresh ▸ account⟩
        rw [placeIn, Act.bind_claim, bind_ok (placeOne_stays wf split)]
        exact done
      · obtain ⟨d₁, one, becomes, rehung, account⟩ :=
          placeOne_exact (claims.add x) wf takes split first (looseHere stay) connected
        have apart : x ∉ before ++ (kept ++ after) := fun mem => by
          have loose := looseHere stay
          rw [wf.parent_iff.mpr (split ▸ mem)] at loose
          cases loose
        have apartBefore : x ∉ before := fun mem => apart (List.mem_append_left _ mem)
        have apartBehind : x ∉ kept ++ after := fun mem => apart (List.mem_append_right _ mem)
        have split₁ : d₁.children parent = (before ++ [x]) ++ (kept ++ after) := by
          rw [becomes.children, placed, if_pos rfl, filter_ne_of_not_mem apartBefore, filter_ne_of_not_mem apartBehind]
          simp
        have loose₁ : ∀ y ∈ rest, y ∉ kept → d₁.parent? y = none := fun y mem out => by
          have other : y ≠ x := fun same => absent (same ▸ mem)
          rw [rehung.up, if_neg other]
          exact loose y mem out
        rw [List.filter_cons_of_neg (by simpa using stay)] at order
        obtain ⟨d₂, claims₂, done, more⟩ := placeIn_exact rest (claims.add x) becomes.wellFormed
          (by rwa [becomes.content]) split₁ order nodup
          (fun y mem => movable_of_placed wf first becomes split (later y mem)) loose₁
          (rehung.connected_parent.mpr connected)
        rw [List.getLast?_concat] at done
        refine ⟨d₂, claims₂, ?_, ?_⟩
        · rw [placeIn, Act.bind_claim, bind_ok one]
          exact done
        · rw [List.filter_cons_of_pos (by simpa using stay), List.map_cons]
          exact account.trans more

/-! ## Reconciling -/

/-- What a reconciling makes of the lists of children, whom it claims and whom it moves. -/
structure Reconciled (position : Position) (claims : Claims) (previous next : List NodeId) (d d' : Document)
    (claims' : Claims) : Prop where
  parent : position.parent? d' = position.parent? d
  front : position.front d' = (position.front d).filter (stays claims previous next)
  /-- The new list stands first, then the other siblings in their order. -/
  rest : position.parent? d ≠ none →
    position.rest d' = next ++ (position.rest d).filter (stays claims previous next)
  others : ∀ p, position.parent? d ≠ some p → d'.children p = (d.children p).filter (stays claims previous next)
  dropped : ∀ x ∈ previous, x ∉ next → x ∉ claims → d'.parent? x = none
  spared : ∀ x, x ∉ next → (x ∈ previous → x ∈ claims) → d'.parent? x = d.parent? x
  loose : position.parent? d = none → ∀ x ∈ next, d'.parent? x = none
  claimed : ∀ x, x ∈ claims' ↔ x ∈ claims ∨ x ∈ next
  content : d'.content? = d.content?
  reports : Reports (fun x => x ∈ next ∨ x ∈ previous ∧ x ∉ claims) d d'

/-- A node stands in a list afterwards when it was placed there, or stood there and stays. -/
theorem mem_settled (wf : WellFormed d) {p : NodeId} :
    x ∈ settled position claims previous next d p ↔
      position.parent? d = some p ∧ x ∈ next ∨ x ∈ d.children p ∧ stays claims previous next x = true := by
  unfold settled
  split
  · next up =>
      rw [Position.children_eq wf up]
      simp only [List.mem_append, List.mem_filter, up, true_and]
      tauto
  · next away => simp [away]

/-- Behind the position the new list stands, followed by what stays. -/
theorem parts_of_settled (wf : WellFormed d) (accepts : position.Accepts d previous next)
    (becomes : Becomes d d' d.content? (settled position claims previous next d)) :
    position.parent? d' = position.parent? d ∧
      position.front d' = (position.front d).filter (stays claims previous next) ∧
      (position.parent? d ≠ none → position.rest d' = next ++ (position.rest d).filter (stays claims previous next)) := by
  cases position with
  | within container =>
      refine ⟨rfl, rfl, fun _ => ?_⟩
      have here : (Position.within container).parent? d = some container := rfl
      rw [Position.rest, becomes.children, settled, if_pos here]
      rfl
  | behind comment =>
      obtain ⟨-, old, new⟩ := accepts.cursor comment rfl
      have keeps : stays claims previous next comment = true := by simp [stays, old, new]
      have same : d'.parent? comment = d.parent? comment := by
        refine parent?_congr wf becomes.wellFormed fun p => ?_
        rw [becomes.children, mem_settled wf]
        simp [keeps, new]
      refine ⟨same, ?_⟩
      cases up : d.parent? comment with
      | none => simp [Position.front, Position.parent?, same, up]
      | some parent =>
          have here : (Position.behind comment).parent? d = some parent := up
          obtain ⟨before, after, split⟩ := List.append_of_mem (wf.parent_iff.mp up)
          obtain ⟨ahead, rest⟩ := Position.parts_of_split wf split
          have line : d'.children parent = before.filter (stays claims previous next) ++
              comment :: (next ++ after.filter (stays claims previous next)) := by
            rw [becomes.children, settled, if_pos here, ahead, rest, List.filter_append, List.filter_cons_of_pos keeps]
            simp
          obtain ⟨ahead', rest'⟩ := Position.parts_of_split becomes.wellFormed line
          rw [ahead', rest', ahead, rest, List.filter_append, List.filter_cons_of_pos keeps]
          exact ⟨rfl, fun _ => rfl⟩

theorem reconciled_of_settles {claims' : Claims} (wf : WellFormed d) (accepts : position.Accepts d previous next)
    (becomes : Becomes d d' d.content? (settled position claims previous next d))
    (claimed : ∀ x, x ∈ claims' ↔ x ∈ claims ∨ x ∈ next)
    (reports : Reports (fun x => x ∈ next ∨ x ∈ previous ∧ x ∉ claims) d d') :
    Reconciled position claims previous next d d' claims' := by
  obtain ⟨parent, front, rest⟩ := parts_of_settled wf accepts becomes
  refine
    { parent, front, rest, claimed, reports
      content := becomes.content
      others := fun p away => by rw [becomes.children, settled, if_neg away]
      dropped := fun x old new free => becomes.wellFormed.parent?_eq_none fun p mem => ?_
      spared := fun x new kept => parent?_congr wf becomes.wellFormed fun p => ?_
      loose := fun nowhere x new => becomes.wellFormed.parent?_eq_none fun p mem => ?_ }
  · rw [becomes.children, mem_settled wf] at mem
    simp [stays, old, new, free] at mem
  · have keeps : stays claims previous next x = true := decide_eq_true ⟨new, kept⟩
    rw [becomes.children, mem_settled wf]
    simp [keeps, new]
  · rw [becomes.children, mem_settled wf] at mem
    simp [nowhere, stays, new] at mem

/-! ## The least that can be moved -/

/-- The old list is what stands behind the position, nobody claimed it, and the new list keeps its order and
brings in nodes without a parent only. -/
structure Position.Holds (position : Position) (d : Document) (claims : Claims) (previous next : List NodeId) : Prop where
  run : previous <+: position.rest d
  unclaimed : ∀ x ∈ previous, x ∉ claims
  loose : ∀ x ∈ next, x ∉ previous → d.parent? x = none
  order : previous.filter (· ∈ next) = next.filter (· ∈ previous)

/-- The records of a reconciling that keeps the order: what left, then what came. -/
def changes (parent : NodeId) (previous next : List NodeId) : List Record :=
  (previous.filter (· ∉ next)).map (Record.leaves parent) ++ (next.filter (· ∉ previous)).map (Record.enters parent)

/-- The tally after as many nodes were taken out and put in. -/
def tallied (previous next : List NodeId) (tally : Tally) : Tally :=
  { tally with
    removed := tally.removed + (previous.filter (· ∉ next)).length
    inserted := tally.inserted + (next.filter (· ∉ previous)).length }

theorem tally_of_changes (slots : SameSlots d d') (account : Account d d' (changes parent previous next)) :
    d'.tally = tallied previous next d.tally := by
  have each : ∀ (kind : Record → Bool) (one two : Bool), (∀ x, kind (Record.leaves parent x) = one) →
      (∀ x, kind (Record.enters parent x) = two) → (changes parent previous next).countP kind =
        (if one then (previous.filter (· ∉ next)).length else 0) +
          (if two then (next.filter (· ∉ previous)).length else 0) := by
    intro kind one two first second
    have constant : ∀ (b : Bool) (list : List NodeId) (record : NodeId → Record), (∀ x, kind (record x) = b) →
        (list.map record).countP kind = if b then list.length else 0 := by
      intro b list record all
      rw [List.countP_map, show kind ∘ record = fun _ => b from funext all]
      cases b <;> simp
    rw [changes, List.countP_append, constant one _ _ first, constant two _ _ second]
  have tally : ∀ t u : Tally, t.created = u.created → t.discarded = u.discarded → t.inserted = u.inserted →
      t.removed = u.removed → t.textWrites = u.textWrites → t.attributeWrites = u.attributeWrites →
      t.propertyWrites = u.propertyWrites → t = u := by
    rintro ⟨⟩ ⟨⟩
    simp_all
  refine tally _ _ slots.created slots.discarded ?_ ?_ ?_ ?_ ?_
  · rw [account.inserted, each _ false true (fun _ => rfl) fun _ => rfl]
    simp [tallied]
  · rw [account.removed, each _ true false (fun _ => rfl) fun _ => rfl]
    simp [tallied]
  · rw [account.textWrites, each _ false false (fun _ => rfl) fun _ => rfl]
    simp [tallied]
  · rw [account.attributeWrites, each _ false false (fun _ => rfl) fun _ => rfl]
    simp [tallied]
  · rw [account.propertyWrites, each _ false false (fun _ => rfl) fun _ => rfl]
    simp [tallied]

theorem reconcile_exact (wf : WellFormed d) (accepts : position.Accepts d previous next)
    (holds : position.Holds d claims previous next) (up : position.parent? d = some parent)
    (connected : Connected d parent) :
    ∃ d' claims', reconcile position previous next ⟨d, claims⟩ = .ok () ⟨d', claims'⟩ ∧
      Account d d' (changes parent previous next) := by
  obtain ⟨after, run⟩ := holds.run
  have split : d.children parent = position.front d ++ (previous ++ after) := by
    rw [Position.children_eq wf up, run]
  have nodup := wf.nodup parent
  rw [split] at nodup
  obtain ⟨-, behind, apart⟩ := List.nodup_append.mp nodup
  obtain ⟨once, -, beyond⟩ := List.nodup_append.mp behind
  obtain ⟨d₁, detached, out⟩ := detachOld_becomes claims next previous wf accepts.spared
  obtain ⟨account, connected₁⟩ := detachOld_exact previous wf once
    (fun x mem => ⟨by simp [split, mem], holds.unclaimed x mem⟩) connected detached
  have gone : dropped d claims next previous = previous.filter (· ∉ next) := by
    refine List.filter_congr fun x mem => ?_
    have live := wf.contains_child (p := parent) (c := x) (by simp [split, mem])
    simp [holds.unclaimed x mem, live]
  have split₁ : d₁.children parent = position.front d ++ (previous.filter (· ∈ next) ++ after) := by
    have stay : ∀ list : List NodeId, (∀ x ∈ list, x ∉ previous) →
        list.filter (· ∉ dropped d claims next previous) = list := fun list other =>
      List.filter_eq_self.mpr fun x mem => by simpa [gone] using .inl (other x mem)
    have kept : previous.filter (· ∉ dropped d claims next previous) = previous.filter (· ∈ next) :=
      List.filter_congr fun x mem => by simp [gone, mem]
    rw [out.children, without, split, List.filter_append, List.filter_append, kept,
      stay _ fun x mem old => apart x mem x (List.mem_append_left _ old) rfl,
      stay _ fun x mem old => beyond x old x mem rfl]
  have takes₁ : ∃ c, d₁.content? parent = some c ∧ c.isContainer = true := by
    rw [out.content]
    exact accepts.takes wf up
  have loose₁ : ∀ x ∈ next, x ∉ previous.filter (· ∈ next) → d₁.parent? x = none := by
    intro x mem new
    have loose := holds.loose x mem (by simpa [mem] using new)
    refine out.wellFormed.parent?_eq_none fun p child => ?_
    rw [out.children] at child
    rw [wf.parent_iff.mpr (List.mem_filter.mp child).1] at loose
    cases loose
  have order₁ : next.filter (· ∈ previous.filter (· ∈ next)) = previous.filter (· ∈ next) := by
    rw [holds.order]
    exact List.filter_congr fun x mem => by simp [mem]
  obtain ⟨d₂, claims₂, done, more⟩ := placeIn_exact next claims out.wellFormed takes₁ split₁ order₁
    accepts.nodup (fun x mem => movable_of_becomes wf (accepts.movable wf up x mem) out) loose₁ connected₁
  have came : next.filter (· ∉ previous.filter (· ∈ next)) = next.filter (· ∉ previous) :=
    List.filter_congr fun x mem => by simp [mem]
  have place : position.parent? d₁ = some parent ∧ position.cursor? = (position.front d).getLast? := by
    cases position with
    | within container => exact ⟨up, rfl⟩
    | behind comment =>
        obtain ⟨before, rest, line⟩ := List.append_of_mem (wf.parent_iff.mp up)
        have ahead := (Position.parts_of_split wf line).1
        refine ⟨out.wellFormed.parent_iff.mpr ?_, by simp [ahead, Position.cursor?]⟩
        rw [split₁, ahead]
        simp
  refine ⟨d₂, claims₂, ?_, ?_⟩
  · rw [reconcile, bind_ok detached, Act.bind_ask]
    simp only [place]
    exact done
  · rw [came] at more
    exact account.trans more

/-- In every document that a run reaches, reconciling a list that the position accepts puts exactly that list
there; where the old one stands there and its order is kept, with the fewest moves. -/
theorem reconcile_places (run : List Operation) (position : Position) (claims : Claims) (previous next : List NodeId)
    (accepts : position.Accepts (new.performAll run) previous next) :
    ∃ d' claims', reconcile position previous next ⟨new.performAll run, claims⟩ = .ok () ⟨d', claims'⟩ ∧
      Reconciled position claims previous next (new.performAll run) d' claims' ∧
      ∀ parent, position.parent? (new.performAll run) = some parent → (new.performAll run).isConnected parent = true →
        position.Holds (new.performAll run) claims previous next →
        d'.journal = (new.performAll run).journal.map (· ++ changes parent previous next) ∧
          d'.tally = tallied previous next (new.performAll run).tally := by
  have wf := wellFormed_new.performAll run
  obtain ⟨d', claims', done, becomes, claimed⟩ := reconcile_settles wf claims accepts
  refine ⟨d', claims', done, reconciled_of_settles wf accepts becomes claimed (reconcile_reports wf accepts done), ?_⟩
  intro parent up connected holds
  obtain ⟨d₂, claims₂, done', account⟩ := reconcile_exact wf accepts holds up (wf.isConnected_iff.mp connected)
  cases done.symm.trans done'
  exact ⟨account.journal, tally_of_changes ((calm_reconcile position previous next).of_ok done) account⟩

/-- A comment in the body with four texts behind it, and a text without a parent. -/
def row : List Operation :=
  [.create (.comment "row"), .create (.text "a"), .create (.text "b"), .create (.text "c"), .create (.text "end"),
    .create (.text "new"), .append ⟨0, 0⟩ ⟨1, 0⟩, .append ⟨0, 0⟩ ⟨2, 0⟩, .append ⟨0, 0⟩ ⟨3, 0⟩, .append ⟨0, 0⟩ ⟨4, 0⟩,
    .append ⟨0, 0⟩ ⟨5, 0⟩, .startRecording]

theorem reconcile_places_row :
    ∃ d' claims', reconcile (.behind ⟨1, 0⟩) [⟨2, 0⟩, ⟨3, 0⟩, ⟨4, 0⟩] [⟨6, 0⟩, ⟨2, 0⟩, ⟨4, 0⟩]
        ⟨new.performAll row, []⟩ = .ok () ⟨d', claims'⟩ ∧
      (Position.behind ⟨1, 0⟩).rest d' = [⟨6, 0⟩, ⟨2, 0⟩, ⟨4, 0⟩, ⟨5, 0⟩] ∧ d'.parent? ⟨3, 0⟩ = none ∧
      d'.journal = some [.childList ⟨0, 0⟩ [] [⟨3, 0⟩], .childList ⟨0, 0⟩ [⟨6, 0⟩] []] := by
  have accepts : (Position.behind ⟨1, 0⟩).Accepts (new.performAll row) [⟨2, 0⟩, ⟨3, 0⟩, ⟨4, 0⟩]
      [⟨6, 0⟩, ⟨2, 0⟩, ⟨4, 0⟩] :=
    { cursor := by rintro c ⟨⟩; decide +kernel
      container := nofun
      nodup := by decide
      live := by decide +kernel
      solid := List.forall_mem_cons.mpr ⟨nofun, List.forall_mem_cons.mpr ⟨nofun, List.forall_mem_cons.mpr ⟨nofun, nofun⟩⟩⟩
      inner := by decide +kernel
      outside := by rintro p ⟨⟩; decide +kernel
      spared := by decide +kernel }
  have holds : (Position.behind ⟨1, 0⟩).Holds (new.performAll row) [] [⟨2, 0⟩, ⟨3, 0⟩, ⟨4, 0⟩]
      [⟨6, 0⟩, ⟨2, 0⟩, ⟨4, 0⟩] :=
    { run := by decide +kernel
      unclaimed := by decide
      loose := by decide +kernel
      order := by decide }
  obtain ⟨d', claims', done, reconciled, least⟩ := reconcile_places row (.behind ⟨1, 0⟩) [] _ _ accepts
  refine ⟨d', claims', done, ?_, reconciled.dropped _ (by decide) (by decide) (by decide), ?_⟩
  · exact (reconciled.rest (by decide +kernel)).trans (by decide +kernel)
  · exact (least ⟨0, 0⟩ (by decide +kernel) (by decide +kernel) holds).1.trans (by decide +kernel)

end Render

end Inlay
