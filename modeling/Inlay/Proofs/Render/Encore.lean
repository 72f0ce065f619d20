/-
# Proofs.Render.Encore — the same moves and writes, made again

When a first pass is over, its moves can be made again on the document it left
(`Rehearsed`). On the way every node keeps its place in the document's slots and
all it holds but for live properties, and the lists of children are those that
the moves made so far leave (`Echo`); so in the end they are what they were
(`Echo.children_eq`). An instance that is shown the same context writes the same
facts and makes the same moves (`Echo.update`).

In the strict case every move finds its nodes where it wants them, and every slot
what it wants to write, so nothing is counted.
-/
import Inlay.Proofs.Render.Furnish

namespace Inlay.Render

set_option autoImplicit false

open Inlay.Document

variable {d d' e e' : Document} {claims : Claims} {level : Level} {moves made : List Move} {m : Move}
  {context : Value} {slots : List Slot} {strict : Prop} {parent x : NodeId} {position : Position}
  {next previous front behind : List NodeId}

/-! ## Nodes that stand where they belong -/

theorem detachOld_same : ∀ {previous : List NodeId}, previous ⊆ next →
    detachOld next previous ⟨d, claims⟩ = .ok () ⟨d, claims⟩
  | [], _ => rfl
  | node :: rest, sub => by
      obtain ⟨here, others⟩ := List.cons_subset.mp sub
      have stays : (!next.contains node) = false := by simpa using here
      rw [detachOld, Act.bind_isClaimed, Act.bind_ask]
      simp only [stays, Bool.false_and]
      exact detachOld_same others

theorem placeIn_same (wf : WellFormed d) : ∀ {next front : List NodeId} (claims : Claims),
    d.children parent = front ++ next ++ behind →
      ∃ claims', placeIn parent front.getLast? next ⟨d, claims⟩ = .ok () ⟨d, claims'⟩
  | [], _, claims, _ => ⟨claims, rfl⟩
  | node :: rest, front, claims, split => by
      have here : behindCursor parent front.getLast? d = some node :=
        behindCursor_eq wf (split.trans (List.append_assoc front (node :: rest) behind))
      have split' : d.children parent = (front ++ [node]) ++ rest ++ behind := by
        rw [split]
        simp
      obtain ⟨claims', done⟩ := placeIn_same wf (Claims.add node claims) split'
      rw [List.getLast?_concat] at done
      refine ⟨claims', ?_⟩
      have stays : placeOne parent front.getLast? node ⟨d, Claims.add node claims⟩ =
          .ok () ⟨d, Claims.add node claims⟩ := by
        rw [placeOne, Act.bind_ask, if_neg (by simp [here])]
        rfl
      rw [placeIn, Act.bind_claim, bind_ok stays]
      exact done

/-- The nodes of a move stand right at its position. -/
def Move.Seated (m : Move) (kids : Kids) : Prop :=
  match m.position with
  | .behind comment => ∃ p, comment :: m.nodes <:+: kids p
  | .within container => m.nodes <+: kids container

/-- Nodes that stand at a position are left there. -/
theorem reconcile_seated (wf : WellFormed d) (seated : Move.Seated ⟨position, next⟩ d.children)
    (sub : previous ⊆ next) (claims : Claims) :
    ∃ claims', reconcile position previous next ⟨d, claims⟩ = .ok () ⟨d, claims'⟩ := by
  rw [reconcile, bind_ok (detachOld_same sub), Act.bind_ask]
  cases position with
  | behind comment =>
      obtain ⟨p, front, behind, split⟩ := seated
      have split : d.children p = (front ++ [comment]) ++ next ++ behind := by
        rw [← split]
        simp
      have up : d.parent? comment = some p := wf.parent_iff.mpr (by rw [split]; simp)
      obtain ⟨claims', done⟩ := placeIn_same wf claims split
      rw [List.getLast?_concat] at done
      exact ⟨claims', by rw [Position.parent?, up]; exact done⟩
  | within container =>
      obtain ⟨behind, split⟩ := seated
      have split : d.children container = [] ++ next ++ behind := by rw [← split, List.nil_append]
      obtain ⟨claims', done⟩ := placeIn_same wf claims split
      exact ⟨claims', done⟩

/-! ## Moves made again -/

/-- The moves that led to a document can be made again there. -/
structure Rehearsed (strict : Prop) (d : Document) (level : Level) (moves : List Move) : Prop where
  wellFormed : WellFormed d
  descends : Descends level d.children
  settled : Settled d.children moves
  closed : Closed moves
  lower : ∀ m ∈ moves, ∀ x ∈ m.nodes, level x < level m.position.place
  stands : ∀ m ∈ moves, m.position.Stands d
  attached : ∀ m ∈ moves, ∀ x ∈ m.nodes, Attached d x
  seated : strict → ∀ m ∈ moves, m.Seated d.children

/-- A document in which some moves, and some writes, were made again. -/
structure Echo (strict : Prop) (d : Document) (level : Level) (made : List Move) (e : Document) : Prop where
  wellFormed : WellFormed e
  slots : SameSlots d e
  bare : SameBare d e
  children : e.children = replay made d.children
  descends : Descends level e.children
  attached : ∀ x, Attached d x → Attached e x
  tally : strict → e.tally = d.tally
  still : strict → e.children = d.children
  keeps : strict → ∀ f : Fact, f.Holds d → f.Holds e

namespace Echo

theorem start (rehearsed : Rehearsed strict d level moves) : Echo strict d level [] d where
  wellFormed := rehearsed.wellFormed
  slots := .refl d
  bare := .refl d
  children := rfl
  descends := rehearsed.descends
  attached := fun _ attached => attached
  tally := fun _ => rfl
  still := fun _ => rfl
  keeps := fun _ _ holds => holds

theorem stands (echo : Echo strict d level made e) (stands : position.Stands d) : position.Stands e := by
  cases position with
  | behind comment => exact echo.attached comment stands
  | within container => exact takes_of_kind (SameKinds.of_bare echo.bare container) stands

/-- A move made again. -/
theorem move (echo : Echo strict d level made e) (rehearsed : Rehearsed strict d level moves) (mem : m ∈ moves)
    (claims : Claims) : ∃ e' claims', reconcile m.position m.nodes m.nodes ⟨e, claims⟩ = .ok () ⟨e', claims'⟩ ∧
      Echo strict d level (made ++ [m]) e' := by
  have wf := echo.wellFormed
  have stands := echo.stands (rehearsed.stands m mem)
  have lower := rehearsed.lower m mem
  have portable : ∀ x ∈ m.nodes, Portable e x := fun x here =>
    (echo.attached x (rehearsed.attached m mem x here)).portable wf
  obtain ⟨e', claims', done, becomes⟩ := reconcile_apply wf echo.descends stands (List.Subset.refl m.nodes)
    portable lower claims
  have apart : ∀ c, m.position.cursor? = some c → c ∉ m.nodes := fun c cursor here =>
    lt_irrefl _ (Position.place_of_cursor cursor ▸ lower c here)
  have same : strict → e' = e := fun all => by
    have seated : Move.Seated ⟨m.position, m.nodes⟩ e.children := echo.still all ▸ rehearsed.seated all m mem
    obtain ⟨_, again⟩ := reconcile_seated wf seated (List.Subset.refl m.nodes) claims
    rw [done] at again
    cases again
    rfl
  refine ⟨e', claims', done, becomes.wellFormed, ?_, ?_, ?_, ?_, ?_, ?_, ?_, ?_⟩
  · exact echo.slots.trans ((calm_reconcile m.position m.nodes m.nodes).of_ok done)
  · exact echo.bare.trans (.of_content becomes.content)
  · rw [becomes.children, echo.children, replay, replay, List.foldl_append]
    rfl
  · rw [becomes.children]
    exact descends_apply echo.descends lower
  · exact fun x attached => (attached_apply becomes.children stands apart).1 x (echo.attached x attached)
  · exact fun all => same all ▸ echo.tally all
  · exact fun all => same all ▸ echo.still all
  · exact fun all => same all ▸ echo.keeps all

/-- All moves made again leave the lists of children as they were. -/
theorem children_eq (echo : Echo strict d level moves e) (rehearsed : Rehearsed strict d level moves) :
    e.children = d.children := by
  rw [echo.children]
  exact replay_eq rehearsed.settled rehearsed.closed rfl

end Echo

/-! ## Slots written again -/

/-- What slots wrote still holds; they overwrote each other's live properties at
most, and not even those in the strict case. -/
theorem Told.holds : ∀ {slots : List Slot}, Told d context slots → slots.Pairwise (Clear strict) →
    ∀ slot ∈ slots, ∀ f ∈ slot.facts context, f.isLive = false ∨ strict → f.Holds d
  | [], _, _ => by simp
  | slot :: rest, ⟨here, others⟩, clear => by
      obtain ⟨apart, clear⟩ := List.pairwise_cons.mp clear
      refine List.forall_mem_cons.mpr ⟨fun f mem fixed => here f mem fun cell about inside => ?_,
        others.holds clear⟩
      have own : cell ∈ slot.cells := by
        rw [← Slot.filterMap_cell?_facts context]
        exact List.mem_filterMap.mpr ⟨f, mem, about⟩
      obtain ⟨t, there, shared⟩ := List.mem_flatMap.mp inside
      obtain ⟨loose, name, property⟩ := apart t there cell own shared
      refine fixed.elim (fun dull => ?_) loose
      cases f <;> cases about <;> cases property
      cases dull

/-- What lets slots be written again. -/
structure Written (strict : Prop) (d : Document) (context : Value) (slots : List Slot) : Prop where
  told : Told d context slots
  refinds : Refinds context slots
  clear : slots.Pairwise (Clear strict)

namespace Echo

/-- A slot that is no anchor, written again. -/
theorem write (echo : Echo strict d level made e) {slot : Slot} (plain : ∀ path a, slot ≠ .anchor path a)
    (holds : ∀ f ∈ slot.facts context, f.isLive = false ∨ strict → f.Holds d) (claims : Claims) :
    ∃ e', slot.write context ⟨e, claims⟩ = .ok slot ⟨e', claims⟩ ∧ Echo strict d level made e' := by
  obtain ⟨e', done, hushed⟩ := Slot.write_again echo.wellFormed plain
    (fun f mem dull => (holds f mem (.inl dull)).bare echo.bare dull) claims
  have told : strict → ∀ f ∈ slot.facts context, f.Holds e := fun all f mem =>
    echo.keeps all f (holds f mem (.inr all))
  refine ⟨e', done, hushed.wellFormed, echo.slots.trans hushed.slots, echo.bare.trans hushed.bare,
    hushed.children.trans echo.children, hushed.children ▸ echo.descends, fun x attached => ?_, ?_, ?_, ?_⟩
  · rw [Attached, hushed.children]
    exact echo.attached x attached
  · exact fun all => (hushed.tally (told all)).trans (echo.tally all)
  · exact fun all => hushed.children.trans (echo.still all)
  · exact fun all f holds => hushed.keeps (told all) f (echo.keeps all f holds)

/-- An anchor that finds what it shows, updated again. -/
theorem update_anchor (echo : Echo strict d level made e) (rehearsed : Rehearsed strict d level moves)
    {path : Path} {a : Anchor} (mem : ⟨.behind a.comment, a.current⟩ ∈ moves)
    (finds : ∀ stage, Anchor.layOut (itemsOf (valueAt context path)) a.made stage =
      .ok ⟨a.current, a.made, []⟩ stage) (claims : Claims) :
    ∃ e' claims', (Slot.anchor path a).write context ⟨e, claims⟩ = .ok (.anchor path a) ⟨e', claims'⟩ ∧
      Echo strict d level (made ++ [⟨.behind a.comment, a.current⟩]) e' := by
  obtain ⟨e', claims', moved, next⟩ := echo.move rehearsed mem claims
  refine ⟨e', claims', ?_, next⟩
  have updated : a.update (context.find? path.segments) ⟨e, claims⟩ = .ok a ⟨e', claims'⟩ :=
    (bind_ok (finds _)).trans (bind_ok moved)
  rw [Slot.write, bind_ok updated]
  rfl

/-- Slots shown the same context again. -/
theorem writeAll (rehearsed : Rehearsed strict d level moves) : ∀ {slots : List Slot} {made : List Move}
    {e : Document} (claims : Claims), Echo strict d level made e → Written strict d context slots →
      (∀ m ∈ movesOf slots, m ∈ moves) →
      ∃ e' claims', Slot.writeAll context slots ⟨e, claims⟩ = ((none, slots), ⟨e', claims'⟩) ∧
        Echo strict d level (made ++ movesOf slots) e'
  | [], made, e, claims, echo, _, _ => ⟨e, claims, rfl, by simpa [movesOf] using echo⟩
  | slot :: rest, made, e, claims, echo, ⟨told, refinds, clear⟩, inside => by
      have others : Written strict d context rest :=
        ⟨told.2, fun path a mem => refinds path a (List.mem_cons_of_mem _ mem), (List.pairwise_cons.mp clear).2⟩
      by_cases plain : ∀ path a, slot ≠ .anchor path a
      · have same := movesOf_cons_plain plain rest
        obtain ⟨e₁, wrote, echo₁⟩ := echo.write plain (told.holds clear slot List.mem_cons_self) claims
        obtain ⟨e', claims', done, last⟩ := writeAll rehearsed claims echo₁ others (same ▸ inside)
        refine ⟨e', claims', ?_, same ▸ last⟩
        simp only [Slot.writeAll, wrote, done]
      · simp only [not_forall, not_not] at plain
        obtain ⟨path, a, rfl⟩ := plain
        have split : movesOf (.anchor path a :: rest) = ⟨.behind a.comment, a.current⟩ :: movesOf rest := rfl
        rw [split] at inside ⊢
        obtain ⟨here, inside⟩ := List.forall_mem_cons.mp inside
        obtain ⟨e₁, claims₁, wrote, echo₁⟩ :=
          echo.update_anchor rehearsed here (refinds path a List.mem_cons_self) claims
        obtain ⟨e', claims', done, last⟩ := writeAll rehearsed claims₁ echo₁ others inside
        refine ⟨e', claims', ?_, ?_⟩
        · simp only [Slot.writeAll, wrote, done]
        · rwa [List.append_assoc] at last

/-- An instance shown the same context again. -/
theorem update (rehearsed : Rehearsed strict d level moves) {inst : Instance} (claims : Claims)
    (echo : Echo strict d level made e) (written : Written strict d context inst.slots)
    (inside : ∀ m ∈ movesOf inst.slots, m ∈ moves) :
    ∃ e' claims', inst.update context ⟨e, claims⟩ = ((none, inst), ⟨e', claims'⟩) ∧
      Echo strict d level (made ++ movesOf inst.slots) e' := by
  obtain ⟨e', claims', done, next⟩ := writeAll rehearsed claims echo written inside
  exact ⟨e', claims', by simp only [Instance.update, done], next⟩

end Echo

end Inlay.Render
