/-
# Proofs.Render.Lift — what a reconciling can put a node under

Whatever nodes a reconciling behind a comment is given, fragments, the comment itself
and nodes named twice included: when it answers, a node is below what it was below
before, or below something the comment was below (`reconcile_lifted`). For all that
is put somewhere is put into the parent of the comment, which stays its parent
meanwhile, and a node above it is not put there.
-/
import Inlay.Proofs.Document.Insertion
import Inlay.Proofs.Document.Told
import Inlay.Proofs.Render.Shuffle

namespace Inlay.Render

set_option autoImplicit false

open Relation Inlay.Document

variable {d d' d'' : Document} {claims : Claims} {stage : Stage} {comment node parent : NodeId}
  {reference : Option NodeId} {next : List NodeId}

/-- Nodes were moved, at most under what a comment is below. -/
structure Lifted (comment : NodeId) (d d' : Document) : Prop where
  wellFormed : WellFormed d'
  content : d'.content? = d.content?
  body : d'.body = d.body
  below : ∀ y a, Below d' y a → Below d y a ∨ Below d comment a

namespace Lifted

theorem refl (wf : WellFormed d) : Lifted comment d d := ⟨wf, rfl, rfl, fun _ _ below => .inl below⟩

theorem trans (first : Lifted comment d d') (second : Lifted comment d' d'') : Lifted comment d d'' where
  wellFormed := second.wellFormed
  content := second.content.trans first.content
  body := second.body.trans first.body
  below := fun y a below => by
    rcases second.below y a below with here | there
    · exact first.below y a here
    · exact .inr ((first.below comment a there).elim id id)

theorem contains (lifted : Lifted comment d d') (x : NodeId) : d'.contains x = d.contains x :=
  contains_congr lifted.content x

end Lifted

theorem remove_lifted (wf : WellFormed d) (done : Document.remove node d = .ok () d') : Lifted comment d d' := by
  rcases remove_cases wf node with ⟨fault, refused⟩ | ⟨d₁, done', live, inner⟩
  · rw [refused] at done
    cases done
  · obtain ⟨d₂, removed, becomes⟩ := remove_becomes wf live inner
    cases done.symm.trans removed
    refine ⟨becomes.wellFormed, becomes.content, becomes.body, fun y a below => .inl ?_⟩
    refine Below.of_children_subset wf becomes.wellFormed (fun p => ?_) below
    rw [becomes.children]
    exact List.erase_subset

/-! ## Into the parent of the comment -/

theorem insertNode_lifted (wf : WellFormed d) (solid : d.content? node ≠ some .fragment)
    (up : d.parent? comment = some parent) (done : insertNode parent node reference d = .ok () d') :
    Lifted comment d d' ∧ d'.parent? comment = some parent := by
  obtain ⟨rehung, content, chronicle⟩ := insertNode_chronicle wf solid done
  refine ⟨⟨chronicle.wellFormed, content, rehung.body, fun y a below => ?_⟩, ?_⟩
  · -- on the way up, the step out of the node is the only new one, and leads to the parent
    induction below with
    | refl => exact .inl ReflTransGen.refl
    | @tail b a _ step ih =>
        by_cases here : b = node
        · rw [Up, rehung.up, if_pos here] at step
          cases step
          exact .inr (ReflTransGen.single up)
        · rw [Up, rehung.up, if_neg here] at step
          exact ih.imp (·.tail step) (·.tail step)
  · rw [rehung.up]
    split
    · rfl
    · exact up

theorem insertNodes_lifted : ∀ (nodes : List NodeId) {d : Document}, WellFormed d →
    (∀ n ∈ nodes, d.content? n ≠ some .fragment) → d.parent? comment = some parent →
    insertNodes parent reference nodes d = .ok () d' → Lifted comment d d' ∧ d'.parent? comment = some parent
  | [], d, wf, _, up, done => by
      cases done
      exact ⟨.refl wf, up⟩
  | node :: rest, d, wf, solid, up, done => by
      obtain ⟨solidHere, solid⟩ := List.forall_mem_cons.mp solid
      obtain ⟨_, d₁, first, others⟩ := Document.Edit.of_bind_ok done
      obtain ⟨one, up₁⟩ := insertNode_lifted wf solidHere up first
      obtain ⟨more, up₂⟩ := insertNodes_lifted rest one.wellFormed (by rwa [one.content]) up₁ others
      exact ⟨one.trans more, up₂⟩

theorem placeIn_lifted : ∀ (next : List NodeId) {d : Document} {claims : Claims} {cursor : Option NodeId},
    WellFormed d → d.parent? comment = some parent → placeIn parent cursor next ⟨d, claims⟩ = .ok () stage →
    ∃ d' claims', stage = ⟨d', claims'⟩ ∧ Lifted comment d d' ∧ ∀ x, x ∈ claims' ↔ x ∈ claims ∨ x ∈ next
  | [], d, claims, cursor, wf, _, done => by
      cases done
      exact ⟨d, claims, rfl, .refl wf, by simp⟩
  | node :: rest, d, claims, cursor, wf, up, done => by
      rw [placeIn, Act.bind_claim] at done
      obtain ⟨⟨⟩, stage₁, put, others⟩ := of_bind_ok done
      obtain ⟨d₁, rfl, one, up₁⟩ : ∃ d₁, stage₁ = ⟨d₁, claims.add node⟩ ∧ Lifted comment d d₁ ∧
          d₁.parent? comment = some parent := by
        rw [placeOne, Act.bind_ask] at put
        split at put
        · obtain ⟨d₁, inserted, rfl⟩ := Act.of_edit put
          obtain ⟨-, moves⟩ := of_insertBefore wf inserted
          obtain ⟨one, up₁⟩ := insertNodes_lifted _ wf (Safe.carried_solid wf) up moves
          exact ⟨d₁, rfl, one, up₁⟩
        · cases put
          exact ⟨d, rfl, .refl wf, up⟩
      obtain ⟨d₂, claims₂, rfl, more, claimed⟩ := placeIn_lifted rest one.wellFormed up₁ others
      refine ⟨d₂, claims₂, rfl, one.trans more, fun x => ?_⟩
      rw [claimed, Claims.mem_add, List.mem_cons]
      tauto

/-! ## Out of their parents -/

theorem detachOld_lifted : ∀ (previous : List NodeId) {d : Document}, WellFormed d →
    detachOld next previous ⟨d, claims⟩ = .ok () stage → ∃ d', stage = ⟨d', claims⟩ ∧ Lifted comment d d'
  | [], d, wf, done => by
      cases done
      exact ⟨d, rfl, .refl wf⟩
  | node :: rest, d, wf, done => by
      rw [detachOld, Act.bind_isClaimed, Act.bind_ask] at done
      split at done
      · obtain ⟨⟨⟩, stage₁, removed, others⟩ := of_bind_ok done
        obtain ⟨d₁, gone, rfl⟩ := Act.of_edit removed
        have one : Lifted comment d d₁ := remove_lifted wf gone
        obtain ⟨d₂, rfl, more⟩ := detachOld_lifted rest one.wellFormed others
        exact ⟨d₂, rfl, one.trans more⟩
      · exact detachOld_lifted rest wf done

/-- When a reconciling answers, its nodes are claimed, and stand under nothing that they or the comment did not
stand under before. -/
theorem reconcile_lifted {previous : List NodeId} (wf : WellFormed d)
    (done : reconcile (.behind comment) previous next ⟨d, claims⟩ = .ok () stage) :
    ∃ d' claims', stage = ⟨d', claims'⟩ ∧ Lifted comment d d' ∧ ∀ x, x ∈ claims' ↔ x ∈ claims ∨ x ∈ next := by
  obtain ⟨⟨⟩, stage₁, detached, others⟩ := of_bind_ok done
  obtain ⟨d₁, rfl, out⟩ : ∃ d₁, stage₁ = ⟨d₁, claims⟩ ∧ Lifted comment d d₁ := detachOld_lifted previous wf detached
  rw [Act.bind_ask] at others
  cases up : d₁.parent? comment with
  | some parent =>
      simp only [Position.parent?, up] at others
      obtain ⟨d₂, claims₂, rfl, more, claimed⟩ := placeIn_lifted next out.wellFormed up others
      exact ⟨d₂, claims₂, rfl, out.trans more, claimed⟩
  | none =>
      simp only [Position.parent?, up] at others
      obtain ⟨d₂, claims₂, done', becomes, claimed⟩ := placeNowhere_becomes next claims out.wellFormed
      cases done'.symm.trans others
      have more : Lifted comment d₁ d₂ := by
        refine ⟨becomes.wellFormed, becomes.content, becomes.body, fun y a below => .inl ?_⟩
        refine Below.of_children_subset out.wellFormed becomes.wellFormed (fun p => ?_) below
        rw [becomes.children]
        exact List.filter_sublist.subset
      exact ⟨d₂, claims₂, rfl, out.trans more, claimed⟩

end Inlay.Render
