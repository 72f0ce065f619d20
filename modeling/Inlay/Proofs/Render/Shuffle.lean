/-
# Proofs.Render.Shuffle — what a reconciling that succeeds has moved

When `reconcile` answers, the nodes of the new list stand in the container of
the position, or nowhere when it has none; of all others only those of the old
list may have been detached (`reconcile_shuffled`). Nothing is assumed about
where the nodes stood: that no node was put below itself follows from the answer.
-/
import Inlay.Proofs.Document.Shuffle
import Inlay.Proofs.Render.Turns

namespace Inlay.Render

set_option autoImplicit false

open Inlay.Document

variable {d d' : Document} {claims : Claims} {stage : Stage} {node parent x : NodeId} {next previous : List NodeId}
  {target : Option NodeId} {may : NodeId → Prop}

theorem Act.of_edit {α : Type} {e : Edit α} {a : α} (done : Act.edit e ⟨d, claims⟩ = .ok a stage) :
    ∃ d', e d = .ok a d' ∧ stage = ⟨d', claims⟩ := by
  cases result : e d with
  | ok b d' =>
      simp only [Act.edit, result] at done
      cases done
      exact ⟨d', rfl, rfl⟩
  | error fault d' => simp [Act.edit, result] at done

theorem detachOld_shuffled (may : NodeId → Prop) (target : Option NodeId) : ∀ (previous : List NodeId) {d : Document}, WellFormed d →
    detachOld next previous ⟨d, claims⟩ = .ok () stage →
    (∀ x ∈ previous, d.contains x = true → may x) →
    ∃ d', stage = ⟨d', claims⟩ ∧ Shuffled may target d d'
  | [], d, wf, done, _ => by
      cases done
      exact ⟨d, rfl, .refl wf⟩
  | node :: rest, d, wf, done, mays => by
      rw [detachOld, Act.bind_isClaimed, Act.bind_ask] at done
      have later : ∀ x ∈ rest, d.contains x = true → may x := fun x mem => mays x (List.mem_cons_of_mem _ mem)
      split at done
      · next drop =>
          simp only [Bool.and_eq_true] at drop
          obtain ⟨⟨⟩, stage₁, removed, others⟩ := of_bind_ok done
          obtain ⟨d₁, gone, rfl⟩ := Act.of_edit removed
          have first : Shuffled may target d d₁ :=
            (remove_shuffled wf gone (mays node List.mem_cons_self drop.2)).1
          obtain ⟨d₂, rfl, second⟩ := detachOld_shuffled may target rest first.wellFormed others fun x mem live =>
            later x mem ((first.contains x).symm.trans live)
          exact ⟨d₂, rfl, first.trans second⟩
      · exact detachOld_shuffled may target rest wf done later

theorem placeOne_shuffled (wf : WellFormed d) {cursor : Option NodeId}
    (done : placeOne parent cursor node ⟨d, claims⟩ = .ok () stage)
    (behind : ∀ c, cursor = some c → d.parent? c = some parent) (solid : d.content? node ≠ some .fragment)
    (mays : d.contains node = true → may node) :
    ∃ d', stage = ⟨d', claims⟩ ∧ Shuffled may (some parent) d d' ∧ d'.parent? node = some parent ∧
      ∀ x, d.parent? x = some parent → d'.parent? x = some parent := by
  rw [placeOne, Act.bind_ask] at done
  by_cases here : behindCursor parent cursor d = some node
  · rw [if_neg (by simpa using here)] at done
    cases done
    refine ⟨d, rfl, .refl wf, ?_, fun _ up => up⟩
    cases cursor with
    | none =>
        refine wf.parent_iff.mpr (List.mem_of_mem_head? ?_)
        rw [behindCursor, wf.linked.first] at here
        exact here
    | some c =>
        obtain ⟨before, after, split⟩ := List.append_of_mem (wf.parent_iff.mp (behind c rfl))
        rw [behindCursor, (wf.linked.around parent before c after split).2.2] at here
        refine wf.parent_iff.mpr ?_
        rw [split]
        exact List.mem_append_right _ (List.mem_cons_of_mem _ (List.mem_of_mem_head? here))
  · rw [if_pos here] at done
    obtain ⟨d₁, put, rfl⟩ := Act.of_edit done
    obtain ⟨moved, up⟩ := insertBefore_shuffled wf (· = node) put solid rfl
    have live : d.contains node = true := by
      rw [← moved.contains]
      exact moved.wellFormed.contains_child (moved.wellFormed.parent_iff.mp up)
    refine ⟨d₁, rfl, moved.mono fun x same => same ▸ mays live, up, fun x there => ?_⟩
    by_cases same : x = node
    · exact same ▸ up
    · rw [moved.parent_eq same, there]

theorem placeIn_shuffled (may : NodeId → Prop) : ∀ (next : List NodeId) {d : Document} {claims : Claims} {cursor : Option NodeId},
    WellFormed d → placeIn parent cursor next ⟨d, claims⟩ = .ok () stage →
    (∀ c, cursor = some c → d.parent? c = some parent) →
    (∀ x ∈ next, d.content? x ≠ some .fragment) → (∀ x ∈ next, d.contains x = true → may x) →
    ∃ d' claims', stage = ⟨d', claims'⟩ ∧ Shuffled may (some parent) d d' ∧
      (∀ x, x ∈ next ∨ d.parent? x = some parent → d'.parent? x = some parent) ∧
      ∀ x, x ∈ claims' ↔ x ∈ claims ∨ x ∈ next
  | [], d, claims, cursor, wf, done, _, _, _ => by
      cases done
      exact ⟨d, claims, rfl, .refl wf, by simp, by simp⟩
  | node :: rest, d, claims, cursor, wf, done, behind, solid, mays => by
      rw [placeIn, Act.bind_claim] at done
      obtain ⟨⟨⟩, stage₁, one, others⟩ := of_bind_ok done
      obtain ⟨d₁, rfl, first, up, stay⟩ := placeOne_shuffled wf one behind (solid node List.mem_cons_self)
        (mays node List.mem_cons_self)
      obtain ⟨d₂, claims₂, rfl, second, ups, claimed⟩ := placeIn_shuffled may rest first.wellFormed others
        (by rintro c ⟨⟩; exact up)
        (fun x mem => by
          rw [first.content]
          exact solid x (List.mem_cons_of_mem _ mem))
        (fun x mem live => mays x (List.mem_cons_of_mem _ mem) ((first.contains x).symm.trans live))
      refine ⟨d₂, claims₂, rfl, first.trans second, fun x => ?_, fun x => ?_⟩
      · rintro (mem | there)
        · rcases List.mem_cons.mp mem with rfl | later
          · exact ups _ (.inr up)
          · exact ups x (.inl later)
        · exact ups x (.inr (stay x there))
      · rw [claimed, Claims.mem_add, List.mem_cons]
        tauto

theorem placeNowhere_shuffled (may : NodeId → Prop) : ∀ (next : List NodeId) {d : Document} {claims : Claims}, WellFormed d →
    placeNowhere next ⟨d, claims⟩ = .ok () stage → (∀ x ∈ next, d.contains x = true → may x) →
    ∃ d' claims', stage = ⟨d', claims'⟩ ∧ Shuffled may none d d' ∧ (∀ x ∈ next, d'.parent? x = none) ∧
      ∀ x, x ∈ claims' ↔ x ∈ claims ∨ x ∈ next := by
  intro next d claims wf done mays
  obtain ⟨d', claims', done', becomes, claimed⟩ := placeNowhere_becomes next claims wf
  cases done.symm.trans done'
  have loose : ∀ x ∈ next, d'.parent? x = none := fun x mem =>
    becomes.wellFormed.parent?_eq_none fun p there => by
      rw [becomes.children] at there
      simpa [mem] using (List.mem_filter.mp there).2
  refine ⟨d', claims', rfl, ⟨becomes.wellFormed, becomes.content, becomes.body, becomes.aged, fun x => ?_,
    fun keep stays p => ?_⟩, loose, claimed⟩
  · by_cases mem : x ∈ next
    · cases live : d.contains x with
      | true => exact .inr ⟨mays x mem live, .inl (loose x mem)⟩
      | false => exact .inl ((loose x mem).trans (parent?_of_dead live).symm)
    · left
      refine parent?_congr wf becomes.wellFormed fun p => ?_
      rw [becomes.children, without, List.mem_filter]
      simp [mem]
  · rw [becomes.children, without, List.filter_filter]
    refine List.filter_congr fun x there => ?_
    cases kept : keep x with
    | false => rfl
    | true =>
        have out : x ∉ next := fun mem => stays x kept (mays x mem (wf.contains_child there))
        simpa using out

/-- What a reconciling that answers has moved. -/
theorem reconcile_shuffled (may : NodeId → Prop) (wf : WellFormed d) {position : Position}
    (done : reconcile position previous next ⟨d, claims⟩ = .ok () stage)
    (mays : ∀ x ∈ previous ++ next, d.contains x = true → may x)
    (solid : ∀ x ∈ next, d.content? x ≠ some .fragment)
    (stays : ∀ c, position.cursor? = some c → ¬ may c) :
    ∃ d' claims', stage = ⟨d', claims'⟩ ∧ Shuffled may (position.parent? d) d d' ∧
      (∀ x ∈ next, d'.parent? x = position.parent? d) ∧
      (∀ x p, d'.parent? x = some p → d.parent? x = some p ∨ x ∈ next) ∧
      ∀ x, x ∈ claims' ↔ x ∈ claims ∨ x ∈ next := by
  rw [reconcile] at done
  obtain ⟨⟨⟩, stage₁, detached, others⟩ := of_bind_ok done
  obtain ⟨d₁, rfl, out⟩ := detachOld_shuffled may none previous wf detached
    fun x mem => mays x (List.mem_append_left _ mem)
  have first : Shuffled may (position.parent? d) d d₁ :=
    { out with parent := fun x => (out.parent x).imp_right fun both => ⟨both.1, .inl (both.2.elim id id)⟩ }
  let placed := fun x => x ∈ next ∧ d₁.contains x = true
  have later : ∀ x, placed x → may x := fun x both =>
    mays x (List.mem_append_right _ both.1) ((first.contains x).symm.trans both.2)
  have same : position.parent? d₁ = position.parent? d := by
    cases position with
    | within container => rfl
    | behind c => exact first.parent_eq (stays c rfl)
  have stood : ∀ {d₂ target}, Shuffled placed target d₁ d₂ → ∀ x p, d₂.parent? x = some p →
      d.parent? x = some p ∨ x ∈ next := fun second x p up => by
    by_cases mem : x ∈ next
    · exact .inr mem
    · rw [second.parent_eq fun both => mem both.1] at up
      rcases out.parent x with kept | ⟨-, loose | loose⟩
      · exact .inl (kept ▸ up)
      all_goals rw [loose] at up; cases up
  rw [Act.bind_ask, same] at others
  cases up : position.parent? d with
  | none =>
      rw [up] at others first
      obtain ⟨d₂, claims₂, rfl, second, loose, claimed⟩ :=
        placeNowhere_shuffled placed next first.wellFormed others fun x mem live => ⟨mem, live⟩
      exact ⟨d₂, claims₂, rfl, first.trans (second.mono later), loose, stood second, claimed⟩
  | some parent =>
      rw [up] at others first
      obtain ⟨d₂, claims₂, rfl, second, ups, claimed⟩ := placeIn_shuffled placed next first.wellFormed others
        (fun c here => by
          cases position with
          | within container => cases here
          | behind comment =>
              cases here
              rw [first.parent_eq (stays _ rfl)]
              exact up)
        (fun x mem => by
          rw [first.content]
          exact solid x mem) fun x mem live => ⟨mem, live⟩
      exact ⟨d₂, claims₂, rfl, first.trans (second.mono later), fun x mem => ups x (.inl mem), stood second,
        claimed⟩

end Inlay.Render
