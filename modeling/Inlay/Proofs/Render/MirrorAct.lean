/-
# Proofs.Render.MirrorAct — acts along a bond

Acts on stages whose documents are bonded and whose claims are paired. What an act
does with an edit is what the edit does; what it asks for, it asks about paired
nodes. Making a list of paired nodes stand behind paired nodes, or at the start of
the host, therefore goes the same way in both documents, node by node.
-/
import Inlay.Proofs.Render.MirrorNew

namespace Inlay.Render

set_option autoImplicit false

open Inlay.Document Relation Relator Realm

/-- Acts on stages; the nodes claimed are paired. -/
abbrev acts : Realm Fault Stage :=
  ⟨Stage.document, fun r s t => List.Forall₂ r s.claims t.claims, fun f g => f.nameless = g.nameless⟩

variable {α : Type} {o : Outset} {r r' : Bond} {d e : Document} {x y p q : NodeId} {xs ys : List NodeId}
  {answers : Bond → α → α → Prop}

/-- Paired lists. -/
def Bond.lists : Bond → List NodeId → List NodeId → Prop := fun r => List.Forall₂ r

namespace Act

theorem met_edit {a b : Edit α} {claims claims' : Claims} (claimed : List.Forall₂ r claims claims')
    (met : edits.Met o r answers d (a d) (b e)) :
    acts.Met o r answers d (edit a ⟨d, claims⟩) (edit b ⟨e, claims'⟩) := by
  simp only [edit]
  generalize a d = x at met
  generalize b e = y at met
  cases met with
  | ok grown bonded _ answer => exact .ok grown bonded (grown.sub.list claimed) answer
  | error grown bonded _ blame => exact .error grown bonded (grown.sub.list claimed) (congrArg Fault.document blame)

theorem echoes_edit {a b : Edit α} (met : ∀ d e, Bonded o r d e → edits.Met o r answers d (a d) (b e)) :
    acts.Echoes o r answers (edit a) (edit b) :=
  fun s t bonded claimed => met_edit claimed (met s.document t.document bonded)

theorem left_edit (a : Edit α) (stage : Stage) : (left (edit a) stage).document = left a stage.document := by
  simp only [left, edit]
  cases a stage.document <;> rfl

theorem mirrors_edit {a b : Edit α} (mirrors : edits.Mirrors o r answers a b) :
    acts.Mirrors o r answers (edit a) (edit b) := by
  intro s t bonded claimed unrepeated unrepeated'
  have same : acts.document (left (edit a) s) = left a s.document := left_edit a s
  have same' : acts.document (left (edit b) t) = left b t.document := left_edit b t
  exact met_edit claimed (mirrors s.document t.document bonded trivial (same ▸ unrepeated) (same' ▸ unrepeated'))

theorem echoes_ask {f g : Document → α} (agree : ∀ d e, Bonded o r d e → answers r (f d) (g e)) :
    acts.Echoes o r answers (ask f) (ask g) :=
  fun s t bonded claimed => .ok (.refl _) bonded claimed (agree s.document t.document bonded)

theorem echoes_contains (bond : r.withHost o.host x y) :
    acts.Echoes o r same (ask (·.contains x)) (ask (·.contains y)) :=
  echoes_ask fun _ _ bonded => bonded.contains bond

theorem echoes_isClaimed (bond : r x y) : acts.Echoes o r same (isClaimed x) (isClaimed y) :=
  fun _ _ bonded claimed => .ok (.refl _) bonded claimed (contains_of_paired bonded.unique bond claimed)

theorem echoes_claim (bond : r x y) : acts.Echoes o r any (claim x) (claim y) := by
  intro s t bonded claimed
  refine .ok (.refl _) bonded ?_ trivial
  show List.Forall₂ r (s.claims.add x) (t.claims.add y)
  unfold Claims.add
  rw [contains_of_paired bonded.unique bond claimed]
  split
  · exact claimed
  · exact .cons bond claimed

theorem echoes_remove (bond : r x y) :
    acts.Echoes o r any (edit (Document.remove x)) (edit (Document.remove y)) :=
  echoes_edit fun _ _ bonded => bonded.remove bond

theorem echoes_discard (bond : r x y) :
    acts.Echoes o r any (edit (Document.discard x)) (edit (Document.discard y)) :=
  echoes_edit fun _ _ bonded => bonded.discard bond

/-- The children of paired nodes, or of the host, are paired. -/
theorem echoes_children (bond : r.withHost o.host x y) :
    acts.Echoes o r Bond.lists (ask (·.children x)) (ask (·.children y)) :=
  echoes_ask fun _ _ bonded => bonded.children x y bond

theorem echoes_removeAll (bonds : List.Forall₂ r xs ys) :
    acts.Echoes o r any (xs.forM fun x => edit (Document.remove x)) (ys.forM fun y => edit (Document.remove y)) :=
  .forM Bond.answers (fun _ _ x y sub => sub x y) (fun _ _ _ _ bond => echoes_remove bond) (.refl r) bonds

end Act

open Act

/-! ## Neighbours -/

namespace Bonded

/-- The siblings behind paired nodes are paired. -/
theorem nextSibling? (bonded : Bonded o r d e) (bond : r x y) :
    Option.Rel r (d.nextSibling? x) (e.nextSibling? y) := by
  have ups := bonded.parent? bond
  have linked := bonded.left.wellFormed.linked
  have linked' := bonded.right.wellFormed.linked
  cases up : d.parent? x with
  | none =>
      rw [up] at ups
      cases up' : e.parent? y with
      | some q => rw [up'] at ups; cases ups
      | none =>
          rw [(linked.loose x up).2, (linked'.loose y up').2]
          exact .none
  | some p =>
      obtain ⟨q, above, up'⟩ := bonded.parent bond up
      obtain ⟨front, behind, split⟩ := List.append_of_mem (linked.parent_iff.mp up)
      have kids := bonded.children p q above
      rw [split] at kids
      obtain ⟨front', behind', split', -, behinds⟩ := append_paired kids
      cases behinds with
      | @cons _ y' _ behind' bond' behinds =>
          cases bonded.unique.2 bond bond'
          rw [(linked.around p front x behind split).2.2, (linked'.around q front' y behind' split').2.2]
          exact head_paired behinds

theorem firstChild? (bonded : Bonded o r d e) (above : r.withHost o.host p q) :
    Option.Rel r (d.firstChild? p) (e.firstChild? q) := by
  rw [bonded.left.wellFormed.linked.first, bonded.right.wellFormed.linked.first]
  exact head_paired (bonded.children p q above)

theorem behindCursor (bonded : Bonded o r d e) (above : r.withHost o.host p q) {cursor cursor' : Option NodeId}
    (cursors : Option.Rel r cursor cursor') : Option.Rel r (behindCursor p cursor d) (behindCursor q cursor' e) := by
  cases cursors with
  | none => exact bonded.firstChild? above
  | some bond => exact bonded.nextSibling? bond

end Bonded

/-! ## Lists of siblings -/

theorem echoes_detachOld : ∀ {previous previous' next next' : List NodeId} {r : Bond}, List.Forall₂ r next next' →
    List.Forall₂ r previous previous' → acts.Echoes o r any (detachOld next previous) (detachOld next' previous')
  | [], _, _, _, _, _, olds => by
      cases olds
      exact .pure trivial
  | x :: previous, _, next, next', r, news, olds => by
      cases olds with
      | @cons _ y _ previous' bond olds =>
          refine .bind (echoes_isClaimed bond) fun r₁ claimed _ sub₁ same₁ => ?_
          refine .bind (echoes_contains (.inl (sub₁ x y bond))) fun r₂ alive _ sub₂ same₂ => ?_
          obtain rfl := same₁
          obtain rfl := same₂
          have sub := sub₁.trans sub₂
          refine .of_unique fun unique => ?_
          rw [contains_of_paired unique (sub x y bond) (sub.list news)]
          refine .ite Iff.rfl (.bind (echoes_remove (sub x y bond)) fun r₃ _ _ sub₃ _ => ?_) ?_
          · exact echoes_detachOld ((sub.trans sub₃).list news) ((sub.trans sub₃).list olds)
          · exact echoes_detachOld (sub.list news) (sub.list olds)

theorem echoes_detachPlaced (bond : r x y) : acts.Echoes o r any (detachPlaced x) (detachPlaced y) := by
  have up : acts.Echoes o r (fun r => Option.Rel (r.withHost o.host)) (ask (·.parent? x)) (ask (·.parent? y)) :=
    echoes_ask fun d e bonded => bonded.parent? bond
  refine .bind up fun r' up up' sub ups => ?_
  refine .ite ?_ (echoes_remove (sub x y bond)) (.pure trivial)
  cases ups <;> simp

theorem echoes_placeOne (above : r.withHost o.host p q) {cursor cursor' : Option NodeId}
    (cursors : Option.Rel r cursor cursor') (bond : r x y) :
    acts.Echoes o r any (placeOne p cursor x) (placeOne q cursor' y) := by
  have found : acts.Echoes o r (fun r => Option.Rel r) (ask (behindCursor p cursor)) (ask (behindCursor q cursor')) :=
    echoes_ask fun d e bonded => bonded.behindCursor above cursors
  refine .bind found fun r' here here' sub heres => .of_unique fun unique => .ite ?_ ?_ (.pure trivial)
  · refine not_congr ?_
    cases heres with
    | none => simp
    | some found => simpa using same_of_paired unique found (sub x y bond)
  · exact echoes_edit fun d e bonded => bonded.insertBefore (sub.withHost p q above) (sub x y bond) heres

theorem echoes_placeIn : ∀ {xs ys : List NodeId} {r : Bond} {cursor cursor' : Option NodeId},
    r.withHost o.host p q → Option.Rel r cursor cursor' → List.Forall₂ r xs ys →
    acts.Echoes o r any (placeIn p cursor xs) (placeIn q cursor' ys)
  | [], _, _, _, _, _, _, bonds => by
      cases bonds
      exact .pure trivial
  | x :: xs, _, r, _, _, above, cursors, bonds => by
      cases bonds with
      | @cons _ y _ ys bond bonds =>
          refine .bind (echoes_claim bond) fun r₁ _ _ sub₁ _ => ?_
          refine .bind (echoes_placeOne (sub₁.withHost p q above) (sub₁.option cursors) (sub₁ x y bond))
            fun r₂ _ _ sub₂ _ => ?_
          have sub := sub₁.trans sub₂
          exact echoes_placeIn (sub.withHost p q above) (.some (sub x y bond)) (sub.list bonds)

theorem echoes_placeNowhere : ∀ {xs ys : List NodeId} {r : Bond}, List.Forall₂ r xs ys →
    acts.Echoes o r any (placeNowhere xs) (placeNowhere ys)
  | [], _, _, bonds => by
      cases bonds
      exact .pure trivial
  | x :: xs, _, r, bonds => by
      cases bonds with
      | @cons _ y _ ys bond bonds =>
          refine .bind (echoes_claim bond) fun r₁ _ _ sub₁ _ => ?_
          refine .bind (echoes_detachPlaced (sub₁ x y bond)) fun r₂ _ _ sub₂ _ => ?_
          exact echoes_placeNowhere ((sub₁.trans sub₂).list bonds)

/-- Behind paired nodes, or at the start of the host. -/
inductive PairedPosition (host : NodeId) (r : Bond) : Position → Position → Prop
  | behind {x y : NodeId} (bond : r x y) : PairedPosition host r (.behind x) (.behind y)
  | within : PairedPosition host r (.within host) (.within host)

theorem echoes_reconcile {position position' : Position} {previous previous' next next' : List NodeId}
    (positions : PairedPosition o.host r position position') (olds : List.Forall₂ r previous previous')
    (news : List.Forall₂ r next next') :
    acts.Echoes o r any (reconcile position previous next) (reconcile position' previous' next') := by
  refine .bind (echoes_detachOld news olds) fun r₁ _ _ sub₁ _ => ?_
  have up : acts.Echoes o r₁ (fun r => Option.Rel (r.withHost o.host)) (ask position.parent?) (ask position'.parent?) :=
    echoes_ask fun d e bonded => by
      cases positions with
      | behind bond => exact bonded.parent? (sub₁ _ _ bond)
      | within => exact .some (.inr ⟨rfl, rfl⟩)
  refine .bind up fun r₂ parent parent' sub₂ parents => ?_
  have sub := sub₁.trans sub₂
  cases parents with
  | none => exact echoes_placeNowhere (sub.list news)
  | some above =>
      refine echoes_placeIn above ?_ (sub.list news)
      cases positions with
      | behind bond => exact .some (sub _ _ bond)
      | within => exact .none

end Inlay.Render
