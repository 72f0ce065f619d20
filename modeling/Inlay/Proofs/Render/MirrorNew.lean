/-
# Proofs.Render.MirrorNew — new nodes along a bond

When both documents get new nodes, as many in one as in the other, the bond grows
by the pairs of them (`Bonded.grow`): ids do not come back, so the new nodes are
paired with nothing yet. New nodes come singly or as planted trees; trees without
ids that are the same are planted alike (`standAll_paired`).
-/
import Inlay.Proofs.Render.MirrorEdit

namespace Inlay.Render

set_option autoImplicit false

open Inlay.Document Relation Relator Inlay.Markup Planted

variable {o : Outset} {r : Bond} {start d d' e e' : Document} {host : NodeId} {own own' : NodeId → Prop}
  {xs ys : List NodeId} {x y : NodeId}

/-! ## Pairs of two lists -/

section Zip

variable {α β : Type} {as : List α} {bs : List β} {a a' : α} {b b' : β}

theorem forall₂_zip (same : as.length = bs.length) : List.Forall₂ (fun a b => (a, b) ∈ as.zip bs) as bs :=
  List.forall₂_iff_zip.mpr ⟨same, id⟩

/-- A list without repetition has one place for each of its members. -/
theorem zip_unique (nodup : as.Nodup) (one : (a, b) ∈ as.zip bs) (two : (a, b') ∈ as.zip bs) : b = b' := by
  induction as generalizing bs with
  | nil => simp at one
  | cons c as ih =>
      cases bs with
      | nil => simp at one
      | cons d bs =>
          have fresh := (List.nodup_cons.mp nodup).1
          simp only [List.zip_cons_cons, List.mem_cons, Prod.mk.injEq] at one two
          rcases one with ⟨rfl, rfl⟩ | one
          · rcases two with ⟨-, rfl⟩ | two
            · rfl
            · exact absurd (List.of_mem_zip two).1 fresh
          · rcases two with ⟨rfl, -⟩ | two
            · exact absurd (List.of_mem_zip one).1 fresh
            · exact ih (List.nodup_cons.mp nodup).2 one two

theorem mem_zip_swap : (b, a) ∈ bs.zip as ↔ (a, b) ∈ as.zip bs := by
  rw [show bs.zip as = (as.zip bs).map Prod.swap from (List.zip_swap as bs).symm]
  refine ⟨fun mem => ?_, fun mem => List.mem_map.mpr ⟨(a, b), mem, rfl⟩⟩
  obtain ⟨⟨a', b'⟩, there, same⟩ := List.mem_map.mp mem
  cases same
  exact there

theorem forall₂_of_append {rel : α → β → Prop} {as' : List α} {bs' : List β} (same : as.length = bs.length)
    (both : List.Forall₂ rel (as ++ as') (bs ++ bs')) : List.Forall₂ rel as bs ∧ List.Forall₂ rel as' bs' := by
  induction as generalizing bs with
  | nil =>
      rw [List.eq_nil_of_length_eq_zero same.symm] at both ⊢
      exact ⟨.nil, both⟩
  | cons a as ih =>
      cases bs with
      | nil => cases same
      | cons b bs =>
          cases both with
          | cons here others =>
              obtain ⟨front, back⟩ := ih (Nat.succ.inj same) others
              exact ⟨.cons here front, back⟩

end Zip

/-! ## A bond that grows -/

/-- The bond with the pairs of two lists. -/
def Bond.grow (r : Bond) (xs ys : List NodeId) : Bond := fun x y => r x y ∨ (x, y) ∈ xs.zip ys

namespace Bond

theorem sub_grow : r.Sub (r.grow xs ys) := fun _ _ => .inl

theorem grow_flip : (r.grow xs ys).flip x y ↔ (r.flip.grow ys xs) x y :=
  or_congr Iff.rfl mem_zip_swap.symm

theorem has_grow (same : xs.length = ys.length) : (r.grow xs ys).Has x ↔ r.Has x ∨ x ∈ xs := by
  constructor
  · rintro ⟨y, bond | new⟩
    · exact .inl ⟨y, bond⟩
    · exact .inr (List.of_mem_zip new).1
  · rintro (⟨y, bond⟩ | mem)
    · exact ⟨y, .inl bond⟩
    · obtain ⟨y, -, new⟩ := exists_of_paired (forall₂_zip same) mem
      exact ⟨y, .inr new⟩

theorem has_grow_flip (same : xs.length = ys.length) : (r.grow xs ys).flip.Has y ↔ r.flip.Has y ∨ y ∈ ys := by
  rw [← has_grow same.symm]
  exact exists_congr fun x => grow_flip

end Bond

/-- New nodes, and nothing else has changed. -/
structure Added (d d' : Document) (xs : List NodeId) : Prop where
  wellFormed : WellFormed d'
  fresh : ∀ x ∈ xs, d.contains x = false
  alive : ∀ x ∈ xs, d'.contains x = true
  nodup : xs.Nodup
  content : ∀ x, x ∉ xs → d'.content? x = d.content? x
  children : ∀ x, x ∉ xs → d'.children x = d.children x
  body : d'.body = d.body
  aged : Aged d d'

namespace Added

/-- A new node is none of the past. -/
theorem not_once (added : Added d d' xs) (unrepeated : Unrepeated start d') (mem : x ∈ xs) : ¬ Once start d x := by
  intro once
  have gone := once.not_new unrepeated added.aged (added.fresh x mem)
  rw [added.alive x mem] at gone
  cases gone

theorem outside (added : Added d d' xs) (has : ∀ x, own' x ↔ own x ∨ x ∈ xs) : Outside host own' d d' where
  content := fun x free _ => added.content x fun mem => free ((has x).mpr (.inr mem))
  children := fun x free _ => added.children x fun mem => free ((has x).mpr (.inr mem))
  body := added.body
  aged := added.aged

theorem holding (added : Added d d' xs) (holding : Holding start host own d) (unrepeated : Unrepeated start d')
    (has : ∀ x, own' x ↔ own x ∨ x ∈ xs) : Holding start host own' d' where
  wellFormed := added.wellFormed
  aged := holding.aged.trans added.aged
  once := by
    intro x owned
    rcases (has x).mp owned with old | new
    · exact (holding.once x old).later added.aged
    · exact ⟨d', holding.aged.trans added.aged, .refl d', added.alive x new⟩
  inner := by
    intro x owned
    rw [added.body]
    rcases (has x).mp owned with old | new
    · exact holding.inner x old
    · rintro rfl
      have dead := added.fresh _ new
      rw [holding.wellFormed.body_contains] at dead
      cases dead
  known := holding.known.later added.aged
  apart := by
    intro owned
    rcases (has host).mp owned with old | new
    · exact holding.apart old
    · exact added.not_once unrepeated new holding.known
  above := by
    intro x p owned mem
    by_cases new : p ∈ xs
    · exact .inl ((has p).mpr (.inr new))
    · rw [added.children p new] at mem
      rcases (has x).mp owned with old | fresh
      · exact (holding.above x p old mem).imp_left fun own => (has p).mpr (.inl own)
      · have dead := added.fresh x fresh
        rw [holding.wellFormed.contains_child mem] at dead
        cases dead

end Added

namespace Bonded

/-- A new node is paired with no old one. -/
theorem not_paired (bonded : Bonded o r d e) (added : Added d d' xs) (unrepeated : Unrepeated o.first d')
    (bond : r x y) : x ∉ xs := fun mem => added.not_once unrepeated mem (bonded.left.once x ⟨y, bond⟩)

theorem host_old (bonded : Bonded o r d e) (added : Added d d' xs) (unrepeated : Unrepeated o.first d') :
    o.host ∉ xs := fun mem => added.not_once unrepeated mem bonded.left.known

/-- Both documents get new nodes. -/
theorem grow (bonded : Bonded o r d e) (one : Added d d' xs) (two : Added e e' ys) (same : xs.length = ys.length)
    (unrepeated : Unrepeated o.first d') (unrepeated' : Unrepeated o.second e')
    (alike : List.Forall₂ (fun x y => look? d' x = look? e' y ∧
      List.Forall₂ (r.grow xs ys) (d'.children x) (e'.children y)) xs ys) :
    Widened o r (r.grow xs ys) d d' ∧ Bonded o (r.grow xs ys) d' e' := by
  have has := fun x => Bond.has_grow (r := r) (x := x) same
  have has' := fun y => Bond.has_grow_flip (r := r) (y := y) same
  obtain ⟨-, pairs⟩ := List.forall₂_iff_zip.mp alike
  have old : ∀ {x y}, r.withHost o.host x y → x ∉ xs ∧ y ∉ ys := by
    rintro x y (bond | ⟨rfl, rfl⟩)
    · exact ⟨bonded.not_paired one unrepeated bond, bonded.swap.not_paired two unrepeated' bond⟩
    · exact ⟨bonded.host_old one unrepeated, bonded.swap.host_old two unrepeated'⟩
  have cases : ∀ {x y}, (r.grow xs ys).withHost o.host x y → r.withHost o.host x y ∨ (x, y) ∈ xs.zip ys := by
    rintro x y ((bond | new) | host)
    · exact .inl (.inl bond)
    · exact .inr new
    · exact .inl (.inr host)
  refine ⟨⟨Bond.sub_grow, fun x owned => ?_, one.outside has⟩, one.holding bonded.left unrepeated has,
    two.holding bonded.right unrepeated' has', ⟨?_, ?_⟩, fun x y bond => ?_, fun p q bond => ?_⟩
  · exact ((has x).mp owned).imp_right fun new => one.not_once unrepeated new
  · rintro x x' y (bond | new) (bond' | new')
    · exact bonded.unique.1 bond bond'
    · exact absurd (List.of_mem_zip new').2 (old (.inl bond)).2
    · exact absurd (List.of_mem_zip new).2 (old (.inl bond')).2
    · exact zip_unique two.nodup (mem_zip_swap.mpr new) (mem_zip_swap.mpr new')
  · rintro x y y' (bond | new) (bond' | new')
    · exact bonded.unique.2 bond bond'
    · exact absurd (List.of_mem_zip new').1 (old (.inl bond)).1
    · exact absurd (List.of_mem_zip new).1 (old (.inl bond')).1
    · exact zip_unique one.nodup new new'
  · rcases cases bond with bond | new
    · obtain ⟨out, out'⟩ := old bond
      rw [look?, look?, one.content x out, two.content y out']
      exact bonded.look x y bond
    · exact (pairs new).1
  · rcases cases bond with bond | new
    · obtain ⟨out, out'⟩ := old bond
      rw [one.children p out, two.children q out']
      exact Bond.sub_grow.list (bonded.children p q bond)
    · exact (pairs new).2

end Bonded

/-! ## One new node -/

theorem added_create (wf : WellFormed d) (content : Content) :
    Added d (create content d).2 [(create content d).1] := by
  obtain ⟨fresh, becomes⟩ := create_becomes wf content
  refine ⟨becomes.wellFormed, by simpa using fresh, ?_, List.nodup_singleton _, fun x out => ?_, fun x _ => ?_,
    becomes.body, becomes.aged⟩
  · simp [contains_iff_content?, becomes.content]
  · rw [becomes.content]
    exact if_neg (by simpa using out)
  · rw [becomes.children]

/-- Paired nodes. -/
def Bond.answers : Bond → NodeId → NodeId → Prop := fun r x y => r x y

theorem mirrors_create (content : Content) : edits.Mirrors o r Bond.answers (Edit.always (create content))
    (Edit.always (create content)) := by
  intro d e bonded _ unrepeated unrepeated'
  obtain ⟨fresh, becomes⟩ := create_becomes bonded.left.wellFormed content
  obtain ⟨fresh', becomes'⟩ := create_becomes bonded.right.wellFormed content
  have alone := bonded.left.wellFormed.children_eq_nil fresh
  have alone' := bonded.right.wellFormed.children_eq_nil fresh'
  have looks : look? (create content d).2 (create content d).1 = look? (create content e).2 (create content e).1 := by
    rw [look?, look?, becomes.content, becomes'.content]
    simp only [if_true]
  obtain ⟨grown, bonded'⟩ := bonded.grow (added_create bonded.left.wellFormed content)
    (added_create bonded.right.wellFormed content) rfl unrepeated unrepeated' (.cons ⟨looks, by
      rw [becomes.children, becomes'.children, alone, alone']
      exact .nil⟩ .nil)
  exact .ok grown bonded' trivial (.inr List.mem_cons_self)

/-! ## Planted trees -/

section Trees

variable {rel : NodeId → NodeId → Prop}

theorem length_ids_eq {p q : Planted} (same : p.tree = q.tree) : p.ids.length = q.ids.length := by
  rw [length_ids, length_ids, same]

theorem length_idsAll_eq {ps qs : List Planted} (same : trees ps = trees qs) : (idsAll ps).length = (idsAll qs).length := by
  rw [length_idsAll, length_idsAll, same]

theorem roots_paired : ∀ {ps qs : List Planted}, trees ps = trees qs → List.Forall₂ rel (idsAll ps) (idsAll qs) →
    List.Forall₂ rel (ps.map root) (qs.map root)
  | [], [], _, _ => .nil
  | [], _ :: _, same, _ => by simp [trees] at same
  | _ :: _, [], same, _ => by simp [trees] at same
  | p :: ps, q :: qs, same, paired => by
      simp only [trees, List.cons.injEq] at same
      obtain ⟨here, others⟩ := forall₂_of_append (length_ids_eq same.1) paired
      refine .cons ?_ (roots_paired same.2 others)
      cases p <;> cases q <;> simp only [ids, List.forall₂_cons] at here <;> exact here.1

mutual

/-- Planted trees without ids that are the same look the same, node by node. -/
theorem stands_paired (wf : WellFormed d) (wf' : WellFormed e) : ∀ {p q : Planted}, p.tree = q.tree → p.Stands d →
    q.Stands e → List.Forall₂ rel p.ids q.ids → List.Forall₂ (fun x y => look? d x = look? e y ∧
      List.Forall₂ rel (d.children x) (e.children y)) p.ids q.ids
  | .element id tag attributes children, .element id' tag' attributes' children', same, stands, stands', paired => by
      simp only [tree, Tree.element.injEq] at same
      obtain ⟨rfl, rfl, same⟩ := same
      obtain ⟨⟨a, found, tag, attributes⟩, kids, stand⟩ := stands
      obtain ⟨⟨a', found', tag', attributes'⟩, kids', stand'⟩ := stands'
      simp only [ids, List.forall₂_cons] at paired ⊢
      refine ⟨⟨look_of_looks ?_, ?_⟩, standAll_paired wf wf' same stand stand' paired.2⟩
      · rw [found, found']
        exact .some (.element (tag.trans tag'.symm) (attributes.trans attributes'.symm))
      · rw [kids, kids']
        exact roots_paired same paired.2
  | .text id content, .text id' content', same, stands, stands', _ => by
      simp only [tree, Tree.text.injEq] at same
      subst same
      refine .cons ⟨by rw [look?, look?, stands, stands'], ?_⟩ .nil
      rw [children_of_leaf wf stands rfl, children_of_leaf wf' stands' rfl]
      exact .nil
  | .comment id body, .comment id' body', same, stands, stands', _ => by
      simp only [tree, Tree.comment.injEq] at same
      subst same
      refine .cons ⟨by rw [look?, look?, stands, stands'], ?_⟩ .nil
      rw [children_of_leaf wf stands rfl, children_of_leaf wf' stands' rfl]
      exact .nil
  | .element _ _ _ _, .text _ _, same, _, _, _ => by simp [tree] at same
  | .element _ _ _ _, .comment _ _, same, _, _, _ => by simp [tree] at same
  | .text _ _, .element _ _ _ _, same, _, _, _ => by simp [tree] at same
  | .text _ _, .comment _ _, same, _, _, _ => by simp [tree] at same
  | .comment _ _, .element _ _ _ _, same, _, _, _ => by simp [tree] at same
  | .comment _ _, .text _ _, same, _, _, _ => by simp [tree] at same

theorem standAll_paired (wf : WellFormed d) (wf' : WellFormed e) : ∀ {ps qs : List Planted}, trees ps = trees qs →
    StandAll d ps → StandAll e qs → List.Forall₂ rel (idsAll ps) (idsAll qs) →
    List.Forall₂ (fun x y => look? d x = look? e y ∧ List.Forall₂ rel (d.children x) (e.children y))
      (idsAll ps) (idsAll qs)
  | [], [], _, _, _, _ => .nil
  | [], _ :: _, same, _, _, _ => by simp [trees] at same
  | _ :: _, [], same, _, _, _ => by simp [trees] at same
  | p :: ps, q :: qs, same, ⟨stands, stand⟩, ⟨stands', stand'⟩, paired => by
      simp only [trees, List.cons.injEq] at same
      obtain ⟨here, others⟩ := forall₂_of_append (length_ids_eq same.1) paired
      exact List.rel_append (stands_paired wf wf' same.1 stands stands' here)
        (standAll_paired wf wf' same.2 stand stand' others)

end

end Trees

theorem added_of_potted {fragment : NodeId} {ps : List Planted} (potted : Potted d d' fragment ps) :
    Added d d' (fragment :: idsAll ps) where
  wellFormed := potted.wellFormed
  fresh := potted.fresh
  alive := by
    intro x mem
    rcases List.mem_cons.mp mem with rfl | inner
    · exact contains_iff_content?.mpr ⟨_, potted.isFragment⟩
    · exact potted.stand.contains x inner
  nodup := potted.nodup
  content := potted.content
  children := potted.children
  body := potted.body
  aged := potted.aged

/-- The same trees are planted in both documents. -/
theorem Bonded.potted (bonded : Bonded o r d e) {fragment fragment' : NodeId} {ps qs : List Planted}
    (one : Potted d d' fragment ps) (two : Potted e e' fragment' qs) (same : trees ps = trees qs)
    (unrepeated : Unrepeated o.first d') (unrepeated' : Unrepeated o.second e') :
    ∃ r', Widened o r r' d d' ∧ Bonded o r' d' e' ∧ r' fragment fragment' := by
  have long : (fragment :: idsAll ps).length = (fragment' :: idsAll qs).length := by
    rw [List.length_cons, List.length_cons, length_idsAll_eq same]
  have pairs := (forall₂_zip long).imp fun x y => Or.inr (a := r x y)
  have inner : List.Forall₂ (r.grow (fragment :: idsAll ps) (fragment' :: idsAll qs)) (idsAll ps) (idsAll qs) :=
    (List.forall₂_cons.mp pairs).2
  have looks : look? d' fragment = look? e' fragment' := by rw [look?, look?, one.isFragment, two.isFragment]
  have kids : List.Forall₂ (r.grow (fragment :: idsAll ps) (fragment' :: idsAll qs)) (d'.children fragment)
      (e'.children fragment') := by
    rw [one.kids, two.kids]
    exact roots_paired same inner
  obtain ⟨grown, bonded'⟩ := bonded.grow (added_of_potted one) (added_of_potted two) long unrepeated unrepeated'
    (.cons ⟨looks, kids⟩ (standAll_paired one.wellFormed two.wellFormed same one.stand two.stand inner))
  exact ⟨_, grown, bonded', .inr (by simp)⟩

/-- Copies of the same trees. -/
theorem mirrors_plantFragment (content : List Tree) :
    edits.Mirrors o r Bond.answers (plantFragment content) (plantFragment content) := by
  intro d e bonded _ unrepeated unrepeated'
  obtain ⟨fragment, ps, d', done, same, potted⟩ := plantFragment_potted content bonded.left.wellFormed
  obtain ⟨fragment', qs, e', done', same', potted'⟩ := plantFragment_potted content bonded.right.wellFormed
  rw [left_ok done] at unrepeated
  rw [left_ok done'] at unrepeated'
  obtain ⟨r', grown, bonded', bond⟩ := bonded.potted potted potted' (same.trans same'.symm) unrepeated unrepeated'
  rw [done, done']
  exact .ok grown bonded' trivial bond

/-- Both readings give a fragment, or the same fault. -/
inductive SameReading (r : Bond) : Except Markup.Fault NodeId → Except Markup.Fault NodeId → Prop
  | ok {x y : NodeId} : r x y → SameReading r (.ok x) (.ok y)
  | error (fault : Markup.Fault) : SameReading r (.error fault) (.error fault)

theorem mirrors_parse (source : String) :
    edits.Mirrors o r SameReading (parse source) (parse source) := by
  intro d e bonded _ unrepeated unrepeated'
  cases read : forest? source with
  | ok forest =>
      obtain ⟨fragment, ps, d', done, same, potted⟩ := parse_ok bonded.left.wellFormed read
      obtain ⟨fragment', qs, e', done', same', potted'⟩ := parse_ok bonded.right.wellFormed read
      rw [left_ok done] at unrepeated
      rw [left_ok done'] at unrepeated'
      obtain ⟨r', grown, bonded', bond⟩ := bonded.potted potted potted' (same.trans same'.symm) unrepeated unrepeated'
      rw [done, done']
      exact .ok grown bonded' trivial (.ok bond)
  | error fault =>
      obtain ⟨d', done, becomes⟩ := parse_error bonded.left.wellFormed read
      obtain ⟨e', done', becomes'⟩ := parse_error bonded.right.wellFormed read
      obtain ⟨grown, bonded'⟩ := bonded.relinked becomes becomes' (fun _ _ _ => rfl) (fun _ _ _ => rfl) bonded.children
      rw [done, done']
      exact .ok grown bonded' trivial (.error fault)

end Inlay.Render
