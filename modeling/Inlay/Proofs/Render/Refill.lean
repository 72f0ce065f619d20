/-
# Proofs.Render.Refill — an anchor that shows another value

An anchor whose value holds no nodes shows entries only: nodes it made itself.
Updating it finds the entries that go on among those of before, makes the ones
that are missing, puts both in order behind the comment and frees the others
(`update_again`). Nothing else of what was alive changes but the list of
children that the comment stands in.
-/
import Inlay.Proofs.Render.Fill

namespace Inlay

set_option autoImplicit false

namespace ValueOf

variable {α β : Type}

/-- A value without templates, whatever stands for templates elsewhere. -/
def plain (w : ValueOf Empty) : ValueOf α := w.relabel Empty.elim

@[simp] theorem relabel_plain (f : α → β) (w : ValueOf Empty) : (plain w : ValueOf α).relabel f = plain w := by
  have same : (fun a : Empty => f a.elim) = Empty.elim := funext nofun
  rw [plain, relabel_relabel, same, plain]

end ValueOf

namespace Render

open Relation Inlay.Document Inlay.Document.Planted Inlay.Markup

variable {d d' d'' : Document} {claims : Claims} {id q x : NodeId} {front back : List NodeId}
  {ps : List Planted} {old new : List Entry} {written moved : List NodeId}

/-! ## Frames -/

/-- Of what was alive, only some nodes got other content or died, and only some
got other children. -/
structure Spares (written moved : List NodeId) (d d' : Document) : Prop where
  wellFormed : WellFormed d'
  content : ∀ x, d.contains x = true → x ∉ written → d'.content? x = d.content? x
  children : ∀ x, d.contains x = true → x ∉ moved → d'.children x = d.children x

namespace Spares

theorem refl (wf : WellFormed d) : Spares written moved d d := ⟨wf, fun _ _ _ => rfl, fun _ _ _ => rfl⟩

theorem mono {written' moved' : List NodeId} (spares : Spares written moved d d')
    (more : written ⊆ written') (further : moved ⊆ moved') : Spares written' moved' d d' where
  wellFormed := spares.wellFormed
  content := fun x live away => spares.content x live fun mem => away (more mem)
  children := fun x live away => spares.children x live fun mem => away (further mem)

theorem alive (spares : Spares written moved d d') (live : d.contains x = true) (away : x ∉ written) :
    d'.contains x = true := by
  obtain ⟨c, found⟩ := contains_iff_content?.mp live
  exact contains_iff_content?.mpr ⟨c, (spares.content x live away).trans found⟩

/-- What is written may get other children as well. -/
theorem trans (first : Spares written moved d d') (second : Spares written moved d' d'')
    (within : written ⊆ moved) : Spares written moved d d'' where
  wellFormed := second.wellFormed
  content := fun x live away =>
    (second.content x (first.alive live away) away).trans (first.content x live away)
  children := fun x live away =>
    (second.children x (first.alive live fun mem => away (within mem)) away).trans
      (first.children x live away)

theorem stand (spares : Spares written moved d d') (stand : StandAll d ps)
    (unwritten : ∀ x ∈ idsAll ps, x ∉ written) (unmoved : ∀ x ∈ idsAll ps, x ∉ moved) :
    StandAll d' ps :=
  stand.congr fun x mem => ⟨spares.content x (stand.contains x mem) (unwritten x mem),
    spares.children x (stand.contains x mem) (unmoved x mem)⟩

end Spares

/-! ## Freeing detached trees -/

/-- The document without some trees. -/
structure Cleared (d d' : Document) (ps : List Planted) : Prop where
  wellFormed : WellFormed d'
  content : ∀ x, x ∉ idsAll ps → d'.content? x = d.content? x
  children : ∀ x, x ∉ idsAll ps → d'.children x = d.children x

theorem discardUnclaimed_clears (claims : Claims) : ∀ (ps : List Planted) {d : Document}, WellFormed d →
    StandAll d ps → (idsAll ps).Nodup → (∀ x ∈ ps.map root, d.parent? x = none) →
    (∀ x ∈ ps.map root, x ∉ claims) → d.body ∉ ps.map root →
    ∃ d', Anchor.discardUnclaimed (ps.map root) ⟨d, claims⟩ = .ok () ⟨d', claims⟩ ∧ Cleared d d' ps
  | [], d, wf, _, _, _, _, _ => ⟨d, rfl, wf, fun _ _ => rfl, fun _ _ => rfl⟩
  | p :: rest, d, wf, ⟨stands, stand⟩, nodup, loose, unclaimed, inner => by
      simp only [idsAll, List.nodup_append] at nodup
      obtain ⟨-, nodup, apart⟩ := nodup
      obtain ⟨looseHere, loose⟩ := List.forall_mem_cons.mp loose
      obtain ⟨free, unclaimed⟩ := List.forall_mem_cons.mp unclaimed
      simp only [List.map_cons, List.mem_cons, not_or] at inner
      have live : d.contains p.root = true := stands.contains _ root_mem_ids
      obtain ⟨d₁, freed, becomes⟩ := discard_becomes wf live (Ne.symm inner.1)
      have below : ∀ x, x ∈ d.descendants p.root ↔ x ∈ p.ids := by
        intro x
        rw [wf.mem_descendants, stands.mem_ids wf x]
        exact and_iff_right live
      have content : ∀ x, x ∉ p.ids → d₁.content? x = d.content? x := by
        intro x away
        rw [becomes.content]
        exact if_neg fun mem => away ((below x).mp mem)
      have children : ∀ x, x ∉ p.ids → d₁.children x = d.children x := by
        intro x away
        rw [becomes.children]
        simp only
        rw [if_neg fun mem => away ((below x).mp mem)]
        refine List.erase_of_not_mem fun child => ?_
        rw [wf.parent_iff.mpr child] at looseHere
        cases looseHere
      have away : ∀ x ∈ idsAll rest, x ∉ p.ids := fun x mem here => apart x here x mem rfl
      have stand₁ : StandAll d₁ rest := stand.congr fun x mem =>
        ⟨content x (away x mem), children x (away x mem)⟩
      have loose₁ : ∀ x ∈ rest.map root, d₁.parent? x = none := by
        intro x mem
        refine becomes.wellFormed.parent?_eq_none fun r child => ?_
        rw [becomes.children] at child
        simp only at child
        split at child
        · cases child
        · have alone := loose x mem
          rw [wf.parent_iff.mpr (List.mem_of_mem_erase child)] at alone
          cases alone
      obtain ⟨d₂, others, cleared⟩ := discardUnclaimed_clears claims rest becomes.wellFormed stand₁ nodup
        loose₁ unclaimed (by rw [becomes.body]; exact inner.2)
      refine ⟨d₂, ?_, cleared.wellFormed, fun x off => ?_, fun x off => ?_⟩
      · have goes : (d.contains p.root && !claims.contains p.root) = true := by
          simp [live, free]
        rw [List.map_cons, Anchor.discardUnclaimed, Act.bind_isClaimed, Act.bind_ask, if_pos goes,
          bind_ok (Act.edit_ok freed)]
        exact others
      · simp only [idsAll, List.mem_append, not_or] at off
        rw [cleared.content x off.2, content x off.1]
      · simp only [idsAll, List.mem_append, not_or] at off
        rw [cleared.children x off.2, children x off.1]

/-! ## Updating -/

/-- The planted trees of entries. -/
def plantsOf (entries : List Entry) : List Planted := entries.flatMap (·.plants)

@[simp] theorem plantsOf_append (first second : List Entry) :
    plantsOf (first ++ second) = plantsOf first ++ plantsOf second := List.flatMap_append

theorem idsAll_plantsOf (entries : List Entry) :
    idsAll (plantsOf entries) = entries.flatMap fun entry => idsAll entry.plants :=
  idsAll_flatMap_plants entries

theorem idsAll_plantsOf_perm {first second : List Entry} (perm : first.Perm second) :
    (idsAll (plantsOf first)).Perm (idsAll (plantsOf second)) := by
  rw [idsAll_plantsOf, idsAll_plantsOf]
  exact perm.flatMap_right _

theorem standAll_plantsOf_perm {first second : List Entry} (perm : first.Perm second) :
    StandAll d (plantsOf first) ↔ StandAll d (plantsOf second) := by
  simp only [standAll_iff, plantsOf, List.mem_flatMap, perm.mem_iff]

/-- What an anchor remembers that shows entries only. -/
def Anchor.ofEntries (comment : NodeId) (entries : List Entry) : Anchor :=
  ⟨comment, (plantsOf entries).map root, entries.map Entry.remembered⟩

/-- Without templates, pieces are entries. -/
theorem flatMap_piecePlants_of_templates {pieces : List (Pot ⊕ Entry)} (none : templatesOf pieces = []) :
    pieces.flatMap piecePlants = plantsOf (entriesOf pieces) := by
  induction pieces with
  | nil => rfl
  | cons piece rest ih =>
      cases piece with
      | inl pot => cases none
      | inr entry =>
          rw [List.flatMap_cons, ih none]
          rfl

/-- Laying out a value without templates gives entries: some of those of before,
the others new. -/
theorem layOut_again (wf : WellFormed d) (claims : Claims) (w : ValueOf Empty)
    (shows : ∀ entry ∈ old, entry.Shows) :
    ∃ (new taken fresh rest : List Entry) (d' : Document),
      Anchor.layOut (itemsOf w.plain) (old.map Entry.remembered) ⟨d, claims⟩ =
        .ok ⟨(plantsOf new).map root, new.map Entry.remembered, rest.map Entry.remembered⟩ ⟨d', claims⟩ ∧
      (∀ entry ∈ new, entry.Shows) ∧ trees (plantsOf new) = shown w.plain ∧
      Sprouted d d' none (plantsOf fresh) ∧ (taken ++ fresh).Perm new ∧ (taken ++ rest).Perm old := by
  obtain ⟨pieces, taken, fresh, rest, d', laid, shown, sprouted, used, left⟩ :=
    layOut_ok Pot.roots claims (itemsOf w.plain) old wf shows
  have none : templatesOf pieces = [] := by
    have no : listed w = [] := List.eq_nil_iff_forall_not_mem.mpr nofun
    rw [templatesOf_eq shown, filterMap_itemsOf, ValueOf.plain, listed_relabel, no]
    rfl
  have plants := flatMap_piecePlants_of_templates none
  refine ⟨entriesOf pieces, taken, fresh, rest, d', ?_, shows_of_shown shown, ?_, sprouted, used, left⟩
  · rw [flatMap_pieceNodes, plants, ← itemsOf_relabel, ValueOf.relabel_plain] at laid
    exact laid
  · rw [← plants, trees_pieces shown, ← itemsOf_relabel, flatMap_itemTrees, ValueOf.relabel_plain]

/-- What an anchor with entries became. -/
structure Refilled (d d' : Document) (q id : NodeId) (front back : List NodeId) (old new : List Entry) :
    Prop where
  spares : Spares (idsAll (plantsOf old)) (q :: idsAll (plantsOf old)) d d'
  stand : StandAll d' (plantsOf new)
  kids : d'.children q = front ++ id :: (plantsOf new).map root ++ back
  origin : ∀ x ∈ idsAll (plantsOf new), x ∈ idsAll (plantsOf old) ∨ d.contains x = false
  roots : ∀ x ∈ (plantsOf new).map root, x ∈ (plantsOf old).map root ∨ d.contains x = false

/-- A run among siblings is apart from what stands around it. -/
theorem apart_of_run {run : List NodeId} (once : (front ++ id :: run ++ back).Nodup) :
    (front ++ id :: back).Nodup ∧ ∀ x ∈ front ++ id :: back, x ∉ run := by
  have perm : (front ++ id :: run ++ back).Perm ((front ++ id :: back) ++ run) := by
    simp only [List.append_assoc, List.cons_append]
    exact (List.perm_append_comm.cons id).append_left front
  obtain ⟨first, -, apart⟩ := List.nodup_append.mp (perm.nodup_iff.mp once)
  exact ⟨first, fun x mem there => apart x mem x there rfl⟩

/-! ## What leaves its place

All nodes of before leave their place, be it to come back. -/

section Leaving

variable {before now : List NodeId}

theorem mem_leaving_again (wf : WellFormed d) (child : ∀ x ∈ before, x ∈ d.children q)
    (unclaimed : ∀ x ∈ before, x ∉ claims) :
    x ∈ leaving d claims now before ↔ x ∈ before ∨ x ∈ now := by
  simp only [leaving, dropped, List.mem_append, List.mem_filter, decide_eq_true_eq]
  constructor
  · exact Or.imp_left And.left
  · rintro (early | late)
    · by_cases late : x ∈ now
      · exact .inr late
      · exact .inl ⟨early, late, unclaimed x early, wf.contains_child (child x early)⟩
    · exact .inr late

variable (wf : WellFormed d) (kids : d.children q = front ++ id :: before ++ back)
  (unclaimed : ∀ x ∈ before, x ∉ claims) (parents : ∀ x ∈ now, ∀ p, x ∈ d.children p → x ∈ before)
include wf kids unclaimed parents

/-- A child that was not there before stays. -/
theorem stays_put (off : x ∉ before) {p : NodeId} (here : x ∈ d.children p) :
    x ∉ leaving d claims now before := by
  intro mem
  have child : ∀ x ∈ before, x ∈ d.children q := fun x mem => by
    rw [kids]
    simp [mem]
  rcases (mem_leaving_again wf child unclaimed).mp mem with early | late
  · exact off early
  · exact off (parents x late p here)

/-- What stood around the nodes of before is what is left. -/
theorem without_leaving : without (leaving d claims now before) d.children q = front ++ id :: back := by
  have once := wf.nodup q
  rw [kids] at once
  have apart := (apart_of_run once).2
  have keep : ∀ list : List NodeId, list ⊆ front ++ id :: back →
      list.filter (· ∉ leaving d claims now before) = list := by
    intro list sub
    refine List.filter_eq_self.mpr fun x mem => ?_
    have here : x ∈ d.children q := by
      have around := sub mem
      rw [kids]
      simp only [List.mem_append, List.mem_cons] at around ⊢
      tauto
    simpa using stays_put wf kids unclaimed parents (apart x (sub mem)) here
  have gone : before.filter (· ∉ leaving d claims now before) = [] := by
    refine List.filter_eq_nil_iff.mpr fun x mem => ?_
    have leaves : x ∈ leaving d claims now before :=
      (mem_leaving_again wf (fun y there => by rw [kids]; simp [there]) unclaimed).mpr (.inl mem)
    simpa using leaves
  have ids := keep [id] (by simp)
  rw [without, kids, List.append_assoc, List.cons_append, ← List.singleton_append, List.filter_append,
    List.filter_append, List.filter_append, keep front (by simp), ids, gone,
    keep back fun x mem => by simp [mem]]
  rfl

end Leaving

/-- Entries stand behind a comment, in place of what stood there. -/
structure Reseated (d d' : Document) (q id : NodeId) (front back : List NodeId) (new : List Entry) :
    Prop where
  wellFormed : WellFormed d'
  content : d'.content? = d.content?
  body : d'.body = d.body
  kids : d'.children q = front ++ id :: (plantsOf new).map root ++ back
  others : ∀ p, p ≠ q → d'.children p = d.children p

/-- Entries of before and new ones take the place of those of before. -/
theorem reconcile_again (wf : WellFormed d) (claims : Claims)
    (kids : d.children q = front ++ id :: (plantsOf old).map root ++ back)
    (stand : StandAll d (plantsOf new)) (nodup : (idsAll (plantsOf new)).Nodup)
    (outer : q ∉ idsAll (plantsOf new)) (inner : d.body ∉ (plantsOf new).map root)
    (parents : ∀ x ∈ (plantsOf new).map root, ∀ p, x ∈ d.children p → x ∈ (plantsOf old).map root)
    (unclaimed : ∀ x ∈ (plantsOf old).map root, x ∉ claims) :
    ∃ d' claims', reconcile (.behind id) ((plantsOf old).map root) ((plantsOf new).map root) ⟨d, claims⟩ =
        .ok () ⟨d', claims'⟩ ∧ Reseated d d' q id front back new ∧
      ∀ x, x ∈ claims' ↔ x ∈ claims ∨ x ∈ (plantsOf new).map root := by
  have once := wf.nodup q
  rw [kids] at once
  obtain ⟨single, apart⟩ := apart_of_run once
  have child : ∀ x ∈ (plantsOf old).map root, x ∈ d.children q := fun x mem => by
    rw [kids]
    simp [mem]
  have here : id ∈ d.children q := by simp [kids]
  obtain ⟨d', claims', done, becomes, claimed⟩ := reconcile_behind wf claims (wf.parent_iff.mpr here)
    (stays_put wf kids unclaimed parents (apart id (by simp)) here)
    (fun mem => wf.body_not_mem_children q (child _ mem)) (movable_roots wf stand outer inner)
  refine ⟨d', claims', done,
    ⟨becomes.wellFormed, becomes.content, becomes.body, ?_, fun p ne => ?_⟩, claimed⟩
  · have roots : ((plantsOf new).map root).dedup = (plantsOf new).map root :=
      List.dedup_eq_self.mpr (nodup.sublist (map_root_sublist _))
    rw [becomes.children]
    simp only [if_true]
    rw [without_leaving wf kids unclaimed parents, insertBehind_split _ single, roots]
  · rw [becomes.children]
    simp only [if_neg ne]
    refine List.filter_eq_self.mpr fun x mem => ?_
    have off : x ∉ (plantsOf old).map root := fun there =>
      ne (wf.linked.parent_unique mem (child x there))
    simpa using stays_put wf kids unclaimed parents off mem

/-- Entries of before are taken over or left, and entries of now are taken over or
new. -/
structure Turnover (d d' : Document) (old new taken fresh rest : List Entry) : Prop where
  sprouted : Sprouted d d' none (plantsOf fresh)
  used : (taken ++ fresh).Perm new
  left : (taken ++ rest).Perm old
  stand : StandAll d (plantsOf old)
  nodup : (idsAll (plantsOf old)).Nodup

namespace Turnover

variable {taken fresh rest : List Entry}

theorem mem_old (turn : Turnover d d' old new taken fresh rest) :
    x ∈ idsAll (plantsOf old) ↔ x ∈ idsAll (plantsOf taken) ∨ x ∈ idsAll (plantsOf rest) := by
  rw [← (idsAll_plantsOf_perm turn.left).mem_iff, plantsOf_append, idsAll_append, List.mem_append]

theorem mem_new (turn : Turnover d d' old new taken fresh rest) :
    x ∈ idsAll (plantsOf new) ↔ x ∈ idsAll (plantsOf taken) ∨ x ∈ idsAll (plantsOf fresh) := by
  rw [← (idsAll_plantsOf_perm turn.used).mem_iff, plantsOf_append, idsAll_append, List.mem_append]

theorem root_old (turn : Turnover d d' old new taken fresh rest) : x ∈ (plantsOf old).map root ↔
    x ∈ (plantsOf taken).map root ∨ x ∈ (plantsOf rest).map root := by
  have perm : (plantsOf (taken ++ rest)).Perm (plantsOf old) := turn.left.flatMap_right _
  rw [← (perm.map root).mem_iff, plantsOf_append, List.map_append, List.mem_append]

theorem root_new (turn : Turnover d d' old new taken fresh rest) : x ∈ (plantsOf new).map root ↔
    x ∈ (plantsOf taken).map root ∨ x ∈ (plantsOf fresh).map root := by
  have perm : (plantsOf (taken ++ fresh)).Perm (plantsOf new) := turn.used.flatMap_right _
  rw [← (perm.map root).mem_iff, plantsOf_append, List.map_append, List.mem_append]

theorem nodup_old (turn : Turnover d d' old new taken fresh rest) :
    (idsAll (plantsOf taken) ++ idsAll (plantsOf rest)).Nodup := by
  have perm := idsAll_plantsOf_perm turn.left
  rw [plantsOf_append, idsAll_append] at perm
  exact perm.nodup_iff.mpr turn.nodup

/-- What was alive is not new. -/
theorem not_fresh (turn : Turnover d d' old new taken fresh rest) (live : d.contains x = true) :
    x ∉ idsAll (plantsOf fresh) := by
  intro mem
  rw [turn.sprouted.fresh x mem] at live
  cases live

theorem origin (turn : Turnover d d' old new taken fresh rest) (mem : x ∈ idsAll (plantsOf new)) :
    x ∈ idsAll (plantsOf taken) ∨ d.contains x = false :=
  (turn.mem_new.mp mem).imp_right (turn.sprouted.fresh x)

/-- What was alive elsewhere is not among the entries of now. -/
theorem elsewhere (turn : Turnover d d' old new taken fresh rest) (live : d.contains x = true)
    (off : x ∉ idsAll (plantsOf old)) : x ∉ idsAll (plantsOf new) := by
  intro mem
  rcases turn.mem_new.mp mem with before | new
  · exact off (turn.mem_old.mpr (.inl before))
  · exact turn.not_fresh live new

/-- What is left is not among the entries of now. -/
theorem rest_off (turn : Turnover d d' old new taken fresh rest) (mem : x ∈ idsAll (plantsOf rest)) :
    x ∉ idsAll (plantsOf new) := by
  intro now
  have live := turn.stand.contains x (turn.mem_old.mpr (.inr mem))
  rcases turn.mem_new.mp now with before | new
  · exact (List.nodup_append.mp turn.nodup_old).2.2 x before x mem rfl
  · exact turn.not_fresh live new

theorem nodup_new (turn : Turnover d d' old new taken fresh rest) : (idsAll (plantsOf new)).Nodup := by
  have perm := idsAll_plantsOf_perm turn.used
  rw [plantsOf_append, idsAll_append] at perm
  refine perm.nodup_iff.mp (List.nodup_append.mpr
    ⟨(List.nodup_append.mp turn.nodup_old).1, turn.sprouted.nodup, ?_⟩)
  rintro x mem y new rfl
  exact turn.not_fresh (turn.stand.contains x (turn.mem_old.mpr (.inl mem))) new

/-- What was taken over, what is left and what is new stand once it is made. -/
theorem stand_after (turn : Turnover d d' old new taken fresh rest) :
    StandAll d' (plantsOf new) ∧ StandAll d' (plantsOf rest) := by
  have keeps : Keeps [] d d' := .of_sprouted turn.sprouted
  have before : StandAll d' (plantsOf old) := keeps.stand turn.stand (by simp)
  rw [← standAll_plantsOf_perm turn.left, plantsOf_append, standAll_append] at before
  refine ⟨?_, before.2⟩
  rw [← standAll_plantsOf_perm turn.used, plantsOf_append]
  exact standAll_append.mpr ⟨before.1, turn.sprouted.stand⟩

theorem loose_fresh (turn : Turnover d d' old new taken fresh rest) (wf : WellFormed d)
    (mem : x ∈ (plantsOf fresh).map root) (p : NodeId) : x ∉ d'.children p := by
  intro child
  have none := parent?_of_sprouted wf turn.sprouted mem
  rw [turn.sprouted.wellFormed.parent_iff.mpr child] at none
  cases none

/-- A root of now that stands somewhere was a root of before. -/
theorem parents (turn : Turnover d d' old new taken fresh rest) (wf : WellFormed d) {p : NodeId}
    (mem : x ∈ (plantsOf new).map root) (child : x ∈ d'.children p) : x ∈ (plantsOf old).map root := by
  rcases turn.root_new.mp mem with before | new
  · exact turn.root_old.mpr (.inl before)
  · exact absurd child (turn.loose_fresh wf new p)

/-- The body is not among the entries of now. -/
theorem body_off (turn : Turnover d d' old new taken fresh rest) (wf : WellFormed d)
    (off : d.body ∉ (plantsOf old).map root) : d'.body ∉ (plantsOf new).map root := by
  rw [turn.sprouted.body]
  intro mem
  rcases turn.root_new.mp mem with before | new
  · exact off (turn.root_old.mpr (.inl before))
  · exact turn.not_fresh wf.body_contains ((map_root_sublist _).subset new)

/-! ### Once the entries of now stand behind the comment -/

section Reseated

variable (turn : Turnover d d' old new taken fresh rest) (reseated : Reseated d' d'' q id front back new)
include turn reseated

/-- What is left stands. -/
theorem stand_rest (outer : q ∉ idsAll (plantsOf old)) : StandAll d'' (plantsOf rest) := by
  refine turn.stand_after.2.congr fun x mem => ⟨congrFun reseated.content x, reseated.others x ?_⟩
  rintro rfl
  exact outer (turn.mem_old.mpr (.inr mem))

/-- What is left stands nowhere any more. -/
theorem loose_rest (wf : WellFormed d')
    (kids : d'.children q = front ++ id :: (plantsOf old).map root ++ back) :
    ∀ x ∈ (plantsOf rest).map root, d''.parent? x = none := by
  intro x mem
  have before : x ∈ (plantsOf old).map root := turn.root_old.mpr (.inr mem)
  have now : x ∉ (plantsOf new).map root := fun there =>
    turn.rest_off ((map_root_sublist _).subset mem) ((map_root_sublist _).subset there)
  refine reseated.wellFormed.parent?_eq_none fun p child => ?_
  by_cases here : p = q
  · subst here
    have once := wf.nodup p
    rw [kids] at once
    rw [reseated.kids] at child
    simp only [List.append_assoc, List.cons_append, List.mem_append, List.mem_cons, now, false_or] at child
    exact (apart_of_run once).2 x (by simpa using child) before
  · rw [reseated.others p here] at child
    exact here (wf.linked.parent_unique child (by rw [kids]; simp [before]))

/-- The anchor is refilled once what is left is freed. -/
theorem refilled {d₃ : Document} (cleared : Cleared d'' d₃ (plantsOf rest)) (live : d.contains q = true)
    (outer : q ∉ idsAll (plantsOf old)) : Refilled d d₃ q id front back old new := by
  have keeps : Keeps [] d d' := .of_sprouted turn.sprouted
  have offRest : ∀ {x}, x ∉ idsAll (plantsOf old) → x ∉ idsAll (plantsOf rest) :=
    fun off mem => off (turn.mem_old.mpr (.inr mem))
  refine ⟨⟨cleared.wellFormed, fun x live off => ?_, fun x live off => ?_⟩, ?_, ?_, fun x mem => ?_,
    fun x mem => ?_⟩
  · rw [cleared.content x (offRest off), reseated.content, keeps.content x live List.not_mem_nil]
  · simp only [List.mem_cons, not_or] at off
    rw [cleared.children x (offRest off.2), reseated.others x off.1,
      keeps.children x live List.not_mem_nil]
  · refine turn.stand_after.1.congr fun x mem => ?_
    have off : x ∉ idsAll (plantsOf rest) := fun there => turn.rest_off there mem
    have ne : x ≠ q := fun same => turn.elsewhere live outer (same ▸ mem)
    exact ⟨(cleared.content x off).trans (congrFun reseated.content x),
      (cleared.children x off).trans (reseated.others x ne)⟩
  · rw [cleared.children q (offRest outer), reseated.kids]
  · exact (turn.origin mem).imp_left fun before => turn.mem_old.mpr (.inl before)
  · exact (turn.root_new.mp mem).imp (fun before => turn.root_old.mpr (.inl before))
      fun new => turn.sprouted.fresh x ((map_root_sublist _).subset new)

end Reseated

end Turnover

/-! ## The steps of an update -/

/-- The documents between the steps of an update: `d₁` when the entries of now are laid out, `d₂` when they
stand behind the comment, and `d'` when those that are left are freed. -/
structure Steps (d d' : Document) (claims claims' : Claims) (q id : NodeId) (front back : List NodeId)
    (old new rest : List Entry) (w : ValueOf Empty) (d₁ d₂ : Document) : Prop where
  laid : Anchor.layOut (itemsOf w.plain) (old.map Entry.remembered) ⟨d, claims⟩ =
    .ok ⟨(plantsOf new).map root, new.map Entry.remembered, rest.map Entry.remembered⟩ ⟨d₁, claims⟩
  placed : reconcile (.behind id) ((plantsOf old).map root) ((plantsOf new).map root) ⟨d₁, claims⟩ =
    .ok () ⟨d₂, claims'⟩
  freed : Anchor.discardUnclaimed ((plantsOf rest).map root) ⟨d₂, claims'⟩ = .ok () ⟨d', claims'⟩
  turn : ∃ taken fresh, Turnover d d₁ old new taken fresh rest
  reseated : Reseated d₁ d₂ q id front back new
  cleared : Cleared d₂ d' (plantsOf rest)
  shows : ∀ entry ∈ new, entry.Shows
  trees : trees (plantsOf new) = shown w.plain
  claimed : ∀ x, x ∈ claims' ↔ x ∈ claims ∨ x ∈ (plantsOf new).map root

/-- A row that no new tree is put into. -/
theorem Turnover.kids_after {taken fresh rest : List Entry} (turn : Turnover d d' old new taken fresh rest)
    (live : d.contains q = true) (kids : d.children q = front ++ id :: (plantsOf old).map root ++ back) :
    d'.children q = front ++ id :: (plantsOf old).map root ++ back := by
  rw [(Keeps.of_sprouted turn.sprouted).children q live List.not_mem_nil, kids]

section Steps

variable (wf : WellFormed d) (claims : Claims)
  (kids : d.children q = front ++ id :: (plantsOf old).map root ++ back)
  (stand : StandAll d (plantsOf old)) (shows : ∀ entry ∈ old, entry.Shows)
  (apart : (q :: id :: idsAll (plantsOf old)).Nodup)
  (unclaimed : ∀ x ∈ (plantsOf old).map root, x ∉ claims)
include wf kids stand shows apart unclaimed

theorem exists_steps (w : ValueOf Empty) :
    ∃ d' claims' new rest d₁ d₂, Steps d d' claims claims' q id front back old new rest w d₁ d₂ := by
  obtain ⟨outer, apart⟩ := List.nodup_cons.mp apart
  obtain ⟨-, nodup⟩ := List.nodup_cons.mp apart
  simp only [List.mem_cons, not_or] at outer
  have live : d.contains q = true := wf.contains_parent (c := id) (by simp [kids])
  have bodyOff : d.body ∉ (plantsOf old).map root := fun mem =>
    wf.body_not_mem_children q (by rw [kids]; simp [mem])
  obtain ⟨new, taken, fresh, rest, d₁, laid, shows', same, sprouted, used, left⟩ :=
    layOut_again wf claims w shows
  have turn : Turnover d d₁ old new taken fresh rest := ⟨sprouted, used, left, stand, nodup⟩
  have wf₁ := sprouted.wellFormed
  have kids₁ := turn.kids_after live kids
  obtain ⟨d₂, claims₂, placed, reseated, claimed⟩ :=
    reconcile_again wf₁ claims kids₁ turn.stand_after.1 turn.nodup_new (turn.elsewhere live outer.2)
      (turn.body_off wf bodyOff) (fun x mem p child => turn.parents wf mem child) unclaimed
  have unclaimedRest : ∀ x ∈ (plantsOf rest).map root, x ∉ claims₂ := by
    intro x mem there
    rcases (claimed x).mp there with before | now
    · exact unclaimed x (turn.root_old.mpr (.inr mem)) before
    · exact turn.rest_off ((map_root_sublist _).subset mem) ((map_root_sublist _).subset now)
  have bodyRest : d₂.body ∉ (plantsOf rest).map root := by
    rw [reseated.body, sprouted.body]
    exact fun mem => bodyOff (turn.root_old.mpr (.inr mem))
  obtain ⟨d₃, freed, cleared⟩ := discardUnclaimed_clears claims₂ (plantsOf rest) reseated.wellFormed
    (turn.stand_rest reseated outer.2) (List.nodup_append.mp turn.nodup_old).2.1
    (turn.loose_rest reseated wf₁ kids₁) unclaimedRest bodyRest
  exact ⟨d₃, claims₂, new, rest, d₁, d₂, laid, placed, freed, ⟨taken, fresh, turn⟩, reseated, cleared, shows', same,
    claimed⟩

omit wf kids stand shows apart unclaimed in
theorem Steps.updated {rest : List Entry} {value : Option (ValueOf Empty)} {d₁ d₂ : Document} {claims' : Claims}
    (steps : Steps d d' claims claims' q id front back old new rest (value.getD .null) d₁ d₂) :
    (Anchor.ofEntries id old).update (value.map ValueOf.plain) ⟨d, claims⟩ = .ok (.ofEntries id new) ⟨d', claims'⟩ := by
  have plain : (value.map ValueOf.plain).getD .null = ((value.getD .null).plain : Value) := by
    cases value <;> rfl
  have nodes : (rest.map Entry.remembered).flatMap (·.nodes) = (plantsOf rest).map root := by
    rw [List.flatMap_map, plantsOf, List.map_flatMap]
    rfl
  rw [Anchor.update, plain]
  refine (bind_ok steps.laid).trans ((bind_ok steps.placed).trans ?_)
  simp only [nodes]
  exact bind_ok steps.freed

/-- An anchor with entries follows a value without templates. -/
theorem update_again (value : Option (ValueOf Empty)) :
    ∃ d' claims' new,
      (Anchor.ofEntries id old).update (value.map ValueOf.plain) ⟨d, claims⟩ =
        .ok (.ofEntries id new) ⟨d', claims'⟩ ∧
      (∀ entry ∈ new, entry.Shows) ∧ trees (plantsOf new) = shown (value.getD .null).plain ∧
      Refilled d d' q id front back old new ∧
      ∀ x, x ∈ claims' ↔ x ∈ claims ∨ x ∈ (plantsOf new).map root := by
  obtain ⟨d', claims', new, rest, d₁, d₂, steps⟩ :=
    exists_steps wf claims kids stand shows apart unclaimed (value.getD .null)
  obtain ⟨taken, fresh, turn⟩ := steps.turn
  have live : d.contains q = true := wf.contains_parent (c := id) (by simp [kids])
  have outer : q ∉ idsAll (plantsOf old) := fun mem =>
    (List.nodup_cons.mp apart).1 (List.mem_cons_of_mem _ mem)
  exact ⟨d', claims', new, steps.updated, steps.shows, steps.trees,
    turn.refilled steps.reseated steps.cleared live outer, steps.claimed⟩

end Steps

end Render

end Inlay
