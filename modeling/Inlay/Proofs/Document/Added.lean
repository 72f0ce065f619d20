/-
# Proofs.Document.Added — new nodes beside the old ones

A node is told by its content, its list of children, its parent and the list it stands in
(`WellFormed.get?_congr`), so a document in which these are the same holds the same node.
Where nodes are `Added`, every id that is not one of theirs names what it named before, and
the size and the balance of the tally tell how many they are. Planting trees adds their nodes,
and so does reading markup into a fragment.
-/
import Inlay.Proofs.Document.Change
import Inlay.Proofs.Document.Forest

namespace Inlay.Document

set_option autoImplicit false

open Inlay.Markup Planted

variable {d d' : Document} {x fragment : NodeId} {ps : List Planted} {news : List NodeId}

/-! ## What tells a node -/

theorem WellFormed.get?_congr (wf : WellFormed d) (wf' : WellFormed d') (content : d'.content? x = d.content? x)
    (children : d'.children x = d.children x) (parent : d'.parent? x = d.parent? x)
    (siblings : ∀ p, d.parent? x = some p → d'.children p = d.children p) : d'.get? x = d.get? x := by
  have first : d'.firstChild? x = d.firstChild? x := by rw [wf'.linked.first, wf.linked.first, children]
  have last : d'.lastChild? x = d.lastChild? x := by rw [wf'.linked.last, wf.linked.last, children]
  have beside : d'.previousSibling? x = d.previousSibling? x ∧ d'.nextSibling? x = d.nextSibling? x := by
    cases up : d.parent? x with
    | none =>
        obtain ⟨previous, next⟩ := wf.linked.loose x up
        obtain ⟨previous', next'⟩ := wf'.linked.loose x (parent.trans up)
        exact ⟨previous'.trans previous.symm, next'.trans next.symm⟩
    | some p =>
        obtain ⟨front, behind, split⟩ := List.append_of_mem (wf.parent_iff.mp up)
        obtain ⟨-, previous, next⟩ := wf.linked.around p front x behind split
        obtain ⟨-, previous', next'⟩ := wf'.linked.around p front x behind ((siblings p up).trans split)
        exact ⟨previous'.trans previous.symm, next'.trans next.symm⟩
  unfold content? at content
  unfold parent? at parent
  unfold firstChild? at first
  unfold lastChild? at last
  unfold previousSibling? nextSibling? at beside
  cases found : d.get? x with
  | none =>
      rw [found] at content
      exact Option.map_eq_none_iff.mp content
  | some n =>
      rw [found] at content parent first last beside
      obtain ⟨n', found', same⟩ := Option.map_eq_some_iff.mp content
      rw [found'] at parent first last beside ⊢
      obtain ⟨content', parent', first', last', previous', next'⟩ := n'
      obtain ⟨content, parent, first, last, previous, next⟩ := n
      simp_all

/-- Documents with the same contents and the same lists hold the same nodes. -/
theorem Becomes.get? (becomes : Becomes d d' d.content? d.children) (wf : WellFormed d) (x : NodeId) :
    d'.get? x = d.get? x := by
  refine wf.get?_congr becomes.wellFormed (by rw [becomes.content]) (by rw [becomes.children]) ?_ fun p _ => ?_
  · exact parent?_congr wf becomes.wellFormed fun p => by rw [becomes.children]
  · rw [becomes.children]

/-! ## Added nodes -/

/-- Some nodes are new, and the others are as they were. -/
structure Added (d d' : Document) (news : List NodeId) : Prop where
  wellFormed : WellFormed d'
  fresh : ∀ x ∈ news, d.contains x = false
  nodup : news.Nodup
  live : ∀ x ∈ news, d'.contains x = true
  kept : ∀ x, x ∉ news → d'.get? x = d.get? x
  /-- No new node stands in an old one. -/
  apart : ∀ x ∈ news, ∀ p, d'.parent? x = some p → p ∈ news

namespace Added

theorem contains_iff (added : Added d d' news) (x : NodeId) :
    d'.contains x = true ↔ d.contains x = true ∨ x ∈ news := by
  by_cases new : x ∈ news
  · exact iff_of_true (added.live x new) (.inr new)
  · rw [contains, added.kept x new, or_iff_left new]
    rfl

/-- What was live is as it was. -/
theorem get?_of_live (added : Added d d' news) (live : d.contains x = true) : d'.get? x = d.get? x := by
  refine added.kept x fun new => ?_
  rw [added.fresh x new] at live
  cases live

theorem size (added : Added d d' news) (wf : WellFormed d) : d'.size = d.size + news.length :=
  added.wellFormed.size_eq_add wf added.nodup added.fresh added.contains_iff

/-- Where none was freed, as many nodes were created as are new. -/
theorem created (added : Added d d' news) (wf : WellFormed d)
    (discarded : d'.tally.discarded = d.tally.discarded) : d'.tally.created = d.tally.created + news.length := by
  have size := added.size wf
  have before := wf.kept.balance
  have behind := added.wellFormed.kept.balance
  omega

/-- What stands in no list of before, and takes up nothing of before, is added. -/
theorem of_fresh (wf : WellFormed d) (wf' : WellFormed d') (body : d'.body = d.body)
    (fresh : ∀ x ∈ news, d.contains x = false) (nodup : news.Nodup) (live : ∀ x ∈ news, d'.contains x = true)
    (content : ∀ x, x ∉ news → d'.content? x = d.content? x)
    (children : ∀ x, x ∉ news → d'.children x = d.children x)
    (inside : ∀ p ∈ news, d'.children p ⊆ news) : Added d d' news := by
  refine ⟨wf', fresh, nodup, live, fun x old => ?_, fun x new p up => ?_⟩
  · have change : Change (fun _ => False) none d d' := .of_fresh wf wf' body fresh content children inside
    cases alive : d.contains x with
    | false =>
        have none : d'.content? x = none := (content x old).trans (content?_eq_none alive)
        rw [Option.map_eq_none_iff.mp none, Option.map_eq_none_iff.mp (content?_eq_none alive)]
    | true =>
        have alive' : d'.contains x = true := by
          obtain ⟨c, found⟩ := contains_iff_content?.mp alive
          exact contains_iff_content?.mpr ⟨c, (content x old).trans found⟩
        refine wf.get?_congr wf' (content x old) (children x old) (change.parent_eq alive alive' id) fun p up => ?_
        refine children p fun new => ?_
        have above := wf.contains_parent (wf.parent_iff.mp up)
        rw [fresh p new] at above
        cases above
  · by_contra old
    have mem := wf'.parent_iff.mp up
    rw [children p old] at mem
    have before := wf.contains_child mem
    rw [fresh x new] at before
    cases before

theorem of_sprouted (wf : WellFormed d) (sprouted : Sprouted d d' none ps) : Added d d' (idsAll ps) :=
  .of_fresh wf sprouted.wellFormed sprouted.body sprouted.fresh sprouted.nodup sprouted.stand.contains
    sprouted.content (fun x out => by simpa using sprouted.children x out)
    fun _ mem => Change.children_subset_of_stand sprouted.wellFormed sprouted.stand mem

theorem of_potted (wf : WellFormed d) (potted : Potted d d' fragment ps) : Added d d' (fragment :: idsAll ps) := by
  have live : d'.contains fragment = true := contains_iff_content?.mpr ⟨_, potted.isFragment⟩
  exact .of_fresh wf potted.wellFormed potted.body potted.fresh potted.nodup
    (List.forall_mem_cons.mpr ⟨live, potted.stand.contains⟩) potted.content potted.children
    fun _ mem => Change.children_subset_of_potted potted mem

end Added

/-- What is below a planted fragment. -/
theorem Potted.descendants_eq (potted : Potted d d' fragment ps) : d'.descendants fragment = fragment :: idsAll ps :=
  Document.descendants_eq potted.wellFormed (contains_iff_content?.mpr ⟨_, potted.isFragment⟩) potted.kids potted.stand

end Inlay.Document
