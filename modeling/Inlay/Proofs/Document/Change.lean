/-
# Proofs.Document.Change — what a change leaves of the nodes that outlive it

`Change` compares a document with a later one node by node, for the nodes that
are alive in both: their content is the same, and so are their parents, unless a
node is one of those that may have been moved. What is new stands below new nodes
or in the one container that took up moved ones. Making, moving and freeing nodes
are all changes in this sense, and one after the other they are one, as long as
nothing that was freed came back. Writing is none: it changes the content of one
node, but not its kind, and nothing else (`Touched`).
-/
import Inlay.Proofs.Document.Planting
import Inlay.Proofs.Document.Shuffle
import Inlay.Proofs.Document.Write

namespace Inlay.Document

set_option autoImplicit false

open Planted

variable {d d' d'' : Document} {x m : NodeId} {target : Option NodeId} {moved moved' : NodeId → Prop}
  {ps : List Planted}

structure Change (moved : NodeId → Prop) (target : Option NodeId) (d d' : Document) : Prop where
  wellFormed : WellFormed d'
  body : d'.body = d.body
  content : ∀ x, d.contains x = true → d'.contains x = true → d'.content? x = d.content? x
  parent : ∀ x, d.contains x = true → d'.contains x = true →
    d'.parent? x = d.parent? x ∨ moved x ∧ (d'.parent? x = none ∨ d'.parent? x = target)
  /-- A new node below an old one was put into the container. -/
  adopted : ∀ x p, d.contains x = false → d'.parent? x = some p → d.contains p = true → target = some p
  order : ∀ keep : NodeId → Bool,
    (∀ x, keep x = true → d.contains x = true ∧ d'.contains x = true ∧ ¬ moved x) → ∀ p,
      (d'.children p).filter keep = (d.children p).filter keep

namespace Change

theorem parent_eq (change : Change moved target d d') (live : d.contains x = true) (live' : d'.contains x = true)
    (stays : ¬ moved x) : d'.parent? x = d.parent? x :=
  (change.parent x live live').resolve_right fun both => stays both.1

/-- Only the container takes up nodes. -/
theorem children_subset (change : Change moved target d d') (wf : WellFormed d) (live : d.contains m = true)
    (away : target ≠ some m) : d'.children m ⊆ d.children m := by
  intro x mem
  have up := change.wellFormed.parent_iff.mpr mem
  cases old : d.contains x with
  | false => exact absurd (change.adopted x m old up live) away
  | true =>
      rcases change.parent x old (change.wellFormed.contains_child mem) with same | ⟨-, loose | there⟩
      · exact wf.parent_iff.mp (same ▸ up)
      · rw [loose] at up
        cases up
      · exact absurd (there.symm.trans up) away

/-- Where nothing was moved or freed and nothing was taken up, the list of children
is the same. -/
theorem children_eq (change : Change moved target d d') (wf : WellFormed d) (live : d.contains m = true)
    (away : target ≠ some m) (stay : ∀ x ∈ d.children m, d'.contains x = true ∧ ¬ moved x) :
    d'.children m = d.children m := by
  have order := change.order (fun x => decide (x ∈ d.children m))
    (fun x kept => by
      have mem : x ∈ d.children m := by simpa using kept
      exact ⟨wf.contains_child mem, stay x mem⟩) m
  rw [List.filter_eq_self.mpr fun x mem => by simpa using change.children_subset wf live away mem] at order
  rw [order, List.filter_eq_self.mpr (by simp)]

theorem trans (first : Change moved target d d') (second : Change moved target d' d'')
    (lasts : ∀ x, d.contains x = true → d''.contains x = true → d'.contains x = true) :
    Change moved target d d'' where
  wellFormed := second.wellFormed
  body := second.body.trans first.body
  content := fun x live live'' =>
    (second.content x (lasts x live live'') live'').trans (first.content x live (lasts x live live''))
  parent := fun x live live'' => by
    rcases second.parent x (lasts x live live'') live'' with same | gone
    · rw [same]
      exact first.parent x live (lasts x live live'')
    · exact .inr gone
  adopted := fun x p new up old => by
    have mem := second.wellFormed.parent_iff.mp up
    have between := lasts p old (second.wellFormed.contains_parent mem)
    cases alive : d'.contains x with
    | false => exact second.adopted x p alive up between
    | true =>
        rcases second.parent x alive (second.wellFormed.contains_child mem) with same | ⟨-, loose | there⟩
        · exact first.adopted x p new (same ▸ up) old
        · rw [loose] at up
          cases up
        · exact there.symm.trans up
  order := fun keep stays p => by
    refine (second.order keep (fun x kept => ?_) p).trans (first.order keep (fun x kept => ?_) p)
    · obtain ⟨old, new, still⟩ := stays x kept
      exact ⟨lasts x old new, new, still⟩
    · obtain ⟨old, new, still⟩ := stays x kept
      exact ⟨old, lasts x old new, still⟩

theorem mono (change : Change moved target d d') (more : ∀ x, moved x → moved' x) :
    Change moved' target d d' :=
  { change with
    parent := fun x live live' => (change.parent x live live').imp_right fun both => ⟨more x both.1, both.2⟩
    order := fun keep stays => change.order keep fun x kept =>
      ⟨(stays x kept).1, (stays x kept).2.1, fun moves => (stays x kept).2.2 (more x moves)⟩ }

theorem of_shuffled (shuffled : Shuffled moved target d d') : Change moved target d d' where
  wellFormed := shuffled.wellFormed
  body := shuffled.body
  content := fun x _ _ => by rw [shuffled.content]
  parent := fun x _ _ => shuffled.parent x
  adopted := fun x p new up _ => by
    have live := shuffled.wellFormed.contains_child (shuffled.wellFormed.parent_iff.mp up)
    rw [shuffled.contains, new] at live
    cases live
  order := fun keep stays => shuffled.order keep fun x kept => (stays x kept).2.2

/-- Making nodes that stand in no list of before. -/
theorem of_fresh {fresh : List NodeId} (wf : WellFormed d) (wf' : WellFormed d') (body : d'.body = d.body)
    (new : ∀ x ∈ fresh, d.contains x = false) (content : ∀ x, x ∉ fresh → d'.content? x = d.content? x)
    (children : ∀ x, x ∉ fresh → d'.children x = d.children x)
    (inside : ∀ p ∈ fresh, d'.children p ⊆ fresh) : Change moved target d d' := by
  have old : ∀ x, d.contains x = true → x ∉ fresh := fun x live mem => by
    rw [new x mem] at live
    cases live
  refine ⟨wf', body, fun x live _ => content x (old x live), fun x live _ => .inl ?_, fun x p dead up live => ?_,
    fun keep stays p => ?_⟩
  · refine parent?_congr wf wf' fun p => ?_
    by_cases mem : p ∈ fresh
    · rw [wf.children_eq_nil (new p mem)]
      exact iff_of_false (fun here => old x live (inside p mem here)) (by simp)
    · rw [children p mem]
  · have mem := wf'.parent_iff.mp up
    rw [children p (old p live)] at mem
    rw [wf.contains_child mem] at dead
    cases dead
  · by_cases mem : p ∈ fresh
    · rw [wf.children_eq_nil (new p mem)]
      refine List.filter_eq_nil_iff.mpr fun x here kept => ?_
      exact old x (stays x kept).1 (inside p mem here)
    · rw [children p mem]

/-- The children of planted trees are among them. -/
theorem children_subset_of_stand (wf : WellFormed d) (stand : StandAll d ps) {p : NodeId} (mem : p ∈ idsAll ps) :
    d.children p ⊆ idsAll ps := by
  intro x child
  obtain ⟨r, there, below⟩ := (stand.mem_idsAll wf p).mp mem
  exact (stand.mem_idsAll wf x).mpr ⟨r, there, below.head (wf.parent_iff.mpr child)⟩

/-- The children of a planted fragment and of the trees in it are among them. -/
theorem children_subset_of_potted {fragment : NodeId} (potted : Potted d d' fragment ps) {p : NodeId}
    (mem : p ∈ fragment :: idsAll ps) : d'.children p ⊆ fragment :: idsAll ps := by
  rcases List.mem_cons.mp mem with rfl | inner
  · rw [potted.kids]
    exact fun x child => List.mem_cons_of_mem _ ((map_root_sublist ps).subset child)
  · exact fun x child =>
      List.mem_cons_of_mem _ (children_subset_of_stand potted.wellFormed potted.stand inner child)

theorem of_sprouted (wf : WellFormed d) (sprouted : Sprouted d d' none ps) : Change moved target d d' :=
  .of_fresh wf sprouted.wellFormed sprouted.body sprouted.fresh sprouted.content
    (fun x out => by simpa using sprouted.children x out)
    fun _ mem => children_subset_of_stand sprouted.wellFormed sprouted.stand mem

theorem of_potted {fragment : NodeId} (wf : WellFormed d) (potted : Potted d d' fragment ps) :
    Change moved target d d' :=
  .of_fresh wf potted.wellFormed potted.body potted.fresh potted.content potted.children
    fun _ mem => children_subset_of_potted potted mem

end Change

/-- Planted trees stand as long as their nodes live and nothing is moved in or out. -/
theorem Change.standAll (change : Change moved target d d') (wf : WellFormed d) (stand : StandAll d ps)
    (live : ∀ x ∈ idsAll ps, d'.contains x = true)
    (stay : ∀ m ∈ idsAll ps, target ≠ some m ∧ ∀ x ∈ d.children m, ¬ moved x) : StandAll d' ps :=
  stand.congr fun x mem =>
    ⟨change.content x (stand.contains x mem) (live x mem),
      change.children_eq wf (stand.contains x mem) (stay x mem).1 fun y child =>
        ⟨live y (Change.children_subset_of_stand wf stand mem child), (stay x mem).2 y child⟩⟩

/-! ## Writing -/

/-- At most the content of one node was changed, and not what kind of node it is. -/
structure Touched (id : NodeId) (d d' : Document) : Prop where
  wellFormed : WellFormed d'
  children : d'.children = d.children
  body : d'.body = d.body
  contains : ∀ x, d'.contains x = d.contains x
  content : ∀ x, x ≠ id → d'.content? x = d.content? x
  fragment : ∀ x, d'.content? x = some .fragment ↔ d.content? x = some .fragment

namespace Touched

variable {id : NodeId}

theorem refl (wf : WellFormed d) : Touched id d d :=
  ⟨wf, rfl, rfl, fun _ => rfl, fun _ _ => rfl, fun _ => .rfl⟩

theorem trans (first : Touched id d d') (second : Touched id d' d'') : Touched id d d'' where
  wellFormed := second.wellFormed
  children := second.children.trans first.children
  body := second.body.trans first.body
  contains := fun x => (second.contains x).trans (first.contains x)
  content := fun x other => (second.content x other).trans (first.content x other)
  fragment := fun x => (second.fragment x).trans (first.fragment x)

theorem parent? (touched : Touched id d d') (wf : WellFormed d) (x : NodeId) : d'.parent? x = d.parent? x :=
  parent?_congr wf touched.wellFormed fun p => by rw [touched.children]

theorem of_becomes {old new : Content} (found : d.content? id = some old) (kind : SameKind old new)
    (becomes : Becomes d d' (fun x => if x = id then some new else d.content? x) d.children) : Touched id d d' := by
  have content : ∀ x, d'.content? x = if x = id then some new else d.content? x := congrFun becomes.content
  refine ⟨becomes.wellFormed, becomes.children, becomes.body, fun x => ?_,
    fun x other => (content x).trans (if_neg other), fun x => ?_⟩
  · rw [Bool.eq_iff_iff, contains_iff_content?, contains_iff_content?, content]
    by_cases here : x = id
    · subst here
      simp [found]
    · rw [if_neg here]
  · rw [content]
    by_cases here : x = id
    · subst here
      rw [if_pos rfl, found]
      cases kind <;> simp
    · rw [if_neg here]

variable {changed : Bool} {name value : String} {property : Property}

theorem of_setText (wf : WellFormed d) (done : setText id value d = .ok changed d') : Touched id d d' := by
  cases live : d.liveData id with
  | error fault => simp [setText, Edit.checked, live] at done
  | ok old =>
      rcases content_of_liveData live with found | found
      · obtain ⟨_, _, done', becomes⟩ := setText_text wf found value
        cases done.symm.trans done'
        exact of_becomes found (.text _ _) becomes
      · obtain ⟨_, _, done', becomes⟩ := setText_comment wf found value
        cases done.symm.trans done'
        exact of_becomes found (.comment _ _) becomes

theorem of_setAttribute (wf : WellFormed d) (done : setAttribute id name value d = .ok changed d') :
    Touched id d d' := by
  cases live : d.liveElement id with
  | error fault => simp [setAttribute, Edit.checked, live] at done
  | ok e =>
      have found := content_of_liveElement live
      obtain ⟨_, _, done', becomes⟩ := setAttribute_becomes wf found name value
      cases done.symm.trans done'
      exact of_becomes found (.element _ _) becomes

theorem of_removeAttribute (wf : WellFormed d) (done : removeAttribute id name d = .ok changed d') :
    Touched id d d' := by
  cases live : d.liveElement id with
  | error fault => simp [removeAttribute, Edit.checked, live] at done
  | ok e =>
      have found := content_of_liveElement live
      obtain ⟨_, _, done', becomes⟩ := removeAttribute_becomes wf found name
      cases done.symm.trans done'
      exact of_becomes found (.element _ _) becomes

theorem of_setProperty (wf : WellFormed d) (done : setProperty id name property d = .ok changed d') :
    Touched id d d' := by
  cases live : d.liveElement id with
  | error fault => simp [setProperty, Edit.checked, live] at done
  | ok e =>
      have found := content_of_liveElement live
      obtain ⟨_, _, done', becomes⟩ := setProperty_becomes wf found name property
      cases done.symm.trans done'
      exact of_becomes found (.element _ _) becomes

end Touched

end Inlay.Document
