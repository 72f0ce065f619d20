/-
# Proofs.Render.Pot — trees in fragments, and what stays as it was

A `Pot` is a fragment with the trees that stand in it: what an instance is
before its nodes are placed. An edit `Keeps` a document but for some nodes when
every other live node stays alive with its content and its children, so what
stands elsewhere goes on standing.
-/
import Inlay.Proofs.Render.Attire
import Inlay.Proofs.Render.Layout

namespace Inlay.Render

set_option autoImplicit false

open Relation Inlay.Document Inlay.Document.Planted Inlay.Markup

variable {d d' d'' : Document} {claims : Claims} {touched more : List NodeId} {x id fragment : NodeId}
  {ps : List Planted}

/-! ## Frames -/

/-- Nothing but some nodes was touched. -/
structure Keeps (touched : List NodeId) (d d' : Document) : Prop where
  wellFormed : WellFormed d'
  alive : ∀ x, d.contains x = true → d'.contains x = true
  content : ∀ x, d.contains x = true → x ∉ touched → d'.content? x = d.content? x
  children : ∀ x, d.contains x = true → x ∉ touched → d'.children x = d.children x

namespace Keeps

theorem refl (wf : WellFormed d) : Keeps touched d d :=
  ⟨wf, fun _ live => live, fun _ _ _ => rfl, fun _ _ _ => rfl⟩

theorem mono (keeps : Keeps touched d d') (sub : touched ⊆ more) : Keeps more d d' where
  wellFormed := keeps.wellFormed
  alive := keeps.alive
  content := fun x live away => keeps.content x live fun mem => away (sub mem)
  children := fun x live away => keeps.children x live fun mem => away (sub mem)

theorem trans (first : Keeps touched d d') (second : Keeps touched d' d'') : Keeps touched d d'' where
  wellFormed := second.wellFormed
  alive := fun x live => second.alive x (first.alive x live)
  content := fun x live away =>
    (second.content x (first.alive x live) away).trans (first.content x live away)
  children := fun x live away =>
    (second.children x (first.alive x live) away).trans (first.children x live away)

/-- What is touched later was not there at first. -/
theorem trans_away (first : Keeps touched d d') (second : Keeps more d' d'')
    (away : ∀ x ∈ more, d.contains x = false) : Keeps touched d d'' := by
  have off : ∀ x, d.contains x = true → x ∉ more := by
    intro x live mem
    rw [away x mem] at live
    cases live
  exact ⟨second.wellFormed, fun x live => second.alive x (first.alive x live),
    fun x live absent =>
      (second.content x (first.alive x live) (off x live)).trans (first.content x live absent),
    fun x live absent =>
      (second.children x (first.alive x live) (off x live)).trans (first.children x live absent)⟩

theorem stand (keeps : Keeps touched d d') (stand : StandAll d ps) (away : ∀ x ∈ idsAll ps, x ∉ touched) :
    StandAll d' ps :=
  stand.congr fun x mem =>
    ⟨keeps.content x (stand.contains x mem) (away x mem), keeps.children x (stand.contains x mem) (away x mem)⟩

theorem of_sprouted (sprouted : Sprouted d d' none ps) : Keeps touched d d' := by
  have old : ∀ x, d.contains x = true → x ∉ idsAll ps := by
    intro x live mem
    rw [sprouted.fresh x mem] at live
    cases live
  refine ⟨sprouted.wellFormed, fun x live => sprouted.contains live,
    fun x live _ => sprouted.content x (old x live), fun x live _ => ?_⟩
  rw [sprouted.children x (old x live), if_neg (by simp)]

theorem of_potted (potted : Potted d d' fragment ps) : Keeps touched d d' := by
  have old : ∀ x, d.contains x = true → x ∉ fragment :: idsAll ps := by
    intro x live mem
    rw [potted.fresh x mem] at live
    cases live
  refine ⟨potted.wellFormed, fun x live => ?_, fun x live _ => potted.content x (old x live),
    fun x live _ => potted.children x (old x live)⟩
  obtain ⟨c, found⟩ := contains_iff_content?.mp live
  exact contains_iff_content?.mpr ⟨c, (potted.content x (old x live)).trans found⟩

theorem of_putContent {content : Content}
    (becomes : Becomes d d' (putContent id content d.content?) d.children) (mem : id ∈ touched) :
    Keeps touched d d' := by
  refine ⟨becomes.wellFormed, fun x live => ?_, fun x live away => ?_,
    fun x _ _ => congrFun becomes.children x⟩
  · obtain ⟨c, found⟩ := contains_iff_content?.mp live
    rw [contains_iff_content?, becomes.content, putContent]
    split
    · exact ⟨content, rfl⟩
    · exact ⟨c, found⟩
  · rw [becomes.content, putContent, if_neg]
    rintro rfl
    exact away mem

end Keeps

/-! ## Pots -/

structure Pot where
  fragment : NodeId
  plants : List Planted

namespace Pot

variable {pot : Pot}

def roots (pot : Pot) : List NodeId := pot.plants.map root

def trees (pot : Pot) : List Tree := Planted.trees pot.plants

def ids (pot : Pot) : List NodeId := pot.fragment :: idsAll pot.plants

/-- The trees stand in the fragment. -/
structure Stands (d : Document) (pot : Pot) : Prop where
  isFragment : d.content? pot.fragment = some .fragment
  kids : d.children pot.fragment = pot.roots
  stand : StandAll d pot.plants

theorem Stands.contains (stands : pot.Stands d) : ∀ x ∈ pot.ids, d.contains x = true := by
  intro x mem
  rcases List.mem_cons.mp mem with rfl | mem
  · exact contains_iff_content?.mpr ⟨_, stands.isFragment⟩
  · exact stands.stand.contains x mem

theorem Stands.keeps (stands : pot.Stands d) (keeps : Keeps touched d d')
    (away : ∀ x ∈ pot.ids, x ∉ touched) : pot.Stands d' := by
  have live := stands.contains pot.fragment List.mem_cons_self
  have apart := away pot.fragment List.mem_cons_self
  exact ⟨(keeps.content _ live apart).trans stands.isFragment,
    (keeps.children _ live apart).trans stands.kids,
    keeps.stand stands.stand fun x mem => away x (List.mem_cons_of_mem _ mem)⟩

/-- A root has the fragment as its parent. -/
theorem Stands.parent? (wf : WellFormed d) (stands : pot.Stands d) (mem : x ∈ pot.roots) :
    d.parent? x = some pot.fragment :=
  wf.parent_iff.mpr (stands.kids ▸ mem)

/-- The body has no parent, so it is in no pot. -/
theorem Stands.body_not_mem (wf : WellFormed d) (stands : pot.Stands d) :
    d.body ∉ idsAll pot.plants := by
  intro mem
  obtain ⟨p, there, below⟩ := (stands.stand.mem_idsAll wf d.body).mp mem
  rcases ReflTransGen.cases_head below with same | ⟨q, up, -⟩
  · refine wf.body_not_mem_children pot.fragment ?_
    rw [same, stands.kids]
    exact List.mem_map_of_mem there
  · exact wf.body_not_mem_children q (wf.parent_iff.mp up)

end Pot

mutual

/-- No node of a standing tree is a fragment. -/
theorem not_fragment_of_stands : ∀ {p : Planted}, p.Stands d → ∀ x ∈ p.ids,
    d.content? x ≠ some .fragment
  | .element id tag attributes children, ⟨⟨e, found, _⟩, _, stand⟩, x, mem => by
      rcases List.mem_cons.mp mem with rfl | mem
      · simp [found]
      · exact not_fragment_of_standAll stand x mem
  | .text id content, found, x, mem => by
      rw [List.mem_singleton.mp mem, show d.content? id = _ from found]
      simp
  | .comment id body, found, x, mem => by
      rw [List.mem_singleton.mp mem, show d.content? id = _ from found]
      simp

theorem not_fragment_of_standAll : ∀ {ps : List Planted}, StandAll d ps → ∀ x ∈ idsAll ps,
    d.content? x ≠ some .fragment
  | [], _, _, mem => by cases mem
  | p :: rest, ⟨stands, stand⟩, x, mem =>
      (List.mem_append.mp mem).elim (not_fragment_of_stands stands x) (not_fragment_of_standAll stand x)

end

/-- No id occurs twice in a pot. -/
theorem Pot.Stands.nodup {pot : Pot} (wf : WellFormed d) (stands : pot.Stands d) : pot.ids.Nodup := by
  have apart : Apart d pot.roots := by
    have := Apart.children wf.linked wf.acyclic (List.pairwise_singleton _ pot.fragment)
    rwa [List.append_nil, stands.kids] at this
  refine List.nodup_cons.mpr ⟨fun mem => ?_, stands.stand.nodup wf apart⟩
  exact not_fragment_of_standAll stands.stand _ mem stands.isFragment

/-- The ids of standing trees hold every child with its parent. -/
theorem mem_idsAll_of_child (wf : WellFormed d) (stand : StandAll d ps) {q : NodeId}
    (mem : q ∈ idsAll ps) (child : x ∈ d.children q) : x ∈ idsAll ps := by
  obtain ⟨p, there, below⟩ := (stand.mem_idsAll wf q).mp mem
  exact (stand.mem_idsAll wf x).mpr ⟨p, there, ReflTransGen.head (wf.parent_iff.mpr child) below⟩

/-- No root of standing trees with distinct ids is a child of one of their nodes. -/
theorem not_child_of_root (wf : WellFormed d) (stand : StandAll d ps) (nodup : (idsAll ps).Nodup)
    (mem : x ∈ ps.map root) {q : NodeId} (inside : q ∈ idsAll ps) : x ∉ d.children q := by
  intro child
  obtain ⟨p, there, rfl⟩ := List.mem_map.mp mem
  obtain ⟨front, behind, rfl⟩ := List.append_of_mem there
  simp only [standAll_append, StandAll] at stand
  obtain ⟨before, here, after⟩ := stand
  simp only [idsAll_append, idsAll, List.nodup_append, List.mem_append] at nodup inside
  obtain ⟨-, ⟨-, -, apart⟩, apart'⟩ := nodup
  rcases inside with first | second | third
  · exact apart' _ (mem_idsAll_of_child wf before first child) _ (.inl root_mem_ids) rfl
  · exact wf.acyclic.not_below (wf.parent_iff.mpr child) ((here.mem_ids wf q).mp second)
  · exact apart _ root_mem_ids _ (mem_idsAll_of_child wf after third child) rfl

/-- The roots of detached new trees have no parent. -/
theorem parent?_of_sprouted (wf : WellFormed d) (sprouted : Sprouted d d' none ps)
    (mem : x ∈ ps.map root) : d'.parent? x = none := by
  have wf' := sprouted.wellFormed
  refine wf'.parent?_eq_none fun q child => ?_
  by_cases inside : q ∈ idsAll ps
  · exact not_child_of_root wf' sprouted.stand sprouted.nodup mem inside child
  · obtain ⟨p, there, rfl⟩ := List.mem_map.mp mem
    rw [sprouted.children q inside, if_neg (by simp)] at child
    have live := wf.contains_child child
    rw [sprouted.fresh _ (root_mem_idsAll there)] at live
    cases live

end Inlay.Render
