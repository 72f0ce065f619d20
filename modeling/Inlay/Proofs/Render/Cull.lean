/-
# Proofs.Render.Cull — discarding instances

Discarding frees what is below a node, but not what a survivor holds: survivors
that are found there are taken out first (`outermost`). So a set of nodes is
spared when every node of it that is no survivor has its parent in the set
(`Spared`): on the way up from such a node a survivor is met before anything that
is discarded. `discardAll_culled` says this of any list of instances whose
fragments are empty; discarding them is never refused.
-/
import Inlay.Proofs.Document.Shuffle
import Inlay.Proofs.Render.Layout

namespace Inlay.Document

set_option autoImplicit false

open Relation

variable {d : Document} {x : NodeId}

/-- No nodes are on a way up without an end. -/
theorem WellFormed.not_endless (wf : WellFormed d) {P : NodeId → Prop}
    (up : ∀ x, P x → ∃ p, d.parent? x = some p ∧ P p) : ¬ P x := by
  have long : ∀ (n : Nat) (x : NodeId), P x →
      ∃ l : List NodeId, l.length = n ∧ (x :: l).IsChain d.Up ∧ ∀ y ∈ x :: l, P y := by
    intro n
    induction n with
    | zero => exact fun x here => ⟨[], rfl, List.isChain_singleton x, by simpa using here⟩
    | succ n ih =>
        intro x here
        obtain ⟨p, isParent, there⟩ := up x here
        obtain ⟨l, length, chain, all⟩ := ih p there
        exact ⟨p :: l, by simp [length], List.isChain_cons_cons.mpr ⟨isParent, chain⟩,
          List.forall_mem_cons.mpr ⟨here, all⟩⟩
  intro here
  obtain ⟨l, length, chain, all⟩ := long d.slots.size x here
  have short := length_le_size (wf.acyclic.nodup_of_isChain chain) fun y mem => by
    obtain ⟨p, isParent, -⟩ := up y (all y mem)
    exact wf.contains_child (wf.parent_iff.mp isParent)
  simp only [List.length_cons, length] at short
  omega

end Inlay.Document

namespace Inlay.Render

set_option autoImplicit false

open Relation Inlay.Document

variable {d d' d'' : Document} {claims : Claims} {survivors : List NodeId} {node x : NodeId} {keep : NodeId → Prop}

/-! ## The outermost survivors -/

namespace Instance

theorem of_mem_outermost (wf : WellFormed d) : ∀ {fuel : Nat} {ids : List NodeId} {h : NodeId},
    h ∈ outermost survivors d fuel ids → h ∈ survivors ∧ ∃ r ∈ ids, Below d h r
  | 0, _, _, mem => by cases mem
  | _ + 1, [], _, mem => by cases mem
  | fuel + 1, id :: rest, h, mem => by
      rw [outermost] at mem
      split at mem
      · next survives =>
          rcases List.mem_cons.mp mem with rfl | later
          · exact ⟨by simpa using survives, h, List.mem_cons_self, ReflTransGen.refl⟩
          · obtain ⟨found, r, there, below⟩ := of_mem_outermost wf later
            exact ⟨found, r, List.mem_cons_of_mem _ there, below⟩
      · obtain ⟨found, r, there, below⟩ := of_mem_outermost wf mem
        rcases List.mem_append.mp there with child | later
        · exact ⟨found, id, List.mem_cons_self, below.tail (wf.parent_iff.mpr child)⟩
        · exact ⟨found, r, List.mem_cons_of_mem _ later, below⟩

/-- What is still to be visited is not the node that was. -/
theorem cover_rest (wf : WellFormed d) {id : NodeId} {rest all : List NodeId} (apart : Apart d (id :: rest))
    (cover : ∀ r ∈ id :: rest, ∀ y, Below d y r → y ∈ all) :
    (∀ r ∈ d.children id ++ rest, ∀ y, Below d y r → y ∈ all.erase id) ∧ (all.erase id).length + 1 = all.length := by
  have here := cover id List.mem_cons_self id ReflTransGen.refl
  refine ⟨fun r there y below => ?_, by
    rw [List.length_erase_of_mem here]
    exact Nat.succ_pred_eq_of_pos (List.length_pos_of_mem here)⟩
  have ne : y ≠ id := by
    rintro rfl
    rcases List.mem_append.mp there with child | later
    · exact wf.acyclic.not_below (wf.parent_iff.mpr child) below
    · exact ((List.pairwise_cons.mp apart).1 r later).1 below
  rw [List.mem_erase_of_ne ne]
  rcases List.mem_append.mp there with child | later
  · exact cover id List.mem_cons_self y (below.tail (wf.parent_iff.mpr child))
  · exact cover r (List.mem_cons_of_mem _ later) y below

/-- Every survivor below the nodes is at or below one that is met; as much fuel
is enough as there are nodes below. -/
theorem exists_outermost (wf : WellFormed d) : ∀ {fuel : Nat} {ids all : List NodeId}, Apart d ids →
    (∀ r ∈ ids, ∀ y, Below d y r → y ∈ all) → all.length ≤ fuel →
    ∀ r ∈ ids, ∀ y ∈ survivors, Below d y r → ∃ h ∈ outermost survivors d fuel ids, Below d y h
  | 0, ids, all, _, cover, short, r, mem, _, _, _ => by
      have here := cover r mem r ReflTransGen.refl
      rw [List.eq_nil_of_length_eq_zero (Nat.le_zero.mp short)] at here
      cases here
  | fuel + 1, [], _, _, _, _, _, mem, _, _, _ => by cases mem
  | fuel + 1, id :: rest, all, apart, cover, short, r, mem, y, survives, below => by
      have inner := apart.children wf.linked wf.acyclic
      obtain ⟨left, fewer⟩ := cover_rest wf apart cover
      have fewer : (all.erase id).length ≤ fuel := by omega
      rw [outermost]
      split
      · next stays =>
          rcases List.mem_cons.mp mem with rfl | later
          · exact ⟨r, List.mem_cons_self, below⟩
          · obtain ⟨h, found, under⟩ := exists_outermost wf (List.pairwise_cons.mp apart).2
              (fun r mem => left r (List.mem_append_right _ mem)) fewer r later y survives below
            exact ⟨h, List.mem_cons_of_mem _ found, under⟩
      · next goes =>
          have step := exists_outermost wf inner left fewer
          rcases List.mem_cons.mp mem with rfl | later
          · rcases below.cases_child with same | ⟨c, up, under⟩
            · exact absurd (same ▸ survives) (by simpa using goes)
            · exact step c (List.mem_append_left _ (wf.parent_iff.mp up)) y survives under
          · exact step r (List.mem_append_right _ later) y survives below

/-- More fuel than there are nodes below changes nothing. -/
theorem outermost_eq (wf : WellFormed d) : ∀ {fuel fuel' : Nat} {ids all : List NodeId}, Apart d ids →
    (∀ r ∈ ids, ∀ y, Below d y r → y ∈ all) → all.length ≤ fuel → all.length ≤ fuel' →
    outermost survivors d fuel ids = outermost survivors d fuel' ids
  | fuel, fuel', [], _, _, _, _, _ => by cases fuel <;> cases fuel' <;> rfl
  | fuel, fuel', id :: rest, all, apart, cover, enough, enough' => by
      obtain ⟨left, fewer⟩ := cover_rest wf apart cover
      obtain ⟨fuel, rfl⟩ : ∃ n, fuel = n + 1 := ⟨fuel - 1, by omega⟩
      obtain ⟨fuel', rfl⟩ : ∃ n, fuel' = n + 1 := ⟨fuel' - 1, by omega⟩
      rw [outermost, outermost]
      split
      · exact congrArg (id :: ·) (outermost_eq wf (List.pairwise_cons.mp apart).2
          (fun r mem => left r (List.mem_append_right _ mem)) (by omega) (by omega))
      · exact outermost_eq wf (apart.children wf.linked wf.acyclic) left (by omega) (by omega)

/-- The children of a live node, and as much fuel as there are slots. -/
theorem cover_children (wf : WellFormed d) (live : d.contains node = true) : Apart d (d.children node) ∧
    (∀ r ∈ d.children node, ∀ y, Below d y r → y ∈ d.descendants node) ∧ (d.descendants node).length ≤ d.slots.size := by
  have alone : Apart d [node] := List.pairwise_singleton _ node
  refine ⟨by simpa using alone.children wf.linked wf.acyclic, fun r mem y below =>
    wf.mem_descendants.mpr ⟨live, below.tail (wf.parent_iff.mpr mem)⟩, ?_⟩
  exact length_le_size (descendants_nodup wf.linked wf.acyclic) fun y mem =>
    wf.contains_of_below live (wf.mem_descendants.mp mem).2

theorem outermost_children (wf : WellFormed d) (node : NodeId) {fuel : Nat} (enough : d.slots.size ≤ fuel) :
    outermost survivors d d.slots.size (d.children node) = outermost survivors d fuel (d.children node) := by
  cases live : d.contains node with
  | true =>
      obtain ⟨apart, cover, short⟩ := cover_children wf live
      exact outermost_eq wf apart cover short (short.trans enough)
  | false =>
      rw [wf.children_eq_nil live]
      cases d.slots.size <;> cases fuel <;> rfl

end Instance

/-! ## Discarding -/

/-- Nodes were freed, and survivors taken out of their parents. -/
structure Culled (survivors : List NodeId) (d d' : Document) : Prop where
  wellFormed : WellFormed d'
  body : d'.body = d.body
  aged : Aged d d'
  content : ∀ x, d'.contains x = true → d'.content? x = d.content? x
  parent : ∀ x, d'.contains x = true →
    d'.parent? x = d.parent? x ∨ x ∈ survivors ∧ d'.parent? x = none
  order : ∀ kept : NodeId → Bool, (∀ x, kept x = true → x ∉ survivors ∧ d'.contains x = true) → ∀ p,
    (d'.children p).filter kept = (d.children p).filter kept
  sublist : ∀ p, (d'.children p).Sublist (d.children p)

namespace Culled

theorem refl (wf : WellFormed d) : Culled survivors d d :=
  ⟨wf, rfl, .refl d, fun _ _ => rfl, fun _ _ => .inl rfl, fun _ _ _ => rfl, fun _ => .refl _⟩

/-- Nothing was made. -/
theorem contains (culled : Culled survivors d d') (live : d'.contains x = true) : d.contains x = true := by
  obtain ⟨c, found⟩ := contains_iff_content?.mp live
  exact contains_iff_content?.mpr ⟨c, (culled.content x live).symm.trans found⟩

theorem dead (culled : Culled survivors d d') (gone : d.contains x = false) : d'.contains x = false := by
  by_contra live
  rw [culled.contains (by simpa using live)] at gone
  cases gone

theorem trans (first : Culled survivors d d') (second : Culled survivors d' d'') : Culled survivors d d'' where
  wellFormed := second.wellFormed
  body := second.body.trans first.body
  aged := first.aged.trans second.aged
  content := fun x live => (second.content x live).trans (first.content x (second.contains live))
  parent := fun x live => by
    rcases second.parent x live with same | loose
    · rw [same]
      exact first.parent x (second.contains live)
    · exact .inr loose
  order := fun kept stays p => (second.order kept stays p).trans
    (first.order kept (fun x keeps => ⟨(stays x keeps).1, second.contains (stays x keeps).2⟩) p)
  sublist := fun p => (second.sublist p).trans (first.sublist p)

end Culled

/-- The parents of the nodes are among them, those of survivors apart. -/
def Spared (survivors : List NodeId) (d : Document) (keep : NodeId → Prop) : Prop :=
  ∀ x, keep x → x ∉ survivors → ∀ p, d.parent? x = some p → keep p

theorem Spared.culled (spared : Spared survivors d keep) (culled : Culled survivors d d') :
    Spared survivors d' keep := by
  intro x here other p up
  have live := culled.wellFormed.contains_child (culled.wellFormed.parent_iff.mp up)
  rcases culled.parent x live with same | ⟨survives, -⟩
  · exact spared x here other p (same ▸ up)
  · exact absurd survives other

/-- On the way up from a spared node to one that is not, a survivor is met. -/
theorem Spared.meets (spared : Spared survivors d keep) (here : keep x) (out : ¬ keep node)
    (below : Below d x node) : ∃ h ∈ survivors, keep h ∧ Below d x h ∧ Below d h node ∧ h ≠ node := by
  induction below using ReflTransGen.head_induction_on with
  | refl => exact absurd here out
  | @head x p up below ih =>
      by_cases survives : x ∈ survivors
      · refine ⟨x, survives, here, ReflTransGen.refl, below.head up, ?_⟩
        rintro rfl
        exact out here
      · obtain ⟨h, found, kept, under, above, ne⟩ := ih (spared x here survives p up)
        exact ⟨h, found, kept, under.head up, above, ne⟩

/-- What is discarded with a node below which no spared one is. -/
theorem discard_culled (survivors : List NodeId) (wf : WellFormed d) (live : d.contains node = true) (inner : node ≠ d.body) :
    ∃ d', discard node d = .ok () d' ∧ Culled survivors d d' ∧
      (∀ x, d'.contains x = true ↔ d.contains x = true ∧ ¬ Below d x node) := by
  obtain ⟨d', done, becomes⟩ := discard_becomes wf live inner
  have alive : ∀ x, d'.contains x = true ↔ d.contains x = true ∧ ¬ Below d x node := by
    intro x
    rw [contains_iff_content?, becomes.content, contains_iff_content?]
    by_cases mem : x ∈ d.descendants node
    · simp [mem, (wf.mem_descendants.mp mem).2]
    · have out : ¬ Below d x node := fun below => mem (wf.mem_descendants.mpr ⟨live, below⟩)
      simp [mem, out]
  have stays : ∀ x, d'.contains x = true → x ∉ d.descendants node ∧ x ≠ node := fun x lives =>
    ⟨fun mem => ((alive x).mp lives).2 (wf.mem_descendants.mp mem).2,
      fun same => ((alive x).mp lives).2 (same ▸ ReflTransGen.refl)⟩
  refine ⟨d', done, ⟨becomes.wellFormed, becomes.body, becomes.aged, fun x lives => ?_, fun x lives => ?_,
    fun kept keeps p => ?_, fun p => ?_⟩, alive⟩
  · rw [becomes.content]
    exact if_neg (stays x lives).1
  · left
    refine parent?_congr wf becomes.wellFormed fun p => ?_
    rw [becomes.children]
    dsimp only
    split
    · next gone =>
        have below := (wf.mem_descendants.mp gone).2
        simp only [List.not_mem_nil, false_iff]
        exact fun mem => ((alive x).mp lives).2 (below.head (wf.parent_iff.mpr mem))
    · exact List.mem_erase_of_ne (stays x lives).2
  · rw [becomes.children]
    dsimp only
    split
    · next gone =>
        have below := (wf.mem_descendants.mp gone).2
        refine (List.filter_eq_nil_iff.mpr fun x mem keep => ?_).symm
        exact ((alive x).mp (keeps x keep).2).2 (below.head (wf.parent_iff.mpr mem))
    · refine filter_erase_of_not ?_ _
      cases keep : kept node with
      | false => rfl
      | true => exact absurd rfl (stays node (keeps node keep).2).2
  · rw [becomes.children]
    dsimp only
    split
    · exact List.nil_sublist _
    · exact List.erase_sublist

/-- What was below a node that is without a parent now is not below anything else. -/
theorem not_below_of_loose {g : NodeId} (wf : WellFormed d) (wf' : WellFormed d')
    (sub : ∀ p, d'.children p ⊆ d.children p) (below : Below d x g) (loose : ∀ p, ¬ d'.Up g p)
    (out : ¬ Below d node g) : ¬ Below d' x node := by
  intro below'
  induction below' using ReflTransGen.head_induction_on with
  | refl => exact out below
  | @head x p up _ ih =>
      rcases ReflTransGen.cases_head below with same | ⟨q, first, rest⟩
      · exact loose p (same ▸ up)
      · have up₀ : d.Up x p := wf.parent_iff.mpr (sub p (wf'.parent_iff.mp up))
        cases up_unique first up₀
        exact ih rest

/-- Taking survivors out of their parents. -/
theorem culled_of_without {ids : List NodeId} (wf : WellFormed d) (sub : ids ⊆ survivors)
    (becomes : Becomes d d' d.content? (without ids d.children)) : Culled survivors d d' := by
  refine ⟨becomes.wellFormed, becomes.body, becomes.aged, fun x _ => by rw [becomes.content], fun x _ => ?_,
    fun kept keeps p => ?_, fun p => by rw [becomes.children]; exact List.filter_sublist⟩
  · by_cases mem : x ∈ ids
    · refine .inr ⟨sub mem, becomes.wellFormed.parent?_eq_none fun p there => ?_⟩
      rw [becomes.children] at there
      simpa [mem] using (List.mem_filter.mp there).2
    · left
      refine parent?_congr wf becomes.wellFormed fun p => ?_
      rw [becomes.children, without, List.mem_filter]
      simp [mem]
  · rw [becomes.children, without, List.filter_filter]
    refine List.filter_congr fun x _ => ?_
    cases keep : kept x with
    | false => rfl
    | true =>
        have out : x ∉ ids := fun mem => (keeps x keep).1 (sub mem)
        simpa using out

namespace Instance

/-- A node that is discarded takes nothing spared with it. -/
theorem discardNode_culled (claims : Claims) (wf : WellFormed d) (inner : node ≠ d.body)
    (spared : Spared survivors d keep)
    (out : d.contains node = true → node ∉ survivors → ¬ keep node) :
    ∃ d', discardNode survivors node ⟨d, claims⟩ = .ok () ⟨d', claims⟩ ∧ Culled survivors d d' ∧
      (∀ x, keep x → d.contains x = true → d'.contains x = true) ∧
      (node ∉ survivors → d'.contains node = false) := by
  rw [discardNode, Act.bind_ask]
  by_cases goes : d.contains node = true ∧ node ∉ survivors
  · have inside : (d.contains node && !survivors.contains node) = true := by simpa using goes
    rw [if_pos inside, Act.bind_ask]
    obtain ⟨live, other⟩ := goes
    generalize chosen : outermost survivors d d.slots.size (d.children node) = rescued
    obtain ⟨apart, cover, short⟩ := cover_children wf live
    have under : ∀ h ∈ rescued, h ∈ survivors ∧ ∃ c ∈ d.children node, Below d h c := by
      rw [← chosen]
      exact fun h mem => of_mem_outermost wf mem
    have notBody : d.body ∉ rescued := by
      intro mem
      obtain ⟨c, child, below⟩ := (under _ mem).2
      rcases Relation.ReflTransGen.cases_head (below.tail (wf.parent_iff.mpr child)) with same | ⟨p, up, -⟩
      · exact inner same.symm
      · rw [Up, wf.body_loose] at up
        cases up
    obtain ⟨d₁, removed, taken⟩ := removeAll_becomes claims rescued wf (fun h mem => by
      obtain ⟨c, child, below⟩ := (under h mem).2
      exact wf.contains_of_below (wf.contains_child child) below) notBody
    have first := culled_of_without wf (fun h mem => (under h mem).1) taken
    have same : ∀ x, d₁.contains x = d.contains x := contains_congr taken.content
    obtain ⟨d₂, freed, second, alive⟩ := discard_culled survivors first.wellFormed
      ((same node).trans live) (first.body.symm ▸ inner)
    refine ⟨d₂, by rw [bind_ok removed]; exact Act.edit_ok freed, first.trans second,
      fun x here lives => (alive x).mpr ⟨(same x).trans lives, fun below => ?_⟩, fun _ => ?_⟩
    · -- what is spared below the node was below a survivor, which has been taken out
      have sub : ∀ p, d₁.children p ⊆ d.children p := fun p => (first.sublist p).subset
      have before := Below.of_children_subset wf first.wellFormed sub below
      obtain ⟨h, survives, -, upper, lower, ne⟩ := spared.meets here (out live other) before
      obtain ⟨c, up, lowest⟩ := lower.cases_child.resolve_left ne
      obtain ⟨g, found, beneath⟩ := exists_outermost wf apart cover short c (wf.parent_iff.mp up) h survives lowest
      rw [chosen] at found
      obtain ⟨c', child, lowest'⟩ := (under g found).2
      refine not_below_of_loose wf first.wellFormed sub (upper.trans beneath) (fun p up => ?_) ?_ below
      · have mem := first.wellFormed.parent_iff.mp up
        rw [taken.children] at mem
        simpa [found] using (List.mem_filter.mp mem).2
      · exact fun above => wf.acyclic.not_below (wf.parent_iff.mpr child) (above.trans lowest')
    · rw [← Bool.not_eq_true, alive]
      exact fun both => both.2 Relation.ReflTransGen.refl
  · have outside : ¬ (d.contains node && !survivors.contains node) = true := by simpa using goes
    rw [if_neg outside]
    refine ⟨d, rfl, .refl wf, fun _ _ live => live, fun other => ?_⟩
    by_contra live
    exact goes ⟨by simpa using live, other⟩

/-- What may be discarded: its nodes are survivors or not spared, and its fragment
is empty. -/
structure Disposable (survivors : List NodeId) (keep : NodeId → Prop) (d : Document) (inst : Instance) : Prop where
  inner : d.body ∉ inst.nodes
  out : ∀ node ∈ inst.nodes, d.contains node = true → node ∉ survivors → ¬ keep node
  isFragment : d.contains inst.fragment = true → d.content? inst.fragment = some .fragment
  empty : d.children inst.fragment = []
  apart : ¬ keep inst.fragment

theorem Disposable.culled {inst : Instance} (disposable : Disposable survivors keep d inst)
    (culled : Culled survivors d d') : Disposable survivors keep d' inst where
  inner := culled.body ▸ disposable.inner
  out := fun node mem live => disposable.out node mem (culled.contains live)
  isFragment := fun live => (culled.content _ live).trans (disposable.isFragment (culled.contains live))
  empty := List.eq_nil_of_subset_nil (disposable.empty ▸ (culled.sublist _).subset)
  apart := disposable.apart

/-- What discarding has done: nothing spared was freed, and some things were. -/
structure Discarded (survivors : List NodeId) (keep gone : NodeId → Prop) (d d' : Document) : Prop where
  culled : Culled survivors d d'
  kept : ∀ x, keep x → d.contains x = true → d'.contains x = true
  gone : ∀ x, gone x → d'.contains x = false

/-- Discarding one thing after the other. -/
theorem forM_discarded {α : Type} {f : α → Act Unit} (fit : Document → α → Prop) (gone : α → NodeId → Prop)
    (claims : Claims)
    (step : ∀ {d : Document} (a : α), WellFormed d → Spared survivors d keep → fit d a →
      ∃ d', f a ⟨d, claims⟩ = .ok () ⟨d', claims⟩ ∧ Discarded survivors keep (gone a) d d')
    (later : ∀ {d d' : Document} (a : α), WellFormed d → Culled survivors d d' → fit d a → fit d' a) :
    ∀ (list : List α) {d : Document}, WellFormed d → Spared survivors d keep → (∀ a ∈ list, fit d a) →
      ∃ d', list.forM f ⟨d, claims⟩ = .ok () ⟨d', claims⟩ ∧
        Discarded survivors keep (fun x => ∃ a ∈ list, gone a x) d d'
  | [], d, wf, _, _ => ⟨d, rfl, .refl wf, fun _ _ live => live, by simp⟩
  | a :: rest, d, wf, spared, fits => by
      obtain ⟨here, others⟩ := List.forall_mem_cons.mp fits
      obtain ⟨d₁, done, first⟩ := step a wf spared here
      obtain ⟨d₂, done', second⟩ := forM_discarded fit gone claims step later rest first.culled.wellFormed
        (spared.culled first.culled) fun b mem => later b wf first.culled (others b mem)
      refine ⟨d₂, (bind_ok done).trans done', first.culled.trans second.culled,
        fun x keeps live => second.kept x keeps (first.kept x keeps live), fun x => ?_⟩
      rintro ⟨b, mem, gone⟩
      rcases List.mem_cons.mp mem with rfl | mem
      · exact second.culled.dead (first.gone x gone)
      · exact second.gone x ⟨b, mem, gone⟩

theorem discard_discarded (claims : Claims) {inst : Instance} (wf : WellFormed d)
    (spared : Spared survivors d keep) (disposable : Disposable survivors keep d inst) :
    ∃ d', inst.discard survivors ⟨d, claims⟩ = .ok () ⟨d', claims⟩ ∧
      Discarded survivors keep (fun x => x = inst.fragment ∨ x ∈ inst.nodes ∧ x ∉ survivors) d d' := by
  obtain ⟨d₁, done, first⟩ := forM_discarded
    (fun d node => node ≠ d.body ∧ (d.contains node = true → node ∉ survivors → ¬ keep node))
    (fun node x => x = node ∧ x ∉ survivors) claims
    (fun node wf (spared : Spared survivors _ keep) fit => by
      obtain ⟨d', done, culled, kept, gone⟩ := discardNode_culled claims wf fit.1 spared fit.2
      exact ⟨d', done, culled, kept, fun x same => same.1 ▸ gone (same.1 ▸ same.2)⟩)
    (fun node _ culled fit => ⟨culled.body ▸ fit.1, fun live => fit.2 (culled.contains live)⟩)
    inst.nodes wf spared fun node mem =>
      ⟨fun same => disposable.inner (same ▸ mem), disposable.out node mem⟩
  have left := disposable.culled first.culled
  rw [discard, bind_ok done, Act.bind_ask]
  cases alive : d₁.contains inst.fragment with
  | false =>
      refine ⟨d₁, rfl, first.culled, first.kept, ?_⟩
      rintro x (rfl | ⟨mem, other⟩)
      · exact alive
      · exact first.gone x ⟨x, mem, rfl, other⟩
  | true =>
      have inner : inst.fragment ≠ d₁.body := by
        intro same
        obtain ⟨e, found⟩ := first.culled.wellFormed.body_element
        rw [← same, left.isFragment alive] at found
        cases found
      obtain ⟨d₂, freed, second, alive₂⟩ := discard_culled survivors first.culled.wellFormed
        alive inner
      -- nothing else is below a fragment that is empty
      have alone : ∀ x, Below d₁ x inst.fragment → x = inst.fragment := by
        intro x below
        refine below.cases_child.resolve_right ?_
        rintro ⟨c, up, -⟩
        have mem := first.culled.wellFormed.parent_iff.mp up
        rw [left.empty] at mem
        cases mem
      refine ⟨d₂, by rw [if_pos rfl]; exact Act.edit_ok freed, first.culled.trans second,
        fun x here live => (alive₂ x).mpr ⟨first.kept x here live, fun below => ?_⟩, ?_⟩
      · exact left.apart (alone x below ▸ here)
      · rintro x (rfl | ⟨mem, other⟩)
        · rw [← Bool.not_eq_true, alive₂]
          exact fun both => both.2 Relation.ReflTransGen.refl
        · exact second.dead (first.gone x ⟨x, mem, rfl, other⟩)

/-- Discarding instances is not refused and frees their nodes and fragments, those
of survivors apart. -/
theorem discardAll_discarded (claims : Claims) (insts : List Instance) (wf : WellFormed d)
    (spared : Spared survivors d keep) (disposable : ∀ inst ∈ insts, Disposable survivors keep d inst) :
    ∃ d', insts.forM (Instance.discard survivors) ⟨d, claims⟩ = .ok () ⟨d', claims⟩ ∧
      Discarded survivors keep
        (fun x => ∃ inst ∈ insts, x = inst.fragment ∨ x ∈ inst.nodes ∧ x ∉ survivors) d d' :=
  forM_discarded _ _ claims (fun _ wf spared fit => discard_discarded claims wf spared fit)
    (fun _ _ culled fit => fit.culled culled) insts wf spared disposable

end Instance

end Inlay.Render
