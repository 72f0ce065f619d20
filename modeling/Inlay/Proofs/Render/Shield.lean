/-
# Proofs.Render.Shield — which nodes are freed with an instance

A survivor shields what is below it: a node is freed with a node of the instance
that it is below exactly if no survivor is met on the way up to that one
(`Exposed`). Discarding nodes one after the other frees just the nodes exposed to
one of them in the document at the beginning, whatever the order
(`discardNodes_frees`). For a way up is lost only with a node on it, and what is
exposed to a node that is exposed to a second one is exposed to that too.

The fragment of the instance is freed last, with all that still stands in it, and
that may be survivors (`Stranded`): those between which and the fragment there was
no node of the instance to be discarded. `discard_frees` says which nodes are freed,
`discard_shields` what that means for survivors and for the nodes of the instance.
-/
import Inlay.Proofs.Render.Cull
import Inlay.Proofs.Render.Shuffle
import Inlay.Proofs.Render.Steady

namespace Inlay.Document

set_option autoImplicit false

open Relation

variable {d : Document} {a x y : NodeId}

theorem WellFormed.below_antisymm (wf : WellFormed d) (down : Below d x y) (up : Below d y x) : x = y := by
  rcases ReflTransGen.cases_head down with same | ⟨p, first, rest⟩
  · exact same
  · exact absurd (rest.trans up) (wf.acyclic.not_below first)

/-- What is above a live node is alive. -/
theorem WellFormed.contains_above (wf : WellFormed d) (live : d.contains x = true) (below : Below d x a) :
    d.contains a = true := by
  rcases ReflTransGen.cases_tail below with same | ⟨c, -, last⟩
  · exact same ▸ live
  · exact wf.contains_parent (wf.parent_iff.mp last)

end Inlay.Document

namespace Inlay.Render

set_option autoImplicit false

open Relation Inlay.Document

variable {d d' d'' : Document} {claims : Claims} {survivors nodes : List NodeId} {a h node s x y z p : NodeId}
  {inst : Instance}

/-! ## Exposed nodes -/

/-- The node is at or below another one, and no survivor is met on the way up to it. -/
def Exposed (survivors : List NodeId) (d : Document) (x node : NodeId) : Prop :=
  Below d x node ∧ ∀ s ∈ survivors, Below d x s → ¬ Below d s node

namespace Exposed

theorem trans (first : Exposed survivors d x y) (second : Exposed survivors d y z) : Exposed survivors d x z := by
  refine ⟨first.1.trans second.1, fun s mem above below => ?_⟩
  rcases above.total first.1 with under | atop
  · exact first.2 s mem above under
  · exact second.2 s mem atop below

/-- The first part of a way up on which no survivor is met. -/
theorem lower (exposed : Exposed survivors d x z) (first : Below d x y) (second : Below d y z) :
    Exposed survivors d x y :=
  ⟨first, fun s mem above below => exposed.2 s mem above (below.trans second)⟩

/-- The last part of it. -/
theorem upper (exposed : Exposed survivors d x z) (first : Below d x y) (second : Below d y z) :
    Exposed survivors d y z :=
  ⟨second, fun s mem above below => exposed.2 s mem (first.trans above) below⟩

theorem refl (wf : WellFormed d) (goes : x ∉ survivors) : Exposed survivors d x x :=
  ⟨.refl, fun _ mem above below => goes (wf.below_antisymm above below ▸ mem)⟩

end Exposed

/-- On the way up from a survivor that is met no other one is. -/
theorem alone_of_mem_outermost (wf : WellFormed d) : ∀ {fuel : Nat} {ids : List NodeId},
    h ∈ Instance.outermost survivors d fuel ids →
      ∃ r ∈ ids, Below d h r ∧ ∀ s ∈ survivors, Below d h s → Below d s r → s = h
  | 0, _, mem => by cases mem
  | _ + 1, [], mem => by cases mem
  | fuel + 1, id :: rest, mem => by
      rw [Instance.outermost] at mem
      split at mem
      · rcases List.mem_cons.mp mem with rfl | later
        · exact ⟨h, List.mem_cons_self, .refl, fun s _ up down => wf.below_antisymm down up⟩
        · obtain ⟨r, there, found⟩ := alone_of_mem_outermost wf later
          exact ⟨r, List.mem_cons_of_mem _ there, found⟩
      · next goes =>
          obtain ⟨r, there, below, alone⟩ := alone_of_mem_outermost wf mem
          rcases List.mem_append.mp there with child | later
          · have up : d.Up r id := wf.parent_iff.mpr child
            refine ⟨id, List.mem_cons_self, below.tail up, fun s survives above under => ?_⟩
            rcases under.cases_child with same | ⟨c, up', inside⟩
            · exact absurd (same ▸ survives) (by simpa using goes)
            · refine alone s survives above ?_
              -- both children of `id` are on the one way up
              rcases below.total (above.trans inside) with one | two
              · rcases ReflTransGen.cases_head one with same | ⟨q, first, atop⟩
                · exact same ▸ inside
                · exact absurd (up_unique first up ▸ atop) (wf.acyclic.not_below up')
              · exact inside.trans two
          · exact ⟨r, List.mem_cons_of_mem _ later, below, alone⟩

/-! ## Documents that have lost nodes -/

/-- Some nodes were freed, and nothing else happened to the others than that those whose parents
were freed have none. -/
structure Pruned (d d' : Document) : Prop where
  wellFormed : WellFormed d'
  body : d'.body = d.body
  contains : ∀ x, d'.contains x = true → d.contains x = true
  content : ∀ x, d'.contains x = true → d'.content? x = d.content? x
  up : ∀ x p, d'.Up x p ↔ d.Up x p ∧ d'.contains x = true ∧ d'.contains p = true

namespace Pruned

theorem refl (wf : WellFormed d) : Pruned d d where
  wellFormed := wf
  body := rfl
  contains := fun _ live => live
  content := fun _ _ => rfl
  up := fun _ _ => ⟨fun up => ⟨up, wf.contains_child (wf.parent_iff.mp up), wf.contains_parent (wf.parent_iff.mp up)⟩,
    fun both => both.1⟩

theorem trans (first : Pruned d d') (second : Pruned d' d'') : Pruned d d'' where
  wellFormed := second.wellFormed
  body := second.body.trans first.body
  contains := fun x live => first.contains x (second.contains x live)
  content := fun x live => (second.content x live).trans (first.content x (second.contains x live))
  up := fun x p => by
    rw [second.up, first.up]
    constructor
    · rintro ⟨⟨up, -, -⟩, live, above⟩
      exact ⟨up, live, above⟩
    · rintro ⟨up, live, above⟩
      exact ⟨⟨up, second.contains x live, second.contains p above⟩, live, above⟩

variable (pruned : Pruned d d')
include pruned

theorem below (below : Below d' x a) : Below d x a :=
  ReflTransGen.mono (r := d'.Up) (p := d.Up) (fun x p up => ((pruned.up x p).mp up).1) x a below

/-- A way up on which every node is alive is still there. -/
theorem below_of_alive (below : Below d x a) (alive : ∀ y, Below d x y → Below d y a → d'.contains y = true) :
    Below d' x a := by
  induction below using ReflTransGen.head_induction_on with
  | refl => exact .refl
  | @head x p up rest ih =>
      refine .head ((pruned.up x p).mpr ⟨up, alive x .refl (rest.head up), alive p (.single up) rest⟩) ?_
      exact ih fun y above under => alive y (above.head up) under

/-- A way up that is still there goes through the same nodes. -/
theorem between (wf : WellFormed d) (below : Below d' x a) (above : Below d x y) (under : Below d y a) :
    Below d' x y ∧ Below d' y a := by
  induction below using ReflTransGen.head_induction_on with
  | refl =>
      cases wf.below_antisymm above under
      exact ⟨.refl, .refl⟩
  | @head x p up rest ih =>
      rcases ReflTransGen.cases_head above with rfl | ⟨q, first, above⟩
      · exact ⟨.refl, rest.head up⟩
      · cases up_unique first ((pruned.up x p).mp up).1
        obtain ⟨lower, upper⟩ := ih above
        exact ⟨lower.head up, upper⟩

end Pruned

/-! ## Discarding one node -/

/-- Freeing a node with all that is below it. -/
theorem discard_pruned (wf : WellFormed d) (freed : discard node d = .ok () d') :
    Pruned d d' ∧ ∀ x, d'.contains x = true ↔ d.contains x = true ∧ ¬ Below d x node := by
  obtain ⟨d₁, -, live, inner⟩ : ∃ d', remove node d = .ok () d' ∧ d.contains node = true ∧ node ≠ d.body := by
    refine (remove_cases wf node).resolve_left fun ⟨fault, refused⟩ => ?_
    rw [Document.discard, Edit.bind_error refused] at freed
    cases freed
  obtain ⟨d₂, again, culled, alive⟩ := discard_culled [] wf live inner
  cases freed.symm.trans again
  refine ⟨⟨culled.wellFormed, culled.body, fun x => culled.contains, culled.content,
    fun x p => ⟨fun up => ?_, ?_⟩⟩, alive⟩
  · have mem := culled.wellFormed.parent_iff.mp up
    exact ⟨wf.parent_iff.mpr ((culled.sublist p).subset mem), culled.wellFormed.contains_child mem,
      culled.wellFormed.contains_parent mem⟩
  · rintro ⟨up, here, -⟩
    exact ((culled.parent x here).resolve_right fun loose => List.not_mem_nil loose.1).trans up

/-- Taking the outermost survivors out from below a node leaves below it what is exposed to it. -/
theorem below_iff_exposed (wf : WellFormed d) (live : d.contains node = true) (goes : node ∉ survivors)
    (becomes : Becomes d d' d.content?
      (without (Instance.outermost survivors d d.slots.size (d.children node)) d.children)) :
    Below d' x node ↔ Exposed survivors d x node := by
  obtain ⟨apart, cover, short⟩ := Instance.cover_children wf live
  have sub : ∀ p, d'.children p ⊆ d.children p := fun p => by
    rw [becomes.children]
    exact List.filter_subset_self _
  constructor
  · intro below
    refine ⟨Below.of_children_subset wf becomes.wellFormed sub below, fun s survives above under => ?_⟩
    obtain ⟨c, up, inside⟩ := under.cases_child.resolve_left fun same => goes (same ▸ survives)
    obtain ⟨g, found, beneath⟩ :=
      Instance.exists_outermost wf apart cover short c (wf.parent_iff.mp up) s survives inside
    obtain ⟨-, r, child, lowest⟩ := Instance.of_mem_outermost wf found
    refine not_below_of_loose wf becomes.wellFormed sub (above.trans beneath) (fun p up => ?_) ?_ below
    · have mem := becomes.wellFormed.parent_iff.mp up
      rw [becomes.children] at mem
      simpa [found] using (List.mem_filter.mp mem).2
    · exact fun atop => wf.acyclic.not_below (wf.parent_iff.mpr child) (atop.trans lowest)
  · rintro ⟨below, clear⟩
    induction below using ReflTransGen.head_induction_on with
    | refl => exact .refl
    | @head x p up rest ih =>
        have other : x ∉ survivors := fun mem => clear x mem .refl (rest.head up)
        refine .head (becomes.wellFormed.parent_iff.mpr ?_) (ih fun s mem above => clear s mem (above.head up))
        rw [becomes.children]
        exact List.mem_filter.mpr ⟨wf.parent_iff.mp up, by
          simpa using fun found => other (Instance.of_mem_outermost wf found).1⟩

/-- What is above an outermost survivor, up to the node, is exposed to the node. -/
theorem exposed_of_outermost (wf : WellFormed d) (goes : node ∉ survivors)
    (found : h ∈ Instance.outermost survivors d d.slots.size (d.children node)) (up : d.Up h p) :
    Exposed survivors d p node := by
  obtain ⟨r, child, below, alone⟩ := alone_of_mem_outermost wf found
  have atop : d.Up r node := wf.parent_iff.mpr child
  have under : Below d p node := by
    rcases ReflTransGen.cases_head below with rfl | ⟨q, first, rest⟩
    · exact up_unique atop up ▸ .refl
    · exact up_unique first up ▸ rest.tail atop
  refine ⟨under, fun s survives above inside => ?_⟩
  obtain ⟨c, up', lowest⟩ := inside.cases_child.resolve_left fun same => goes (same ▸ survives)
  have between : Below d s r := by
    rcases below.total ((above.trans lowest).head up) with one | two
    · rcases ReflTransGen.cases_head one with same | ⟨q, first, rest⟩
      · exact same ▸ lowest
      · exact absurd (up_unique first atop ▸ rest) (wf.acyclic.not_below up')
    · exact lowest.trans two
  have same := alone s survives (above.head up) between
  exact wf.acyclic.not_below up (same ▸ above)

/-- Discarding a node that is no survivor frees what is exposed to it. -/
theorem discardLive_frees (claims : Claims) (wf : WellFormed d) (live : d.contains node = true)
    (goes : node ∉ survivors) :
    (node ≠ d.body → ∃ d', Instance.discardNode survivors node ⟨d, claims⟩ = .ok () ⟨d', claims⟩) ∧
      ∀ stage, Instance.discardNode survivors node ⟨d, claims⟩ = .ok () stage → stage.claims = claims ∧
        Pruned d stage.document ∧
        ∀ x, stage.document.contains x = true ↔ d.contains x = true ∧ ¬ Exposed survivors d x node := by
  have inside : (d.contains node && !survivors.contains node) = true := by simpa [live] using goes
  rw [Instance.discardNode, Act.bind_ask, if_pos inside, Act.bind_ask]
  have under : ∀ h ∈ Instance.outermost survivors d d.slots.size (d.children node),
      h ∈ survivors ∧ ∃ c ∈ d.children node, Below d h c := fun h mem => Instance.of_mem_outermost wf mem
  have notBody : d.body ∉ Instance.outermost survivors d d.slots.size (d.children node) := by
    intro mem
    obtain ⟨-, c, child, below⟩ := under _ mem
    rcases ReflTransGen.cases_head (below.tail (wf.parent_iff.mpr child)) with same | ⟨p, up, -⟩
    · rcases ReflTransGen.cases_head below with same' | ⟨p, up, -⟩
      · exact wf.body_not_mem_children node (same' ▸ child)
      · exact wf.body_not_mem_children p (wf.parent_iff.mp up)
    · exact wf.body_not_mem_children p (wf.parent_iff.mp up)
  obtain ⟨d₁, removed, taken⟩ := removeAll_becomes claims _ wf (fun h mem => by
    obtain ⟨-, c, child, below⟩ := under h mem
    exact wf.contains_of_below (wf.contains_child child) below) notBody
  have first := culled_of_without wf (fun h mem => (under h mem).1) taken
  have same : ∀ x, d₁.contains x = d.contains x := contains_congr taken.content
  rw [bind_ok removed]
  have exposed : ∀ x, Below d₁ x node ↔ Exposed survivors d x node := fun x => below_iff_exposed wf live goes taken
  refine ⟨fun inner => ?_, fun stage done => ?_⟩
  · obtain ⟨d₂, freed, -⟩ := discard_culled survivors first.wellFormed ((same node).trans live)
      (first.body.symm ▸ inner)
    exact ⟨d₂, Act.edit_ok freed⟩
  · obtain ⟨d₂, freed, rfl⟩ := Act.of_edit done
    obtain ⟨second, alive⟩ := discard_pruned first.wellFormed freed
    have alive : ∀ x, d₂.contains x = true ↔ d.contains x = true ∧ ¬ Exposed survivors d x node := fun x => by
      rw [alive, same, exposed]
    refine ⟨rfl, ⟨second.wellFormed, second.body.trans first.body, fun x here => ((alive x).mp here).1,
      fun x here => by rw [second.content x here, taken.content], fun x p => ?_⟩, alive⟩
    rw [second.up]
    constructor
    · rintro ⟨up, here, above⟩
      exact ⟨wf.parent_iff.mpr ((first.sublist p).subset (first.wellFormed.parent_iff.mp up)), here, above⟩
    · rintro ⟨up, here, above⟩
      refine ⟨?_, here, above⟩
      refine taken.wellFormed.parent_iff.mpr ?_
      rw [taken.children]
      -- the parent of a survivor that was taken out has been freed
      refine List.mem_filter.mpr ⟨wf.parent_iff.mp up, ?_⟩
      simpa using fun found => ((alive p).mp above).2 (exposed_of_outermost wf goes found up)

/-! ## Discarding nodes in order -/

/-- The node is exposed to one of the nodes that are no survivors. -/
def ExposedAny (survivors nodes : List NodeId) (d : Document) (x : NodeId) : Prop :=
  ∃ n ∈ nodes, n ∉ survivors ∧ Exposed survivors d x n

/-- What was exposed to one of the nodes has been freed, and nothing else. -/
structure Freed (survivors nodes : List NodeId) (d d' : Document) : Prop where
  pruned : Pruned d d'
  alive : ∀ x, d'.contains x = true ↔ d.contains x = true ∧ ¬ ExposedAny survivors nodes d x

namespace Freed

theorem nothing (wf : WellFormed d) (none_ : ∀ x, d.contains x = true → ¬ ExposedAny survivors nodes d x) :
    Freed survivors nodes d d :=
  ⟨.refl wf, fun x => ⟨fun live => ⟨live, none_ x live⟩, fun both => both.1⟩⟩

/-- What is still there is exposed to the same nodes as before. -/
theorem exposed_iff (wf : WellFormed d) (freed : Freed survivors nodes d d') (live : d'.contains x = true) :
    Exposed survivors d' x a ↔ Exposed survivors d x a := by
  have pruned := freed.pruned
  constructor
  · rintro ⟨below, clear⟩
    refine ⟨pruned.below below, fun s mem above under => ?_⟩
    obtain ⟨lower, upper⟩ := pruned.between wf below above under
    exact clear s mem lower upper
  · intro exposed
    obtain ⟨before, unshielded⟩ := (freed.alive x).mp live
    refine ⟨pruned.below_of_alive exposed.1 fun y above under => ?_,
      fun s mem above under => exposed.2 s mem (pruned.below above) (pruned.below under)⟩
    refine (freed.alive y).mpr ⟨wf.contains_above before above, fun ⟨n, mem, goes, met⟩ => unshielded ?_⟩
    exact ⟨n, mem, goes, (exposed.lower above under).trans met⟩

theorem append {more : List NodeId} (wf : WellFormed d) (first : Freed survivors nodes d d')
    (second : Freed survivors more d' d'') : Freed survivors (nodes ++ more) d d'' where
  pruned := first.pruned.trans second.pruned
  alive := fun x => by
    have split : ExposedAny survivors (nodes ++ more) d x ↔
        ExposedAny survivors nodes d x ∨ ExposedAny survivors more d x := by
      simp only [ExposedAny, List.mem_append, or_and_right, exists_or]
    rw [second.alive, first.alive, split, not_or, and_assoc]
    refine and_congr_right fun live => and_congr_right fun away => not_congr ?_
    have still := (first.alive x).mpr ⟨live, away⟩
    exact exists_congr fun n => and_congr_right fun _ => and_congr_right fun _ => first.exposed_iff wf still

end Freed

/-- Discarding a node, unless it is a survivor or was freed before. -/
theorem discardNode_frees (survivors : List NodeId) (claims : Claims) (wf : WellFormed d) (node : NodeId) :
    (node ≠ d.body → ∃ d', Instance.discardNode survivors node ⟨d, claims⟩ = .ok () ⟨d', claims⟩) ∧
      ∀ stage, Instance.discardNode survivors node ⟨d, claims⟩ = .ok () stage → stage.claims = claims ∧
        Freed survivors [node] d stage.document := by
  by_cases goes : d.contains node = true ∧ node ∉ survivors
  · obtain ⟨answers, frees⟩ := discardLive_frees claims wf goes.1 goes.2
    refine ⟨answers, fun stage done => ?_⟩
    obtain ⟨same, pruned, alive⟩ := frees stage done
    refine ⟨same, pruned, fun x => (alive x).trans (and_congr_right fun _ => not_congr ?_)⟩
    simp [ExposedAny, goes.2]
  · have outside : ¬ (d.contains node && !survivors.contains node) = true := by simpa using goes
    rw [Instance.discardNode, Act.bind_ask, if_neg outside]
    refine ⟨fun _ => ⟨d, rfl⟩, fun stage done => ?_⟩
    cases done
    refine ⟨rfl, .nothing wf fun x live => ?_⟩
    rintro ⟨n, mem, other, below, -⟩
    cases List.mem_singleton.mp mem
    exact goes ⟨wf.contains_above live below, other⟩

/-- Discarding nodes one after the other. -/
theorem discardNodes_frees (survivors : List NodeId) (claims : Claims) : ∀ (nodes : List NodeId) {d : Document}, WellFormed d →
    (d.body ∉ nodes → ∃ d', nodes.forM (Instance.discardNode survivors) ⟨d, claims⟩ = .ok () ⟨d', claims⟩) ∧
      ∀ stage, nodes.forM (Instance.discardNode survivors) ⟨d, claims⟩ = .ok () stage → stage.claims = claims ∧
        Freed survivors nodes d stage.document
  | [], d, wf => by
      refine ⟨fun _ => ⟨d, rfl⟩, fun stage done => ?_⟩
      cases done
      exact ⟨rfl, .nothing wf fun x _ => by simp [ExposedAny]⟩
  | node :: rest, d, wf => by
      obtain ⟨answers, frees⟩ := discardNode_frees survivors claims wf node
      constructor
      · intro inner
        obtain ⟨apart, others⟩ := not_or.mp fun mem => inner (List.mem_cons.mpr mem)
        obtain ⟨d₁, done⟩ := answers (Ne.symm apart)
        obtain ⟨-, first⟩ := frees _ done
        obtain ⟨d₂, done'⟩ :=
          (discardNodes_frees survivors claims rest first.pruned.wellFormed).1 (first.pruned.body.symm ▸ others)
        exact ⟨d₂, (bind_ok done).trans done'⟩
      · intro stage done
        obtain ⟨⟨⟩, ⟨d₁, claims₁⟩, done₁, done₂⟩ := of_bind_ok done
        obtain ⟨same, first⟩ := frees _ done₁
        obtain rfl : claims = claims₁ := same.symm
        obtain ⟨same', second⟩ := (discardNodes_frees survivors claims rest first.pruned.wellFormed).2 stage done₂
        exact ⟨same', first.append wf second⟩

/-! ## Discarding an instance -/

/-- The node stands in the fragment of the instance still when that is freed: on the way up to the
fragment there is nothing that is discarded with the instance. -/
structure Stranded (survivors : List NodeId) (inst : Instance) (d : Document) (x : NodeId) : Prop where
  live : d.contains inst.fragment = true
  kept : ¬ ExposedAny survivors inst.nodes d inst.fragment
  inside : Below d x inst.fragment
  between : ∀ n ∈ inst.nodes, n ∉ survivors → Below d x n → ¬ Below d n inst.fragment

/-- What is in the fragment when all nodes of the instance are discarded. -/
theorem Freed.below_fragment {e : Document} (wf : WellFormed d) (freed : Freed survivors inst.nodes d e)
    (live : e.contains x = true) :
    e.contains inst.fragment = true ∧ Below e x inst.fragment ↔ Stranded survivors inst d x := by
  have pruned := freed.pruned
  constructor
  · rintro ⟨there, below⟩
    obtain ⟨before, kept⟩ := (freed.alive _).mp there
    refine ⟨before, kept, pruned.below below, fun n mem goes above under => ?_⟩
    have met := pruned.wellFormed.contains_above live (pruned.between wf below above under).1
    exact ((freed.alive n).mp met).2 ⟨n, mem, goes, .refl wf goes⟩
  · rintro ⟨before, kept, inside, between⟩
    refine ⟨(freed.alive _).mpr ⟨before, kept⟩, pruned.below_of_alive inside fun y above under => ?_⟩
    have here := wf.contains_above ((freed.alive x).mp live).1 above
    refine (freed.alive y).mpr ⟨here, fun ⟨n, mem, goes, met⟩ => ?_⟩
    rcases met.1.total under with lower | upper
    · exact between n mem goes (above.trans met.1) lower
    · exact kept ⟨n, mem, goes, met.upper under upper⟩

/-- Discarding an instance frees what is exposed to its nodes, and then the fragment with what is
stranded in it; it is refused at most where the body is to be freed. -/
theorem discard_frees (claims : Claims) (wf : WellFormed d) (inst : Instance) (survivors : List NodeId) :
    (d.body ∉ inst.nodes → inst.fragment ≠ d.body →
      ∃ stage, inst.discard survivors ⟨d, claims⟩ = .ok () stage) ∧
    ∀ stage, inst.discard survivors ⟨d, claims⟩ = .ok () stage → Pruned d stage.document ∧
      ∀ x, stage.document.contains x = true ↔
        d.contains x = true ∧ ¬ ExposedAny survivors inst.nodes d x ∧ ¬ Stranded survivors inst d x := by
  obtain ⟨answers, frees⟩ := discardNodes_frees survivors claims inst.nodes wf
  constructor
  · intro inner apart
    obtain ⟨d₁, done⟩ := answers inner
    obtain ⟨-, freed⟩ := frees _ done
    rw [Instance.discard, bind_ok done, Act.bind_ask]
    split
    · next live =>
        obtain ⟨d₂, freed', -⟩ := discard_culled [] freed.pruned.wellFormed live (freed.pruned.body.symm ▸ apart)
        exact ⟨_, Act.edit_ok freed'⟩
    · exact ⟨_, rfl⟩
  · intro stage done
    obtain ⟨⟨⟩, ⟨e, claims'⟩, done₁, done₂⟩ := of_bind_ok done
    obtain ⟨-, freed⟩ := frees _ done₁
    have wf₁ := freed.pruned.wellFormed
    rw [Act.bind_ask] at done₂
    split at done₂
    · next live =>
        obtain ⟨d₂, freed', rfl⟩ := Act.of_edit done₂
        obtain ⟨pruned, alive⟩ := discard_pruned wf₁ freed'
        refine ⟨freed.pruned.trans pruned, fun x => ?_⟩
        rw [alive, freed.alive, and_assoc]
        refine and_congr_right fun before => and_congr_right fun away => not_congr ?_
        rw [← freed.below_fragment wf ((freed.alive x).mpr ⟨before, away⟩)]
        simp [live]
    · next dead =>
        cases done₂
        refine ⟨freed.pruned, fun x => ?_⟩
        rw [freed.alive]
        refine and_congr_right fun before => ⟨fun away => ⟨away, fun stranded => ?_⟩, fun both => both.1⟩
        exact dead ((freed.below_fragment wf ((freed.alive x).mpr ⟨before, away⟩)).mpr stranded).1

theorem not_exposed_of_survivor (mem : s ∈ survivors) : ¬ ExposedAny survivors nodes d s :=
  fun ⟨_, _, _, below, clear⟩ => clear s mem .refl below

/-- A survivor shields what is below it, down to the nodes that are discarded. -/
theorem not_exposed_of_below (survives : s ∈ survivors) (below : Below d x s)
    (between : ∀ n ∈ inst.nodes, n ∉ survivors → Below d x n → ¬ Below d n s) :
    ¬ ExposedAny survivors inst.nodes d x := by
  rintro ⟨n, mem, goes, met, clear⟩
  rcases below.total met with lower | upper
  · exact clear s survives below lower
  · exact between n mem goes met upper

/-- Discarding an instance shields what survives. A survivor outlives it unless it is stranded, and what is
below it stays there, down to the nodes that are discarded themselves. The other nodes of the instance and
its fragment are gone, and nothing is freed but what is below those. -/
theorem discard_shields (claims : Claims) (wf : WellFormed d) (inst : Instance) (survivors : List NodeId) :
    (d.body ∉ inst.nodes → inst.fragment ≠ d.body →
      ∃ stage, inst.discard survivors ⟨d, claims⟩ = .ok () stage) ∧
    ∀ stage, inst.discard survivors ⟨d, claims⟩ = .ok () stage →
      (∀ s ∈ survivors, d.contains s = true →
        (stage.document.contains s = true ↔ ¬ Stranded survivors inst d s)) ∧
      (∀ s ∈ survivors, ∀ x, d.contains x = true → Below d x s → ¬ Stranded survivors inst d x →
        (∀ n ∈ inst.nodes, n ∉ survivors → Below d x n → ¬ Below d n s) →
          stage.document.content? x = d.content? x ∧ stage.document.contains x = true ∧
            Below stage.document x s) ∧
      (∀ n ∈ inst.nodes, n ∉ survivors → stage.document.contains n = false) ∧
      stage.document.contains inst.fragment = false ∧
      ∀ x, d.contains x = true → (∀ n ∈ inst.nodes, ¬ Below d x n) → ¬ Below d x inst.fragment →
        stage.document.contains x = true := by
  obtain ⟨answers, frees⟩ := discard_frees claims wf inst survivors
  refine ⟨answers, fun stage done => ?_⟩
  obtain ⟨pruned, alive⟩ := frees stage done
  have dead : ∀ {x}, ExposedAny survivors inst.nodes d x → stage.document.contains x = false := fun exposed => by
    rw [← Bool.not_eq_true, alive]
    exact fun both => both.2.1 exposed
  refine ⟨fun s mem live => ?_, fun s mem x live below free between => ?_,
    fun n mem goes => dead ⟨n, mem, goes, .refl wf goes⟩, ?_, fun x live off out => (alive x).mpr ⟨live, ?_, ?_⟩⟩
  · rw [alive]
    exact ⟨fun both => both.2.2, fun free => ⟨live, not_exposed_of_survivor mem, free⟩⟩
  · have stays : ∀ y, Below d x y → Below d y s → stage.document.contains y = true := fun y above under => by
      refine (alive y).mpr ⟨wf.contains_above live above, ?_, fun caught => free ?_⟩
      · exact not_exposed_of_below mem under fun n memN goes met => between n memN goes (above.trans met)
      · refine ⟨caught.live, caught.kept, above.trans caught.inside, fun n memN goes met inside => ?_⟩
        rcases above.total met with upper | lower
        · exact caught.between n memN goes upper inside
        · exact between n memN goes met (lower.trans under)
    have here := stays x .refl below
    exact ⟨pruned.content x here, here, pruned.below_of_alive below stays⟩
  · rw [← Bool.not_eq_true, alive]
    rintro ⟨live, kept, free⟩
    refine free ⟨live, kept, .refl, fun n mem goes above under => kept ?_⟩
    cases wf.below_antisymm above under
    exact ⟨_, mem, goes, .refl wf goes⟩
  · exact fun ⟨n, mem, _, met⟩ => off n mem met.1
  · exact fun caught => out caught.inside

namespace Sheltering

def source : String := "<p><!--${inside}--></p><!--${beside}-->"

/-- The texts that the anchors show: one below a node of the instance, one next to its nodes. -/
def context : Value := .map [("inside", .nodes [⟨5, 0⟩]), ("beside", .nodes [⟨6, 0⟩])]

/-- An instance that was placed nowhere yet shows two texts. -/
def scene (prototype : Template.Prototype) : Option (Instance × Document) :=
  match Instance.ofPrototype prototype ⟨.new, []⟩ with
  | .error _ _ => none
  | .ok inst stage =>
    let d := (create (.text "beside") (create (.text "inside") stage.document).2).2
    match inst.update context ⟨d, []⟩ with
    | ((none, inst), stage) => some (inst, stage.document)
    | ((some _, _), _) => none

theorem wellFormed_scene {prototype : Template.Prototype} (set : scene prototype = some (inst, d)) : WellFormed d := by
  have wf := Instance.steady_ofPrototype prototype ⟨.new, []⟩ wellFormed_new
  rw [scene] at set
  split at set
  · cases set
  · next first stage made =>
      rw [left_ok made] at wf
      have inside := (create_becomes wf.wellFormed (.text "inside")).2.wellFormed
      have beside := (create_becomes inside (.text "beside")).2.wellFormed
      have sequel := @Slot.sequel_writeAll context first.slots ⟨_, []⟩ beside
      dsimp only at set
      split at set
      · next updated =>
          cases set
          rw [Instance.update] at updated
          rw [(Prod.mk.inj updated).2] at sequel
          exact sequel.wellFormed
      · cases set

end Sheltering

/-- A text below a node of the instance survives; the node and the fragment are freed. -/
theorem discard_shields_inside : ∃ template inst d stage, Template.compile "page" Sheltering.source = .ok template ∧
    Sheltering.scene template.root = some (inst, d) ∧ WellFormed d ∧ Below d ⟨5, 0⟩ ⟨2, 0⟩ ∧
    inst.discard [⟨5, 0⟩, ⟨6, 0⟩] ⟨d, []⟩ = .ok () stage ∧ stage.document.contains ⟨5, 0⟩ = true ∧
    stage.document.contains ⟨2, 0⟩ = false ∧ stage.document.contains inst.fragment = false := by
  have facts : (Template.compile "page" Sheltering.source).toOption.any (fun template =>
      (Sheltering.scene template.root).any fun (inst, d) => inst.nodes = [⟨2, 0⟩, ⟨4, 0⟩, ⟨6, 0⟩] ∧
        inst.fragment = ⟨1, 0⟩ ∧ d.body = ⟨0, 0⟩ ∧ d.contains ⟨5, 0⟩ ∧ d.isInclusiveAncestor ⟨2, 0⟩ ⟨5, 0⟩ ∧
        d.isInclusiveAncestor ⟨1, 0⟩ ⟨2, 0⟩) = true := by decide +kernel
  cases compiled : Template.compile "page" Sheltering.source with
  | error fault =>
      rw [compiled] at facts
      cases facts
  | ok template =>
      rw [compiled] at facts
      change (Sheltering.scene template.root).any _ = true at facts
      obtain ⟨⟨inst, d⟩, set, facts⟩ := (Option.any_eq_true _ _).mp facts
      simp only [decide_eq_true_eq] at facts
      obtain ⟨nodes, fragment, body, live, inside, atop⟩ := facts
      have wf := Sheltering.wellFormed_scene set
      have below := wf.isInclusiveAncestor_iff.mp inside
      obtain ⟨answers, shields⟩ := discard_shields [] wf inst [⟨5, 0⟩, ⟨6, 0⟩]
      obtain ⟨stage, done⟩ := answers (by rw [nodes, body]; decide) (by rw [fragment, body]; decide)
      obtain ⟨outlives, -, dead, gone, -⟩ := shields stage done
      refine ⟨template, inst, d, stage, rfl, set, wf, below, done, ?_, ?_, gone⟩
      · refine (outlives ⟨5, 0⟩ (by simp) live).mpr fun stranded => ?_
        refine stranded.between ⟨2, 0⟩ (by simp [nodes]) (by simp) below ?_
        rw [fragment]
        exact wf.isInclusiveAncestor_iff.mp atop
      · exact dead ⟨2, 0⟩ (by simp [nodes]) (by simp)

/-- A text behind the comment at the top of an instance that was placed nowhere survives as little as the
fragment it stands in. -/
theorem discard_strands_beside : ∃ template inst d stage, Template.compile "page" Sheltering.source = .ok template ∧
    Sheltering.scene template.root = some (inst, d) ∧ d.contains ⟨6, 0⟩ = true ∧
    inst.discard [⟨5, 0⟩, ⟨6, 0⟩] ⟨d, []⟩ = .ok () stage ∧ stage.document.contains ⟨6, 0⟩ = false := by
  have facts : (Template.compile "page" Sheltering.source).toOption.any (fun template =>
      (Sheltering.scene template.root).any fun (inst, d) => d.contains ⟨6, 0⟩ &&
        match inst.discard [⟨5, 0⟩, ⟨6, 0⟩] ⟨d, []⟩ with
        | .ok _ stage => !stage.document.contains ⟨6, 0⟩
        | .error _ _ => false) = true := by decide +kernel
  cases compiled : Template.compile "page" Sheltering.source with
  | error fault =>
      rw [compiled] at facts
      cases facts
  | ok template =>
      rw [compiled] at facts
      change (Sheltering.scene template.root).any _ = true at facts
      obtain ⟨⟨inst, d⟩, set, facts⟩ := (Option.any_eq_true _ _).mp facts
      obtain ⟨live, facts⟩ := Bool.and_eq_true_iff.mp facts
      split at facts
      · next stage done => exact ⟨template, inst, d, stage, rfl, set, live, done, by simpa using facts⟩
      · cases facts

end Inlay.Render
