/-
# Proofs.Document.Duplicate — deep copies are exact

A tree that stands in one document and a tree that stands in another are the same tree when
their ids correspond in document order; node by node they are then `Twin`s: the contents are
the same, but for live properties, and the children of the one correspond to those of the
other (`twins_of_stands`). A copy is planted from the tree of its source, so it is the same
tree. Its nodes are new (`Added`), and none of them has properties, since planting makes none
with any and writes none (`plainly`).

`copies_exact` says this of every copy in every reachable document, and that a copy by way
of a snapshot (`copySnapshot`) makes the same nodes.
-/
import Inlay.Proofs.Document.Added
import Inlay.Proofs.Document.Chronicle
import Inlay.Proofs.Document.Listing

namespace Inlay.Document

set_option autoImplicit false

open Inlay.Markup Planted

variable {source d d' : Document} {id x root : NodeId} {f : NodeId → NodeId} {p q : Planted} {ps qs : List Planted}

/-! ## Planting writes no properties -/

/-- What was made has no properties, the other contents are those of before, and nothing is freed. -/
structure Plainly (d d' : Document) : Prop where
  kept : Kept d'
  discarded : d'.tally.discarded = d.tally.discarded
  content : ∀ x, d'.content? x = d.content? x ∨ ∃ c : Content, d'.content? x = some c ∧ c.bare = c

theorem Plainly.trans {d'' : Document} (first : Plainly d d') (second : Plainly d' d'') : Plainly d d'' where
  kept := second.kept
  discarded := second.discarded.trans first.discarded
  content := fun x => by
    rcases second.content x with same | made
    · rw [same]
      exact first.content x
    · exact .inr made

theorem plainly : Follows fun d d' => Kept d → Plainly d d' where
  refl := fun d kept => ⟨kept, rfl, fun _ => .inl rfl⟩
  trans := fun first second kept => (first kept).trans (second (first kept).kept)
  create := by
    intro content d plain kept
    refine ⟨kept.create, discarded_create, fun x => ?_⟩
    have made := get?_create kept content x
    split at made
    · exact .inr ⟨content, by rw [content?, made]; rfl, plain⟩
    · exact .inl (by rw [content?, made]; rfl)
  modify := by
    intro id f d keeps kept
    have same := sameSlots_modify (d := d) id f
    refine ⟨kept.of_sameSlots same, same.discarded, fun x => .inl ?_⟩
    rw [content?, get?_modify, content?]
    split
    · cases d.get? x with
      | none => rfl
      | some n => exact congrArg some (keeps n)
    · rfl

/-! ## Trees that correspond -/

/-- A node is copied to another one: content without properties, and the list of children. -/
structure Twin (source d : Document) (f : NodeId → NodeId) (x : NodeId) : Prop where
  content : d.content? (f x) = (source.content? x).map Content.bare
  children : d.children (f x) = (source.children x).map f

theorem ids_eq_cons (p : Planted) : ∃ rest, p.ids = p.root :: rest := by
  cases p with
  | element id tag attributes children => exact ⟨idsAll children, rfl⟩
  | text id content => exact ⟨[], rfl⟩
  | comment id body => exact ⟨[], rfl⟩

/-- Where the ids of trees correspond, those of each tree do. -/
theorem map_ids_cons (same : q.tree = p.tree) (ids : idsAll (q :: qs) = (idsAll (p :: ps)).map f) :
    q.ids = p.ids.map f ∧ idsAll qs = (idsAll ps).map f := by
  rw [idsAll, idsAll, List.map_append] at ids
  refine List.append_inj ids ?_
  rw [List.length_map, length_ids, length_ids, same]

theorem map_root : ∀ {ps qs : List Planted}, trees qs = trees ps → idsAll qs = (idsAll ps).map f →
    qs.map Planted.root = (ps.map Planted.root).map f
  | [], [], _, _ => rfl
  | [], q :: qs, same, _ => by cases same
  | p :: ps, [], same, _ => by cases same
  | p :: ps, q :: qs, same, ids => by
      obtain ⟨here, others⟩ := List.cons.inj same
      obtain ⟨first, rest⟩ := map_ids_cons here ids
      obtain ⟨_, ofP⟩ := ids_eq_cons p
      obtain ⟨_, ofQ⟩ := ids_eq_cons q
      rw [ofP, ofQ, List.map_cons] at first
      rw [List.map_cons, List.map_cons, List.map_cons, (List.cons.inj first).1, map_root others rest]

/-- A text or a comment corresponds to one. -/
theorem twin_leaf (wf : WellFormed source) (wf' : WellFormed d) {c : Content}
    (found : source.content? x = some c) (found' : d.content? (f x) = some c)
    (leaf : c.isContainer = false) : Twin source d f x := by
  refine ⟨?_, by rw [children_of_leaf wf found leaf, children_of_leaf wf' found' leaf, List.map_nil]⟩
  rw [found, found', Option.map_some]
  cases c with
  | element e => cases leaf
  | text data => rfl
  | comment data => rfl
  | fragment => rfl

mutual

theorem twins_of_stands (wf : WellFormed source) (wf' : WellFormed d) : ∀ {p q : Planted}, p.Stands source →
    q.Stands d → q.tree = p.tree → q.ids = p.ids.map f →
    (∀ y ∈ q.ids, ∀ c, d.content? y = some c → c.bare = c) → ∀ x ∈ p.ids, Twin source d f x
  | .element id tag attributes ps, .element id' tag' attributes' qs,
      ⟨⟨e, found, ofTag, ofAttributes⟩, kids, stand⟩, ⟨⟨e', found', ofTag', ofAttributes'⟩, kids', stand'⟩,
      same, ids, plain, x, mem => by
      rw [Planted.ids, Planted.ids, List.map_cons] at ids
      obtain ⟨here, inner⟩ := List.cons.inj ids
      obtain ⟨tags, attributes, forests⟩ := Tree.element.inj same
      rcases List.mem_cons.mp mem with rfl | below
      · refine ⟨?_, by rw [← here, kids, kids', map_root forests inner]⟩
        have bare := plain id' (by rw [Planted.ids]; exact List.mem_cons_self) _ found'
        rw [← here, found, found', ← bare, Option.map_some, Content.bare, Content.bare, ofTag, ofTag', ofAttributes,
          ofAttributes', tags, attributes]
      · refine twins_of_standAll wf wf' stand stand' forests inner (fun y mem => ?_) x below
        exact plain y (by rw [Planted.ids]; exact List.mem_cons_of_mem _ mem)
  | .text id data, .text id' data', found, found', same, ids, _, x, mem => by
      cases List.mem_singleton.mp mem
      obtain ⟨here, -⟩ := List.cons.inj (show [id'] = [f id] from ids)
      cases same
      exact twin_leaf wf wf' found (here ▸ found') rfl
  | .comment id data, .comment id' data', found, found', same, ids, _, x, mem => by
      cases List.mem_singleton.mp mem
      obtain ⟨here, -⟩ := List.cons.inj (show [id'] = [f id] from ids)
      cases same
      exact twin_leaf wf wf' found (here ▸ found') rfl
  | .element _ _ _ _, .text _ _, _, _, same, _, _, _, _ => by cases same
  | .element _ _ _ _, .comment _ _, _, _, same, _, _, _, _ => by cases same
  | .text _ _, .element _ _ _ _, _, _, same, _, _, _, _ => by cases same
  | .text _ _, .comment _ _, _, _, same, _, _, _, _ => by cases same
  | .comment _ _, .element _ _ _ _, _, _, same, _, _, _, _ => by cases same
  | .comment _ _, .text _ _, _, _, same, _, _, _, _ => by cases same

theorem twins_of_standAll (wf : WellFormed source) (wf' : WellFormed d) : ∀ {ps qs : List Planted},
    StandAll source ps → StandAll d qs → trees qs = trees ps → idsAll qs = (idsAll ps).map f →
    (∀ y ∈ idsAll qs, ∀ c, d.content? y = some c → c.bare = c) → ∀ x ∈ idsAll ps, Twin source d f x
  | [], _, _, _, _, _, _, x, mem => by cases mem
  | p :: ps, [], _, _, same, _, _, _, _ => by cases same
  | p :: ps, q :: qs, ⟨stands, stand⟩, ⟨stands', stand'⟩, same, ids, plain, x, mem => by
      obtain ⟨here, others⟩ := List.cons.inj same
      obtain ⟨first, rest⟩ := map_ids_cons here ids
      rw [idsAll] at mem plain
      rcases List.mem_append.mp mem with inside | behind
      · refine twins_of_stands wf wf' stands stands' here first (fun y mem => ?_) x inside
        exact plain y (List.mem_append_left _ mem)
      · refine twins_of_standAll wf wf' stand stand' others rest (fun y mem => ?_) x behind
        exact plain y (List.mem_append_right _ mem)

end

/-- Items without repetition can be sent to any as many items. -/
theorem exists_map_eq {xs ys : List NodeId} (nodup : xs.Nodup) (length : ys.length = xs.length) :
    ∃ f : NodeId → NodeId, ys = xs.map f := by
  refine ⟨fun x => ys.getD (xs.idxOf x) x, List.ext_getElem (by rw [List.length_map, length]) fun i inYs inMap => ?_⟩
  rw [List.length_map] at inMap
  rw [List.getElem_map, nodup.idxOf_getElem i inMap, List.getD, List.getElem?_eq_getElem inYs, Option.getD_some]

/-! ## What there is to copy -/

/-- A fragment with its trees is copied, or the tree of another node. -/
theorem likeness_cases (wf : WellFormed source) (live : source.contains id = true) :
    (∃ p : Planted, p.root = id ∧ p.Stands source ∧ source.likeness id = .ok (.inr p.tree)) ∨
    (∃ ps, source.content? id = some .fragment ∧ source.children id = ps.map Planted.root ∧ StandAll source ps ∧
      source.likeness id = .ok (.inl (trees ps))) := by
  obtain ⟨n, found⟩ := contains_iff.mp live
  have alive : source.live id = .ok n := by simp only [Document.live, found]
  by_cases fragment : source.content? id = some .fragment
  · right
    obtain ⟨ps, kids, stand⟩ := exists_children wf id
    have none_ : source.tree? id = none := by
      have content : n.content = .fragment := by
        rw [content?, found] at fragment
        exact Option.some.inj fragment
      unfold tree?
      cases source.slots.size with
      | zero => rfl
      | succ fuel => simp only [treeWithin, found, content]
    exact ⟨ps, fragment, kids, stand, by simp only [likeness, alive, none_, forest_eq wf stand kids]⟩
  · left
    obtain ⟨p, rfl, stands⟩ := exists_stands wf live fragment
    exact ⟨p, rfl, stands, by simp only [likeness, alive, stands.tree?_eq wf]⟩

/-! ## Copies -/

/-- The subtree of a node of `source` was copied to a new detached node. -/
structure Duplicated (source : Document) (id : NodeId) (d d' : Document) (root : NodeId) : Prop where
  /-- The nodes of the copy correspond to those of the subtree in document order. -/
  twins : ∃ f : NodeId → NodeId, root = f id ∧ d'.descendants root = (source.descendants id).map f ∧
    ∀ x ∈ source.descendants id, Twin source d' f x
  detached : d'.parent? root = none
  fresh : ∀ y ∈ d'.descendants root, d.contains y = false
  alive : ∀ y, d'.contains y = true ↔ d.contains y = true ∨ y ∈ d'.descendants root
  kept : ∀ y, d.contains y = true → d'.get? y = d.get? y
  body : d'.body = d.body
  tally : d'.tally = { d.tally with created := d.tally.created + (source.descendants id).length }
  journal : d'.journal = d.journal

/-- What was added and corresponds to the subtree is a copy. -/
theorem Duplicated.of_added (wf : WellFormed d) (added : Added d d' (d'.descendants root)) (body : d'.body = d.body)
    (plain : Plainly d d') (account : Account d d' [])
    (same : (d'.descendants root).length = (source.descendants id).length) (nodup : (source.descendants id).Nodup)
    (heads : (source.descendants id).head? = some id ∧ (d'.descendants root).head? = some root)
    (twins : ∀ f, d'.descendants root = (source.descendants id).map f →
      (∀ y ∈ d'.descendants root, ∀ c, d'.content? y = some c → c.bare = c) →
      ∀ x ∈ source.descendants id, Twin source d' f x) : Duplicated source id d d' root := by
  obtain ⟨f, ids⟩ := exists_map_eq nodup same
  have bare : ∀ y ∈ d'.descendants root, ∀ c, d'.content? y = some c → c.bare = c := by
    intro y mem c found
    rcases plain.content y with old | ⟨c', made, bare⟩
    · rw [content?_eq_none (added.fresh y mem), found] at old
      cases old
    · cases made.symm.trans found
      exact bare
  have first : root = f id := by
    have image := congrArg List.head? ids
    rw [List.head?_map, heads.1, heads.2] at image
    exact Option.some.inj image
  have detached : d'.parent? root = none := by
    have new := List.mem_of_mem_head? heads.2
    cases up : d'.parent? root with
    | none => rfl
    | some p =>
        have inside := (added.wellFormed.mem_descendants.mp (added.apart root new p up)).2
        exact absurd inside (added.wellFormed.acyclic.not_below up)
  have tally : d'.tally = { d.tally with created := d.tally.created + (source.descendants id).length } := by
    have tally := account.tally_eq
    rwa [plain.discarded, added.created wf plain.discarded, same] at tally
  exact ⟨⟨f, first, ids, twins f ids bare⟩, detached, added.fresh, added.contains_iff,
    fun y => added.get?_of_live, body, tally, account.journal_eq⟩

/-- A copy of the subtree of any live node is planted, and is made of its snapshot. -/
theorem exists_duplicated (wfS : WellFormed source) (wf : WellFormed d) (live : source.contains id = true) :
    ∃ likeness snapshot root d', source.likeness id = .ok likeness ∧ plantLikeness likeness d = .ok root d' ∧
      source.snapshot id = .ok snapshot ∧ build snapshot d = .ok (some root) d' ∧ Duplicated source id d d' root := by
  rcases likeness_cases wfS live with ⟨p, rfl, stands, like⟩ | ⟨ps, fragment, kids, stand, like⟩
  · obtain ⟨q, d', done, same, sprouted⟩ := plant_sprouts p.tree wf (nofun : Takes d none)
    have planted : plantLikeness (.inr p.tree) d = .ok q.root d' := done
    have plain := plainly.plantLikeness (.inr p.tree) d wf.kept
    have account := mute.plantLikeness (.inr p.tree) d
    rw [Edit.after_ok planted] at plain account
    have stands' := sprouted.stand.1
    have ids := stands.descendants_eq wfS
    have ids' := stands'.descendants_eq sprouted.wellFormed
    have added : Added d d' q.ids := by simpa [idsAll] using Added.of_sprouted wf sprouted
    obtain ⟨_, ofP⟩ := ids_eq_cons p
    obtain ⟨_, ofQ⟩ := ids_eq_cons q
    refine ⟨_, _, q.root, d', like, planted, stands.snapshot_eq wfS, build_outline done,
      .of_added wf (ids' ▸ added) sprouted.body plain account ?_ ?_ ?_ ?_⟩
    · rw [ids, ids', length_ids, length_ids, same]
    · rw [ids]
      exact stands.nodup wfS
    · rw [ids, ids', ofP, ofQ]
      exact ⟨rfl, rfl⟩
    · rw [ids, ids']
      exact fun f image bare => twins_of_stands wfS sprouted.wellFormed stands stands' same image bare
  · obtain ⟨root, qs, d', done, same, potted⟩ := plantFragment_potted (trees ps) wf
    have planted : plantLikeness (.inl (trees ps)) d = .ok root d' := done
    have plain := plainly.plantLikeness (.inl (trees ps)) d wf.kept
    have account := mute.plantLikeness (.inl (trees ps)) d
    rw [Edit.after_ok planted] at plain account
    have ids := descendants_eq wfS live kids stand
    have ids' := potted.descendants_eq
    refine ⟨_, _, root, d', like, planted, snapshot_fragment wfS fragment kids stand, build_fragment done,
      .of_added wf (ids' ▸ .of_potted wf potted) potted.body plain account ?_ ?_ ?_ ?_⟩
    · rw [ids, ids', List.length_cons, List.length_cons, length_idsAll, length_idsAll, same]
    · rw [ids]
      exact nodup_cons_idsAll wfS kids stand
    · rw [ids, ids']
      exact ⟨rfl, rfl⟩
    · rw [ids, ids']
      intro f image bare x mem
      obtain ⟨here, inner⟩ := List.cons.inj image
      rcases List.mem_cons.mp mem with rfl | below
      · refine ⟨?_, by rw [← here, potted.kids, kids, map_root same inner]⟩
        rw [← here, potted.isFragment, fragment]
        rfl
      · refine twins_of_standAll wfS potted.wellFormed stand potted.stand same inner (fun y mem => ?_) x below
        exact bare y (List.mem_cons_of_mem _ mem)

/-- In every document that public operations lead to, a copy of a live node, and a copy of a
live node of another such document, is exact. Copying by way of a snapshot comes to the same. -/
theorem copies_exact (run run' : List Operation) {id : NodeId} (live : (new.performAll run).contains id = true) :
    (∃ root d', copy id (new.performAll run) = .ok root d' ∧
      copySnapshot (new.performAll run) id (new.performAll run) = .ok (some root) d' ∧
      Duplicated (new.performAll run) id (new.performAll run) d' root) ∧
    (∃ root d', copyFrom (new.performAll run) id (new.performAll run') = .ok root d' ∧
      copySnapshot (new.performAll run) id (new.performAll run') = .ok (some root) d' ∧
      Duplicated (new.performAll run) id (new.performAll run') d' root) := by
  have wf := wellFormed_new.performAll run
  have wf' := wellFormed_new.performAll run'
  generalize new.performAll run = d at live wf
  generalize new.performAll run' = d' at wf'
  constructor
  · obtain ⟨likeness, snapshot, root, after, like, planted, listed, built, duplicated⟩ :=
      exists_duplicated wf wf live
    refine ⟨root, after, ?_, ?_, duplicated⟩
    · rw [copy, Edit.bind_ok (Edit.require_ok like), planted]
    · rw [copySnapshot, Edit.bind_ok (Edit.require_ok listed), built]
  · obtain ⟨likeness, snapshot, root, after, like, planted, listed, built, duplicated⟩ :=
      exists_duplicated wf wf' live
    refine ⟨root, after, ?_, ?_, duplicated⟩
    · rw [copyFrom, Edit.bind_ok (Edit.require_ok like), planted]
    · rw [copySnapshot, Edit.bind_ok (Edit.require_ok listed), built]

/-- An element with a live property and a text, in the slot of a text that was discarded. -/
def typed : List Operation :=
  [.create (.text "old"), .discard ⟨1, 0⟩, .create (.element (.plain "textarea" [⟨"rows", "2"⟩])),
    .create (.text "a"), .append ⟨1, 1⟩ ⟨2, 0⟩, .setProperty ⟨1, 1⟩ "value" (.text "b")]

theorem copies_exact_typed : (new.performAll typed).contains ⟨1, 1⟩ = true ∧
    ∃ root d', copyFrom (new.performAll typed) ⟨1, 1⟩ (new.performAll [.create (.comment "c")]) = .ok root d' ∧
      d'.content? root = some (.element (.plain "textarea" [⟨"rows", "2"⟩])) ∧ d'.parent? root = none ∧
      d'.tally.created = 3 := by
  have live : (new.performAll typed).contains ⟨1, 1⟩ = true := by decide +kernel
  refine ⟨live, ?_⟩
  obtain ⟨-, root, d', done, -, duplicated⟩ := copies_exact typed [.create (.comment "c")] live
  obtain ⟨f, rfl, -, twins⟩ := duplicated.twins
  have mem : (⟨1, 1⟩ : NodeId) ∈ (new.performAll typed).descendants ⟨1, 1⟩ := by decide +kernel
  have count : ((new.performAll typed).descendants ⟨1, 1⟩).length = 2 := by decide +kernel
  refine ⟨_, d', done, (twins _ mem).content, duplicated.detached, ?_⟩
  rw [duplicated.tally, count]
  rfl

end Inlay.Document
