/-
# Proofs.Document.Listing — a snapshot is the outline of a tree

The `outline` of a tree lists its nodes in document order with the positions of their
parents. A stack that has the root of a standing tree on top is worked off by listing the
outline of the tree (`snapshotFrom_tree`): the children come on top of the stack, first one
topmost, so that each subtree is listed before its next sibling. And making the nodes of an
outline is planting its tree (`buildFrom_outline`): when it is the turn of a node, its parent
has been made, at the position that is listed with it, and its siblings in front of it, too.
-/
import Inlay.Document.Snapshot
import Inlay.Proofs.Document.Safe

namespace Inlay.Document

set_option autoImplicit false

open Inlay.Markup Planted

variable {d d' : Document} {x id : NodeId} {content : Content} {above : Option Nat} {made : List NodeId}
  {stack : List (NodeId × Option Nat)} {listed : Snapshot}

/-! ## Outlines -/

mutual

/-- The nodes of a tree, the first one at a position of a list. -/
def outline (above : Option Nat) (position : Nat) : Tree → Snapshot
  | .text data => [(.text data, above)]
  | .comment data => [(.comment data, above)]
  | .element tag attributes children =>
    (.element (.plain tag attributes), above) :: outlineAll position (position + 1) children

/-- The nodes of trees, whose parent is at a position of the list. -/
def outlineAll (parent : Nat) (position : Nat) : List Tree → Snapshot
  | [] => []
  | tree :: rest => outline (some parent) position tree ++ outlineAll parent (position + nodeCount tree) rest

end

mutual

theorem length_outline : ∀ (tree : Tree) (above : Option Nat) (position : Nat),
    (outline above position tree).length = nodeCount tree
  | .text _, _, _ => rfl
  | .comment _, _, _ => rfl
  | .element _ _ children, _, position => by
      rw [outline, List.length_cons, length_outlineAll children position (position + 1), nodeCount]

theorem length_outlineAll : ∀ (trees : List Tree) (parent position : Nat),
    (outlineAll parent position trees).length = nodeCountAll trees
  | [], _, _ => rfl
  | tree :: rest, parent, position => by
      rw [outlineAll, List.length_append, length_outline tree, length_outlineAll rest, nodeCountAll]

end

/-! ## Taking a snapshot -/

theorem stacked_eq (position : Nat) (children : List NodeId) (stack : List (NodeId × Option Nat)) :
    stacked position children stack = children.map (·, some position) ++ stack := by
  unfold stacked
  induction children with
  | nil => rfl
  | cons child children ih =>
      rw [List.reverse_cons, List.foldl_append, ih]
      rfl

/-- The node on top of the stack is listed, and its children take its place. -/
theorem snapshotFrom_succ (found : d.content? id = some content) (fuel : Nat) :
    d.snapshotFrom (fuel + 1) ((id, above) :: stack) listed =
      d.snapshotFrom fuel ((d.children id).map (·, some listed.length) ++ stack)
        (listed ++ [(content.bare, above)]) := by
  obtain ⟨n, node, rfl⟩ := Option.map_eq_some_iff.mp found
  have live : d.live id = .ok n := by simp only [live, node]
  simp only [snapshotFrom, live, stacked_eq]

mutual

theorem snapshotFrom_tree (wf : WellFormed d) : ∀ {p : Planted} (fuel : Nat) (above : Option Nat)
    (stack : List (NodeId × Option Nat)) (listed : Snapshot), p.Stands d →
    d.snapshotFrom (p.ids.length + fuel) ((p.root, above) :: stack) listed =
      d.snapshotFrom fuel stack (listed ++ outline above listed.length p.tree)
  | .element id tag attributes children, fuel, above, stack, listed, ⟨⟨e, found, tag', attributes'⟩, kids, stand⟩ => by
      subst tag' attributes'
      have inner := snapshotFrom_trees wf fuel listed.length stack
        (listed ++ [(.element (.plain e.tag e.attributes), above)]) stand
      rw [ids, List.length_cons, Nat.add_right_comm, Planted.root, snapshotFrom_succ found, kids, List.map_map]
      refine inner.trans ?_
      rw [tree, outline, List.append_assoc, List.length_append]
      rfl
  | .text id data, fuel, above, stack, listed, found => by
      rw [ids, List.length_singleton, Nat.add_comm, Planted.root, snapshotFrom_succ found,
        children_of_leaf wf found rfl]
      rfl
  | .comment id data, fuel, above, stack, listed, found => by
      rw [ids, List.length_singleton, Nat.add_comm, Planted.root, snapshotFrom_succ found,
        children_of_leaf wf found rfl]
      rfl

theorem snapshotFrom_trees (wf : WellFormed d) : ∀ {ps : List Planted} (fuel : Nat) (parent : Nat)
    (stack : List (NodeId × Option Nat)) (listed : Snapshot), StandAll d ps →
    d.snapshotFrom ((idsAll ps).length + fuel) (ps.map ((·, some parent) ∘ Planted.root) ++ stack) listed =
      d.snapshotFrom fuel stack (listed ++ outlineAll parent listed.length (trees ps))
  | [], fuel, parent, stack, listed, _ => by simp [idsAll, trees, outlineAll]
  | p :: rest, fuel, parent, stack, listed, ⟨stands, stand⟩ => by
      have first := snapshotFrom_tree wf ((idsAll rest).length + fuel) (some parent)
        (rest.map ((·, some parent) ∘ Planted.root) ++ stack) listed stands
      have others := snapshotFrom_trees wf fuel parent stack (listed ++ outline (some parent) listed.length p.tree) stand
      rw [idsAll, List.length_append, Nat.add_assoc, List.map_cons, List.cons_append]
      refine first.trans (others.trans ?_)
      rw [trees, outlineAll, List.append_assoc, List.length_append, length_outline]

end

/-- A walk that is done has its list. -/
theorem snapshotFrom_nil (fuel : Nat) : d.snapshotFrom fuel [] listed = .ok listed := by
  cases fuel <;> rfl

theorem Planted.Stands.snapshot_eq (wf : WellFormed d) {p : Planted} (stands : p.Stands d) :
    d.snapshot p.root = .ok (outline none 0 p.tree) := by
  obtain ⟨spare, enough⟩ : ∃ spare, d.slots.size = p.ids.length + spare :=
    Nat.exists_eq_add_of_le (length_le_size (stands.nodup wf) stands.contains)
  rw [snapshot, enough, snapshotFrom_tree wf spare none [] [] stands, snapshotFrom_nil]
  rfl

theorem snapshot_fragment (wf : WellFormed d) (found : d.content? x = some .fragment) {ps : List Planted}
    (kids : d.children x = ps.map Planted.root) (stand : StandAll d ps) :
    d.snapshot x = .ok ((.fragment, none) :: outlineAll 0 1 (trees ps)) := by
  have few := length_le_size (nodup_cons_idsAll wf kids stand)
    (List.forall_mem_cons.mpr ⟨contains_iff_content?.mpr ⟨_, found⟩, stand.contains⟩)
  obtain ⟨spare, enough⟩ : ∃ spare, d.slots.size = (x :: idsAll ps).length + spare := Nat.exists_eq_add_of_le few
  rw [List.length_cons, Nat.add_right_comm] at enough
  have inner := snapshotFrom_trees wf spare 0 [] [(.fragment, none)] stand
  rw [snapshot, enough, snapshotFrom_succ found, kids, List.map_map]
  refine inner.trans ?_
  rw [snapshotFrom_nil]
  rfl

/-! ## Making the nodes -/

/-- One node is made and noted behind the others. -/
theorem buildFrom_cons (done : createIn (above.bind (made[·]?)) content d = .ok id d') (rest : Snapshot) :
    buildFrom made ((content, above) :: rest) d = buildFrom (made ++ [id]) rest d' := by
  rw [buildFrom, Edit.bind_ok done]

mutual

/-- Planting a tree makes the nodes of its outline, the first one first. -/
theorem buildFrom_outline : ∀ (tree : Tree) {made : List NodeId} {above : Option Nat} {d d' : Document} {id : NodeId},
    plant (above.bind (made[·]?)) tree d = .ok id d' → ∃ news, (id :: news).length = nodeCount tree ∧
      ∀ rest, buildFrom made (outline above made.length tree ++ rest) d = buildFrom (made ++ id :: news) rest d'
  | .text data, made, above, d, d', id, done => ⟨[], rfl, fun rest => buildFrom_cons done rest⟩
  | .comment data, made, above, d, d', id, done => ⟨[], rfl, fun rest => buildFrom_cons done rest⟩
  | .element tag attributes children, made, above, d, d', id, done => by
      obtain ⟨first, d₁, created, more⟩ := Edit.of_bind_ok done
      obtain ⟨_, d₂, planted, last⟩ := Edit.of_bind_ok more
      cases last
      have here : (made ++ [id])[made.length]? = some id := by simp
      obtain ⟨news, count, built⟩ := buildFrom_outlineAll children here planted
      refine ⟨news, by rw [List.length_cons, count, nodeCount], fun rest => ?_⟩
      rw [outline, List.cons_append, buildFrom_cons created]
      rw [List.length_append] at built
      refine (built rest).trans ?_
      rw [List.append_assoc]
      rfl

theorem buildFrom_outlineAll : ∀ (trees : List Tree) {made : List NodeId} {position : Nat} {d d' : Document}
    {q : NodeId}, made[position]? = some q → plantAll q trees d = .ok () d' →
    ∃ news : List NodeId, news.length = nodeCountAll trees ∧
      ∀ rest, buildFrom made (outlineAll position made.length trees ++ rest) d = buildFrom (made ++ news) rest d'
  | [], made, position, d, d', q, _, done => by
      cases done
      exact ⟨[], rfl, fun rest => by rw [List.append_nil]; rfl⟩
  | tree :: trees, made, position, d, d', q, here, done => by
      obtain ⟨id, d₁, first, others⟩ := Edit.of_bind_ok done
      have parent : (some position).bind (made[·]?) = some q := here
      rw [← parent] at first
      obtain ⟨inner, count, built⟩ := buildFrom_outline tree first
      have inside := (List.getElem?_eq_some_iff.mp here).1
      have still : (made ++ id :: inner)[position]? = some q := by rw [List.getElem?_append_left inside, here]
      obtain ⟨news, count', built'⟩ := buildFrom_outlineAll trees still others
      refine ⟨id :: inner ++ news, by rw [List.length_append, count, count', nodeCountAll], fun rest => ?_⟩
      rw [List.length_append, count] at built'
      rw [outlineAll, List.append_assoc, built, built', List.append_assoc]

end

/-- A tree is planted from its outline. -/
theorem build_outline {tree : Tree} (done : plant none tree d = .ok id d') :
    build (outline none 0 tree) d = .ok (some id) d' := by
  have first : plant ((none : Option Nat).bind (([] : List NodeId)[·]?)) tree d = .ok id d' := done
  obtain ⟨news, -, built⟩ := buildFrom_outline tree first
  have all := built []
  rw [List.append_nil] at all
  rw [build]
  exact Edit.bind_ok (all.trans rfl)

theorem build_fragment {trees : List Tree} (done : plantFragment trees d = .ok id d') :
    build ((.fragment, none) :: outlineAll 0 1 trees) d = .ok (some id) d' := by
  obtain ⟨fragment, d₁, created, more⟩ := Edit.of_bind_ok done
  obtain ⟨_, d₂, planted, last⟩ := Edit.of_bind_ok more
  cases last
  have single : createIn ((none : Option Nat).bind (([] : List NodeId)[·]?)) .fragment d = .ok id d₁ :=
    Edit.bind_ok created
  have here : [id][0]? = some id := rfl
  obtain ⟨news, -, built⟩ := buildFrom_outlineAll trees here planted
  have all := built []
  rw [List.append_nil] at all
  rw [build]
  refine Edit.bind_ok (a := id :: news) ?_
  rw [buildFrom_cons single]
  exact all.trans rfl

end Inlay.Document
