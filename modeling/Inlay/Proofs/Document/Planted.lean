/-
# Proofs.Document.Planted — trees whose nodes stand in a document

A `Planted` tree is a tree together with the ids of its nodes. It `Stands` in a
document when every node has the content of the tree and exactly the children of
the tree. What stands is read back as the tree (`Stands.tree?_eq`), planting
makes a tree stand (`plant_sprouts`), and edits elsewhere do not touch it
(`Stands.congr`).
-/
import Inlay.Proofs.Document.Move
import Inlay.Document.Copy

namespace Inlay.Document

set_option autoImplicit false

open Relation Inlay.Markup

/-- A tree with the ids of its nodes. -/
inductive Planted where
  | element (id : NodeId) (tag : String) (attributes : List Attribute) (children : List Planted)
  | text (id : NodeId) (content : String)
  | comment (id : NodeId) (body : String)

namespace Planted

def root : Planted → NodeId
  | element id _ _ _ => id
  | text id _ => id
  | comment id _ => id

mutual

/-- The tree without ids. -/
def tree : Planted → Tree
  | .element _ tag attributes children => .element tag attributes (trees children)
  | .text _ content => .text content
  | .comment _ body => .comment body

def trees : List Planted → List Tree
  | [] => []
  | p :: rest => tree p :: trees rest

end

mutual

/-- The ids of a tree, each before those below it. -/
def ids : Planted → List NodeId
  | .element id _ _ children => id :: idsAll children
  | .text id _ => [id]
  | .comment id _ => [id]

def idsAll : List Planted → List NodeId
  | [] => []
  | p :: rest => ids p ++ idsAll rest

end

mutual

/-- The tree stands in a document. -/
def Stands (d : Document) : Planted → Prop
  | .element id tag attributes children =>
    (∃ e, d.content? id = some (.element e) ∧ e.tag = tag ∧ e.attributes = attributes) ∧
      d.children id = children.map Planted.root ∧ StandAll d children
  | .text id content => d.content? id = some (.text content)
  | .comment id body => d.content? id = some (.comment body)

def StandAll (d : Document) : List Planted → Prop
  | [] => True
  | p :: rest => Stands d p ∧ StandAll d rest

end

mutual

/-- The number of levels of a tree. -/
def depth : Planted → Nat
  | .element _ _ _ children => depthAll children + 1
  | .text _ _ => 1
  | .comment _ _ => 1

def depthAll : List Planted → Nat
  | [] => 0
  | p :: rest => max (depth p) (depthAll rest)

end

end Planted

open Planted

variable {d d' d'' : Document} {x : NodeId} {p : Planted} {ps qs : List Planted}

/-! ## Trees and ids -/

theorem trees_eq_map : ∀ ps : List Planted, trees ps = ps.map Planted.tree
  | [] => rfl
  | p :: rest => by rw [trees, trees_eq_map rest, List.map_cons]

@[simp] theorem trees_append : trees (ps ++ qs) = trees ps ++ trees qs := by
  induction ps with
  | nil => rfl
  | cons p ps ih => simp [trees, ih]

@[simp] theorem idsAll_append : idsAll (ps ++ qs) = idsAll ps ++ idsAll qs := by
  induction ps with
  | nil => rfl
  | cons p ps ih => simp [idsAll, ih]

theorem root_mem_ids : p.root ∈ p.ids := by
  cases p <;> simp [Planted.root, ids]

theorem mem_idsAll : x ∈ idsAll ps ↔ ∃ p ∈ ps, x ∈ p.ids := by
  induction ps with
  | nil => simp [idsAll]
  | cons p ps ih => simp [idsAll, ih]

theorem root_mem_idsAll (mem : p ∈ ps) : p.root ∈ idsAll ps := mem_idsAll.mpr ⟨p, mem, root_mem_ids⟩

theorem map_root_sublist : ∀ ps : List Planted, (ps.map Planted.root).Sublist (idsAll ps)
  | [] => .refl _
  | p :: rest => by
      have here : [p.root].Sublist p.ids := List.singleton_sublist.mpr root_mem_ids
      exact here.append (map_root_sublist rest)

theorem standAll_iff : StandAll d ps ↔ ∀ p ∈ ps, p.Stands d := by
  induction ps with
  | nil => simp [StandAll]
  | cons p ps ih => simp [StandAll, ih]

@[simp] theorem standAll_append : StandAll d (ps ++ qs) ↔ StandAll d ps ∧ StandAll d qs := by
  simp only [standAll_iff, List.mem_append]
  exact ⟨fun all => ⟨fun p mem => all p (.inl mem), fun p mem => all p (.inr mem)⟩,
    fun all p mem => mem.elim (all.1 p) (all.2 p)⟩

mutual

theorem depth_le_length : ∀ p : Planted, p.depth ≤ p.ids.length
  | .element id tag attributes children => by
      have := depthAll_le_length children
      simp only [depth, ids, List.length_cons]
      omega
  | .text _ _ => by simp [depth, ids]
  | .comment _ _ => by simp [depth, ids]

theorem depthAll_le_length : ∀ ps : List Planted, depthAll ps ≤ (idsAll ps).length
  | [] => by simp [depthAll, idsAll]
  | p :: rest => by
      have here := depth_le_length p
      have others := depthAll_le_length rest
      simp only [depthAll, idsAll, List.length_append]
      omega

end

mutual

/-- The number of nodes of a tree. -/
def nodeCount : Tree → Nat
  | .text _ => 1
  | .comment _ => 1
  | .element _ _ children => nodeCountAll children + 1

def nodeCountAll : List Tree → Nat
  | [] => 0
  | tree :: rest => nodeCount tree + nodeCountAll rest

end

mutual

theorem length_ids : ∀ p : Planted, p.ids.length = nodeCount p.tree
  | .text _ _ => rfl
  | .comment _ _ => rfl
  | .element _ _ _ children => by
      rw [ids, List.length_cons, length_idsAll children]
      rfl

theorem length_idsAll : ∀ ps : List Planted, (idsAll ps).length = nodeCountAll (trees ps)
  | [] => rfl
  | p :: rest => by
      rw [idsAll, List.length_append, length_ids p, length_idsAll rest]
      rfl

end

/-! ## Standing trees -/

mutual

/-- A standing tree is untouched by what happens elsewhere. -/
theorem Planted.Stands.congr : ∀ {p : Planted}, p.Stands d →
    (∀ x ∈ p.ids, d'.content? x = d.content? x ∧ d'.children x = d.children x) → p.Stands d'
  | .element id tag attributes children, ⟨⟨e, found, same⟩, kids, stand⟩, away => by
      have here := away id (by simp [ids])
      refine ⟨⟨e, here.1.trans found, same⟩, here.2.trans kids, stand.congr fun x mem => ?_⟩
      exact away x (by simp [ids, mem])
  | .text id content, found, away => (away id (by simp [ids])).1.trans found
  | .comment id body, found, away => (away id (by simp [ids])).1.trans found

theorem Planted.StandAll.congr : ∀ {ps : List Planted}, StandAll d ps →
    (∀ x ∈ idsAll ps, d'.content? x = d.content? x ∧ d'.children x = d.children x) →
    StandAll d' ps
  | [], _, _ => trivial
  | p :: rest, ⟨stands, stand⟩, away =>
      ⟨stands.congr fun x mem => away x (by simp [idsAll, mem]),
        stand.congr fun x mem => away x (by simp [idsAll, mem])⟩

end

mutual

theorem Planted.Stands.contains : ∀ {p : Planted}, p.Stands d → ∀ x ∈ p.ids, d.contains x = true
  | .element id tag attributes children, ⟨⟨e, found, _⟩, _, stand⟩, x, mem => by
      simp only [ids, List.mem_cons] at mem
      rcases mem with rfl | mem
      · exact contains_iff_content?.mpr ⟨_, found⟩
      · exact stand.contains x mem
  | .text id content, found, x, mem => by
      simp only [ids, List.mem_singleton] at mem
      exact contains_iff_content?.mpr ⟨_, mem ▸ found⟩
  | .comment id body, found, x, mem => by
      simp only [ids, List.mem_singleton] at mem
      exact contains_iff_content?.mpr ⟨_, mem ▸ found⟩

theorem Planted.StandAll.contains : ∀ {ps : List Planted}, StandAll d ps →
    ∀ x ∈ idsAll ps, d.contains x = true
  | [], _, x, mem => by simp [idsAll] at mem
  | p :: rest, ⟨stands, stand⟩, x, mem => by
      simp only [idsAll, List.mem_append] at mem
      exact mem.elim (stands.contains x) (stand.contains x)

end

/-- The content of a standing node, which is no fragment. -/
theorem Planted.Stands.solid : ∀ {p : Planted}, p.Stands d → d.content? p.root ≠ some .fragment
  | .element _ _ _ _, ⟨⟨_, found, _⟩, _⟩, fragment => by
      rw [Planted.root, found] at fragment
      cases fragment
  | .text _ _, found, fragment => by
      rw [Stands] at found
      rw [Planted.root, found] at fragment
      cases fragment
  | .comment _ _, found, fragment => by
      rw [Stands] at found
      rw [Planted.root, found] at fragment
      cases fragment

mutual

/-- The ids of a standing tree are exactly what is below its root. -/
theorem Planted.Stands.mem_ids (wf : WellFormed d) : ∀ {p : Planted}, p.Stands d →
    ∀ x, x ∈ p.ids ↔ Below d x p.root
  | .element id tag attributes children, ⟨_, kids, stand⟩, x => by
      have inner := stand.mem_idsAll wf x
      simp only [ids, List.mem_cons, inner, Planted.root]
      constructor
      · rintro (rfl | ⟨p, mem, below⟩)
        · exact ReflTransGen.refl
        · have child : p.root ∈ d.children id := by
            rw [kids]
            exact List.mem_map_of_mem mem
          exact below.tail (wf.parent_iff.mpr child)
      · intro below
        rcases below.cases_child with same | ⟨c, up, below⟩
        · exact .inl same
        · have child := wf.parent_iff.mp up
          rw [kids] at child
          obtain ⟨p, mem, rfl⟩ := List.mem_map.mp child
          exact .inr ⟨p, mem, below⟩
  | .text id content, found, x => by
      simp only [ids, List.mem_singleton, Planted.root]
      refine ⟨fun same => same ▸ ReflTransGen.refl, fun below => ?_⟩
      rcases below.cases_child with same | ⟨c, up, -⟩
      · exact same
      · obtain ⟨content, here, takes⟩ :=
          wf.linked.container id (List.ne_nil_of_mem (wf.parent_iff.mp up))
        rw [Stands] at found
        rw [found] at here
        cases here
        cases takes
  | .comment id body, found, x => by
      simp only [ids, List.mem_singleton, Planted.root]
      refine ⟨fun same => same ▸ ReflTransGen.refl, fun below => ?_⟩
      rcases below.cases_child with same | ⟨c, up, -⟩
      · exact same
      · obtain ⟨content, here, takes⟩ :=
          wf.linked.container id (List.ne_nil_of_mem (wf.parent_iff.mp up))
        rw [Stands] at found
        rw [found] at here
        cases here
        cases takes

theorem Planted.StandAll.mem_idsAll (wf : WellFormed d) : ∀ {ps : List Planted}, StandAll d ps →
    ∀ x, x ∈ idsAll ps ↔ ∃ p ∈ ps, Below d x p.root
  | [], _, x => by simp [idsAll]
  | p :: rest, ⟨stands, stand⟩, x => by
      simp only [idsAll, List.mem_append, stands.mem_ids wf x, stand.mem_idsAll wf x, List.mem_cons,
        exists_eq_or_imp]

end

mutual

/-- No id occurs twice in a standing tree. -/
theorem Planted.Stands.nodup (wf : WellFormed d) : ∀ {p : Planted}, p.Stands d → p.ids.Nodup
  | .element id tag attributes children, ⟨_, kids, stand⟩ => by
      have apart : Apart d (children.map Planted.root) := by
        have := Apart.children wf.linked wf.acyclic (List.pairwise_singleton _ id)
        rwa [List.append_nil, kids] at this
      simp only [ids, List.nodup_cons]
      refine ⟨fun mem => ?_, stand.nodup wf apart⟩
      obtain ⟨p, child, below⟩ := (stand.mem_idsAll wf id).mp mem
      refine wf.acyclic.not_below (wf.parent_iff.mpr ?_) below
      rw [kids]
      exact List.mem_map_of_mem child
  | .text _ _, _ => List.nodup_singleton _
  | .comment _ _, _ => List.nodup_singleton _

theorem Planted.StandAll.nodup (wf : WellFormed d) : ∀ {ps : List Planted}, StandAll d ps →
    Apart d (ps.map Planted.root) → (idsAll ps).Nodup
  | [], _, _ => List.nodup_nil
  | p :: rest, ⟨stands, stand⟩, apart => by
      obtain ⟨aside, apart⟩ := List.pairwise_cons.mp apart
      refine List.nodup_append.mpr ⟨stands.nodup wf, stand.nodup wf apart, ?_⟩
      rintro x here y there rfl
      obtain ⟨q, mem, below⟩ := (stand.mem_idsAll wf x).mp there
      obtain ⟨notBelow, notAbove⟩ := aside q.root (List.mem_map_of_mem mem)
      exact ((stands.mem_ids wf x).mp here).total below |>.elim notBelow notAbove

end

/-! ## Reading back -/

mutual

theorem treeWithin_eq : ∀ {p : Planted} {fuel : Nat}, p.Stands d → p.depth ≤ fuel →
    d.treeWithin fuel p.root = some p.tree
  | .element id tag attributes children, 0, _, deep => by simp [depth] at deep
  | .element id tag attributes children, fuel + 1, ⟨⟨e, found, tag', attributes'⟩, kids, stand⟩, deep => by
      obtain ⟨n, node, content⟩ := Option.map_eq_some_iff.mp found
      simp only [depth, Nat.add_le_add_iff_right] at deep
      simp [treeWithin, Planted.root, node, content, kids, tree, tag', attributes',
        filterMap_treeWithin_eq stand deep]
  | .text id content, 0, _, deep => by simp [depth] at deep
  | .text id content, fuel + 1, found, _ => by
      obtain ⟨n, node, content⟩ := Option.map_eq_some_iff.mp found
      simp [treeWithin, Planted.root, node, content, tree]
  | .comment id body, 0, _, deep => by simp [depth] at deep
  | .comment id body, fuel + 1, found, _ => by
      obtain ⟨n, node, content⟩ := Option.map_eq_some_iff.mp found
      simp [treeWithin, Planted.root, node, content, tree]

theorem filterMap_treeWithin_eq : ∀ {ps : List Planted} {fuel : Nat}, StandAll d ps →
    depthAll ps ≤ fuel → (ps.map Planted.root).filterMap (d.treeWithin fuel) = trees ps
  | [], _, _, _ => rfl
  | p :: rest, fuel, ⟨stands, stand⟩, deep => by
      simp only [depthAll, Nat.max_le] at deep
      simp [treeWithin_eq stands deep.1, filterMap_treeWithin_eq stand deep.2, trees]

end

theorem Planted.Stands.tree?_eq (wf : WellFormed d) (stands : p.Stands d) : d.tree? p.root = some p.tree := by
  refine treeWithin_eq stands ((depth_le_length p).trans ?_)
  exact length_le_size (stands.nodup wf) (stands.contains)

/-- The trees below a node whose children stand. -/
theorem forest_eq (wf : WellFormed d) (stand : StandAll d ps) (kids : d.children x = ps.map Planted.root) :
    d.forest x = trees ps := by
  rw [forest, kids]
  clear kids
  induction ps with
  | nil => rfl
  | cons p ps ih => simp [stand.1.tree?_eq wf, ih stand.2, trees]

/-! ## Walks -/

mutual

/-- A walk that comes to a standing tree meets its nodes. -/
theorem walk_tree (wf : WellFormed d) : ∀ {p : Planted} (fuel : Nat) (behind : List NodeId), p.Stands d →
    d.walk (p.ids.length + fuel) (p.root :: behind) = p.ids ++ d.walk fuel behind
  | .element id tag attributes children, fuel, behind, ⟨_, kids, stand⟩ => by
      have inner := walk_trees wf fuel behind stand
      rw [ids, List.length_cons, Nat.add_right_comm, Planted.root, walk, kids, inner, List.cons_append]
  | .text id content, fuel, behind, found => by
      rw [ids, List.length_singleton, Nat.add_comm, Planted.root, walk, children_of_leaf wf found rfl]
      rfl
  | .comment id body, fuel, behind, found => by
      rw [ids, List.length_singleton, Nat.add_comm, Planted.root, walk, children_of_leaf wf found rfl]
      rfl

theorem walk_trees (wf : WellFormed d) : ∀ {ps : List Planted} (fuel : Nat) (behind : List NodeId), StandAll d ps →
    d.walk ((idsAll ps).length + fuel) (ps.map Planted.root ++ behind) = idsAll ps ++ d.walk fuel behind
  | [], fuel, behind, _ => by simp [idsAll]
  | p :: rest, fuel, behind, ⟨stands, stand⟩ => by
      have others := walk_trees wf fuel behind stand
      rw [idsAll, List.length_append, Nat.add_assoc, List.map_cons, List.cons_append, walk_tree wf _ _ stands, others,
        List.append_assoc]

end

/-- No id occurs twice in a node and the trees that are its children. -/
theorem nodup_cons_idsAll (wf : WellFormed d) (kids : d.children x = ps.map Planted.root) (stand : StandAll d ps) :
    (x :: idsAll ps).Nodup := by
  have apart : Apart d (ps.map Planted.root) := by
    have := Apart.children wf.linked wf.acyclic (List.pairwise_singleton _ x)
    rwa [List.append_nil, kids] at this
  refine List.nodup_cons.mpr ⟨fun mem => ?_, stand.nodup wf apart⟩
  obtain ⟨p, child, below⟩ := (stand.mem_idsAll wf x).mp mem
  refine wf.acyclic.not_below (wf.parent_iff.mpr ?_) below
  rw [kids]
  exact List.mem_map_of_mem child

/-- The descendants of a node are those of the trees that are its children. -/
theorem descendants_eq (wf : WellFormed d) (live : d.contains x = true) (kids : d.children x = ps.map Planted.root)
    (stand : StandAll d ps) : d.descendants x = x :: idsAll ps := by
  obtain ⟨spare, enough⟩ : ∃ spare, d.slots.size = (x :: idsAll ps).length + spare :=
    Nat.exists_eq_add_of_le (length_le_size (nodup_cons_idsAll wf kids stand) (List.forall_mem_cons.mpr ⟨live, stand.contains⟩))
  have inner := walk_trees wf spare [] stand
  have ended : d.walk spare [] = [] := by cases spare <;> rfl
  rw [descendants_eq_walk wf.linked wf.acyclic, if_pos live, enough, List.length_cons, Nat.add_right_comm, walk, kids, inner, ended,
    List.append_nil]

theorem Planted.Stands.descendants_eq (wf : WellFormed d) (stands : p.Stands d) : d.descendants p.root = p.ids := by
  have live := stands.contains p.root root_mem_ids
  obtain ⟨spare, enough⟩ : ∃ spare, d.slots.size = p.ids.length + spare :=
    Nat.exists_eq_add_of_le (length_le_size (stands.nodup wf) stands.contains)
  have ended : d.walk spare [] = [] := by cases spare <;> rfl
  rw [descendants_eq_walk wf.linked wf.acyclic, if_pos live, enough, walk_tree wf spare [] stands, ended, List.append_nil]

/-! ## Levels -/

/-- More levels than are left above the nodes of a way up change nothing. -/
theorem treeWithin_add (wf : WellFormed d) (more : Nat) : ∀ (fuel : Nat) {x : NodeId} {way : List NodeId},
    (x :: way).IsChain d.Up → (∀ y ∈ way, d.contains y = true) → d.slots.size ≤ way.length + fuel →
    d.treeWithin (fuel + more) x = d.treeWithin fuel x
  | 0, x, way, chain, lives, short => by
      have dead : d.get? x = none := by
        by_contra found
        have live : ∀ y ∈ x :: way, d.contains y = true :=
          List.forall_mem_cons.mpr ⟨Option.isSome_iff_ne_none.mpr found, lives⟩
        have few := length_le_size (wf.acyclic.nodup_of_isChain chain) live
        simp only [List.length_cons] at few
        omega
      cases more with
      | zero => rfl
      | succ more => simp only [treeWithin, dead]
  | fuel + 1, x, way, chain, lives, short => by
      rw [Nat.add_right_comm]
      cases found : d.get? x with
      | none => simp only [treeWithin, found]
      | some n =>
          have lives : ∀ y ∈ x :: way, d.contains y = true :=
            List.forall_mem_cons.mpr ⟨contains_iff.mpr ⟨n, found⟩, lives⟩
          have inner : (d.children x).filterMap (d.treeWithin (fuel + more)) = (d.children x).filterMap (d.treeWithin fuel) := by
            refine List.filterMap_congr fun c mem => ?_
            have chain : (c :: x :: way).IsChain d.Up := List.isChain_cons_cons.mpr ⟨wf.parent_iff.mpr mem, chain⟩
            exact treeWithin_add wf more fuel chain lives (by simp only [List.length_cons]; omega)
          simp only [treeWithin, found, inner]

/-- The tree of a node has no more levels than there are slots. -/
theorem treeWithin_of_le (wf : WellFormed d) {fuel : Nat} (enough : d.slots.size ≤ fuel) (x : NodeId) :
    d.treeWithin fuel x = d.tree? x := by
  obtain ⟨more, rfl⟩ := Nat.exists_eq_add_of_le enough
  exact treeWithin_add wf more d.slots.size (List.isChain_singleton x) (fun _ mem => absurd mem List.not_mem_nil) (by simp)

/-! ## The trees that stand -/

theorem exists_standAll {cs : List NodeId} (each : ∀ c ∈ cs, ∃ p : Planted, p.root = c ∧ p.Stands d) :
    ∃ ps, cs = ps.map Planted.root ∧ StandAll d ps := by
  induction cs with
  | nil => exact ⟨[], rfl, trivial⟩
  | cons c cs ih =>
      obtain ⟨p, rfl, stands⟩ := each c List.mem_cons_self
      obtain ⟨ps, rfl, stand⟩ := ih fun c mem => each c (List.mem_cons_of_mem _ mem)
      exact ⟨p :: ps, rfl, stands, stand⟩

/-- The induction is on the levels that are left above the nodes of a way up. -/
theorem exists_stands_within (wf : WellFormed d) : ∀ (fuel : Nat) {x : NodeId} {way : List NodeId},
    (x :: way).IsChain d.Up → (∀ y ∈ x :: way, d.contains y = true) → d.content? x ≠ some .fragment →
    d.slots.size ≤ way.length + fuel → ∃ p : Planted, p.root = x ∧ p.Stands d
  | 0, x, way, chain, lives, _, short => by
      have few := length_le_size (wf.acyclic.nodup_of_isChain chain) lives
      rw [List.length_cons] at few
      omega
  | fuel + 1, x, way, chain, lives, solid, short => by
      obtain ⟨content, found⟩ := contains_iff_content?.mp (lives x List.mem_cons_self)
      cases content with
      | fragment => exact absurd found solid
      | text data => exact ⟨.text x data, rfl, found⟩
      | comment data => exact ⟨.comment x data, rfl, found⟩
      | element e =>
          have each : ∀ c ∈ d.children x, ∃ p : Planted, p.root = c ∧ p.Stands d := by
            intro c mem
            have up := wf.parent_iff.mpr mem
            have longer : (c :: x :: way).IsChain d.Up := List.isChain_cons_cons.mpr ⟨up, chain⟩
            refine exists_stands_within wf fuel longer
              (List.forall_mem_cons.mpr ⟨wf.contains_child mem, lives⟩) (fun fragment => ?_) ?_
            · rw [wf.linked.placeable c fragment] at up
              cases up
            · rw [List.length_cons]
              omega
          obtain ⟨ps, kids, stand⟩ := exists_standAll each
          exact ⟨.element x e.tag e.attributes ps, rfl, ⟨e, found, rfl, rfl⟩, kids, stand⟩

/-- Every node that is no fragment is the root of a standing tree. -/
theorem exists_stands (wf : WellFormed d) (live : d.contains x = true) (solid : d.content? x ≠ some .fragment) :
    ∃ p : Planted, p.root = x ∧ p.Stands d :=
  exists_stands_within wf d.slots.size (List.isChain_singleton x) (by simpa using live) solid (by simp)

/-- The children of any node are roots of standing trees. -/
theorem exists_children (wf : WellFormed d) (x : NodeId) : ∃ ps, d.children x = ps.map Planted.root ∧ StandAll d ps := by
  refine exists_standAll fun c mem => exists_stands wf (wf.contains_child mem) fun fragment => ?_
  have up := wf.parent_iff.mpr mem
  rw [wf.linked.placeable c fragment] at up
  cases up

end Inlay.Document
