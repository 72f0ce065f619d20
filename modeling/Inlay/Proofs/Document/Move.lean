/-
# Proofs.Document.Move — inserting, removing and discarding

What `insertBefore`, `remove` and `discard` make of a well-formed document, and
when they are refused. A refused edit of one node leaves the document as it was;
inserting a fragment moves its children one by one, and what was moved before a
refusal stays moved.

`Safe` is what every public edit is: it leaves a well-formed document, whether
it gives an answer or is refused.
-/
import Inlay.Proofs.Document.WellFormed

namespace Inlay.Document

set_option autoImplicit false

open Relation Inlay.Markup

variable {d d' : Document} {x node parent : NodeId} {reference : Option NodeId}

/-! ## Moving one node -/

/-- The child lists once a node has moved: it leaves its list and stands in
front of the reference or at the end. In front of itself it stands already. -/
def moved (kids : NodeId → List NodeId) (parent node : NodeId) (reference : Option NodeId)
    (p : NodeId) : List NodeId :=
  if reference = some node then kids p
  else if p = parent then placeBefore node reference ((kids p).erase node)
  else (kids p).erase node

theorem Below.of_children_subset (wf : WellFormed d) (wf' : WellFormed d')
    (sub : ∀ p, d'.children p ⊆ d.children p) {a : NodeId} (below : Below d' x a) : Below d x a :=
  ReflTransGen.mono (r := d'.Up) (p := d.Up)
    (fun _ _ up => wf.parent_iff.mpr (sub _ (wf'.parent_iff.mp up))) x a below

theorem WellFormed.parent?_eq_none (wf : WellFormed d) (absent : ∀ p, x ∉ d.children p) :
    d.parent? x = none := by
  cases up : d.parent? x with
  | none => rfl
  | some p => exact absurd (wf.parent_iff.mp up) (absent p)

/-- The place in front of a child is the place in front of what follows it once
it is taken out. -/
theorem reinserted (wf : WellFormed d) (mem : node ∈ d.children parent) :
    (∀ r, d.nextSibling? node = some r → r ∈ (d.children parent).erase node) ∧
      placeBefore node (d.nextSibling? node) ((d.children parent).erase node) = d.children parent := by
  obtain ⟨front, behind, split⟩ := List.append_of_mem mem
  have nodup := wf.nodup parent
  have next := (wf.linked.around parent front node behind split).2.2
  rw [split] at nodup
  rw [split, next, erase_split nodup]
  refine ⟨fun r here => List.mem_append_right _ (List.mem_of_mem_head? here), ?_⟩
  exact placeBefore_split (List.nodup_cons.mp (List.nodup_middle.mp nodup)).2

theorem filter_not_mem_cons {rest : List NodeId} (list : List NodeId) :
    (list.filter (· ≠ node)).filter (· ∉ rest) = list.filter (· ∉ node :: rest) := by
  rw [List.filter_filter]
  refine List.filter_congr fun y _ => ?_
  by_cases same : y = node <;> simp [same]

/-- The child lists once a node has moved in front of the second part of a list that it does not
begin. -/
theorem moved_of_split (wf : WellFormed d) {front behind : List NodeId}
    (split : d.children parent = front ++ behind) (away : behind.head? ≠ some node) :
    moved d.children parent node behind.head? = fun p =>
      if p = parent then front.filter (· ≠ node) ++ node :: behind.filter (· ≠ node)
      else (d.children p).filter (· ≠ node) := by
  have nodup := wf.nodup parent
  rw [split] at nodup
  funext p
  have erased : (d.children p).erase node = (d.children p).filter (· ≠ node) := by
    rw [(wf.nodup p).erase_eq_filter]
    refine List.filter_congr fun y _ => ?_
    by_cases same : y = node <;> simp [same]
  rw [moved, if_neg away, erased]
  split
  · next isParent =>
      subst isParent
      have head : behind.head? = (behind.filter (· ≠ node)).head? := by
        cases behind with
        | nil => rfl
        | cons b rest =>
            have ne : b ≠ node := by simpa using away
            rw [List.filter_cons_of_pos (by simpa using ne)]
            rfl
      rw [split, List.filter_append, head]
      refine placeBefore_split ?_
      rw [← List.filter_append]
      exact nodup.filter _
  · rfl

theorem move_becomes (wf : WellFormed d) (live : d.contains node = true)
    (solid : d.content? node ≠ some .fragment) (inner : node ≠ d.body)
    (takes : ∃ c, d.content? parent = some c ∧ c.isContainer = true)
    (outside : ¬ Below d parent node) (mem : ∀ r, reference = some r → r ∈ d.children parent) :
    ∃ d', move parent node reference d = .ok () d' ∧
      Becomes d d' d.content? (moved d.children parent node reference) := by
  obtain ⟨d₁, taken, out⟩ := unlink_becomes wf live
  have loose : d₁.parent? node = none := by
    refine out.wellFormed.parent?_eq_none fun p here => ?_
    rw [out.children] at here
    exact (wf.nodup p).not_mem_erase here
  have apart : ¬ Below d₁ parent node := fun below =>
    outside (Below.of_children_subset wf out.wellFormed (fun p => by
      rw [out.children]
      exact List.erase_subset) below)
  let place := if reference = some node then d.nextSibling? node else reference
  have memPlace : ∀ r, place = some r → r ∈ d₁.children parent := by
    intro r here
    rw [out.children]
    by_cases same : reference = some node
    · simp only [place, if_pos same] at here
      exact (reinserted wf (mem node same)).1 r here
    · simp only [place, if_neg same] at here
      have ne : r ≠ node := fun eq => same (eq ▸ here)
      exact (List.mem_erase_of_ne ne).mpr (mem r here)
  obtain ⟨d₂, put, placed⟩ := link_becomes out.wellFormed parent node place
    ((contains_congr out.content node).trans live) loose (by rwa [out.content])
    (by rwa [out.body]) (by rwa [out.content]) apart memPlace
  have told := report_becomes placed.wellFormed (d₂.isConnected parent)
    (f := fun t => { t with inserted := t.inserted + 1 }) (.childList parent [node] [])
    (fun _ => rfl) fun _ => rfl
  have all := (out.trans placed).trans told
  have lists : (fun p => if p = parent then placeBefore node place (d₁.children p)
      else d₁.children p) = moved d.children parent node reference := by
    funext p
    rw [out.children]
    by_cases same : reference = some node
    · have back := (reinserted wf (mem node same)).2
      simp only [place, moved, if_pos same]
      split
      · next here => rw [here, back]
      · next away =>
          refine List.erase_of_not_mem fun here => away ?_
          exact wf.linked.parent_unique here (mem node same)
    · simp only [place, moved, if_neg same]
  rw [placed.content, out.content, placed.children, lists] at all
  refine ⟨_, ?_, all⟩
  rw [move, Edit.bind_ask, Edit.bind_ok taken, Edit.bind_ok put]
  rfl

/-! ## Inserting -/

theorem live_eq_ok {n : Node} (found : d.get? x = some n) : d.live x = .ok n := by
  simp [Document.live, found]

/-- What `insertBefore` asks of the parent and the reference. -/
structure Admitted (d : Document) (parent : NodeId) (reference : Option NodeId) : Prop where
  takes : ∃ c, d.content? parent = some c ∧ c.isContainer = true
  mem : ∀ r, reference = some r → r ∈ d.children parent

theorem admits_ok (wf : WellFormed d) (admitted : Admitted d parent reference) :
    d.admits parent reference = .ok () := by
  obtain ⟨c, found, takes⟩ := admitted.takes
  obtain ⟨n, node, rfl⟩ := Option.map_eq_some_iff.mp found
  cases reference with
  | none => simp [admits, live_eq_ok node, takes, bind, Except.bind, pure, Except.pure]
  | some r =>
      have up := wf.parent_iff.mpr (admitted.mem r rfl)
      obtain ⟨m, child, upOf⟩ := Option.bind_eq_some_iff.mp up
      simp [admits, live_eq_ok node, live_eq_ok child, takes, upOf, bind, Except.bind, pure,
        Except.pure]

theorem admitted_of_admits (wf : WellFormed d) (ok : d.admits parent reference = .ok ()) :
    Admitted d parent reference := by
  cases node : d.get? parent with
  | none => simp [admits, Document.live, node, bind, Except.bind] at ok
  | some n =>
      by_cases takes : n.content.isContainer = true
      · refine ⟨⟨n.content, by simp [content?, node], takes⟩, ?_⟩
        rintro r rfl
        refine wf.parent_iff.mp ?_
        cases child : d.get? r with
        | none =>
            simp [admits, Document.live, node, child, takes, bind, Except.bind] at ok
        | some m =>
            by_cases up : m.parent = some parent
            · simp [parent?, child, up]
            · simp [admits, live_eq_ok node, live_eq_ok child, takes, up, bind, Except.bind, throw,
                throwThe, MonadExceptOf.throw] at ok
      · simp [admits, live_eq_ok node, takes, bind, Except.bind, throw, throwThe,
          MonadExceptOf.throw] at ok

theorem admitsNode_eq_ok (wf : WellFormed d) :
    d.admitsNode parent node = .ok () ↔ node ≠ d.body ∧ ¬ Below d parent node := by
  have above := wf.isInclusiveAncestor_iff (a := node) (x := parent)
  unfold admitsNode
  split
  · next bad =>
      simp only [reduceCtorEq, false_iff, not_and, not_not]
      exact fun ne => above.mp (bad.resolve_left ne)
  · next good =>
      simp only [true_iff]
      exact ⟨fun same => good (.inl same), fun below => good (.inr (above.mpr below))⟩

/-- A node that may be moved into a parent. -/
structure Movable (d : Document) (parent node : NodeId) : Prop where
  live : d.contains node = true
  solid : d.content? node ≠ some .fragment
  inner : node ≠ d.body
  outside : ¬ Below d parent node

theorem insertNode_becomes (wf : WellFormed d) (admitted : Admitted d parent reference)
    (movable : Movable d parent node) :
    ∃ d', insertNode parent node reference d = .ok () d' ∧
      Becomes d d' d.content? (moved d.children parent node reference) := by
  obtain ⟨d', done, becomes⟩ := move_becomes wf movable.live movable.solid movable.inner
    admitted.takes movable.outside admitted.mem
  obtain ⟨n, found⟩ := contains_iff.mp movable.live
  have check : (do
      d.admits parent reference
      let _ ← d.live node
      d.admitsNode parent node) = .ok () := by
    simp only [admits_ok wf admitted, live_eq_ok found, bind, Except.bind]
    exact (admitsNode_eq_ok wf).mpr ⟨movable.inner, movable.outside⟩
  exact ⟨d', by rw [insertNode, Edit.bind_ok (Edit.require_ok check), done], becomes⟩

/-- What the check of a move tells. -/
theorem allowed_of_check (wf : WellFormed d) (solid : d.content? node ≠ some .fragment)
    (check : (do
      d.admits parent reference
      let _ ← d.live node
      d.admitsNode parent node) = .ok ()) : Admitted d parent reference ∧ Movable d parent node := by
  cases admits : d.admits parent reference with
  | error fault => simp [admits, bind, Except.bind] at check
  | ok =>
      cases found : d.get? node with
      | none => simp [admits, Document.live, found, bind, Except.bind] at check
      | some n =>
          simp only [admits, live_eq_ok found, bind, Except.bind] at check
          have may := (admitsNode_eq_ok wf).mp check
          exact ⟨admitted_of_admits wf admits, contains_iff.mpr ⟨n, found⟩, solid, may.1, may.2⟩

/-- A node that may be inserted is moved. -/
theorem insertNode_of_check (wf : WellFormed d) (solid : d.content? node ≠ some .fragment)
    (check : (do
      d.admits parent reference
      let _ ← d.live node
      d.admitsNode parent node) = .ok ()) :
    ∃ d', insertNode parent node reference d = .ok () d' ∧
      Becomes d d' d.content? (moved d.children parent node reference) := by
  obtain ⟨admitted, movable⟩ := allowed_of_check wf solid check
  exact insertNode_becomes wf admitted movable

/-- Inserting a node is refused, and nothing is changed, or moves it. -/
theorem insertNode_cases (wf : WellFormed d) (parent : NodeId) (reference : Option NodeId)
    (solid : d.content? node ≠ some .fragment) :
    (∃ fault, insertNode parent node reference d = .error fault d) ∨
      ∃ d', insertNode parent node reference d = .ok () d' ∧
        Becomes d d' d.content? (moved d.children parent node reference) := by
  cases check : (do
      d.admits parent reference
      let _ ← d.live node
      d.admitsNode parent node : Except Fault Unit) with
  | error fault => exact .inl ⟨fault, by rw [insertNode, Edit.bind_error (Edit.require_error check)]⟩
  | ok => exact .inr (insertNode_of_check wf solid check)

theorem carried_of_fragment (fragment : d.content? node = some .fragment) : d.carried node = d.children node := by
  simp [carried, isFragment, fragment]

theorem carried_of_solid (solid : d.content? node ≠ some .fragment) : d.carried node = [node] := by
  have no : d.isFragment node = false := by
    unfold isFragment
    split
    · next fragment => exact absurd fragment solid
    · rfl
  simp [carried, no]

/-- Moving a node into a parent is what `insertBefore` does, and it is not
refused. -/
theorem insertBefore_becomes (wf : WellFormed d) (admitted : Admitted d parent reference)
    (movable : Movable d parent node) :
    ∃ d', insertBefore parent node reference d = .ok () d' ∧
      Becomes d d' d.content? (moved d.children parent node reference) := by
  obtain ⟨d', done, becomes⟩ := insertNode_becomes wf admitted movable
  obtain ⟨n, found⟩ := contains_iff.mp movable.live
  have single := carried_of_solid movable.solid
  have check : (do
      d.admits parent reference
      let _ ← d.live node
      return d.carried node) = .ok [node] := by
    simp [admits_ok wf admitted, live_eq_ok found, single, bind, Except.bind, pure, Except.pure]
  refine ⟨d', ?_, becomes⟩
  rw [insertBefore, Edit.bind_ok (Edit.require_ok check), insertNodes, Edit.bind_ok done]
  rfl

/-! ## Removing -/

theorem remove_becomes (wf : WellFormed d) (live : d.contains node = true) (inner : node ≠ d.body) :
    ∃ d', remove node d = .ok () d' ∧
      Becomes d d' d.content? (fun p => (d.children p).erase node) := by
  obtain ⟨d', done, becomes⟩ := unlink_becomes wf live
  obtain ⟨n, found⟩ := contains_iff.mp live
  have check : d.admitsRemoval node = .ok () := by
    simp [admitsRemoval, inner, live_eq_ok found, Except.map]
  exact ⟨d', by rw [remove, Edit.bind_ok (Edit.require_ok check), done], becomes⟩

theorem remove_cases (wf : WellFormed d) (node : NodeId) :
    (∃ fault, remove node d = .error fault d) ∨
      ∃ d', remove node d = .ok () d' ∧ d.contains node = true ∧ node ≠ d.body := by
  cases check : d.admitsRemoval node with
  | error fault =>
      exact .inl ⟨fault, by rw [remove, Edit.bind_error (Edit.require_error check)]⟩
  | ok =>
      right
      have inner : node ≠ d.body := by
        intro same
        simp [admitsRemoval, same] at check
      have live : d.contains node = true := by
        cases found : d.get? node with
        | none => simp [admitsRemoval, inner, Document.live, found, Except.map] at check
        | some n => exact contains_iff.mpr ⟨n, found⟩
      obtain ⟨d', done, -⟩ := remove_becomes wf live inner
      exact ⟨d', done, live, inner⟩

/-! ## Freeing -/

section Free

/-- Freeing distinct live nodes leaves the others as they are. -/
theorem foldl_release : ∀ (ids : List NodeId) {d : Document}, Kept d → ids.Nodup →
    (∀ id ∈ ids, d.contains id = true) → Kept (ids.foldl release d) ∧ Aged d (ids.foldl release d) ∧
      (ids.foldl release d).body = d.body ∧
      ∀ x, (ids.foldl release d).get? x = if x ∈ ids then none else d.get? x
  | [], d, kept, _, _ => ⟨kept, .refl d, rfl, by simp⟩
  | id :: rest, d, kept, nodup, lives => by
      obtain ⟨absent, nodup⟩ := List.nodup_cons.mp nodup
      have live := lives id (by simp)
      have get := get?_release live
      have livesRest : ∀ x ∈ rest, (d.release id).contains x = true := by
        intro x mem
        have ne : x ≠ id := fun same => absent (same ▸ mem)
        rw [contains, get, if_neg ne]
        exact lives x (by simp [mem])
      obtain ⟨keptRest, aged, body, getRest⟩ := foldl_release rest (kept.release live) nodup livesRest
      refine ⟨keptRest, (Aged.release kept live).trans aged, body, fun x => ?_⟩
      rw [List.foldl_cons, getRest, get]
      by_cases first : x = id <;> by_cases later : x ∈ rest <;> simp [first, later]

/-- Freeing a set of nodes that holds a child exactly if it holds the parent. -/
theorem release_becomes (wf : WellFormed d) {ids : List NodeId} (nodup : ids.Nodup)
    (lives : ∀ id ∈ ids, d.contains id = true) (inner : d.body ∉ ids)
    (closed : ∀ p c, c ∈ d.children p → (c ∈ ids ↔ p ∈ ids)) :
    Becomes d (ids.foldl release d) (fun x => if x ∈ ids then none else d.content? x)
      (fun p => if p ∈ ids then [] else d.children p) := by
  obtain ⟨kept, aged, body, get⟩ := foldl_release ids wf.kept nodup lives
  generalize ids.foldl release d = d' at kept aged body get
  have content : d'.content? = fun x => if x ∈ ids then none else d.content? x := by
    funext x
    simp only [content?, get]
    split <;> rfl
  have link : ∀ (f : Node → Option NodeId) (x : NodeId),
      (d'.get? x).bind f = if x ∈ ids then none else (d.get? x).bind f := by
    intro f x
    rw [get]
    split <;> rfl
  have up : ∀ x, d'.parent? x = if x ∈ ids then none else d.parent? x := link (·.parent)
  have keeps : ∀ {p c}, c ∈ (if p ∈ ids then [] else d.children p) →
      c ∈ d.children p ∧ c ∉ ids ∧ p ∉ ids := by
    intro p c mem
    split at mem
    · cases mem
    · next away => exact ⟨mem, fun here => away ((closed p c mem).mp here), away⟩
  have linked : Linked d' fun p => if p ∈ ids then [] else d.children p :=
    { first := by
        intro p
        refine (link (·.firstChild) p).trans ?_
        split
        · rfl
        · exact wf.linked.first p
      last := by
        intro p
        refine (link (·.lastChild) p).trans ?_
        split
        · rfl
        · exact wf.linked.last p
      around := by
        intro p front c behind split
        obtain ⟨-, awayC, awayP⟩ := keeps (c := c) (by rw [split]; simp)
        rw [if_neg awayP] at split
        have around := wf.linked.around p front c behind split
        refine ⟨?_, ?_, ?_⟩
        · rw [up, if_neg awayC]
          exact around.1
        · refine (link (·.previousSibling) c).trans ?_
          rw [if_neg awayC]
          exact around.2.1
        · refine (link (·.nextSibling) c).trans ?_
          rw [if_neg awayC]
          exact around.2.2
      mem := by
        intro p c step
        rw [up] at step
        split at step
        · cases step
        · next away =>
            have mem := wf.linked.mem p c step
            rw [if_neg fun here => away ((closed p c mem).mpr here)]
            exact mem
      loose := by
        intro c step
        by_cases here : c ∈ ids
        · exact ⟨(link (·.previousSibling) c).trans (if_pos here),
            (link (·.nextSibling) c).trans (if_pos here)⟩
        · rw [up, if_neg here] at step
          have loose := wf.linked.loose c step
          exact ⟨(link (·.previousSibling) c).trans ((if_neg here).trans loose.1),
            (link (·.nextSibling) c).trans ((if_neg here).trans loose.2)⟩
      nodup := by
        intro p
        split
        · exact List.nodup_nil
        · exact wf.nodup p
      container := by
        intro p nonempty
        have away : p ∉ ids := fun here => nonempty (if_pos here)
        rw [if_neg away] at nonempty
        rw [content]
        simp only [if_neg away]
        exact wf.linked.container p nonempty
      placeable := by
        intro c fragment
        rw [content] at fragment
        simp only at fragment
        split at fragment
        · cases fragment
        · next away =>
            rw [up, if_neg away]
            exact wf.linked.placeable c fragment }
  have children := linked.children_eq
  have acyclic : Acyclic d' := by
    intro x cycle
    refine wf.acyclic x (TransGen.mono (r := d'.Up) (p := d.Up) ?_ x x cycle)
    intro b c step
    simp only [Up, up] at step
    split at step
    · cases step
    · exact step
  refine ⟨⟨kept, children ▸ linked, acyclic, ?_, ?_⟩, content, children, body, aged⟩
  · rw [body, content]
    simp only [if_neg inner]
    exact wf.body_element
  · rw [body, up, if_neg inner]
    exact wf.body_loose

/-- Discarding a node frees it and everything below it. -/
theorem discard_becomes (wf : WellFormed d) (live : d.contains node = true) (inner : node ≠ d.body) :
    ∃ d', discard node d = .ok () d' ∧
      Becomes d d' (fun x => if x ∈ d.descendants node then none else d.content? x)
        (fun p => if p ∈ d.descendants node then [] else (d.children p).erase node) := by
  obtain ⟨d₁, removed, out⟩ := remove_becomes wf live inner
  have wf₁ := out.wellFormed
  have live₁ : d₁.contains node = true := (contains_congr out.content node).trans live
  have up₁ : ∀ p c, d₁.Up c p ↔ c ∈ (d.children p).erase node := by
    intro p c
    have := wf₁.parent_iff (p := p) (c := c)
    rwa [out.children] at this
  have loose : ∀ p, ¬ d₁.Up node p := fun p up => (wf.nodup p).not_mem_erase ((up₁ p node).mp up)
  -- the way up to `node` does not use the link that is gone
  have below : ∀ x, Below d₁ x node ↔ Below d x node := by
    intro x
    constructor
    · exact Below.of_children_subset wf wf₁ fun p => by
        rw [out.children]
        exact List.erase_subset
    · intro below
      induction below using ReflTransGen.head_induction_on with
      | refl => exact ReflTransGen.refl
      | @head b c step _ ih =>
          by_cases same : b = node
          · subst same
            exact ReflTransGen.refl
          · refine ReflTransGen.head ((up₁ c b).mpr ?_) ih
            exact (List.mem_erase_of_ne same).mpr (wf.parent_iff.mp step)
  have same : ∀ x, x ∈ d₁.descendants node ↔ x ∈ d.descendants node := by
    intro x
    rw [wf₁.mem_descendants, wf.mem_descendants, below]
    simp [live, live₁]
  have outside : d₁.body ∉ d₁.descendants node := by
    intro mem
    have := (wf₁.mem_descendants.mp mem).2
    rcases ReflTransGen.cases_head this with here | ⟨p, first, -⟩
    · exact inner (by rw [← here, out.body])
    · exact wf₁.body_not_mem_children p (wf₁.parent_iff.mp first)
  have freed := release_becomes wf₁ (descendants_nodup wf₁.linked wf₁.acyclic)
    (fun x mem => wf₁.contains_of_below live₁ (wf₁.mem_descendants.mp mem).2) outside (by
      intro p c mem
      have up : d₁.Up c p := wf₁.parent_iff.mpr mem
      rw [wf₁.mem_descendants, wf₁.mem_descendants]
      refine and_congr_right fun _ => ⟨fun below => ?_, fun below => ReflTransGen.head up below⟩
      rcases ReflTransGen.cases_head below with here | ⟨q, first, rest⟩
      · exact absurd (here ▸ up) (loose p)
      · exact up_unique first up ▸ rest)
  have all := out.trans freed
  rw [out.content, out.children] at all
  simp only [same] at all
  refine ⟨_, ?_, all⟩
  rw [discard, Edit.bind_ok removed]
  rfl

end Free

end Inlay.Document
