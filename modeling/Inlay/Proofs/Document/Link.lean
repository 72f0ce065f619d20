/-
# Proofs.Document.Link — five links per node and the lists they spell

`Linked d kids` says that the links of a document spell the child lists `kids`:
first and last child are the ends of the list, and the siblings of a child are
its neighbours in it. `unlink` erases a node from the list it stands in
(`Linked.unlink`) and `link` puts one in front of a reference or at the end
(`Linked.link`); with a live parent and live neighbours neither is refused.

The lists are determined by the links: they are what `children` finds
(`Linked.children_eq`).
-/
import Inlay.Proofs.Document.Slot
import Mathlib.Tactic.SplitIfs

namespace Inlay.Document

set_option autoImplicit false

variable {d d' : Document} {id x node parent : NodeId} {kids : NodeId → List NodeId}

/-! ## Single links -/

theorem change_ok (id : NodeId) (f : Node → Node) (live : d.contains id = true) :
    change id f d = .ok () (d.modify id f) := by
  obtain ⟨n, found⟩ := contains_iff.mp live
  simp [change, Edit.checked, Document.live, found]

theorem linkForth_ok (parent : NodeId) (previous next : Option NodeId)
    (live : d.contains (previous.getD parent) = true) :
    ∃ d', linkForth parent previous next d = .ok () d' ∧ SameSlots d d' ∧
      ∀ x, d'.get? x = (d.get? x).map fun n =>
        { n with
          nextSibling := if previous = some x then next else n.nextSibling
          firstChild := if previous = none ∧ x = parent then next else n.firstChild } := by
  cases previous with
  | none =>
      refine ⟨_, change_ok _ _ live, sameSlots_modify _ _, fun x => ?_⟩
      rw [get?_modify]
      by_cases here : x = parent <;> simp [here]
  | some id =>
      refine ⟨_, change_ok _ _ live, sameSlots_modify _ _, fun x => ?_⟩
      rw [get?_modify]
      by_cases here : x = id
      · simp [here]
      · simp [here, Ne.symm here]

theorem linkBack_ok (parent : NodeId) (previous next : Option NodeId)
    (live : d.contains (next.getD parent) = true) :
    ∃ d', linkBack parent previous next d = .ok () d' ∧ SameSlots d d' ∧
      ∀ x, d'.get? x = (d.get? x).map fun n =>
        { n with
          previousSibling := if next = some x then previous else n.previousSibling
          lastChild := if next = none ∧ x = parent then previous else n.lastChild } := by
  cases next with
  | none =>
      refine ⟨_, change_ok _ _ live, sameSlots_modify _ _, fun x => ?_⟩
      rw [get?_modify]
      by_cases here : x = parent <;> simp [here]
  | some id =>
      refine ⟨_, change_ok _ _ live, sameSlots_modify _ _, fun x => ?_⟩
      rw [get?_modify]
      by_cases here : x = id
      · simp [here]
      · simp [here, Ne.symm here]

/-- What taking `node` out from between two neighbours makes of the node `x`. -/
def unlinked (parent node : NodeId) (previous next : Option NodeId) (x : NodeId) (n : Node) : Node where
  content := n.content
  parent := if x = node then none else n.parent
  firstChild := if previous = none ∧ x = parent then next else n.firstChild
  lastChild := if next = none ∧ x = parent then previous else n.lastChild
  previousSibling :=
    if x = node then none else if next = some x then previous else n.previousSibling
  nextSibling := if x = node then none else if previous = some x then next else n.nextSibling

theorem unlink_ok {n : Node} (found : d.get? node = some n) (up : n.parent = some parent)
    (liveParent : d.contains parent = true)
    (livePrevious : ∀ p, n.previousSibling = some p → d.contains p = true)
    (liveNext : ∀ p, n.nextSibling = some p → d.contains p = true) :
    ∃ d', unlink node d = .ok () d' ∧ SameSlots d d' ∧ ∀ x, d'.get? x =
      (d.get? x).map (unlinked parent node n.previousSibling n.nextSibling x) := by
  obtain ⟨content, up', first, last, previous, next⟩ := n
  cases up
  have forthTarget : d.contains (previous.getD parent) = true := by
    cases previous with
    | none => exact liveParent
    | some p => exact livePrevious p rfl
  have backTarget : d.contains (next.getD parent) = true := by
    cases next with
    | none => exact liveParent
    | some p => exact liveNext p rfl
  obtain ⟨d₁, forth, same₁, get₁⟩ := linkForth_ok parent previous next forthTarget
  obtain ⟨d₂, back, same₂, get₂⟩ := linkBack_ok parent previous next
    ((same₁.contains _).trans backTarget)
  have nodeLive : d₂.contains node = true := by
    rw [same₂.contains, same₁.contains]
    exact contains_iff.mpr ⟨_, found⟩
  have clear := change_ok node
    (fun n => { n with parent := none, previousSibling := none, nextSibling := none }) nodeLive
  have same₃ := sameSlots_modify (d := d₂) node
    (fun n => { n with parent := none, previousSibling := none, nextSibling := none })
  have same₄ := sameSlots_report (d := d₂.modify node
      (fun n => { n with parent := none, previousSibling := none, nextSibling := none }))
    (d.isConnected parent) (f := fun t => { t with removed := t.removed + 1 })
    (.childList parent [] [node]) (fun _ => rfl) fun _ => rfl
  refine ⟨_, ?_, ((same₁.trans same₂).trans same₃).trans same₄, ?_⟩
  · simp only [unlink, Edit.require, Document.live, found, Edit.ask, Edit.always, bind,
      EStateM.bind, forth, back, clear]
  · intro x
    rw [get?_report, get?_modify, get₂, get₁]
    cases d.get? x with
    | none => simp
    | some n =>
        by_cases here : x = node
        · simp [here, unlinked]
        · simp [here, unlinked]

/-- What putting `node` between two neighbours makes of the node `x`. -/
def relinked (parent node : NodeId) (previous next : Option NodeId) (x : NodeId) (n : Node) : Node where
  content := n.content
  parent := if x = node then some parent else n.parent
  firstChild := if previous = none ∧ x = parent then some node else n.firstChild
  lastChild := if next = none ∧ x = parent then some node else n.lastChild
  previousSibling :=
    if next = some x then some node else if x = node then previous else n.previousSibling
  nextSibling := if previous = some x then some node else if x = node then next else n.nextSibling

theorem link_ok {reference previous : Option NodeId} (liveParent : d.contains parent = true)
    (liveNode : d.contains node = true)
    (liveReference : ∀ p, reference = some p → d.contains p = true)
    (asked : d.liveBefore parent reference = .ok previous)
    (livePrevious : ∀ p, previous = some p → d.contains p = true) :
    ∃ d', link parent node reference d = .ok () d' ∧ SameSlots d d' ∧ ∀ x, d'.get? x =
      (d.get? x).map (relinked parent node previous reference x) := by
  have placed := change_ok node (fun n =>
    { n with parent := some parent, previousSibling := previous, nextSibling := reference }) liveNode
  have same := sameSlots_modify (d := d) node (fun n =>
    { n with parent := some parent, previousSibling := previous, nextSibling := reference })
  have forthTarget : d.contains (previous.getD parent) = true := by
    cases previous with
    | none => exact liveParent
    | some p => exact livePrevious p rfl
  have backTarget : d.contains (reference.getD parent) = true := by
    cases reference with
    | none => exact liveParent
    | some p => exact liveReference p rfl
  obtain ⟨d₁, forth, same₁, get₁⟩ := linkForth_ok parent previous (some node)
    ((same.contains _).trans forthTarget)
  obtain ⟨d₂, back, same₂, get₂⟩ := linkBack_ok parent (some node) reference
    ((same₁.contains _).trans ((same.contains _).trans backTarget))
  refine ⟨d₂, ?_, (same.trans same₁).trans same₂, ?_⟩
  · simp only [link, Edit.require, asked, bind, EStateM.bind, placed, forth, back]
  · intro x
    rw [get₂, get₁, get?_modify]
    cases d.get? x with
    | none => simp
    | some n => by_cases here : x = node <;> simp [here, relinked]

/-! ## Links that spell child lists -/

/-- The links of a document spell the child lists `kids`. -/
structure Linked (d : Document) (kids : NodeId → List NodeId) : Prop where
  first : ∀ p, d.firstChild? p = (kids p).head?
  last : ∀ p, d.lastChild? p = (kids p).getLast?
  /-- A child is linked to its parent and to its neighbours in the list. -/
  around : ∀ p front c behind, kids p = front ++ c :: behind →
    d.parent? c = some p ∧ d.previousSibling? c = front.getLast? ∧ d.nextSibling? c = behind.head?
  mem : ∀ p c, d.parent? c = some p → c ∈ kids p
  loose : ∀ c, d.parent? c = none → d.previousSibling? c = none ∧ d.nextSibling? c = none
  nodup : ∀ p, (kids p).Nodup
  container : ∀ p, kids p ≠ [] → ∃ c, d.content? p = some c ∧ c.isContainer = true
  placeable : ∀ c, d.content? c = some .fragment → d.parent? c = none

namespace Linked

theorem parent_iff (linked : Linked d kids) {p c : NodeId} : d.parent? c = some p ↔ c ∈ kids p := by
  refine ⟨linked.mem p c, fun mem => ?_⟩
  obtain ⟨front, behind, split⟩ := List.append_of_mem mem
  exact (linked.around p front c behind split).1

theorem contains_of_parent {c p : NodeId} (up : d.parent? c = some p) : d.contains c = true := by
  unfold parent? at up
  obtain ⟨n, found, -⟩ := Option.bind_eq_some_iff.mp up
  exact contains_iff.mpr ⟨n, found⟩

theorem contains_kid (linked : Linked d kids) {p c : NodeId} (mem : c ∈ kids p) :
    d.contains c = true :=
  contains_of_parent (linked.parent_iff.mpr mem)

theorem contains_parent (linked : Linked d kids) {p c : NodeId} (mem : c ∈ kids p) :
    d.contains p = true := by
  obtain ⟨content, found, -⟩ := linked.container p (List.ne_nil_of_mem mem)
  exact contains_iff_content?.mpr ⟨content, found⟩

theorem parent_unique (linked : Linked d kids) {p q c : NodeId} (here : c ∈ kids p)
    (there : c ∈ kids q) : p = q := by
  have := (linked.parent_iff.mpr here).symm.trans (linked.parent_iff.mpr there)
  exact Option.some.inj this

theorem not_mem_of_loose (linked : Linked d kids) (up : d.parent? node = none) (p : NodeId) :
    node ∉ kids p := by
  intro mem
  rw [linked.parent_iff.mpr mem] at up
  cases up

theorem row_eq (linked : Linked d kids) (p : NodeId) :
    ∀ (fuel : Nat) (front behind : List NodeId), kids p = front ++ behind →
      d.row fuel behind.head? = behind.take fuel
  | 0, _, _, _ => by simp [row]
  | fuel + 1, _, [], _ => by simp [row]
  | fuel + 1, front, c :: behind, split => by
      have next := (linked.around p front c behind split).2.2
      simp only [List.head?_cons, row, next, List.take_succ_cons, List.cons.injEq, true_and]
      exact row_eq linked p fuel (front ++ [c]) behind (by simp [split])

/-- The lists are what following the links finds. -/
theorem children_eq (linked : Linked d kids) : d.children = kids := by
  funext p
  have short : (kids p).length ≤ d.slots.size :=
    length_le_size (linked.nodup p) fun c mem => linked.contains_kid mem
  rw [children, linked.first, linked.row_eq p d.slots.size [] (kids p) rfl]
  exact List.take_of_length_le short

end Linked

/-! ## Taking a node out -/

/-- What is left of a list when an item of it is gone splits as the list did. -/
theorem erase_split {front behind : List NodeId} (nodup : (front ++ node :: behind).Nodup) :
    (front ++ node :: behind).erase node = front ++ behind := by
  have absent : node ∉ front := by
    intro mem
    have := (List.nodup_append.mp nodup).2.2 node mem node (by simp)
    exact this rfl
  rw [List.erase_append_right _ absent, List.erase_cons_head]

section Unlink

variable {previous next : Option NodeId}

theorem content?_unlinked (get : ∀ x, d'.get? x =
    (d.get? x).map (unlinked parent node previous next x)) : d'.content? = d.content? := by
  funext x
  simp only [content?, get]
  cases d.get? x <;> rfl

theorem parent?_unlinked (get : ∀ x, d'.get? x =
    (d.get? x).map (unlinked parent node previous next x)) (x : NodeId) :
    d'.parent? x = if x = node then none else d.parent? x := by
  simp only [parent?, get]
  cases d.get? x <;> simp [unlinked]

/-- The links around a node that is taken out, in a list `front ++ node :: behind`. -/
theorem Linked.of_unlinked (linked : Linked d kids) {front behind : List NodeId}
    (split : kids parent = front ++ node :: behind)
    (get : ∀ x, d'.get? x =
      (d.get? x).map (unlinked parent node front.getLast? behind.head? x)) :
    Linked d' fun p => (kids p).erase node := by
  have nodup := linked.nodup parent
  rw [split] at nodup
  have content := content?_unlinked get
  have up := parent?_unlinked get
  have only : ∀ p, p ≠ parent → (kids p).erase node = kids p := by
    intro p ne
    refine List.erase_of_not_mem fun mem => ne ?_
    exact linked.parent_unique mem (split ▸ List.mem_append_right _ List.mem_cons_self)
  have here : (kids parent).erase node = front ++ behind := by rw [split, erase_split nodup]
  have liveParent : d.contains parent = true :=
    linked.contains_parent (split ▸ List.mem_append_right _ List.mem_cons_self)
  have previous' : ∀ x, d.contains x = true → d'.previousSibling? x =
      if x = node then none
      else if behind.head? = some x then front.getLast? else d.previousSibling? x := by
    intro x live
    obtain ⟨n, found⟩ := contains_iff.mp live
    simp only [previousSibling?, get, found, Option.map_some, Option.bind_some, unlinked]
  have next' : ∀ x, d.contains x = true → d'.nextSibling? x =
      if x = node then none
      else if front.getLast? = some x then behind.head? else d.nextSibling? x := by
    intro x live
    obtain ⟨n, found⟩ := contains_iff.mp live
    simp only [nextSibling?, get, found, Option.map_some, Option.bind_some, unlinked]
  have first' : ∀ x, d'.firstChild? x =
      if x = parent ∧ front = [] then behind.head? else d.firstChild? x := by
    intro x
    by_cases same : x = parent
    · subst same
      obtain ⟨n, found⟩ := contains_iff.mp liveParent
      simp [firstChild?, get, found, unlinked, List.getLast?_eq_none_iff]
    · cases found : d.get? x <;> simp [firstChild?, get, found, unlinked, same]
  have last' : ∀ x, d'.lastChild? x =
      if x = parent ∧ behind = [] then front.getLast? else d.lastChild? x := by
    intro x
    by_cases same : x = parent
    · subst same
      obtain ⟨n, found⟩ := contains_iff.mp liveParent
      simp [lastChild?, get, found, unlinked, List.head?_eq_none_iff]
    · cases found : d.get? x <;> simp [lastChild?, get, found, unlinked, same]
  have away : ∀ x, x ∈ front ++ behind → x ≠ node := by
    rintro x mem rfl
    have := List.nodup_middle.mp nodup
    exact (List.nodup_cons.mp this).1 mem
  have apart : ∀ x, x ∈ front → x ∉ behind := by
    intro x memFront memBehind
    exact (List.nodup_append.mp nodup).2.2 x memFront x (List.mem_cons_of_mem _ memBehind) rfl
  refine ⟨?_, ?_, ?_, ?_, ?_, ?_, ?_, ?_⟩
  · intro p
    rw [first', linked.first]
    by_cases same : p = parent
    · subst same
      rw [here, split]
      cases front <;> simp
    · simp [same, only p same]
  · intro p
    rw [last', linked.last]
    by_cases same : p = parent
    · subst same
      rw [here, split]
      cases behind with
      | nil => simp
      | cons b behind => simp [List.getLast?_append]
    · simp [same, only p same]
  · intro p l c r cut
    by_cases same : p = parent
    · subst same
      rw [here] at cut
      have memC : c ∈ front ++ behind := cut ▸ List.mem_append_right _ List.mem_cons_self
      have old : c ∈ kids p := by
        rw [split]
        rcases List.mem_append.mp memC with mem | mem
        · exact List.mem_append_left _ mem
        · exact List.mem_append_right _ (List.mem_cons_of_mem _ mem)
      have live := linked.contains_kid old
      have ne := away c memC
      rw [up, if_neg ne, previous' c live, if_neg ne, next' c live, if_neg ne]
      refine ⟨linked.parent_iff.mpr old, ?_⟩
      -- the place of `c` in the shorter list tells its place in the longer one
      rcases List.append_eq_append_iff.mp cut with ⟨inner, rfl, rest⟩ | ⟨inner, rfl, rest⟩
      · -- `c` stood behind `node`
        have around := linked.around p (front ++ node :: inner) c r (by simp [split, rest])
        have notFront : c ∉ front := fun mem => apart c mem (by simp [rest])
        have notLast : front.getLast? ≠ some c := fun last => notFront (List.mem_of_getLast? last)
        rw [if_neg notLast]
        refine ⟨?_, around.2.2⟩
        cases inner with
        | nil => simp [rest]
        | cons i inner =>
            have notHead : behind.head? ≠ some c := by
              simp only [rest, List.cons_append, List.head?_cons, ne_eq, Option.some.injEq]
              rintro rfl
              rw [rest] at nodup
              simp [List.nodup_append] at nodup
            rw [if_neg notHead, around.2.1]
            simp [List.getLast?_append]
      · cases inner with
        | nil =>
            -- `c` stood right behind `node`
            simp only [List.nil_append] at rest
            have around := linked.around p (l ++ [node]) c r (by simp [split, ← rest])
            have notLast : l.getLast? ≠ some c := fun last =>
              apart c (by simpa using List.mem_of_getLast? last) (by simp [← rest])
            simp [← rest, around.2.2, notLast]
        | cons i inner =>
            -- `c` stood in front of `node`
            simp only [List.cons_append, List.cons.injEq] at rest
            obtain ⟨rfl, rfl⟩ := rest
            have around := linked.around p l c (inner ++ node :: behind) (by simp [split])
            have notHead : behind.head? ≠ some c := fun head =>
              apart c (by simp) (List.mem_of_mem_head? head)
            rw [if_neg notHead]
            refine ⟨around.2.1, ?_⟩
            rw [around.2.2]
            rcases List.eq_nil_or_concat' inner with rfl | ⟨inner, last, rfl⟩
            · simp
            · have notLast : last ≠ c := by
                rintro rfl
                simp [List.nodup_append] at nodup
              have ends : (l ++ c :: (inner ++ [last])).getLast? = some last := by
                rw [show l ++ c :: (inner ++ [last]) = (l ++ c :: inner) ++ [last] by simp,
                  List.getLast?_concat]
              simp [ends, notLast]
    · rw [only p same] at cut
      have memC : c ∈ kids p := cut ▸ List.mem_append_right _ List.mem_cons_self
      have elsewhere : c ∉ kids parent := fun mem => same (linked.parent_unique memC mem)
      rw [split] at elsewhere
      have live := linked.contains_kid memC
      have ne : c ≠ node := by
        rintro rfl
        exact elsewhere (by simp)
      have notHead : behind.head? ≠ some c := fun head =>
        elsewhere (by simp [List.mem_of_mem_head? head])
      have notLast : front.getLast? ≠ some c := fun last =>
        elsewhere (by simp [List.mem_of_getLast? last])
      rw [up, if_neg ne, previous' c live, if_neg ne, next' c live, if_neg ne, if_neg notHead,
        if_neg notLast]
      exact linked.around p l c r cut
  · intro p c upC
    rw [up] at upC
    split at upC
    · cases upC
    · next ne => exact (List.mem_erase_of_ne ne).mpr (linked.mem p c upC)
  · intro c upC
    rw [up] at upC
    by_cases same : c = node
    · subst same
      have live : d.contains c = true :=
        linked.contains_kid (split ▸ List.mem_append_right front List.mem_cons_self)
      simp [previous' c live, next' c live]
    · rw [if_neg same] at upC
      have old := linked.loose c upC
      by_cases live : d.contains c = true
      · have absent : c ∉ kids parent := linked.not_mem_of_loose upC parent
        rw [split] at absent
        have notHead : behind.head? ≠ some c := fun head =>
          absent (by simp [List.mem_of_mem_head? head])
        have notLast : front.getLast? ≠ some c := fun last =>
          absent (by simp [List.mem_of_getLast? last])
        rw [previous' c live, next' c live, if_neg same, if_neg same, if_neg notHead, if_neg notLast]
        exact old
      · have dead : d'.get? c = none := by
          rw [get]
          have : d.get? c = none := by
            cases found : d.get? c with
            | none => rfl
            | some n => exact absurd (contains_iff.mpr ⟨n, found⟩) live
          rw [this]
          rfl
        simp [previousSibling?, nextSibling?, dead]
  · exact fun p => (linked.nodup p).erase node
  · intro p nonempty
    rw [content]
    refine linked.container p fun empty => nonempty ?_
    simp [empty]
  · intro c fragment
    rw [content] at fragment
    rw [up, linked.placeable c fragment]
    simp

/-- Taking a node out of its parent is never refused, and erases it from its
parent's list. -/
theorem Linked.unlink (linked : Linked d kids) (live : d.contains node = true) :
    ∃ d', unlink node d = .ok () d' ∧ SameSlots d d' ∧ d'.content? = d.content? ∧
      (∀ x, d'.parent? x = if x = node then none else d.parent? x) ∧
      Linked d' fun p => (kids p).erase node := by
  obtain ⟨n, found⟩ := contains_iff.mp live
  cases up : n.parent with
  | none =>
      have loose : d.parent? node = none := by simp [parent?, found, up]
      refine ⟨d, ?_, .refl d, rfl, ?_, ?_⟩
      · simp [Document.unlink, Edit.require, Document.live, found, bind, EStateM.bind, up, pure,
          EStateM.pure]
      · intro x
        split
        · next same => rw [same, loose]
        · rfl
      · have same : (fun p => (kids p).erase node) = kids := by
          funext p
          exact List.erase_of_not_mem (linked.not_mem_of_loose loose p)
        rw [same]
        exact linked
  | some parent =>
      have upNode : d.parent? node = some parent := by simp [parent?, found, up]
      have mem := linked.mem parent node upNode
      obtain ⟨front, behind, split⟩ := List.append_of_mem mem
      have around := linked.around parent front node behind split
      simp only [previousSibling?, nextSibling?, found, Option.bind_some] at around
      obtain ⟨-, previous, next⟩ := around
      obtain ⟨d', done, same, get⟩ := unlink_ok found up (linked.contains_parent mem)
        (fun p here => linked.contains_kid (p := parent) (by
          rw [previous] at here
          simp [split, List.mem_of_getLast? here]))
        (fun p here => linked.contains_kid (p := parent) (by
          rw [next] at here
          simp [split, List.mem_of_mem_head? here]))
      rw [previous, next] at get
      exact ⟨d', done, same, content?_unlinked get, parent?_unlinked get, linked.of_unlinked split get⟩

end Unlink

/-! ## Putting a node in -/

/-- The list with an item in front of another one, or at the end. -/
def placeBefore (node : NodeId) (reference : Option NodeId) (list : List NodeId) : List NodeId :=
  match reference with
  | none => list ++ [node]
  | some reference => list.takeWhile (· ≠ reference) ++ node :: list.dropWhile (· ≠ reference)

theorem placeBefore_split {front behind : List NodeId} (nodup : (front ++ behind).Nodup) :
    placeBefore node behind.head? (front ++ behind) = front ++ node :: behind := by
  cases behind with
  | nil => simp [placeBefore]
  | cons b behind =>
      have before : ∀ x ∈ front, decide (x ≠ b) = true := by
        intro x mem
        simpa using fun same : x = b =>
          (List.nodup_append.mp nodup).2.2 x mem b List.mem_cons_self same
      simp only [List.head?_cons, placeBefore]
      rw [List.takeWhile_append_of_pos before, List.dropWhile_append_of_pos before]
      simp

/-- A list splits in front of a reference in it, or at its end. -/
theorem split_at_reference {list : List NodeId} {reference : Option NodeId}
    (mem : ∀ r, reference = some r → r ∈ list) :
    ∃ front behind, list = front ++ behind ∧ behind.head? = reference := by
  cases reference with
  | none => exact ⟨list, [], by simp, rfl⟩
  | some r =>
      obtain ⟨front, behind, split⟩ := List.append_of_mem (mem r rfl)
      exact ⟨front, r :: behind, split, rfl⟩

section Relink

variable {previous next : Option NodeId}

theorem content?_relinked (get : ∀ x, d'.get? x =
    (d.get? x).map (relinked parent node previous next x)) : d'.content? = d.content? := by
  funext x
  simp only [content?, get]
  cases d.get? x <;> rfl

theorem parent?_relinked (live : d.contains node = true) (get : ∀ x, d'.get? x =
    (d.get? x).map (relinked parent node previous next x)) (x : NodeId) :
    d'.parent? x = if x = node then some parent else d.parent? x := by
  by_cases same : x = node
  · subst same
    obtain ⟨n, found⟩ := contains_iff.mp live
    simp [parent?, get, found, relinked]
  · simp only [parent?, get, same, if_false]
    cases d.get? x <;> simp [relinked, same]

/-- The links around a node that is put into a list `front ++ behind`. -/
theorem Linked.of_relinked (linked : Linked d kids) {front behind : List NodeId}
    (split : kids parent = front ++ behind) (live : d.contains node = true)
    (loose : d.parent? node = none) (solid : d.content? node ≠ some .fragment)
    (takes : ∃ c, d.content? parent = some c ∧ c.isContainer = true)
    (get : ∀ x, d'.get? x =
      (d.get? x).map (relinked parent node front.getLast? behind.head? x)) :
    Linked d' fun p => if p = parent then front ++ node :: behind else kids p := by
  have nodup := linked.nodup parent
  rw [split] at nodup
  have content := content?_relinked get
  have up := parent?_relinked live get
  have absent := linked.not_mem_of_loose loose
  have absentHere : node ∉ front ++ behind := split ▸ absent parent
  have nodup' : (front ++ node :: behind).Nodup :=
    List.nodup_middle.mpr (List.nodup_cons.mpr ⟨absentHere, nodup⟩)
  have liveParent : d.contains parent = true := by
    obtain ⟨c, found, -⟩ := takes
    exact contains_iff_content?.mpr ⟨c, found⟩
  have previous' : ∀ x, d.contains x = true → d'.previousSibling? x =
      if behind.head? = some x then some node
      else if x = node then front.getLast? else d.previousSibling? x := by
    intro x live
    obtain ⟨n, found⟩ := contains_iff.mp live
    simp only [previousSibling?, get, found, Option.map_some, Option.bind_some, relinked]
  have next' : ∀ x, d.contains x = true → d'.nextSibling? x =
      if front.getLast? = some x then some node
      else if x = node then behind.head? else d.nextSibling? x := by
    intro x live
    obtain ⟨n, found⟩ := contains_iff.mp live
    simp only [nextSibling?, get, found, Option.map_some, Option.bind_some, relinked]
  have first' : ∀ x, d'.firstChild? x =
      if x = parent ∧ front = [] then some node else d.firstChild? x := by
    intro x
    by_cases same : x = parent
    · subst same
      obtain ⟨n, found⟩ := contains_iff.mp liveParent
      simp [firstChild?, get, found, relinked, List.getLast?_eq_none_iff]
    · cases found : d.get? x <;> simp [firstChild?, get, found, relinked, same]
  have last' : ∀ x, d'.lastChild? x =
      if x = parent ∧ behind = [] then some node else d.lastChild? x := by
    intro x
    by_cases same : x = parent
    · subst same
      obtain ⟨n, found⟩ := contains_iff.mp liveParent
      simp [lastChild?, get, found, relinked, List.head?_eq_none_iff]
    · cases found : d.get? x <;> simp [lastChild?, get, found, relinked, same]
  have apart : ∀ x, x ∈ front → x ∉ behind := fun x memFront memBehind =>
    (List.nodup_append.mp nodup).2.2 x memFront x memBehind rfl
  have notHeadNode : behind.head? ≠ some node := fun head =>
    absentHere (by simp [List.mem_of_mem_head? head])
  have notLastNode : front.getLast? ≠ some node := fun last =>
    absentHere (by simp [List.mem_of_getLast? last])
  refine ⟨?_, ?_, ?_, ?_, ?_, ?_, ?_, ?_⟩
  · intro p
    rw [first', linked.first]
    by_cases same : p = parent
    · subst same
      rw [if_pos rfl, split]
      cases front <;> simp
    · simp [same]
  · intro p
    rw [last', linked.last]
    by_cases same : p = parent
    · subst same
      rw [if_pos rfl, split]
      cases behind with
      | nil => simp
      | cons b behind => simp [List.getLast?_append]
    · simp [same]
  · intro p l c r cut
    by_cases same : p = parent
    · subst same
      rw [if_pos rfl] at cut
      -- `c` stands in front of `node`, is `node`, or stands behind it
      rcases List.append_eq_append_iff.mp cut with ⟨inner, rfl, rest⟩ | ⟨inner, rfl, rest⟩
      · cases inner with
        | nil =>
            simp only [List.nil_append, List.cons.injEq] at rest
            obtain ⟨rfl, rfl⟩ := rest
            rw [up, if_pos rfl, previous' node live, next' node live, if_neg notHeadNode, if_pos rfl,
              if_neg notLastNode, if_pos rfl, List.append_nil]
            exact ⟨rfl, rfl, rfl⟩
        | cons i inner =>
            simp only [List.cons_append, List.cons.injEq] at rest
            obtain ⟨rfl, rfl⟩ := rest
            have mem : c ∈ kids p := by simp [split]
            have ne : c ≠ node := fun same => absent p (same ▸ mem)
            have liveC := linked.contains_kid mem
            have around := linked.around p (front ++ inner) c r (by simp [split])
            have notLast : front.getLast? ≠ some c := fun last =>
              apart c (List.mem_of_getLast? last) (by simp)
            rw [up, if_neg ne, previous' c liveC, next' c liveC, if_neg notLast, if_neg ne, if_neg ne]
            refine ⟨linked.parent_iff.mpr mem, ?_, around.2.2⟩
            cases inner with
            | nil => simp
            | cons i inner =>
                have notHead : i ≠ c := by
                  rintro rfl
                  simp [List.nodup_append] at nodup
                simp only [List.cons_append, List.head?_cons, Option.some.injEq, notHead, if_false]
                rw [around.2.1]
                simp [List.getLast?_append]
      · cases inner with
        | nil =>
            simp only [List.nil_append, List.cons.injEq] at rest
            obtain ⟨rfl, rfl⟩ := rest
            rw [up, if_pos rfl, previous' c live, next' c live, if_neg notHeadNode, if_pos rfl,
              if_neg notLastNode, if_pos rfl, List.append_nil]
            exact ⟨rfl, rfl, rfl⟩
        | cons i inner =>
            simp only [List.cons_append, List.cons.injEq] at rest
            obtain ⟨rfl, rfl⟩ := rest
            have mem : c ∈ kids p := by simp [split]
            have ne : c ≠ node := fun same => absent p (same ▸ mem)
            have liveC := linked.contains_kid mem
            have around := linked.around p l c (inner ++ behind) (by simp [split])
            have notHead : behind.head? ≠ some c := fun head =>
              apart c (by simp) (List.mem_of_mem_head? head)
            rw [up, if_neg ne, previous' c liveC, next' c liveC, if_neg notHead, if_neg ne, if_neg ne]
            refine ⟨linked.parent_iff.mpr mem, around.2.1, ?_⟩
            rw [around.2.2]
            rcases List.eq_nil_or_concat' inner with rfl | ⟨inner, last, rfl⟩
            · simp
            · have notLast : last ≠ c := by
                rintro rfl
                simp [List.nodup_append] at nodup
              have ends : (l ++ c :: (inner ++ [last])).getLast? = some last := by
                rw [show l ++ c :: (inner ++ [last]) = (l ++ c :: inner) ++ [last] by simp,
                  List.getLast?_concat]
              simp [ends, notLast]
    · rw [if_neg same] at cut
      have mem : c ∈ kids p := cut ▸ List.mem_append_right _ List.mem_cons_self
      have elsewhere : c ∉ front ++ behind := fun there =>
        same (linked.parent_unique mem (split ▸ there))
      have ne : c ≠ node := fun same => absent p (same ▸ mem)
      have liveC := linked.contains_kid mem
      have notHead : behind.head? ≠ some c := fun head =>
        elsewhere (by simp [List.mem_of_mem_head? head])
      have notLast : front.getLast? ≠ some c := fun last =>
        elsewhere (by simp [List.mem_of_getLast? last])
      rw [up, if_neg ne, previous' c liveC, next' c liveC, if_neg notHead, if_neg notLast, if_neg ne,
        if_neg ne]
      exact linked.around p l c r cut
  · intro p c upC
    rw [up] at upC
    split_ifs at upC with sameC
    · cases upC
      simp [sameC]
    · have mem := linked.mem p c upC
      split_ifs with sameP
      · subst sameP
        rw [split] at mem
        rcases List.mem_append.mp mem with mem | mem <;> simp [mem]
      · exact mem
  · intro c upC
    rw [up] at upC
    split_ifs at upC with sameC
    have old := linked.loose c upC
    by_cases liveC : d.contains c = true
    · have gone : c ∉ front ++ behind := split ▸ linked.not_mem_of_loose upC parent
      have notHead : behind.head? ≠ some c := fun head => gone (by simp [List.mem_of_mem_head? head])
      have notLast : front.getLast? ≠ some c := fun last => gone (by simp [List.mem_of_getLast? last])
      rw [previous' c liveC, next' c liveC, if_neg notHead, if_neg notLast, if_neg sameC,
        if_neg sameC]
      exact old
    · have dead : d'.get? c = none := by
        rw [get]
        have : d.get? c = none := by
          cases found : d.get? c with
          | none => rfl
          | some n => exact absurd (contains_iff.mpr ⟨n, found⟩) liveC
        rw [this]
        rfl
      simp [previousSibling?, nextSibling?, dead]
  · intro p
    split_ifs
    · exact nodup'
    · exact linked.nodup p
  · intro p nonempty
    rw [content]
    split_ifs at nonempty with same
    · exact same ▸ takes
    · exact linked.container p nonempty
  · intro c fragment
    rw [content] at fragment
    have ne : c ≠ node := by
      rintro rfl
      exact solid fragment
    rw [up, if_neg ne, linked.placeable c fragment]

end Relink

/-- Putting a parentless node into a container, in front of one of its children
or at the end, is never refused. -/
theorem Linked.link (linked : Linked d kids) {reference : Option NodeId}
    (live : d.contains node = true) (loose : d.parent? node = none)
    (solid : d.content? node ≠ some .fragment)
    (takes : ∃ c, d.content? parent = some c ∧ c.isContainer = true)
    (mem : ∀ r, reference = some r → r ∈ kids parent) :
    ∃ d', link parent node reference d = .ok () d' ∧ SameSlots d d' ∧ d'.content? = d.content? ∧
      (∀ x, d'.parent? x = if x = node then some parent else d.parent? x) ∧
      Linked d' fun p => if p = parent then placeBefore node reference (kids p) else kids p := by
  obtain ⟨front, behind, split, head⟩ := split_at_reference mem
  have asked : d.liveBefore parent reference = .ok front.getLast? := by
    subst head
    cases behind with
    | nil =>
        obtain ⟨c, content, -⟩ := takes
        obtain ⟨n, found⟩ := contains_iff.mp (contains_iff_content?.mpr ⟨c, content⟩)
        have last := linked.last parent
        simp only [lastChild?, found, Option.bind_some, split, List.append_nil] at last
        simp [liveBefore, Document.live, found, last, Except.map]
    | cons b behind =>
        obtain ⟨n, found⟩ := contains_iff.mp (linked.contains_kid (mem b rfl))
        have previous := (linked.around parent front b behind split).2.1
        simp only [previousSibling?, found, Option.bind_some] at previous
        simp [liveBefore, Document.live, found, previous, Except.map]
  have liveParent : d.contains parent = true := by
    obtain ⟨c, found, -⟩ := takes
    exact contains_iff_content?.mpr ⟨c, found⟩
  obtain ⟨d', done, same, get⟩ := link_ok liveParent live
    (fun p here => linked.contains_kid (mem p here)) asked
    (fun p here => linked.contains_kid (p := parent) (by
      rw [split]
      exact List.mem_append_left _ (List.mem_of_getLast? here)))
  rw [← head] at get
  refine ⟨d', done, same, content?_relinked get, parent?_relinked live get, ?_⟩
  have lists : (fun p => if p = parent then placeBefore node reference (kids p) else kids p) =
      fun p => if p = parent then front ++ node :: behind else kids p := by
    funext p
    split_ifs with same
    · rw [same, split, ← head]
      exact placeBefore_split (split ▸ linked.nodup parent)
    · rfl
  rw [lists]
  exact linked.of_relinked split live loose solid takes get

end Inlay.Document
