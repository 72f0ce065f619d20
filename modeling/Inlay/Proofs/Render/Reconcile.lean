/-
# Proofs.Render.Reconcile — one list of siblings in place of another

What `reconcile` makes of every list of children, said in one formula: the nodes
of the new list and the dropped ones leave the lists they stand in, and the new
list is put behind the comment, or at the start of the container. A node that
the new list names twice stands where it is named last (`List.dedup`).

Detaching is never refused to a node other than the body, and placing is not as
long as no node of the list is the container or above it.
-/
import Inlay.Proofs.Document.Move
import Inlay.Render.Reconcile
import Mathlib.Data.List.Dedup

namespace Inlay.Render

set_option autoImplicit false

open Relation Inlay.Document

variable {d d' d'' : Document} {claims : Claims} {node parent x : NodeId} {next previous : List NodeId}

/-! ## Acts -/

section Steps

variable {ε σ α β : Type} {s s' : σ} {a : α} {fault : ε}

theorem bind_ok {e : EStateM ε σ α} {f : α → EStateM ε σ β} (done : e s = .ok a s') :
    (e >>= f) s = f a s' := by
  simp [bind, EStateM.bind, done]

theorem bind_error {e : EStateM ε σ α} {f : α → EStateM ε σ β} (refused : e s = .error fault s') :
    (e >>= f) s = .error fault s' := by
  simp [bind, EStateM.bind, refused]

end Steps

namespace Act

variable {α β : Type} {a : α}

theorem edit_ok {e : Edit α} (done : e d = .ok a d') : edit e ⟨d, claims⟩ = .ok a ⟨d', claims⟩ := by
  simp [edit, done]

@[simp] theorem bind_ask (f : Document → α) (g : α → Act β) :
    (ask f >>= g) ⟨d, claims⟩ = g (f d) ⟨d, claims⟩ := rfl

@[simp] theorem bind_isClaimed (g : Bool → Act β) :
    (isClaimed node >>= g) ⟨d, claims⟩ = g (claims.contains node) ⟨d, claims⟩ := rfl

@[simp] theorem bind_claim (g : Unit → Act β) :
    (claim node >>= g) ⟨d, claims⟩ = g () ⟨d, claims.add node⟩ := rfl

end Act

theorem Claims.mem_add : x ∈ Claims.add node claims ↔ x = node ∨ x ∈ claims := by
  unfold Claims.add
  split
  · next has =>
      simp only [List.contains_iff_mem] at has
      refine ⟨.inr, fun mem => mem.elim (fun same => same ▸ has) id⟩
  · simp

/-! ## Detaching -/

/-- The child lists without some nodes. -/
def without (ids : List NodeId) (kids : NodeId → List NodeId) (p : NodeId) : List NodeId :=
  (kids p).filter (· ∉ ids)

theorem without_without (first second : List NodeId) (kids : NodeId → List NodeId) :
    without second (without first kids) = without (first ++ second) kids := by
  funext p
  simp [without, List.filter_filter, Bool.and_comm]

theorem without_nil (kids : NodeId → List NodeId) : without [] kids = kids := by
  funext p
  simp [without]

theorem erase_eq_without (wf : WellFormed d) :
    (fun p => (d.children p).erase node) = without [node] d.children := by
  funext p
  rw [(wf.nodup p).erase_eq_filter]
  refine List.filter_congr fun y _ => ?_
  by_cases same : y = node <;> simp [same]

/-- The nodes of the previous list that are detached. -/
def dropped (d : Document) (claims : Claims) (next previous : List NodeId) : List NodeId :=
  previous.filter fun x => x ∉ next ∧ x ∉ claims ∧ d.contains x = true

theorem detachOld_becomes (claims : Claims) (next : List NodeId) :
    ∀ (previous : List NodeId) {d : Document}, WellFormed d → d.body ∉ previous →
      ∃ d', detachOld next previous ⟨d, claims⟩ = .ok () ⟨d', claims⟩ ∧
        Becomes d d' d.content? (without (dropped d claims next previous) d.children)
  | [], d, wf, _ => ⟨d, rfl, by simpa [dropped, without_nil] using Becomes.refl wf⟩
  | node :: rest, d, wf, inner => by
      simp only [List.mem_cons, not_or] at inner
      by_cases drop : node ∉ next ∧ node ∉ claims ∧ d.contains node = true
      · obtain ⟨d₁, removed, out⟩ := remove_becomes wf drop.2.2 (Ne.symm inner.1)
        obtain ⟨d₂, done, becomes⟩ := detachOld_becomes claims next rest out.wellFormed (by
          rw [out.body]
          exact inner.2)
        have same : dropped d₁ claims next rest = dropped d claims next rest := by
          refine List.filter_congr fun y _ => ?_
          simp only [contains_congr out.content]
        have lists : dropped d claims next (node :: rest) = node :: dropped d claims next rest := by
          simp [dropped, drop]
        refine ⟨d₂, ?_, ?_⟩
        · rw [detachOld, Act.bind_isClaimed, Act.bind_ask]
          have keep : (!next.contains node && !claims.contains node && d.contains node) = true := by
            simp [drop]
          rw [if_pos keep, bind_ok (Act.edit_ok removed)]
          exact done
        · have all := out.trans becomes
          rwa [out.content, out.children, erase_eq_without wf, without_without, same,
            List.singleton_append, ← lists] at all
      · obtain ⟨d₂, done, becomes⟩ := detachOld_becomes claims next rest wf inner.2
        have lists : dropped d claims next (node :: rest) = dropped d claims next rest := by
          simp only [dropped, List.filter_cons]
          rw [if_neg (by simpa using drop)]
        refine ⟨d₂, ?_, lists ▸ becomes⟩
        rw [detachOld, Act.bind_isClaimed, Act.bind_ask]
        have keep : (!next.contains node && !claims.contains node && d.contains node) ≠ true := by
          simp only [ne_eq, Bool.and_eq_true, Bool.not_eq_true', List.contains_eq_mem,
            decide_eq_false_iff_not]
          exact fun all => drop ⟨all.1.1, all.1.2, all.2⟩
        rw [if_neg keep]
        exact done

theorem placeNowhere_becomes : ∀ (next : List NodeId) {d : Document} (claims : Claims), WellFormed d →
    ∃ d' claims', placeNowhere next ⟨d, claims⟩ = .ok () ⟨d', claims'⟩ ∧
      Becomes d d' d.content? (without next d.children) ∧ ∀ x, x ∈ claims' ↔ x ∈ claims ∨ x ∈ next
  | [], d, claims, wf => ⟨d, claims, rfl, by simpa [without_nil] using Becomes.refl wf, by simp⟩
  | node :: rest, d, claims, wf => by
      have first : ∃ d₁, detachPlaced node ⟨d, claims.add node⟩ = .ok () ⟨d₁, claims.add node⟩ ∧
          Becomes d d₁ d.content? (without [node] d.children) := by
        cases up : d.parent? node with
        | none =>
            refine ⟨d, by simp [detachPlaced, up]; rfl, ?_⟩
            have same : without [node] d.children = d.children := by
              rw [← erase_eq_without wf]
              funext p
              refine List.erase_of_not_mem fun mem => ?_
              rw [wf.parent_iff.mpr mem] at up
              cases up
            rw [same]
            exact .refl wf
        | some p =>
            have mem := wf.parent_iff.mp up
            have inner : node ≠ d.body := by
              rintro rfl
              exact wf.body_not_mem_children p mem
            obtain ⟨d₁, removed, out⟩ := remove_becomes wf (wf.contains_child mem) inner
            refine ⟨d₁, ?_, erase_eq_without wf ▸ out⟩
            simp only [detachPlaced, Act.bind_ask, up, Option.isSome_some, if_true]
            exact Act.edit_ok removed
      obtain ⟨d₁, detached, out⟩ := first
      obtain ⟨d₂, claims₂, done, becomes, claimed⟩ :=
        placeNowhere_becomes rest (claims.add node) out.wellFormed
      refine ⟨d₂, claims₂, ?_, ?_, fun x => ?_⟩
      · rw [placeNowhere, Act.bind_claim, bind_ok detached]
        exact done
      · have all := out.trans becomes
        rwa [out.content, out.children, without_without, List.singleton_append] at all
      · rw [claimed, Claims.mem_add, List.mem_cons]
        tauto

/-! ## Placing -/

section Place

variable {front behind : List NodeId}

/-- The ways up from a node that does not stand below `x` are no longer than
before when only `x` has moved. -/
theorem below_of_agree {a : NodeId} (agree : ∀ b c, b ≠ x → d'.Up b c → d.Up b c)
    (outside : ¬ Below d parent x) (below : Below d' parent a) : Below d parent a := by
  induction below with
  | refl => exact ReflTransGen.refl
  | @tail b c _ step ih =>
      have ne : b ≠ x := by
        rintro rfl
        exact outside ih
      exact ih.tail (agree b c ne step)

/-- The child lists once `x` stands behind `front` in the parent. -/
def placed (parent x : NodeId) (front behind : List NodeId) (kids : NodeId → List NodeId)
    (p : NodeId) : List NodeId :=
  if p = parent then front.filter (· ≠ x) ++ x :: behind.filter (· ≠ x)
  else (kids p).filter (· ≠ x)

theorem filter_ne_of_not_mem {list : List NodeId} (absent : x ∉ list) :
    list.filter (· ≠ x) = list := by
  refine List.filter_eq_self.mpr fun y mem => ?_
  simpa using fun same : y = x => absent (same ▸ mem)

theorem behindCursor_eq (wf : WellFormed d) (split : d.children parent = front ++ behind) :
    behindCursor parent front.getLast? d = behind.head? := by
  rcases List.eq_nil_or_concat' front with rfl | ⟨before, cursor, rfl⟩
  · rw [List.getLast?_nil, behindCursor, wf.linked.first, split]
    rfl
  · rw [List.getLast?_concat, behindCursor]
    exact (wf.linked.around parent before cursor behind (by simp [split])).2.2

/-- A node that stands where it belongs is left there, any other is moved. -/
theorem placeOne_becomes (wf : WellFormed d) (claims : Claims)
    (takes : ∃ c, d.content? parent = some c ∧ c.isContainer = true)
    (split : d.children parent = front ++ behind) (movable : Movable d parent x) :
    ∃ d', placeOne parent front.getLast? x ⟨d, claims⟩ = .ok () ⟨d', claims⟩ ∧
      Becomes d d' d.content? (placed parent x front behind d.children) := by
  rw [placeOne, Act.bind_ask, behindCursor_eq wf split]
  have nodup := wf.nodup parent
  rw [split] at nodup
  by_cases here : behind.head? = some x
  · refine ⟨d, by rw [if_neg (by simpa using here)]; rfl, ?_⟩
    obtain ⟨rest, rfl⟩ : ∃ rest, behind = x :: rest := by
      cases behind with
      | nil => simp at here
      | cons b rest =>
          simp only [List.head?_cons, Option.some.injEq] at here
          exact ⟨rest, by rw [here]⟩
    have absent := (List.nodup_cons.mp (List.nodup_middle.mp nodup)).1
    simp only [List.mem_append, not_or] at absent
    have same : placed parent x front (x :: rest) d.children = d.children := by
      funext p
      unfold placed
      split
      · next isParent =>
          rw [isParent, split, filter_ne_of_not_mem absent.1, List.filter_cons_of_neg (by simp),
            filter_ne_of_not_mem absent.2]
      · next away =>
          refine filter_ne_of_not_mem fun mem => away ?_
          exact wf.linked.parent_unique mem (split ▸ by simp)
    rw [same]
    exact .refl wf
  · have mem : ∀ r, behind.head? = some r → r ∈ d.children parent := by
      intro r head
      rw [split]
      exact List.mem_append_right _ (List.mem_of_mem_head? head)
    obtain ⟨d', done, becomes⟩ := insertBefore_becomes wf ⟨takes, mem⟩ movable
    refine ⟨d', by rw [if_pos here]; exact Act.edit_ok done, ?_⟩
    have same : moved d.children parent x behind.head? = placed parent x front behind d.children :=
      moved_of_split wf split here
    rwa [same] at becomes

theorem movable_of_placed {y : NodeId} (wf : WellFormed d) (movable : Movable d parent x)
    (becomes : Becomes d d' d.content? (placed parent x front behind d.children))
    (split : d.children parent = front ++ behind) (later : Movable d parent y) :
    Movable d' parent y := by
  refine ⟨(contains_congr becomes.content y).trans later.live, ?_, ?_, fun below => ?_⟩
  · rw [becomes.content]
    exact later.solid
  · rw [becomes.body]
    exact later.inner
  · refine later.outside (below_of_agree (fun b c ne step => ?_) movable.outside below)
    have mem := becomes.wellFormed.parent_iff.mp step
    rw [becomes.children] at mem
    refine wf.parent_iff.mpr ?_
    unfold placed at mem
    split at mem
    · next isParent =>
        rw [isParent, split]
        simp only [List.mem_append, List.mem_filter, List.mem_cons] at mem ⊢
        rcases mem with mem | same | mem
        · exact .inl mem.1
        · exact absurd same ne
        · exact .inr mem.1
    · exact (List.mem_filter.mp mem).1

/-- The child lists once a list of nodes stands behind `front` in the parent. -/
def arranged (parent : NodeId) (next front behind : List NodeId) (kids : NodeId → List NodeId)
    (p : NodeId) : List NodeId :=
  if p = parent then front.filter (· ∉ next) ++ next.dedup ++ behind.filter (· ∉ next)
  else (kids p).filter (· ∉ next)

theorem arranged_cons {rest : List NodeId} {kids : NodeId → List NodeId} :
    arranged parent rest (front.filter (· ≠ x) ++ [x]) (behind.filter (· ≠ x))
      (placed parent x front behind kids) = arranged parent (x :: rest) front behind kids := by
  funext p
  unfold arranged placed
  split
  · rw [List.filter_append, filter_not_mem_cons, filter_not_mem_cons]
    by_cases later : x ∈ rest
    · rw [List.dedup_cons_of_mem later]
      simp [later]
    · rw [List.dedup_cons_of_notMem later]
      simp [later]
  · exact filter_not_mem_cons (kids p)

/-- Placing a list of nodes behind a cursor, the last node of `front`. -/
theorem placeIn_becomes : ∀ (next : List NodeId) {d : Document} {front behind : List NodeId}
    (claims : Claims), WellFormed d →
    (∃ c, d.content? parent = some c ∧ c.isContainer = true) →
    d.children parent = front ++ behind → (∀ x ∈ next, Movable d parent x) →
    ∃ d' claims', placeIn parent front.getLast? next ⟨d, claims⟩ = .ok () ⟨d', claims'⟩ ∧
      Becomes d d' d.content? (arranged parent next front behind d.children) ∧
      ∀ x, x ∈ claims' ↔ x ∈ claims ∨ x ∈ next
  | [], d, front, behind, claims, wf, _, split, _ => by
      have same : arranged parent [] front behind d.children = d.children := by
        funext p
        unfold arranged
        split
        · next isParent => simp [isParent, split]
        · simp
      refine ⟨d, claims, rfl, ?_, by simp⟩
      rw [same]
      exact .refl wf
  | x :: rest, d, front, behind, claims, wf, takes, split, movable => by
      have first := movable x List.mem_cons_self
      obtain ⟨d₁, one, becomes⟩ := placeOne_becomes wf (claims.add x) takes split first
      have split₁ : d₁.children parent = (front.filter (· ≠ x) ++ [x]) ++ behind.filter (· ≠ x) := by
        rw [becomes.children, placed, if_pos rfl]
        simp
      obtain ⟨d₂, claims₂, others, after, claimed⟩ := placeIn_becomes rest (claims.add x)
        becomes.wellFormed (by rwa [becomes.content]) split₁
        fun y mem => movable_of_placed wf first becomes split (movable y (List.mem_cons_of_mem _ mem))
      refine ⟨d₂, claims₂, ?_, ?_, fun y => ?_⟩
      · rw [placeIn, Act.bind_claim, bind_ok one]
        rw [List.getLast?_concat] at others
        exact others
      · have all := becomes.trans after
        rwa [becomes.content, becomes.children, arranged_cons] at all
      · rw [claimed, Claims.mem_add, List.mem_cons]
        tauto

end Place

/-! ## Reconciling -/

/-- The list with new items behind one of its items. -/
def insertBehind (comment : NodeId) (new list : List NodeId) : List NodeId :=
  list.flatMap fun y => if y = comment then y :: new else [y]

theorem insertBehind_of_not_mem {comment : NodeId} (new : List NodeId) {list : List NodeId}
    (absent : comment ∉ list) : insertBehind comment new list = list := by
  induction list with
  | nil => rfl
  | cons y list ih =>
      simp only [List.mem_cons, not_or] at absent
      rw [insertBehind, List.flatMap_cons, if_neg (Ne.symm absent.1), ← insertBehind, ih absent.2]
      rfl

theorem insertBehind_append (comment : NodeId) (new first second : List NodeId) :
    insertBehind comment new (first ++ second) =
      insertBehind comment new first ++ insertBehind comment new second := by
  simp [insertBehind]

/-- An item that is in the list once gets the new ones right behind it. -/
theorem insertBehind_split {comment : NodeId} (new : List NodeId) {front back : List NodeId}
    (once : (front ++ comment :: back).Nodup) :
    insertBehind comment new (front ++ comment :: back) = front ++ comment :: new ++ back := by
  have absent := (List.nodup_cons.mp (List.nodup_middle.mp once)).1
  simp only [List.mem_append, not_or] at absent
  rw [insertBehind_append, insertBehind_of_not_mem _ absent.1, insertBehind, List.flatMap_cons,
    if_pos rfl, ← insertBehind, insertBehind_of_not_mem _ absent.2, List.append_assoc]

section Reconcile

variable {comment : NodeId}

/-- The list of what leaves the place where it stands. -/
def leaving (d : Document) (claims : Claims) (next previous : List NodeId) : List NodeId :=
  dropped d claims next previous ++ next

theorem movable_of_becomes (wf : WellFormed d) {ids : List NodeId} (movable : Movable d parent x)
    (out : Becomes d d' d.content? (without ids d.children)) : Movable d' parent x := by
  refine ⟨(contains_congr out.content x).trans movable.live, ?_, ?_, fun below => ?_⟩
  · rw [out.content]
    exact movable.solid
  · rw [out.body]
    exact movable.inner
  · refine movable.outside (Below.of_children_subset wf out.wellFormed (fun p => ?_) below)
    rw [out.children]
    exact List.filter_sublist.subset

/-- Reconciling behind a comment that stands in a parent. -/
theorem reconcile_behind (wf : WellFormed d) (claims : Claims) (up : d.parent? comment = some parent)
    (apart : comment ∉ leaving d claims next previous) (inner : d.body ∉ previous)
    (movable : ∀ x ∈ next, Movable d parent x) :
    ∃ d' claims', reconcile (.behind comment) previous next ⟨d, claims⟩ = .ok () ⟨d', claims'⟩ ∧
      Becomes d d' d.content? (fun p =>
        if p = parent then
          insertBehind comment next.dedup (without (leaving d claims next previous) d.children p)
        else without (leaving d claims next previous) d.children p) ∧
      ∀ x, x ∈ claims' ↔ x ∈ claims ∨ x ∈ next := by
  obtain ⟨d₁, detached, out⟩ := detachOld_becomes claims next previous wf inner
  simp only [leaving, List.mem_append, not_or] at apart
  obtain ⟨front, behind, split⟩ := List.append_of_mem (wf.parent_iff.mp up)
  have stays : (d₁.children parent) = front.filter (· ∉ dropped d claims next previous) ++
      comment :: behind.filter (· ∉ dropped d claims next previous) := by
    rw [out.children, without, split, List.filter_append, List.filter_cons_of_pos (by simpa using apart.1)]
  have up₁ : d₁.parent? comment = some parent := out.wellFormed.parent_iff.mpr (by rw [stays]; simp)
  obtain ⟨c, found, takes⟩ := wf.linked.container parent (split ▸ by simp)
  obtain ⟨d₂, claims₂, done, becomes, claimed⟩ := placeIn_becomes next claims out.wellFormed
    ⟨c, by rw [out.content]; exact found, takes⟩
    (stays.trans (List.append_cons _ _ _)) fun x mem => movable_of_becomes wf (movable x mem) out
  rw [List.getLast?_concat] at done
  refine ⟨d₂, claims₂, ?_, ?_, claimed⟩
  · rw [reconcile, bind_ok detached, Act.bind_ask]
    simp only [Position.parent?, up₁, Position.cursor?]
    exact done
  · have all := out.trans becomes
    have lists : arranged parent next
        (front.filter (· ∉ dropped d claims next previous) ++ [comment])
        (behind.filter (· ∉ dropped d claims next previous)) d₁.children = fun p =>
        if p = parent then
          insertBehind comment next.dedup (without (leaving d claims next previous) d.children p)
        else without (leaving d claims next previous) d.children p := by
      have both : ∀ list : List NodeId, (list.filter (· ∉ dropped d claims next previous)).filter
          (· ∉ next) = list.filter (· ∉ leaving d claims next previous) := by
        intro list
        simp [leaving, List.filter_filter, Bool.and_comm]
      funext p
      unfold arranged
      split
      · next isParent =>
          have nodup := wf.nodup parent
          rw [split] at nodup
          have absent := (List.nodup_cons.mp (List.nodup_middle.mp nodup)).1
          simp only [List.mem_append, not_or] at absent
          have notFront : comment ∉ front.filter (· ∉ leaving d claims next previous) :=
            fun mem => absent.1 (List.mem_filter.mp mem).1
          have notBehind : comment ∉ behind.filter (· ∉ leaving d claims next previous) :=
            fun mem => absent.2 (List.mem_filter.mp mem).1
          have keeps : decide (comment ∉ leaving d claims next previous) = true := by
            simpa [leaving] using apart
          have kept : (comment :: behind).filter (· ∉ leaving d claims next previous) =
              comment :: behind.filter (· ∉ leaving d claims next previous) :=
            List.filter_cons_of_pos keeps
          rw [isParent, without, split, List.filter_append, both, List.filter_append, both, kept,
            insertBehind_append,
            insertBehind_of_not_mem _ notFront, insertBehind, List.flatMap_cons, if_pos rfl,
            ← insertBehind, insertBehind_of_not_mem _ notBehind]
          simp [apart.2]
      · rw [out.children, without, both]
        rfl
    rwa [out.content, lists] at all

/-- Reconciling behind a comment without a parent: nothing can stand there. -/
theorem reconcile_nowhere (wf : WellFormed d) (claims : Claims) (up : d.parent? comment = none)
    (inner : d.body ∉ previous) :
    ∃ d' claims', reconcile (.behind comment) previous next ⟨d, claims⟩ = .ok () ⟨d', claims'⟩ ∧
      Becomes d d' d.content? (without (leaving d claims next previous) d.children) ∧
      ∀ x, x ∈ claims' ↔ x ∈ claims ∨ x ∈ next := by
  obtain ⟨d₁, detached, out⟩ := detachOld_becomes claims next previous wf inner
  obtain ⟨d₂, claims₂, done, becomes, claimed⟩ := placeNowhere_becomes next claims out.wellFormed
  have up₁ : d₁.parent? comment = none := by
    refine out.wellFormed.parent?_eq_none fun p mem => ?_
    rw [out.children] at mem
    rw [wf.parent_iff.mpr (List.mem_filter.mp mem).1] at up
    cases up
  refine ⟨d₂, claims₂, ?_, ?_, claimed⟩
  · rw [reconcile, bind_ok detached, Act.bind_ask]
    simp only [Position.parent?, up₁]
    exact done
  · have all := out.trans becomes
    rwa [out.content, out.children, without_without] at all

/-- Reconciling at the start of a container. -/
theorem reconcile_within (wf : WellFormed d) (claims : Claims)
    (takes : ∃ c, d.content? parent = some c ∧ c.isContainer = true) (inner : d.body ∉ previous)
    (movable : ∀ x ∈ next, Movable d parent x) :
    ∃ d' claims', reconcile (.within parent) previous next ⟨d, claims⟩ = .ok () ⟨d', claims'⟩ ∧
      Becomes d d' d.content? (fun p =>
        if p = parent then next.dedup ++ without (leaving d claims next previous) d.children p
        else without (leaving d claims next previous) d.children p) ∧
      ∀ x, x ∈ claims' ↔ x ∈ claims ∨ x ∈ next := by
  obtain ⟨d₁, detached, out⟩ := detachOld_becomes claims next previous wf inner
  obtain ⟨d₂, claims₂, done, becomes, claimed⟩ := placeIn_becomes next claims out.wellFormed
    (by rwa [out.content]) (List.nil_append _).symm fun x mem => movable_of_becomes wf (movable x mem) out
  refine ⟨d₂, claims₂, ?_, ?_, claimed⟩
  · rw [reconcile, bind_ok detached, Act.bind_ask]
    exact done
  · have all := out.trans becomes
    have lists : arranged parent next [] (d₁.children parent) d₁.children = fun p =>
        if p = parent then next.dedup ++ without (leaving d claims next previous) d.children p
        else without (leaving d claims next previous) d.children p := by
      funext p
      unfold arranged
      have both : (d₁.children p).filter (· ∉ next) =
          without (leaving d claims next previous) d.children p := by
        rw [out.children, leaving, ← without_without]
        rfl
      split
      · next isParent =>
          rw [← isParent, both]
          simp
      · exact both
    rwa [out.content, lists] at all

end Reconcile

end Inlay.Render
