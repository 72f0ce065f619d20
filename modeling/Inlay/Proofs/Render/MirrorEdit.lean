/-
# Proofs.Render.MirrorEdit — edits along a bond

Each edit of paired nodes that makes no nodes has the same outcome in bonded
documents and leaves them bonded, by the same bond. Paired nodes look the same and
have paired children and parents, so the checks of an edit agree, up to the ids in
their faults, and what it makes of every list of children is paired again.
-/
import Inlay.Proofs.Document.Parsing
import Inlay.Proofs.Document.Write
import Inlay.Proofs.Render.Mirror

namespace Inlay.Render

set_option autoImplicit false

open Inlay.Document Relation Relator

/-- Edits of a document. -/
abbrev edits : Realm Document.Fault Document := ⟨fun d => d, fun _ _ _ => True, fun f g => f.nameless = g.nameless⟩

/-! ## Contents that look the same -/

/-- Two contents that differ in live properties only. -/
inductive Looks : Content → Content → Prop
  | element {e e' : Element} (tag : e.tag = e'.tag) (attributes : e.attributes = e'.attributes) :
      Looks (.element e) (.element e')
  | text (data : String) : Looks (.text data) (.text data)
  | comment (data : String) : Looks (.comment data) (.comment data)
  | fragment : Looks .fragment .fragment

theorem looks_iff {c c' : Content} : bareContent c = bareContent c' ↔ Looks c c' := by
  constructor
  · intro same
    cases c <;> cases c' <;> simp only [bareContent, Element.plain, reduceCtorEq, Content.element.injEq,
      Element.mk.injEq, and_true, Content.text.injEq, Content.comment.injEq] at same
    · exact .element same.1 same.2
    · exact same ▸ .text _
    · exact same ▸ .comment _
    · exact .fragment
  · rintro (⟨tag, attributes⟩ | _ | _ | _) <;> simp [bareContent, *]

theorem Looks.isContainer {c c' : Content} (looks : Looks c c') : c.isContainer = c'.isContainer := by
  cases looks <;> rfl

theorem Looks.fragment_iff {c c' : Content} (looks : Looks c c') : c = .fragment ↔ c' = .fragment := by
  cases looks <;> simp

/-- Two nodes look the same. -/
theorem look_of_looks {d e : Document} {x y : NodeId} (looks : Option.Rel Looks (d.content? x) (e.content? y)) :
    look? d x = look? e y := by
  unfold look?
  generalize d.content? x = c at looks ⊢
  generalize e.content? y = c' at looks ⊢
  cases looks with
  | none => rfl
  | some looks => exact congrArg some (looks_iff.mpr looks)

theorem looks_of_look {d e : Document} {x y : NodeId} (same : look? d x = look? e y) :
    Option.Rel Looks (d.content? x) (e.content? y) := by
  unfold look? at same
  cases found : d.content? x with
  | none =>
      rw [found, Option.map_none, eq_comm, Option.map_eq_none_iff] at same
      rw [same]
      exact .none
  | some c =>
      rw [found, Option.map_some, eq_comm] at same
      obtain ⟨c', found', same⟩ := Option.map_eq_some_iff.mp same
      rw [found']
      exact .some (looks_iff.mp same.symm)

/-! ## Checks that agree -/

/-- Two checks find the same, or two faults that differ in ids. -/
inductive Agrees {α β : Type} (answers : α → β → Prop) :
    Except Document.Fault α → Except Document.Fault β → Prop
  | ok {a : α} {b : β} (answer : answers a b) : Agrees answers (.ok a) (.ok b)
  | error {f g : Document.Fault} (blame : f.nameless = g.nameless) : Agrees answers (.error f) (.error g)

theorem Agrees.bind {α β γ δ : Type} {answers : α → β → Prop} {results : γ → δ → Prop}
    {a : Except Document.Fault α} {b : Except Document.Fault β} {f : α → Except Document.Fault γ}
    {g : β → Except Document.Fault δ} (agrees : Agrees answers a b)
    (rest : ∀ x y, answers x y → Agrees results (f x) (g y)) : Agrees results (a >>= f) (b >>= g) := by
  cases agrees with
  | ok answer => exact rest _ _ answer
  | error blame => exact .error blame

/-- After checks that agree. -/
theorem met_require {o : Outset} {r : Bond} {d e : Document} {α β : Type} {answers : α → α → Prop}
    {results : Bond → β → β → Prop} {check check' : Document → Except Document.Fault α} {f g : α → Edit β}
    (bonded : Bonded o r d e) (agrees : Agrees answers (check d) (check' e))
    (rest : ∀ a b, check d = .ok a → check' e = .ok b → answers a b → edits.Met o r results d (f a d) (g b e)) :
    edits.Met o r results d ((Edit.require check >>= f) d) ((Edit.require check' >>= g) e) := by
  cases found : check d with
  | error fault =>
      cases found' : check' e with
      | ok b => rw [found, found'] at agrees; cases agrees
      | error fault' =>
          rw [found, found'] at agrees
          rw [Edit.bind_error (Edit.require_error found), Edit.bind_error (Edit.require_error found')]
          cases agrees with
          | error blame => exact .error (.refl d) bonded trivial blame
  | ok a =>
      cases found' : check' e with
      | error fault' => rw [found, found'] at agrees; cases agrees
      | ok b =>
          rw [found, found'] at agrees
          rw [Edit.bind_ok (Edit.require_ok found), Edit.bind_ok (Edit.require_ok found')]
          cases agrees with
          | ok answer => exact rest a b found found' answer

/-- What a parent is asked for before it takes a node. -/
theorem admits_eq (d : Document) (p : NodeId) (ref : Option NodeId) : d.admits p ref = d.live p >>= fun n =>
    if n.content.isContainer then
      match ref with
      | none => .ok ()
      | some c => d.live c >>= fun m => if m.parent = some p then .ok () else .error (.notChild p c)
    else .error (.notContainer p) := by
  unfold Document.admits
  cases d.live p with
  | error fault => rfl
  | ok n =>
      cases container : n.content.isContainer <;> cases ref <;>
        simp only [bind, Except.bind, container] <;> try rfl
      next c =>
        cases d.live c with
        | error fault => rfl
        | ok m => by_cases here : m.parent = some p <;> simp [here] <;> rfl

namespace Bonded

variable {o : Outset} {r : Bond} {d d' e e' : Document} {x y p q : NodeId} {ref ref' : Option NodeId}

theorem content (bonded : Bonded o r d e) (bond : r.withHost o.host x y) :
    Option.Rel Looks (d.content? x) (e.content? y) :=
  looks_of_look (bonded.look x y bond)

theorem live (bonded : Bonded o r d e) (bond : r.withHost o.host x y) :
    Agrees (fun n m => d.get? x = some n ∧ e.get? y = some m ∧ Looks n.content m.content) (d.live x) (e.live y) := by
  have looks := bonded.content bond
  unfold Document.content? at looks
  unfold Document.live
  cases found : d.get? x with
  | none =>
      cases found' : e.get? y with
      | none => exact .error rfl
      | some m =>
          rw [found, found'] at looks
          cases looks
  | some n =>
      cases found' : e.get? y with
      | none =>
          rw [found, found'] at looks
          cases looks
      | some m =>
          rw [found, found'] at looks
          cases looks with
          | some looks => exact .ok ⟨rfl, rfl, looks⟩

theorem parent_iff (bonded : Bonded o r d e) (bond : r x y) (above : r.withHost o.host p q) :
    d.parent? x = some p ↔ e.parent? y = some q := by
  constructor
  · intro up
    obtain ⟨q', above', up'⟩ := bonded.parent bond up
    cases bonded.withHost_unique.2 above above'
    exact up'
  · intro up
    obtain ⟨p', above', up'⟩ := bonded.swap.parent bond up
    cases bonded.withHost_unique.1 above (Bond.withHost_flip.mp above')
    exact up'

theorem admits (bonded : Bonded o r d e) (above : r.withHost o.host p q) (refs : Option.Rel r ref ref') :
    Agrees (fun _ _ => True) (d.admits p ref) (e.admits q ref') := by
  rw [admits_eq, admits_eq]
  refine (bonded.live above).bind fun n m ⟨_, _, looks⟩ => ?_
  rw [looks.isContainer]
  cases m.content.isContainer with
  | false => exact .error rfl
  | true =>
      cases refs with
      | none => exact .ok trivial
      | @some c c' bond =>
          refine (bonded.live (.inl bond)).bind fun n m ⟨found, found', _⟩ => ?_
          have up := bonded.parent_iff bond above
          simp only [Document.parent?, found, found', Option.bind_some] at up
          by_cases here : n.parent = some p
          · rw [if_pos here, if_pos (up.mp here)]
            exact .ok trivial
          · rw [if_neg here, if_neg (mt up.mpr here)]
            exact .error rfl

/-! ## Moving nodes -/

/-- Documents are bonded after nodes were moved among paired parents. -/
theorem relinked (bonded : Bonded o r d e) {kids kids' : NodeId → List NodeId}
    (one : Becomes d d' d.content? kids) (two : Becomes e e' e.content? kids')
    (out : ∀ p, ¬ r.Has p → p ≠ o.host → kids p = d.children p)
    (out' : ∀ q, ¬ r.flip.Has q → q ≠ o.host → kids' q = e.children q)
    (children : ∀ p q, r.withHost o.host p q → List.Forall₂ r (kids p) (kids' q)) :
    Widened o r r d d' ∧ Bonded o r d' e' := by
  have first : Outside o.host r.Has d d' :=
    ⟨fun x _ _ => by rw [one.content], fun p free other => by rw [one.children, out p free other], one.body, one.aged⟩
  have second : Outside o.host r.flip.Has e e' :=
    ⟨fun x _ _ => by rw [two.content], fun q free other => by rw [two.children, out' q free other], two.body, two.aged⟩
  refine ⟨.of_outside first, bonded.later first one.wellFormed second two.wellFormed (fun x y bond => ?_) fun p q above => ?_⟩
  · rw [look?, look?, one.content, two.content]
    exact bonded.look x y bond
  · rw [one.children, two.children]
    exact children p q above

theorem erase_out (bonded : Bonded o r d e) (bond : r x y) (free : ¬ r.Has p) (other : p ≠ o.host) :
    (d.children p).erase x = d.children p :=
  List.erase_of_not_mem (bonded.left.not_child ⟨y, bond⟩ free other)

theorem moved_out (bonded : Bonded o r d e) (above : r.withHost o.host p q) (bond : r x y) {z : NodeId}
    (free : ¬ r.Has z) (other : z ≠ o.host) : moved d.children p x ref z = d.children z := by
  have elsewhere : z ≠ p := by
    rintro rfl
    exact above.elim (fun bond => free ⟨q, bond⟩) fun same => other same.1
  rw [moved, if_neg elsewhere, bonded.erase_out bond free other, ite_self]

theorem moved_paired (bonded : Bonded o r d e) (above : r.withHost o.host p q) (bond : r x y)
    (refs : Option.Rel r ref ref') {z w : NodeId} (bond' : r.withHost o.host z w) :
    List.Forall₂ r (moved d.children p x ref z) (moved e.children q y ref' w) := by
  have kids := bonded.children z w bond'
  have erased := erase_paired bonded.unique bond kids
  have here : z = p ↔ w = q := rel_eq bonded.withHost_unique bond' above
  have itself : ref = some x ↔ ref' = some y := by
    cases refs with
    | none => simp
    | some before => simpa using same_of_paired bonded.unique before bond
  unfold moved
  by_cases same : ref = some x
  · rwa [if_pos same, if_pos (itself.mp same)]
  · rw [if_neg same, if_neg (mt itself.mpr same)]
    by_cases at_ : z = p
    · rw [if_pos at_, if_pos (here.mp at_)]
      exact placeBefore_paired bonded.unique bond refs erased
    · rwa [if_neg at_, if_neg (mt here.mpr at_)]

theorem admitsNode (bonded : Bonded o r d e) (above : r.withHost o.host p q) (bond : r x y) :
    Agrees (fun _ _ => True) (d.admitsNode p x) (e.admitsNode q y) := by
  have inner := bonded.left.inner x ⟨y, bond⟩
  have inner' := bonded.right.inner y ⟨x, bond⟩
  unfold Document.admitsNode
  simp only [inner, inner', false_or, bonded.isInclusiveAncestor bond above]
  split
  · exact .error rfl
  · exact .ok trivial

/-- Inserting a node that is no fragment. -/
theorem insertNode (bonded : Bonded o r d e) (above : r.withHost o.host p q) (bond : r x y)
    (refs : Option.Rel r ref ref') (solid : d.content? x ≠ some .fragment) :
    edits.Met o r Realm.any d (insertNode p x ref d) (insertNode q y ref' e) := by
  have solid' : e.content? y ≠ some .fragment := by
    have looks := bonded.content (.inl bond)
    intro fragment
    rw [fragment] at looks
    generalize d.content? x = c at looks solid
    cases looks with
    | some looks => exact solid (congrArg some (looks.fragment_iff.mpr rfl))
  refine met_require bonded ((bonded.admits above refs).bind fun _ _ _ => (bonded.live (.inl bond)).bind
    fun _ _ _ => bonded.admitsNode above bond) fun _ _ check check' _ => ?_
  obtain ⟨d', done, becomes⟩ := insertNode_of_check bonded.left.wellFormed solid check
  obtain ⟨e', done', becomes'⟩ := insertNode_of_check bonded.right.wellFormed solid' check'
  obtain ⟨grown, bonded'⟩ := bonded.relinked becomes becomes'
    (fun _ free other => bonded.moved_out above bond free other)
    (fun _ free other => bonded.swap.moved_out (Bond.withHost_flip.mpr above) bond free other)
    fun _ _ bond' => bonded.moved_paired above bond refs bond'
  rw [Document.insertNode, Edit.bind_ok (Edit.require_ok check)] at done
  rw [Document.insertNode, Edit.bind_ok (Edit.require_ok check')] at done'
  rw [done, done']
  exact .ok grown bonded' trivial trivial

theorem insertNodes : ∀ {xs ys : List NodeId} {r : Bond} {d e : Document}, Bonded o r d e →
    r.withHost o.host p q → Option.Rel r ref ref' → List.Forall₂ r xs ys →
    (∀ x ∈ xs, d.content? x ≠ some .fragment) →
    edits.Met o r Realm.any d (insertNodes p ref xs d) (insertNodes q ref' ys e)
  | [], _, _, d, _, bonded, _, _, bonds, _ => by
      cases bonds
      exact .ok (.refl d) bonded trivial trivial
  | x :: xs, _, r, d, e, bonded, above, refs, bonds, solid => by
      cases bonds with
      | @cons _ y _ ys bond bonds =>
          have met := bonded.insertNode above bond refs (solid x List.mem_cons_self)
          have contents := insertNode_cases bonded.left.wellFormed p ref (solid x List.mem_cons_self)
          rw [Document.insertNodes, Document.insertNodes]
          generalize done : Document.insertNode p x ref d = result at met
          generalize done' : Document.insertNode q y ref' e = result' at met
          cases met with
          | error grown bonded' _ blame =>
              rw [Edit.bind_error done, Edit.bind_error done']
              exact .error grown bonded' trivial blame
          | ok grown bonded' _ _ =>
              rw [Edit.bind_ok done, Edit.bind_ok done']
              refine (insertNodes bonded' (grown.sub.withHost p q above) (grown.sub.option refs)
                (grown.sub.list bonds) fun z mem => ?_).after grown
              rcases contents with ⟨fault, refused⟩ | ⟨d', moved, becomes⟩
              · cases done.symm.trans refused
              · cases done.symm.trans moved
                rw [becomes.content]
                exact solid z (List.mem_cons_of_mem _ mem)

theorem carried (bonded : Bonded o r d e) (bond : r x y) : List.Forall₂ r (d.carried x) (e.carried y) := by
  have looks := bonded.content (.inl bond)
  have same : d.isFragment x = e.isFragment y := by
    unfold isFragment
    generalize d.content? x = c at looks ⊢
    generalize e.content? y = c' at looks ⊢
    cases looks with
    | none => rfl
    | some looks => cases looks <;> rfl
  unfold Document.carried
  rw [same]
  split
  · exact bonded.children x y (.inl bond)
  · exact .cons bond .nil

theorem insertBefore (bonded : Bonded o r d e) (above : r.withHost o.host p q) (bond : r x y)
    (refs : Option.Rel r ref ref') :
    edits.Met o r Realm.any d (insertBefore p x ref d) (insertBefore q y ref' e) := by
  have agrees : Agrees (fun xs ys => xs = d.carried x ∧ List.Forall₂ r xs ys)
      (do d.admits p ref; let _ ← d.live x; return d.carried x)
      (do e.admits q ref'; let _ ← e.live y; return e.carried y) :=
    (bonded.admits above refs).bind fun _ _ _ => (bonded.live (.inl bond)).bind fun _ _ _ =>
      .ok ⟨rfl, bonded.carried bond⟩
  exact met_require bonded agrees fun xs ys _ _ answer => insertNodes bonded above refs answer.2 fun z mem =>
    Safe.carried_solid bonded.left.wellFormed z (answer.1 ▸ mem)

/-! ## Taking nodes out -/

theorem remove_dead (inner : x ≠ d.body) (dead : d.contains x = false) :
    Document.remove x d = .error (.stale x) d := by
  have check : d.admitsRemoval x = .error (.stale x) := by
    rw [admitsRemoval, if_neg inner, Document.live, Option.not_isSome_iff_eq_none.mp (Bool.eq_false_iff.mp dead)]
    rfl
  rw [Document.remove, Edit.bind_error (Edit.require_error check)]

theorem discard_dead (inner : x ≠ d.body) (dead : d.contains x = false) :
    Document.discard x d = .error (.stale x) d := by
  rw [Document.discard, Edit.bind_error (remove_dead inner dead)]

/-- Whatever is below what is paired is paired. -/
theorem outside_discard (bonded : Bonded o r d e) (bond : r x y)
    (becomes : Becomes d d' (fun z => if z ∈ d.descendants x then none else d.content? z)
      fun p => if p ∈ d.descendants x then [] else (d.children p).erase x) : Outside o.host r.Has d d' := by
  have below : ∀ {z}, ¬ r.Has z → z ∉ d.descendants x := by
    intro z free mem
    obtain ⟨w, bond', -⟩ := bonded.below bond (bonded.left.wellFormed.mem_descendants.mp mem).2
    exact free ⟨w, bond'⟩
  refine ⟨fun z free _ => ?_, fun z free other => ?_, becomes.body, becomes.aged⟩
  · rw [becomes.content]
    exact if_neg (below free)
  · rw [becomes.children]
    exact (if_neg (below free)).trans (bonded.erase_out bond free other)

theorem remove (bonded : Bonded o r d e) (bond : r x y) :
    edits.Met o r Realm.any d (remove x d) (remove y e) := by
  have same := bonded.contains (.inl bond)
  have inner := bonded.left.inner x ⟨y, bond⟩
  have inner' := bonded.right.inner y ⟨x, bond⟩
  cases live : d.contains x with
  | true =>
      obtain ⟨d', done, becomes⟩ := remove_becomes bonded.left.wellFormed live inner
      obtain ⟨e', done', becomes'⟩ := remove_becomes bonded.right.wellFormed (same.symm.trans live) inner'
      obtain ⟨grown, bonded'⟩ := bonded.relinked becomes becomes'
        (fun _ free other => bonded.erase_out bond free other)
        (fun _ free other => bonded.swap.erase_out bond free other)
        fun p q above => erase_paired bonded.unique bond (bonded.children p q above)
      rw [done, done']
      exact .ok grown bonded' trivial trivial
  | false =>
      rw [remove_dead inner live, remove_dead inner' (same.symm.trans live)]
      exact .error (.refl d) bonded trivial rfl

theorem discard (bonded : Bonded o r d e) (bond : r x y) :
    edits.Met o r Realm.any d (discard x d) (discard y e) := by
  have same := bonded.contains (.inl bond)
  have inner := bonded.left.inner x ⟨y, bond⟩
  have inner' := bonded.right.inner y ⟨x, bond⟩
  cases live : d.contains x with
  | false =>
      rw [discard_dead inner live, discard_dead inner' (same.symm.trans live)]
      exact .error (.refl d) bonded trivial rfl
  | true =>
      have live' := same.symm.trans live
      obtain ⟨d', done, becomes⟩ := discard_becomes bonded.left.wellFormed live inner
      obtain ⟨e', done', becomes'⟩ := discard_becomes bonded.right.wellFormed live' inner'
      have freed : ∀ {z w}, r.withHost o.host z w → (z ∈ d.descendants x ↔ w ∈ e.descendants y) := by
        intro z w bond'
        rw [bonded.left.wellFormed.mem_descendants, bonded.right.wellFormed.mem_descendants, live, live',
          bonded.below_iff bond bond']
      have out := bonded.outside_discard bond becomes
      have out' := bonded.swap.outside_discard bond becomes'
      have bonded' := bonded.later out becomes.wellFormed out' becomes'.wellFormed (fun z w bond' => ?_) fun z w bond' => ?_
      · rw [done, done']
        exact .ok (.of_outside out) bonded' trivial trivial
      · have looks := bonded.look z w bond'
        simp only [look?, becomes.content, becomes'.content, ← freed bond'] at looks ⊢
        split
        · rfl
        · exact looks
      · simp only [becomes.children, becomes'.children, ← freed bond']
        split
        · exact .nil
        · exact erase_paired bonded.unique bond (bonded.children z w bond')

/-! ## Writing -/

theorem outside_written {host : NodeId} (bond : r.withHost host x y) {c : Content}
    (becomes : Becomes d d' (fun z => if z = x then some c else d.content? z) d.children) :
    Outside host r.Has d d' := by
  refine ⟨fun z free other => ?_, fun _ _ _ => by rw [becomes.children], becomes.body, becomes.aged⟩
  rw [becomes.content]
  refine if_neg ?_
  rintro rfl
  exact bond.elim (fun bond => free ⟨y, bond⟩) fun host => other host.1

theorem twin (bonded : Bonded o r d e) (bond : r.withHost o.host x y) {c : Content} (found : d.content? x = some c) :
    ∃ c', e.content? y = some c' ∧ Looks c c' := by
  have looks := bonded.content bond
  rw [found] at looks
  generalize e.content? y = c' at looks
  cases looks with
  | some looks => exact ⟨_, rfl, looks⟩

/-- A node and its partner are written; they may be the host. -/
theorem written (bonded : Bonded o r d e) (bond : r.withHost o.host x y) {c c' : Content} (looks : Looks c c')
    (one : Becomes d d' (fun z => if z = x then some c else d.content? z) d.children)
    (two : Becomes e e' (fun w => if w = y then some c' else e.content? w) e.children) :
    Widened o r r d d' ∧ Bonded o r d' e' := by
  have out := outside_written bond one
  have out' := outside_written (Bond.withHost_flip.mpr bond) two
  refine ⟨.of_outside out, bonded.later out one.wellFormed out' two.wellFormed (fun z w bond' => ?_) fun z w bond' => ?_⟩
  · have here : z = x ↔ w = y := rel_eq bonded.withHost_unique bond' bond
    simp only [look?, one.content, two.content]
    by_cases same : z = x
    · rw [if_pos same, if_pos (here.mp same)]
      exact congrArg some (looks_iff.mpr looks)
    · rw [if_neg same, if_neg (mt here.mpr same)]
      exact bonded.look z w bond'
  · rw [one.children, two.children]
    exact bonded.children z w bond'

theorem liveData (bonded : Bonded o r d e) (bond : r.withHost o.host x y) :
    Agrees (fun a b => a = b) (d.liveData x) (e.liveData y) := by
  refine (bonded.live bond).bind fun n m ⟨_, _, looks⟩ => ?_
  generalize n.content = c at looks
  generalize m.content = c' at looks
  cases looks with
  | element _ _ => exact .error rfl
  | text data => exact .ok rfl
  | comment data => exact .ok rfl
  | fragment => exact .error rfl

theorem setText (bonded : Bonded o r d e) (bond : r x y) (value : String) :
    edits.Met o r Realm.any d (setText x value d) (setText y value e) := by
  have agrees := bonded.liveData (.inl bond)
  cases found : d.liveData x with
  | error fault =>
      cases found' : e.liveData y with
      | ok data => rw [found, found'] at agrees; cases agrees
      | error fault' =>
          rw [found, found'] at agrees
          simp only [Document.setText, Edit.checked, found, found']
          cases agrees with
          | error blame => exact .error (.refl d) bonded trivial blame
  | ok data =>
      rcases content_of_liveData found with text | text
      · obtain ⟨_, text', looks⟩ := bonded.twin (.inl bond) text
        cases looks
        obtain ⟨_, d', done, becomes⟩ := setText_text bonded.left.wellFormed text value
        obtain ⟨_, e', done', becomes'⟩ := setText_text bonded.right.wellFormed text' value
        obtain ⟨grown, bonded'⟩ := bonded.written (.inl bond) (.text value) becomes becomes'
        rw [done, done']
        exact .ok grown bonded' trivial trivial
      · obtain ⟨_, text', looks⟩ := bonded.twin (.inl bond) text
        cases looks
        obtain ⟨_, d', done, becomes⟩ := setText_comment bonded.left.wellFormed text value
        obtain ⟨_, e', done', becomes'⟩ := setText_comment bonded.right.wellFormed text' value
        obtain ⟨grown, bonded'⟩ := bonded.written (.inl bond) (.comment value) becomes becomes'
        rw [done, done']
        exact .ok grown bonded' trivial trivial

/-- Writing elements that look the same. -/
theorem element (bonded : Bonded o r d e) (bond : r.withHost o.host x y) {p q : Edit Bool} {f g : Element → Element}
    (same : ∀ a b : Element, Looks (.element a) (.element b) → Looks (.element (f a)) (.element (g b)))
    (refused : ∀ fault, d.liveElement x = .error fault → p d = .error fault d)
    (refused' : ∀ fault, e.liveElement y = .error fault → q e = .error fault e)
    (writes : ∀ a, d.content? x = some (.element a) → ∃ changed d', p d = .ok changed d' ∧
      Becomes d d' (fun z => if z = x then some (.element (f a)) else d.content? z) d.children)
    (writes' : ∀ b, e.content? y = some (.element b) → ∃ changed e', q e = .ok changed e' ∧
      Becomes e e' (fun w => if w = y then some (.element (g b)) else e.content? w) e.children) :
    edits.Met o r Realm.any d (p d) (q e) := by
  have agrees : Agrees (fun a b => Looks (.element a) (.element b)) (d.liveElement x) (e.liveElement y) := by
    refine (bonded.live bond).bind fun n m ⟨_, _, looks⟩ => ?_
    generalize n.content = c at looks
    generalize m.content = c' at looks
    cases looks with
    | element tag attributes => exact .ok (.element tag attributes)
    | text data => exact .error rfl
    | comment data => exact .error rfl
    | fragment => exact .error rfl
  cases found : d.liveElement x with
  | error fault =>
      cases found' : e.liveElement y with
      | ok b => rw [found, found'] at agrees; cases agrees
      | error fault' =>
          rw [found, found'] at agrees
          rw [refused fault found, refused' fault' found']
          cases agrees with
          | error blame => exact .error (.refl d) bonded trivial blame
  | ok a =>
      cases found' : e.liveElement y with
      | error fault' => rw [found, found'] at agrees; cases agrees
      | ok b =>
          rw [found, found'] at agrees
          obtain ⟨_, d', done, becomes⟩ := writes a (content_of_liveElement found)
          obtain ⟨_, e', done', becomes'⟩ := writes' b (content_of_liveElement found')
          cases agrees with
          | ok looks =>
              obtain ⟨grown, bonded'⟩ := bonded.written bond (same a b looks) becomes becomes'
              rw [done, done']
              exact .ok grown bonded' trivial trivial

theorem setAttribute (bonded : Bonded o r d e) (bond : r x y) (name value : String) :
    edits.Met o r Realm.any d (setAttribute x name value d) (setAttribute y name value e) := by
  refine bonded.element (.inl bond) (fun a b looks => ?_)
    (fun fault found => by simp only [Document.setAttribute, Edit.checked, found])
    (fun fault found => by simp only [Document.setAttribute, Edit.checked, found])
    (fun a found => setAttribute_becomes bonded.left.wellFormed found name value)
    fun b found => setAttribute_becomes bonded.right.wellFormed found name value
  cases looks with
  | element tag attributes => exact .element tag (congrArg (putAttribute name value) attributes)

theorem removeAttribute (bonded : Bonded o r d e) (bond : r x y) (name : String) :
    edits.Met o r Realm.any d (removeAttribute x name d) (removeAttribute y name e) := by
  refine bonded.element (.inl bond) (fun a b looks => ?_)
    (fun fault found => by simp only [Document.removeAttribute, Edit.checked, found])
    (fun fault found => by simp only [Document.removeAttribute, Edit.checked, found])
    (fun a found => removeAttribute_becomes bonded.left.wellFormed found name)
    fun b found => removeAttribute_becomes bonded.right.wellFormed found name
  cases looks with
  | element tag attributes => exact .element tag (congrArg (List.filter _) attributes)

/-- Properties do not count for looks; the node may be the host. -/
theorem setProperty (bonded : Bonded o r d e) (bond : r.withHost o.host x y) (name : String) (value : Property) :
    edits.Met o r Realm.any d (setProperty x name value d) (setProperty y name value e) := by
  refine bonded.element bond (fun a b looks => ?_)
    (fun fault found => by simp only [Document.setProperty, Edit.checked, found])
    (fun fault found => by simp only [Document.setProperty, Edit.checked, found])
    (fun a found => setProperty_becomes bonded.left.wellFormed found name value)
    fun b found => setProperty_becomes bonded.right.wellFormed found name value
  cases looks with
  | element tag attributes => exact .element tag attributes

end Bonded

end Inlay.Render
