/-
# Proofs.Render.MirrorInstance — instances along a bond

Paired instances were made of one prototype in both documents. Child indices lead to
paired nodes, so the bindings of a prototype are led to paired nodes in paired
copies, or to none in both. An update writes slot by slot and stops at the same
fault; discarding finds the same survivors in its way, since as much fuel as there
are slots is enough in either document.
-/
import Inlay.Proofs.Render.Cull
import Inlay.Proofs.Render.MirrorSlot

namespace Inlay.Render

set_option autoImplicit false

open Inlay.Document Inlay.Template Relation Relator Realm Act

variable {o : Outset} {r r' : Bond} {d e : Document} {x y : NodeId} {xs ys : List NodeId} {v w : Value} {host : NodeId}

/-! ## Writing slots in order -/

/-- An act that always answers. -/
def Act.always {α : Type} (f : Stage → α × Stage) : Act α := fun stage => .ok (f stage).1 (f stage).2

/-- The same fault or none, and paired slots. -/
def PairedSlots (host : NodeId) (r : Bond) (a b : Option Fault × List Slot) : Prop :=
  Option.Rel (fun f g => f.nameless = g.nameless) a.1 b.1 ∧ List.Forall₂ (PairedSlot host r) a.2 b.2

namespace Slot

theorem always_writeAll_ok {slot slot' : Slot} {rest : List Slot} {stage stage' : Stage}
    (done : slot.write v stage = .ok slot' stage') : always (writeAll v (slot :: rest)) stage =
      (always (writeAll v rest) >>= fun answer => pure (answer.1, slot' :: answer.2)) stage' := by
  simp only [always, writeAll, done]
  rfl

theorem always_writeAll_error {slot : Slot} {rest : List Slot} {stage stage' : Stage} {fault : Fault}
    (refused : slot.write v stage = .error fault stage') : always (writeAll v (slot :: rest)) stage =
      .ok (some fault, slot.spoiled :: rest) stage' := by
  simp only [always, writeAll, refused]

theorem steady_writeAll (context : Value) (slots : List Slot) : Act.Steady (always (writeAll context slots)) :=
  fun _ wf => sequel_writeAll context slots wf

/-- What is written behind the first slot is written later. -/
theorem aged_writeAll (slot : Slot) (rest : List Slot) {stage : Stage} (wf : WellFormed stage.document) :
    Aged (left (slot.write v) stage).document (left (always (writeAll v (slot :: rest))) stage).document := by
  have sequel := steady_write v slot stage wf
  cases done : slot.write v stage with
  | ok slot' stage' =>
      rw [left_ok done] at sequel ⊢
      rw [left, always_writeAll_ok done]
      exact (sequel_writeAll v rest sequel.wellFormed).aged
  | error fault stage' =>
      rw [left_error done, left_ok (always_writeAll_error done)]
      exact .refl _

theorem mirrors_writeAll : ∀ {slots slots' : List Slot} {r : Bond}, PairedValue r v w →
    List.Forall₂ (PairedSlot o.host r) slots slots' →
    acts.Mirrors o r (PairedSlots o.host) (always (writeAll v slots)) (always (writeAll w slots'))
  | [], _, _, _, both => by
      cases both
      exact fun s t bonded claimed _ _ => .ok (.refl _) bonded claimed ⟨.none, .nil⟩
  | slot :: rest, _, r, values, both => by
      cases both with
      | @cons _ slot' _ rest' here others =>
          intro s t bonded claimed unrepeated unrepeated'
          have sequel := steady_write v slot s bonded.left.wellFormed
          have sequel' := steady_write w slot' t bonded.right.wellFormed
          have met := mirrors_write values here s t bonded claimed
            (unrepeated.first (bonded.left.aged.trans sequel.aged) (aged_writeAll slot rest bonded.left.wellFormed))
            (unrepeated'.first (bonded.right.aged.trans sequel'.aged) (aged_writeAll slot' rest' bonded.right.wellFormed))
          cases done : slot.write v s with
          | ok slot₁ s₁ =>
              cases done' : slot'.write w t with
              | error fault' t₁ =>
                  rw [done, done'] at met
                  cases met
              | ok slot₁' t₁ =>
                  rw [done, done'] at met
                  simp only [left, always_writeAll_ok done] at unrepeated
                  simp only [left, always_writeAll_ok done'] at unrepeated'
                  rw [always_writeAll_ok done, always_writeAll_ok done']
                  cases met with
                  | @ok r₁ _ _ _ _ grown bonded₁ claimed₁ here₁ =>
                      have later : acts.Mirrors o r₁ (PairedSlots o.host)
                          (always (writeAll v rest) >>= fun answer => pure (answer.1, slot₁ :: answer.2))
                          (always (writeAll w rest') >>= fun answer => pure (answer.1, slot₁' :: answer.2)) :=
                        .bind (mirrors_writeAll (values.mono grown.sub) (others.imp (PairedSlot.mono grown.sub)))
                          (steady_writeAll v rest) (steady_writeAll w rest') (fun _ => .pure _) (fun _ => .pure _)
                          fun _ _ _ sub answer => .pure ⟨answer.1, .cons (PairedSlot.mono sub _ _ here₁) answer.2⟩
                      exact (later s₁ t₁ bonded₁ claimed₁ unrepeated unrepeated').after grown
          | error fault s₁ =>
              cases done' : slot'.write w t with
              | ok slot₁' t₁ =>
                  rw [done, done'] at met
                  cases met
              | error fault' t₁ =>
                  rw [done, done'] at met
                  rw [always_writeAll_error done, always_writeAll_error done']
                  cases met with
                  | error grown bonded₁ claimed₁ blame =>
                      refine .ok grown bonded₁ claimed₁ ⟨.some blame, ?_⟩
                      exact .cons (PairedSlot.mono grown.sub _ _ here).spoiled (others.imp (PairedSlot.mono grown.sub))

end Slot

/-! ## Bindings -/

theorem resolve?_paired (bonded : Bonded o r d e) (path : List Nat) (bond : r x y) :
    Option.Rel r (Slot.resolve? d x path) (Slot.resolve? e y path) := by
  induction path generalizing x y with
  | nil => exact .some bond
  | cons index path ih =>
      have step : Option.Rel r (d.childAt? x index) (e.childAt? y index) :=
        getElem_paired (bonded.children x y (.inl bond)) index
      simp only [Slot.resolve?, List.foldlM_cons] at ih ⊢
      generalize d.childAt? x index = child at step
      generalize e.childAt? y index = child' at step
      cases step with
      | none => exact .none
      | some bond => exact ih bond

/-- Paired elements have the same attributes. -/
theorem attributes_paired (bonded : Bonded o r d e) (bond : r x y) :
    (d.element? x).map (·.attributes) = (e.element? y).map (·.attributes) := by
  have looks := bonded.content (.inl bond)
  unfold Document.element?
  generalize d.content? x = c at looks
  generalize e.content? y = c' at looks
  cases looks with
  | none => rfl
  | some looks =>
      cases looks with
      | element _ attributes => exact congrArg some attributes
      | text _ => rfl
      | comment _ => rfl
      | fragment => rfl

theorem bind?_paired (bonded : Bonded o r d e) (bond : r x y) (binding : Binding) :
    Option.Rel (PairedSlot o.host r) (Slot.bind? d x binding) (Slot.bind? e y binding) := by
  have led := resolve?_paired bonded binding.path bond
  unfold Slot.bind?
  generalize Slot.resolve? d x binding.path = node at led
  generalize Slot.resolve? e y binding.path = node' at led
  cases led with
  | none => exact .none
  | @some x y bond =>
      cases binding.target with
      | text content => exact .some (.text bond content)
      | textareaValue content =>
          have up := bonded.parent? bond
          simp only [Option.bind_eq_bind, Option.bind_some]
          generalize d.parent? x = parent at up
          generalize e.parent? y = parent' at up
          cases up with
          | none => exact .none
          | some above => exact .some (.textareaValue above content)
      | «attribute» index name content property =>
          have same := attributes_paired bonded bond
          simp only [Option.bind_eq_bind, Option.bind_some]
          generalize d.element? x = element at same
          generalize e.element? y = element' at same
          cases element with
          | none =>
              cases element' with
              | none => exact .none
              | some b => cases same
          | some a =>
              cases element' with
              | none => cases same
              | some b =>
                  simp only [Option.map_some, Option.some.injEq] at same
                  simp only [Option.bind_some, same]
                  cases b.attributes[index]? with
                  | none => exact .none
                  | some found => exact .some (.attributed bond found.name content property)
      | anchor path => exact .some (.anchor path (.new bond))

/-- Bindings led to paired nodes, or the same fault. -/
inductive PairedBindings (host : NodeId) (r : Bond) : Except Fault (List Slot) → Except Fault (List Slot) → Prop
  | ok {a b : List Slot} (slots : List.Forall₂ (PairedSlot host r) a b) : PairedBindings host r (.ok a) (.ok b)
  | error (fault : Fault) : PairedBindings host r (.error fault) (.error fault)

theorem bindAll_paired (bonded : Bonded o r d e) (label : String) (bond : r x y) : ∀ bindings : List Binding,
    PairedBindings o.host r (Instance.bindAll label d x bindings) (Instance.bindAll label e y bindings)
  | [] => .ok .nil
  | binding :: rest => by
      have here := bind?_paired bonded bond binding
      have others := bindAll_paired bonded label bond rest
      unfold Instance.bindAll
      generalize Slot.bind? d x binding = slot at here
      generalize Slot.bind? e y binding = slot' at here
      generalize Instance.bindAll label d x rest = slots at others
      generalize Instance.bindAll label e y rest = slots' at others
      cases here with
      | none => exact .error _
      | some slot =>
          cases others with
          | ok slots => exact .ok (.cons slot slots)
          | error fault => exact .error fault

/-! ## Instances -/

structure PairedInstance (host : NodeId) (r : Bond) (i j : Instance) : Prop where
  fragment : r i.fragment j.fragment
  tops : List.Forall₂ r i.tops j.tops
  slots : List.Forall₂ (PairedSlot host r) i.slots j.slots

namespace PairedInstance

variable {i j : Instance}

theorem mono (paired : PairedInstance host r i j) (sub : r.Sub r') : PairedInstance host r' i j :=
  ⟨sub _ _ paired.fragment, sub.list paired.tops, paired.slots.imp (PairedSlot.mono sub)⟩

theorem anchorAt? (unique : BiUnique r) (bond : r x y) {a b : Slot} (slots : PairedSlot host r a b) :
    Option.Rel (PairedAnchor r) (a.anchorAt? x) (b.anchorAt? y) := by
  cases slots with
  | text => exact .none
  | textareaValue => exact .none
  | attributed => exact .none
  | anchor path anchors =>
      have same := same_of_paired unique anchors.comment bond
      simp only [Slot.anchorAt?, same]
      split
      · exact .some anchors
      · exact .none

theorem findAnchor (unique : BiUnique r) (bond : r x y) {as bs : List Slot} (slots : List.Forall₂ (PairedSlot host r) as bs) :
    Option.Rel (PairedAnchor r) (as.findSome? (Slot.anchorAt? x)) (bs.findSome? (Slot.anchorAt? y)) := by
  induction slots with
  | nil => exact .none
  | @cons a b as bs slot _ ih =>
      have here := anchorAt? unique bond slot
      rw [List.findSome?_cons, List.findSome?_cons]
      generalize Slot.anchorAt? x a = found at here
      generalize Slot.anchorAt? y b = found' at here
      cases here with
      | none => exact ih
      | some anchors => exact .some anchors

theorem nodes (unique : BiUnique r) (paired : PairedInstance host r i j) : List.Forall₂ r i.nodes j.nodes := by
  refine List.rel_flatMap paired.tops fun x y bond => ?_
  have found := findAnchor unique bond paired.slots
  generalize i.slots.findSome? (Slot.anchorAt? x) = a at found
  generalize j.slots.findSome? (Slot.anchorAt? y) = b at found
  cases found with
  | none => exact .cons bond .nil
  | some anchors => exact .cons bond anchors.current

end PairedInstance

namespace Instance

theorem mirrors_ofPrototype (prototype : Prototype) :
    acts.Mirrors o r (PairedInstance o.host) (ofPrototype prototype) (ofPrototype prototype) := by
  have plant : Act.Steady (edit (Document.plantFragment prototype.content)) :=
    steady_edit (Safe.plantLikeness (.inl prototype.content))
  refine .bind (mirrors_edit (mirrors_plantFragment prototype.content)) plant plant ?later ?later
    fun r₁ x y sub₁ bond => .of_echoes ?_
  case later =>
    refine fun fragment => .bind (steady_ask _) fun tops => .bind (steady_ask _) fun bound => ?_
    cases bound with
    | ok slots => exact .pure _
    | error fault => exact .throw _
  refine .bind (echoes_children (.inl bond)) fun r₂ tops tops' sub₂ kids => ?_
  have bound : acts.Echoes o r₂ (PairedBindings o.host)
      (ask fun d => bindAll prototype.label d x prototype.bindings)
      (ask fun e => bindAll prototype.label e y prototype.bindings) :=
    echoes_ask fun d e bonded => bindAll_paired bonded prototype.label (sub₂ x y bond) prototype.bindings
  refine .bind bound fun r₃ slots slots' sub₃ led => ?_
  cases led with
  | ok slots => exact .pure ⟨(sub₂.trans sub₃) x y bond, sub₃.list kids, slots⟩
  | error fault => exact .throw rfl

theorem outermost_paired (bonded : Bonded o r d e) {survivors survivors' : List NodeId}
    (stay : List.Forall₂ r survivors survivors') : ∀ {fuel : Nat} {xs ys : List NodeId}, List.Forall₂ r xs ys →
    List.Forall₂ r (outermost survivors d fuel xs) (outermost survivors' e fuel ys)
  | 0, _, _, _ => .nil
  | fuel + 1, [], _, bonds => by
      cases bonds
      exact .nil
  | fuel + 1, x :: xs, _, bonds => by
      cases bonds with
      | @cons _ y _ ys bond bonds =>
          rw [outermost, outermost, contains_of_paired bonded.unique bond stay]
          split
          · exact .cons bond (outermost_paired bonded stay bonds)
          · exact outermost_paired bonded stay (List.rel_append (bonded.children x y (.inl bond)) bonds)

theorem rescued_paired (bonded : Bonded o r d e) {survivors survivors' : List NodeId}
    (stay : List.Forall₂ r survivors survivors') (bond : r x y) :
    List.Forall₂ r (outermost survivors d d.slots.size (d.children x)) (outermost survivors' e e.slots.size (e.children y)) := by
  rw [outermost_children bonded.left.wellFormed x (Nat.le_add_right d.slots.size e.slots.size),
    outermost_children bonded.right.wellFormed y (Nat.le_add_left e.slots.size d.slots.size)]
  exact outermost_paired bonded stay (bonded.children x y (.inl bond))

theorem echoes_discardNode {survivors survivors' : List NodeId} (stay : List.Forall₂ r survivors survivors') (bond : r x y) :
    acts.Echoes o r any (discardNode survivors x) (discardNode survivors' y) := by
  refine .bind (echoes_contains (.inl bond)) fun r₁ alive _ sub₁ same₁ => .of_unique fun unique => ?_
  obtain rfl := same₁
  have bond₁ := sub₁ x y bond
  rw [contains_of_paired unique bond₁ (sub₁.list stay)]
  refine .ite Iff.rfl ?_ (.pure trivial)
  have rescue : acts.Echoes o r₁ Bond.lists (ask fun d => outermost survivors d d.slots.size (d.children x))
      (ask fun e => outermost survivors' e e.slots.size (e.children y)) :=
    echoes_ask fun d e bonded => rescued_paired bonded (sub₁.list stay) bond₁
  refine .bind rescue fun r₂ xs ys sub₂ found => .bind (echoes_removeAll found) fun r₃ _ _ sub₃ _ => ?_
  exact echoes_discard ((sub₂.trans sub₃) x y bond₁)

theorem echoes_discardInstance {survivors survivors' : List NodeId} (stay : List.Forall₂ r survivors survivors')
    {i j : Instance} (paired : PairedInstance o.host r i j) :
    acts.Echoes o r any (i.discard survivors) (j.discard survivors') := by
  have nodes : acts.Echoes o r any (i.nodes.forM (discardNode survivors)) (j.nodes.forM (discardNode survivors')) :=
    .of_unique fun unique => .forM (fun r x y => r x y ∧ List.Forall₂ r survivors survivors')
      (fun _ _ x y sub pair => ⟨sub x y pair.1, sub.list pair.2⟩) (fun _ _ _ _ pair => echoes_discardNode pair.2 pair.1)
      (.refl r) ((paired.nodes unique).imp fun _ _ bond => ⟨bond, stay⟩)
  refine .bind nodes fun r₁ _ _ sub₁ _ => .bind (echoes_contains (.inl (sub₁ _ _ paired.fragment))) fun r₂ alive _ sub₂ same₂ => ?_
  obtain rfl := same₂
  exact .ite Iff.rfl (echoes_discard ((sub₁.trans sub₂) _ _ paired.fragment)) (.pure trivial)

theorem echoes_discardAll {survivors survivors' : List NodeId} (stay : List.Forall₂ r survivors survivors')
    {is js : List Instance} (both : List.Forall₂ (PairedInstance o.host r) is js) :
    acts.Echoes o r any (is.forM (Instance.discard survivors)) (js.forM (Instance.discard survivors')) :=
  .forM (fun r i j => PairedInstance o.host r i j ∧ List.Forall₂ r survivors survivors')
    (fun _ _ _ _ sub pair => ⟨pair.1.mono sub, sub.list pair.2⟩)
    (fun _ _ _ _ pair => echoes_discardInstance pair.2 pair.1) (.refl r) (both.imp fun _ _ pair => ⟨pair, stay⟩)

end Instance

end Inlay.Render
