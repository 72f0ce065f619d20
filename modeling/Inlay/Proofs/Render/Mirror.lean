/-
# Proofs.Render.Mirror — programs that do the same along a bond

Two programs mirror each other when, from states whose documents are bonded, both
answer or both are refused with faults that differ in ids only, and leave states
whose documents are bonded along a bond that has grown by new nodes. In the first
document nothing has changed outside of the bond (`Widened`), which is what another
renderer relies on.

A `Realm` is a kind of program: edits, acts, passes and renderings differ in what
their states hold besides the document. Programs that make no nodes echo each other
whatever happened before (`Echoes`); those that do mirror each other unless ids came
back (`Mirrors`). Composition is proved once for all realms; what runs in front has
not repeated an id if the whole has not, since steady programs never lower the count
of freed nodes.
-/
import Inlay.Proofs.Render.Bond
import Inlay.Proofs.Render.Steady

namespace Inlay

set_option autoImplicit false

namespace Document.Fault

/-- The fault without the ids it names. -/
def nameless : Fault → Fault
  | stale _ => stale ⟨0, 0⟩
  | notContainer _ => notContainer ⟨0, 0⟩
  | notChild _ _ => notChild ⟨0, 0⟩ ⟨0, 0⟩
  | cycle _ _ => cycle ⟨0, 0⟩ ⟨0, 0⟩
  | notElement _ => notElement ⟨0, 0⟩
  | notCharacterData _ => notCharacterData ⟨0, 0⟩
  | bodyRemoval => bodyRemoval

end Document.Fault

namespace Render

open Inlay.Document Relator

/-- The fault without the ids it names. -/
def Fault.nameless : Fault → Fault
  | .document fault => .document fault.nameless
  | fault => fault

variable {ε σ α β : Type} {o : Outset} {r r' r'' : Bond} {d d' d'' : Document}

/-! ## Bonds that grow -/

/-- The bond has grown by new nodes, and outside of it nothing has changed. -/
structure Widened (o : Outset) (r r' : Bond) (d d' : Document) : Prop where
  sub : r.Sub r'
  fresh : ∀ x, r'.Has x → r.Has x ∨ ¬ Once o.first d x
  outside : Outside o.host r'.Has d d'

namespace Widened

theorem of_outside (outside : Outside o.host r.Has d d') : Widened o r r d d' :=
  ⟨.refl r, fun _ => .inl, outside⟩

theorem refl (d : Document) : Widened o r r d d := of_outside (.refl d)

theorem trans (first : Widened o r r' d d') (second : Widened o r' r'' d' d'') : Widened o r r'' d d'' where
  sub := first.sub.trans second.sub
  fresh := fun x has => by
    rcases second.fresh x has with old | new
    · exact first.fresh x old
    · exact .inr fun once => new (once.later first.outside.aged)
  outside := first.outside.trans second.outside fun x ⟨y, bond⟩ => ⟨y, second.sub x y bond⟩

end Widened

/-! ## Programs -/

/-- A kind of program: the document of a state, when the rest of two states is alike
and when two faults are. -/
structure Realm (ε σ : Type) where
  document : σ → Document
  alike : Bond → σ → σ → Prop
  blames : ε → ε → Prop

namespace Realm

/-- Two outcomes are the same along a bond that has grown. -/
inductive Met (k : Realm ε σ) (o : Outset) (r : Bond) (answers : Bond → α → α → Prop) (d : Document) :
    EStateM.Result ε σ α → EStateM.Result ε σ α → Prop
  | ok {r' : Bond} {a b : α} {s t : σ} (grown : Widened o r r' d (k.document s))
      (bonded : Bonded o r' (k.document s) (k.document t)) (alike : k.alike r' s t) (answer : answers r' a b) :
      Met k o r answers d (.ok a s) (.ok b t)
  | error {r' : Bond} {f g : ε} {s t : σ} (grown : Widened o r r' d (k.document s))
      (bonded : Bonded o r' (k.document s) (k.document t)) (alike : k.alike r' s t) (blame : k.blames f g) :
      Met k o r answers d (.error f s) (.error g t)

/-- From bonded documents the two programs come to the same outcome. -/
def Echoes (k : Realm ε σ) (o : Outset) (r : Bond) (answers : Bond → α → α → Prop) (p q : EStateM ε σ α) : Prop :=
  ∀ s t, Bonded o r (k.document s) (k.document t) → k.alike r s t → k.Met o r answers (k.document s) (p s) (q t)

/-- From bonded documents the two programs come to the same outcome, unless ids came
back. -/
def Mirrors (k : Realm ε σ) (o : Outset) (r : Bond) (answers : Bond → α → α → Prop) (p q : EStateM ε σ α) : Prop :=
  ∀ s t, Bonded o r (k.document s) (k.document t) → k.alike r s t →
    Unrepeated o.first (k.document (left p s)) → Unrepeated o.second (k.document (left q t)) →
    k.Met o r answers (k.document s) (p s) (q t)

/-- Any two answers. -/
def any : Bond → α → α → Prop := fun _ _ _ => True

/-- The same answer. -/
def same : Bond → α → α → Prop := fun _ a b => a = b

variable {k : Realm ε σ} {answers answers' : Bond → α → α → Prop} {results : Bond → β → β → Prop}

theorem Met.after {x y : EStateM.Result ε σ α} (met : k.Met o r' answers d' x y) (grown : Widened o r r' d d') :
    k.Met o r answers d x y := by
  cases met with
  | ok later bonded alike answer => exact .ok (grown.trans later) bonded alike answer
  | error later bonded alike blame => exact .error (grown.trans later) bonded alike blame

/-- What follows two programs. -/
theorem Met.bind {p q : EStateM ε σ α} {f g : α → EStateM ε σ β} {s t : σ} (met : k.Met o r answers d (p s) (q t))
    (rest : ∀ r' a b s' t', p s = .ok a s' → q t = .ok b t' → r.Sub r' →
      Bonded o r' (k.document s') (k.document t') → k.alike r' s' t' → answers r' a b →
      k.Met o r' results (k.document s') (f a s') (g b t')) : k.Met o r results d ((p >>= f) s) ((q >>= g) t) := by
  cases done : p s with
  | ok a s' =>
      cases done' : q t with
      | ok b t' =>
          rw [done, done'] at met
          rw [bind_ok done, bind_ok done']
          cases met with
          | ok grown bonded alike answer =>
              exact (rest _ a b s' t' done done' grown.sub bonded alike answer).after grown
      | error fault t' =>
          rw [done, done'] at met
          cases met
  | error fault s' =>
      cases done' : q t with
      | ok b t' =>
          rw [done, done'] at met
          cases met
      | error fault' t' =>
          rw [done, done'] at met
          rw [bind_error done, bind_error done']
          cases met with
          | error grown bonded alike blame => exact .error grown bonded alike blame

namespace Echoes

theorem pure {a b : α} (answer : answers r a b) :
    k.Echoes o r answers (Pure.pure a : EStateM ε σ α) (Pure.pure b) :=
  fun _ _ bonded alike => .ok (.refl _) bonded alike answer

theorem throw {f g : ε} (blame : k.blames f g) :
    k.Echoes o r answers (throw f : EStateM ε σ α) (MonadExcept.throw g) :=
  fun _ _ bonded alike => .error (.refl _) bonded alike blame

theorem bind {p q : EStateM ε σ α} {f g : α → EStateM ε σ β} (echoes : k.Echoes o r answers p q)
    (rest : ∀ r' a b, r.Sub r' → answers r' a b → k.Echoes o r' results (f a) (g b)) :
    k.Echoes o r results (p >>= f) (q >>= g) := fun s t bonded alike =>
  (echoes s t bonded alike).bind fun r' a b s' t' _ _ sub bonded alike answer => rest r' a b sub answer s' t' bonded alike

/-- No node has two partners. -/
theorem of_unique {p q : EStateM ε σ α} (echoes : BiUnique r → k.Echoes o r answers p q) : k.Echoes o r answers p q :=
  fun s t bonded alike => echoes bonded.unique s t bonded alike

theorem ite {c c' : Prop} [Decidable c] [Decidable c'] {p p' q q' : EStateM ε σ α} (iff : c ↔ c')
    (yes : k.Echoes o r answers p q) (no : k.Echoes o r answers p' q') :
    k.Echoes o r answers (if c then p else p') (if c' then q else q') := by
  by_cases here : c
  · rwa [if_pos here, if_pos (iff.mp here)]
  · rwa [if_neg here, if_neg (mt iff.mpr here)]

/-- Doing the same with paired things one after the other. -/
theorem forM {γ : Type} {f g : γ → EStateM ε σ PUnit} (pairs : Bond → γ → γ → Prop)
    (mono : ∀ r r' a b, r.Sub r' → pairs r a b → pairs r' a b)
    (each : ∀ r' a b, r.Sub r' → pairs r' a b → k.Echoes o r' any (f a) (g b)) :
    ∀ {as bs : List γ} {r' : Bond}, r.Sub r' → List.Forall₂ (pairs r') as bs →
      k.Echoes o r' any (as.forM f) (bs.forM g)
  | [], _, _, _, paired => by
      cases paired
      exact .pure trivial
  | a :: as, _, _, sub, paired => by
      cases paired with
      | cons pair others =>
          refine .bind (each _ _ _ sub pair) fun r'' _ _ more _ => ?_
          exact forM pairs mono each (sub.trans more) (others.imp fun a b => mono _ _ a b more)

end Echoes

namespace Mirrors

theorem of_echoes {p q : EStateM ε σ α} (echoes : k.Echoes o r answers p q) : k.Mirrors o r answers p q :=
  fun s t bonded alike _ _ => echoes s t bonded alike

theorem pure {a b : α} (answer : answers r a b) :
    k.Mirrors o r answers (Pure.pure a : EStateM ε σ α) (Pure.pure b) := of_echoes (.pure answer)

/-- Behind programs that make no nodes. -/
theorem behind {p q : EStateM ε σ α} {f g : α → EStateM ε σ β} (echoes : k.Echoes o r answers p q)
    (rest : ∀ r' a b, r.Sub r' → answers r' a b → k.Mirrors o r' results (f a) (g b)) :
    k.Mirrors o r results (p >>= f) (q >>= g) := fun s t bonded alike unrepeated unrepeated' =>
  (echoes s t bonded alike).bind fun r' a b s' t' done done' sub bonded alike answer =>
    rest r' a b sub answer s' t' bonded alike (left_bind done ▸ unrepeated) (left_bind done' ▸ unrepeated')

/-- Ids that have not come back behind two programs have not behind the first. -/
theorem unrepeated_of_bind {start : Document} {p : EStateM ε σ α} {f : α → EStateM ε σ β} {s : σ}
    (aged : Aged start (k.document s)) (wf : WellFormed (k.document s)) (steady : Steady k.document p)
    (rest : ∀ a, Steady k.document (f a)) (unrepeated : Unrepeated start (k.document (left (p >>= f) s))) :
    Unrepeated start (k.document (left p s)) := by
  have sequel := steady s wf
  cases done : p s with
  | ok a s' =>
      rw [left_ok done] at sequel ⊢
      rw [left_bind done] at unrepeated
      exact unrepeated.first (aged.trans sequel.aged) (rest a s' sequel.wellFormed).aged
  | error fault s' =>
      rw [left_error done] at sequel ⊢
      rwa [left_error (bind_error done)] at unrepeated

theorem bind {p q : EStateM ε σ α} {f g : α → EStateM ε σ β} (mirrors : k.Mirrors o r answers p q)
    (steady : Steady k.document p) (steady' : Steady k.document q) (later : ∀ a, Steady k.document (f a))
    (later' : ∀ a, Steady k.document (g a))
    (rest : ∀ r' a b, r.Sub r' → answers r' a b → k.Mirrors o r' results (f a) (g b)) :
    k.Mirrors o r results (p >>= f) (q >>= g) := by
  intro s t bonded alike unrepeated unrepeated'
  refine (mirrors s t bonded alike
    (unrepeated_of_bind bonded.left.aged bonded.left.wellFormed steady later unrepeated)
    (unrepeated_of_bind bonded.right.aged bonded.right.wellFormed steady' later' unrepeated')).bind ?_
  intro r' a b s' t' done done' sub bonded alike answer
  exact rest r' a b sub answer s' t' bonded alike (left_bind done ▸ unrepeated) (left_bind done' ▸ unrepeated')

end Mirrors

end Realm

end Render

end Inlay
