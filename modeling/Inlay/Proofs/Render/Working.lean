/-
# Proofs.Render.Working — the slots of an instance, one after the other

With the account, and with lodgers where they may be, every slot of an instance is
written (`Working.writeAll`). Each step keeps what all the tenants look like and what
was said at the slots before; where no template is reached twice, what stands in their
elements too. The proviso is said of the document `e` in which everything ends,
whatever the outcome.
-/
import Inlay.Proofs.Render.Rows

namespace Inlay.Render

set_option autoImplicit false

open Inlay.Document Inlay.Document.Planted Inlay.Markup
open Inlay.Template hiding root

variable {strict : Prop} {base d d' e : Document} {claims claims' : Claims} {t s : Tenant} {idle used : List Tenant}
  {done rest : List Plot} {p q : Plot} {path : Path} {a : Anchor} {old : NodeId → Prop} {context : Value}
  {under : List (List NodeId)} {placed : List NodeId}

/-! ## What programs leave -/

section Left

variable {ε σ α β : Type} (document : σ → Document)

/-- What the first part of a program leaves is followed by what the whole leaves. -/
theorem sequel_left_bind {p : EStateM ε σ α} {f : α → EStateM ε σ β} {s : σ} (steady : Steady document p)
    (rest : ∀ a, Steady document (f a)) (wf : WellFormed (document s)) :
    Sequel (document (left p s)) (document (left (p >>= f) s)) := by
  have first := steady s wf
  cases done : p s with
  | ok a s' =>
      rw [left_ok done] at first ⊢
      rw [left_bind done]
      exact rest a s' first.wellFormed
  | error fault s' =>
      rw [left_error done] at first ⊢
      rw [left_error (bind_error done)]
      exact .refl first.wellFormed

end Left

namespace Slot

theorem sequel_writeAll_cons (context : Value) (slot : Slot) (slots : List Slot) {stage : Stage}
    (wf : WellFormed stage.document) :
    Sequel (left (slot.write context) stage).document (writeAll context (slot :: slots) stage).2.document := by
  have first := slot.steady_write context stage wf
  cases wrote : slot.write context stage with
  | ok slot' stage' =>
      rw [left_ok wrote] at first ⊢
      rw [writeAll_cons wrote]
      exact sequel_writeAll context slots first.wellFormed
  | error fault stage' =>
      rw [left_error wrote] at first ⊢
      simp only [writeAll, wrote]
      exact .refl first.wellFormed

theorem left_write_anchor (context : Value) (path : Path) (a : Anchor) (stage : Stage) :
    left ((Slot.anchor path a).write context) stage = left (a.update (context.find? path.segments)) stage := by
  cases updated : a.update (context.find? path.segments) stage with
  | ok a' stage' =>
      rw [left_ok updated]
      exact left_ok (bind_ok updated)
  | error fault stage' =>
      rw [left_error updated]
      exact left_error (bind_error updated)

end Slot

/-! ## A tenant at work -/

/-- A tenant is at work, and nothing is in its way. -/
structure Working (strict : Prop) (old : NodeId → Prop) (base d : Document) (idle used : List Tenant) (t : Tenant)
    (done rest : List Plot) (context : Value) (under : List (List NodeId)) (placed : List NodeId)
    (claims : Claims) : Prop where
  work : AtWork old base d idle used t done rest context under placed claims
  quartering : Quartering d idle used t done rest context under claims
  clad : ∀ s ∈ t :: (idle ++ used), s.Clad d
  form : t.plots.map (·.slot.unwritten) = slotsAll .blank none t.source
  tidy : TidyAll (trees t.source)
  told : ∀ q ∈ done, q.Says d context
  arraying : strict → Arraying d used t done rest context under claims

namespace Working

section Step

variable (working : Working strict old base d idle used t done (p :: rest) context under placed claims)
include working

/-- What is written at a plot was not written before it. -/
theorem clear (mem : q ∈ done) : Clear False q.slot p.slot := by
  have nodup := Tenant.grounds_nodup (working.work.roll.household.estate_nodup List.mem_cons_self)
  have all : (t.plots.map (·.slot)).Pairwise (Clear False) := by
    have blank : (slotsAll .blank none t.source).Pairwise (Clear False) := clear_slotsAll nodup nofun working.tidy nofun
    refine clear_unwritten ?_ blank
    rw [unwritten_slotsAll, List.map_map]
    exact working.form
  rw [working.work.split, List.map_append, List.map_cons] at all
  exact (List.pairwise_append.mp all).2.2 q.slot (List.mem_map_of_mem mem) p.slot List.mem_cons_self

/-- What all the tenants own lives on. -/
theorem ground_live (mem : s ∈ t :: (idle ++ used)) {x : NodeId} (ground : x ∈ s.grounds) : d.contains x = true :=
  working.work.roll.household.live mem (Tenant.mem_estate_of_ground ground)

/-- An anchor is updated. -/
theorem anchor (isAnchor : p.slot = .anchor path a) (unrevived : Unrevived old d e)
    (later : Sequel (left (a.update (context.find? path.segments)) ⟨d, claims⟩).document e) :
    ∃ a' entries d' claims', a.update (context.find? path.segments) ⟨d, claims⟩ = .ok a' ⟨d', claims'⟩ ∧
      Steadfast d d' used ∧
      Working strict old base d' idle used (t.replant done ⟨.anchor path a', entries⟩ rest)
        (done ++ [⟨.anchor path a', entries⟩]) rest context under placed claims' := by
  have work := working.work
  have house := work.roll.household
  have wf := house.wellFormed
  have able := work.able unrevived isAnchor
  obtain ⟨a', d', claims', updated, resettled⟩ := able.resettled
    (fun m up nodes wanted x mem => working.quartering.clear work isAnchor up wanted mem) later
  rw [left_ok updated] at later
  have sequel : Sequel d d' := by
    have := Anchor.steady_update (context.find? path.segments) a ⟨d, claims⟩ wf
    rwa [left_ok updated] at this
  have back : ∀ x, old x → d'.contains x = true → d.contains x = true := fun _ => unrevived.back wf sequel later
  obtain ⟨pieces, taken, fresh, left, upkept⟩ := able.upkept updated later
  have work' := work.anchor isAnchor unrevived upkept back
  have house' := work'.roll.household
  have same : (Slot.anchor path a').unwritten = p.slot.unwritten := by
    rw [isAnchor, upkept.anchor]
    rfl
  have lives : ∀ s ∈ t :: (idle ++ used), ∀ x ∈ s.grounds, d'.contains x = true := fun s mem x ground => by
    rcases List.mem_cons.mp mem with rfl | other
    · exact house'.live List.mem_cons_self (Tenant.mem_estate_of_ground ground)
    · exact house'.live (List.mem_cons_of_mem _ other) (Tenant.mem_estate_of_ground ground)
  have clad : ∀ s ∈ t :: (idle ++ used), s.Clad d' := fun s mem =>
    (working.clad s mem).change upkept.change (house.estate_nodup mem) (fun x => working.ground_live mem) (lives s mem)
      fun x ground inner => able.ground_stays upkept.unborn mem ground (.inr inner)
  refine ⟨a', _, d', claims', updated, .of_change upkept.change (fun s mem x => working.ground_live (work.roll.used_mem s mem))
    (fun s mem => lives s (work.roll.used_mem s mem)), work',
    working.quartering.anchor work isAnchor unrevived upkept resettled back, fun s mem => ?_, ?_, working.tidy,
    fun q mem => ?_, fun all => (working.arraying all).anchor work isAnchor unrevived upkept resettled back⟩
  · rcases List.mem_cons.mp mem with rfl | other
    · exact ⟨(clad t List.mem_cons_self).wears, (clad t List.mem_cons_self).kids⟩
    · exact clad s (List.mem_cons_of_mem _ other)
  · show (t.replant done ⟨.anchor path a', entriesOf pieces⟩ rest).plots.map (·.slot.unwritten) = slotsAll .blank none t.source
    rw [← working.form, work.split, Tenant.replant, List.map_append, List.map_append, List.map_cons, List.map_cons, same]
  · rcases List.mem_append.mp mem with before | last
    · have ground : q.slot.node ∈ t.grounds := by
        refine ((house.housed t List.mem_cons_self).plots q ?_).node
        rw [work.split]
        exact List.mem_append_left _ before
      exact (working.told q before).congr (upkept.change.content _ (working.ground_live List.mem_cons_self ground)
        (lives t List.mem_cons_self _ ground))
    · cases List.mem_singleton.mp last
      refine ⟨fun f here => absurd here List.not_mem_nil, ?_⟩
      rintro _ _ ⟨⟩
      exact ⟨pieces, upkept.shown, by rw [upkept.anchor], rfl⟩

/-- Another slot is written. -/
theorem plain (plain : p.slot.anchored? = none) :
    ∃ d', p.slot.write context ⟨d, claims⟩ = .ok p.slot ⟨d', claims⟩ ∧ Steadfast d d' used ∧
      Working strict old base d' idle used t (done ++ [p]) rest context under placed claims := by
  have work := working.work
  have house := work.roll.household
  have wf := house.wellFormed
  have mine := working.clad t List.mem_cons_self
  have ground : p.slot.node ∈ t.grounds := work.kept.node
  have inside : p.slot ∈ slotsAll .blank none t.source := by
    have unwritten : p.slot.unwritten = p.slot := by
      cases slot : p.slot with
      | anchor path a =>
          rw [slot] at plain
          cases plain
      | _ => rfl
    rw [← working.form, ← unwritten]
    exact List.mem_map_of_mem work.mem
  obtain ⟨d', before, after, wrote, found, redoes, becomes⟩ :=
    Slot.write_redoes wf claims context plain (mine.suits work.mem working.form)
  obtain ⟨-, -, touched⟩ := Slot.write_plain wf plain wrote
  obtain ⟨-, -, facts⟩ := Slot.wrote_of_write wf (fun path a isAnchor => by rw [isAnchor] at plain; cases plain) wrote
  have others : ∀ s ∈ idle ++ used, ∀ x ∈ s.grounds, d'.content? x = d.content? x := fun s mem x own => by
    refine touched.content x ?_
    rintro rfl
    exact house.other mem (Tenant.mem_estate_of_ground own) (Tenant.mem_estate_of_ground ground)
  refine ⟨d', wrote, fun s mem => others s (List.mem_append_right _ mem), work.touched plain touched,
    working.quartering.touched work plain touched, fun s mem => ?_, working.form, working.tidy, fun q mem => ?_,
    fun all => (working.arraying all).touched plain touched⟩
  · rcases List.mem_cons.mp mem with rfl | other
    · exact mine.redo (house.estate_nodup List.mem_cons_self) working.tidy inside found redoes becomes
    · exact (working.clad s mem).congr (others s other) touched.children
  · rcases List.mem_append.mp mem with before | last
    · exact (working.told q before).wrote facts (working.clear before)
    · cases List.mem_singleton.mp last
      exact .of_wrote plain facts

end Step

/-- All slots that are left are written. -/
theorem writeAll : ∀ {rest done : List Plot} {t : Tenant} {d : Document} {claims : Claims},
    Working strict old base d idle used t done rest context under placed claims → Unrevived old d e →
    Sequel (Slot.writeAll context (rest.map (·.slot)) ⟨d, claims⟩).2.document e →
    ∃ (plots : List Plot) (d' : Document) (claims' : Claims),
      Slot.writeAll context (rest.map (·.slot)) ⟨d, claims⟩ = ((none, plots.map (·.slot)), ⟨d', claims'⟩) ∧
      Steadfast d d' used ∧
      Working strict old base d' idle used { t with plots := done ++ plots } (done ++ plots) [] context under placed claims'
  | [], done, t, d, claims, working, _, _ => by
      have same : ({ t with plots := done } : Tenant) = t := by
        have := working.work.split
        rw [List.append_nil] at this
        rw [← this]
      refine ⟨[], d, claims, rfl, .refl d used, ?_⟩
      rw [List.append_nil, same]
      exact working
  | p :: rest, done, t, d, claims, working, unrevived, later => by
      rw [List.map_cons] at later
      have wf : WellFormed (⟨d, claims⟩ : Stage).document := working.work.roll.household.wellFormed
      have first : Sequel (left (p.slot.write context) ⟨d, claims⟩).document e :=
        (Slot.sequel_writeAll_cons context p.slot _ wf).trans later
      have begins : Sequel d (left (p.slot.write context) ⟨d, claims⟩).document :=
        p.slot.steady_write context ⟨d, claims⟩ wf
      -- what is written first, and the plot that it leaves
      obtain ⟨plot, d₁, claims₁, wrote, stays, next⟩ : ∃ (plot : Plot) (d₁ : Document) (claims₁ : Claims),
          p.slot.write context ⟨d, claims⟩ = .ok plot.slot ⟨d₁, claims₁⟩ ∧ Steadfast d d₁ used ∧
          Working strict old base d₁ idle used (t.replant done plot rest) (done ++ [plot]) rest context under placed claims₁ := by
        cases isAnchor : p.slot.anchored? with
        | none =>
            obtain ⟨d₁, wrote, stays, next⟩ := working.plain isAnchor
            refine ⟨p, d₁, claims, wrote, stays, ?_⟩
            rw [Tenant.replant, ← working.work.split]
            exact next
        | some a =>
            obtain ⟨path, slot_⟩ := Slot.exists_path isAnchor
            rw [slot_, Slot.left_write_anchor] at first
            obtain ⟨a', entries, d₁, claims₁, updated, stays, next⟩ := working.anchor slot_ unrevived first
            refine ⟨_, d₁, claims₁, ?_, stays, next⟩
            rw [slot_]
            exact bind_ok updated
      rw [left_ok wrote] at begins
      rw [writeAll_cons wrote] at later
      obtain ⟨plots, d', claims', others, stays', finished⟩ := next.writeAll (unrevived.later begins) later
      refine ⟨plot :: plots, d', claims', ?_, stays.trans stays' fun _ => id, ?_⟩
      · rw [List.map_cons, writeAll_cons wrote, others]
        rfl
      · rw [List.append_assoc] at finished
        exact finished

end Working

end Inlay.Render
