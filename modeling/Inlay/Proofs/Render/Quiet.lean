/-
# Proofs.Render.Quiet — what an anchor's update tells

Making nodes for items and freeing nodes that stand nowhere tells nothing
(`Act.Hushed`). What reconciling tells is told of one parent, when that is the only
one in which nodes of the two lists stand (`reconcile_tells`).
-/
import Inlay.Proofs.Document.Chronicle
import Inlay.Proofs.Render.Placing
import Inlay.Proofs.Render.Refill
import Inlay.Proofs.Render.Steady

namespace Inlay.Render

set_option autoImplicit false

open Relation Inlay.Document

variable {d d' d'' d₀ : Document} {claims : Claims} {stage : Stage} {id node parent q x : NodeId}
  {next previous nodes : List NodeId} {α β : Type}

/-! ## Acts that tell nothing -/

/-- From a document on the way from `d₀`, along which nothing was told, the act goes on without telling
anything; `post` holds of its answer. -/
def Act.Hushed (d₀ : Document) (a : Act α) (post : α → Prop) : Prop :=
  ∀ stage, Chronicle d₀ stage.document [] →
    Chronicle d₀ (left a stage).document [] ∧ ∀ x stage', a stage = .ok x stage' → post x

namespace Act.Hushed

variable {post : α → Prop} {post' : β → Prop}

theorem pure {a : α} (holds : post a) : Hushed d₀ (Pure.pure a : Act α) post := by
  refine fun stage chronicle => ⟨chronicle, fun b stage' done => ?_⟩
  cases done
  exact holds

theorem bind {a : Act α} {f : α → Act β} (first : Hushed d₀ a post) (rest : ∀ x, post x → Hushed d₀ (f x) post') :
    Hushed d₀ (a >>= f) post' := by
  intro stage chronicle
  obtain ⟨after, holds⟩ := first stage chronicle
  cases done : a stage with
  | ok x stage' =>
      rw [left_ok done] at after
      rw [left_bind done, bind_ok done]
      exact rest x (holds x stage' done) stage' after
  | error fault stage' =>
      rw [left_error done] at after
      rw [left_error (bind_error done), bind_error done]
      refine ⟨after, fun x stage'' done' => ?_⟩
      cases done'

theorem andThen {a : Act α} {f : α → Act β} (first : Hushed d₀ a fun _ => True) (rest : ∀ x, Hushed d₀ (f x) post') :
    Hushed d₀ (a >>= f) post' := bind first fun x _ => rest x

theorem edit {e : Edit α} (hushed : Document.Hushed d₀ e post) : Hushed d₀ (Act.edit e) post := by
  intro stage chronicle
  obtain ⟨after, holds⟩ := hushed stage.document chronicle
  cases done : e stage.document with
  | ok a d' =>
      rw [Edit.after_ok done] at after
      rw [left_ok (Act.edit_ok done), Act.edit_ok done]
      refine ⟨after, fun x stage' same => ?_⟩
      cases same
      exact holds a d' done
  | error fault d' =>
      rw [Edit.after_error done] at after
      have refused : Act.edit e stage = .error (.document fault) ⟨d', stage.claims⟩ := by simp [Act.edit, done]
      rw [left_error refused, refused]
      refine ⟨after, fun x stage'' done' => ?_⟩
      cases done'

theorem ask {f : Document → α} (holds : ∀ d, Chronicle d₀ d [] → post (f d)) : Hushed d₀ (Act.ask f) post := by
  refine fun stage chronicle => ⟨chronicle, fun x stage' same => ?_⟩
  cases same
  exact holds _ chronicle

theorem isClaimed (node : NodeId) : Hushed d₀ (Act.isClaimed node) fun _ => True :=
  fun _ chronicle => ⟨chronicle, fun _ _ _ => trivial⟩

theorem forM {f : NodeId → Act PUnit} : ∀ {nodes : List NodeId}, (∀ x ∈ nodes, Hushed d₀ (f x) fun _ => True) →
    Hushed d₀ (nodes.forM f) fun _ => True
  | [], _ => pure trivial
  | _ :: _, each =>
      andThen (each _ List.mem_cons_self) fun _ => forM fun x mem => each x (List.mem_cons_of_mem _ mem)

open Anchor

theorem makeText (content : String) : Hushed d₀ (makeText content) fun _ => True :=
  bind (edit (.create _)) fun _ _ => pure trivial

/-- What is taken out of a fragment that is not connected is not connected. -/
theorem unwrap {fragment : NodeId} (loose : ¬ Connected d₀ fragment) : Hushed d₀ (unwrap fragment) fun _ => True := by
  have inside : Hushed d₀ (Act.ask (·.children fragment)) fun nodes => ∀ x ∈ nodes, ¬ Connected d₀ x := by
    refine ask fun d chronicle x child connected => loose ?_
    have same := chronicle.rearranged.silent rfl
    have up : d.Up x fragment := chronicle.wellFormed.parent_iff.mpr child
    have inner : x ≠ d.body := fun body => chronicle.wellFormed.body_not_mem_children fragment (body ▸ child)
    obtain ⟨p, above, reached⟩ := ((same x).mpr connected).parent inner
    exact (same fragment).mp (up_unique up above ▸ reached)
  refine bind inside fun nodes loose' => ?_
  refine andThen (forM fun x mem => edit (.remove (loose' x mem))) fun _ => ?_
  exact andThen (edit (.discard loose)) fun _ => pure trivial

theorem make : ∀ key : Key, Hushed d₀ (make key) fun _ => True
  | .text content => makeText content
  | .markup source => by
      refine bind (edit (.parse source)) fun answer loose => ?_
      cases answer with
      | ok fragment => exact unwrap (loose fragment rfl)
      | error fault => exact makeText source

/-- Laying out items tells nothing. -/
theorem layOut : ∀ (items : List Item) (unused : List Made), Hushed d₀ (layOut items unused) fun _ => True
  | [], _ => pure trivial
  | .nodes _ :: rest, unused => andThen (layOut rest unused) fun _ => pure trivial
  | .made key :: rest, unused => by
      rw [Anchor.layOut]
      split
      · refine andThen (pure trivial) fun pair => ?_
        exact andThen (layOut rest pair.2) fun _ => pure trivial
      · refine andThen (make key) fun nodes => andThen (pure trivial) fun pair => ?_
        exact andThen (layOut rest pair.2) fun _ => pure trivial

/-- Freeing nodes that are not connected tells nothing. -/
theorem discardUnclaimed : ∀ {nodes : List NodeId}, (∀ x ∈ nodes, ¬ Connected d₀ x) →
    Hushed d₀ (discardUnclaimed nodes) fun _ => True
  | [], _ => pure trivial
  | node :: rest, loose => by
      obtain ⟨here, others⟩ := List.forall_mem_cons.mp loose
      refine andThen (isClaimed node) fun claimed => andThen (ask fun _ _ => trivial) fun alive => ?_
      dsimp only
      split
      · exact andThen (edit (.discard here)) fun _ => discardUnclaimed others
      · exact discardUnclaimed others

end Act.Hushed

/-! ## Records of one kind -/

/-- What was told between two documents, and each record of it fits. -/
def Tells (fits : Record → Prop) (d d' : Document) : Prop :=
  ∃ news, Account d d' news ∧ ∀ record ∈ news, fits record

namespace Tells

variable {fits more : Record → Prop}

theorem of_silent (account : Account d d' []) : Tells fits d d' := ⟨[], account, nofun⟩

theorem refl (d : Document) : Tells fits d d := .of_silent (.refl d)

theorem trans (first : Tells fits d d') (second : Tells fits d' d'') : Tells fits d d'' := by
  obtain ⟨news, account, each⟩ := first
  obtain ⟨later, account', each'⟩ := second
  exact ⟨news ++ later, account.trans account', List.forall_mem_append.mpr ⟨each, each'⟩⟩

theorem mono (tells : Tells fits d d') (weaker : ∀ record, fits record → more record) : Tells more d d' := by
  obtain ⟨news, account, each⟩ := tells
  exact ⟨news, account, fun record mem => weaker record (each record mem)⟩

end Tells

/-- The record is of the children of a node. -/
def Record.OfChildren (parent : NodeId) (record : Record) : Prop :=
  ∃ added removed, record = .childList parent added removed

/-! ## Reconciling in one parent -/

/-- The nodes stand in the parent if anywhere. -/
def AtMost (d : Document) (parent : NodeId) (nodes : List NodeId) : Prop := ∀ x ∈ nodes, ∀ p, d.Up x p → p = parent

theorem ofChildren_of_withdrawal {record : Record} (home : ∀ p, d.Up x p → p = q) (mem : record ∈ withdrawal d x) :
    Record.OfChildren q record := by
  unfold withdrawal at mem
  split at mem
  · next p up =>
    split at mem
    · rw [List.mem_singleton.mp mem, home p up]
      exact ⟨_, _, rfl⟩
    · cases mem
  · cases mem

theorem ofChildren_of_arrival {record : Record} (mem : record ∈ arrival d q x) : Record.OfChildren q record := by
  unfold arrival at mem
  split at mem
  · rw [List.mem_singleton.mp mem]
    exact ⟨_, _, rfl⟩
  · cases mem

theorem detachOld_tells : ∀ {previous : List NodeId} {d : Document}, WellFormed d → AtMost d q previous →
    detachOld next previous ⟨d, claims⟩ = .ok () stage →
    Tells (Record.OfChildren q) d stage.document ∧ ∀ x p, stage.document.Up x p → d.Up x p
  | [], d, _, _, done => by
      cases done
      exact ⟨.refl d, fun _ _ up => up⟩
  | node :: rest, d, wf, home, done => by
      obtain ⟨here, others⟩ := List.forall_mem_cons.mp home
      rw [detachOld, Act.bind_isClaimed, Act.bind_ask] at done
      split at done
      · obtain ⟨⟨⟩, stage₁, removed, later⟩ := of_bind_ok done
        obtain ⟨d₁, gone, rfl⟩ := Act.of_edit removed
        obtain ⟨fault, refused⟩ | ⟨d₂, -, live, inner⟩ := remove_cases wf node
        · rw [gone] at refused
          cases refused
        obtain ⟨d₃, again, becomes⟩ := remove_becomes wf live inner
        cases gone.symm.trans again
        have still : ∀ x p, d₁.Up x p → d.Up x p := fun x p up => by
          have child := becomes.wellFormed.parent_iff.mp up
          rw [becomes.children] at child
          exact wf.parent_iff.mpr (List.mem_of_mem_erase child)
        obtain ⟨tells, back⟩ := detachOld_tells becomes.wellFormed
          (fun x mem p up => others x mem p (still x p up)) later
        have first : Tells (Record.OfChildren q) d d₁ :=
          ⟨_, account_remove gone, fun record => ofChildren_of_withdrawal here⟩
        exact ⟨first.trans tells, fun x p up => still x p (back x p up)⟩
      · exact detachOld_tells wf others done

theorem placeIn_tells : ∀ {next : List NodeId} {d : Document} {claims : Claims} {cursor : Option NodeId},
    WellFormed d → (∀ x ∈ next, d.content? x ≠ some .fragment) → AtMost d q next →
    placeIn q cursor next ⟨d, claims⟩ = .ok () stage → Tells (Record.OfChildren q) d stage.document
  | [], d, claims, cursor, _, _, _, done => by
      cases done
      exact .refl d
  | node :: rest, d, claims, cursor, wf, solid, home, done => by
      obtain ⟨solid, others⟩ := List.forall_mem_cons.mp solid
      obtain ⟨here, home⟩ := List.forall_mem_cons.mp home
      rw [placeIn, Act.bind_claim] at done
      obtain ⟨⟨⟩, stage₁, put, later⟩ := of_bind_ok done
      rw [placeOne, Act.bind_ask] at put
      split at put
      · obtain ⟨d₁, inserted, rfl⟩ := Act.of_edit put
        have becomes := (becomes_of_solid wf solid inserted).2
        have home₁ : AtMost d₁ q rest := fun x mem p up => by
          have child := becomes.wellFormed.parent_iff.mp up
          rw [becomes.children, moved] at child
          by_contra away
          rw [if_neg away] at child
          split at child
          · exact away (home x mem p (wf.parent_iff.mpr child))
          · exact away (home x mem p (wf.parent_iff.mpr (List.mem_of_mem_erase child)))
        refine Tells.trans ⟨_, account_insertBefore wf solid inserted, ?_⟩
          (placeIn_tells becomes.wellFormed (by rwa [becomes.content]) home₁ later)
        exact List.forall_mem_append.mpr
          ⟨fun record => ofChildren_of_withdrawal here, fun record => ofChildren_of_arrival⟩
      · cases put
        exact placeIn_tells wf others home later

/-- Nodes that stand in a parent stand nowhere else. -/
theorem atMost_of_children (wf : WellFormed d) (child : ∀ x ∈ nodes, x ∈ d.children q) : AtMost d q nodes :=
  fun x mem _ up => wf.linked.parent_unique (wf.parent_iff.mp up) (child x mem)

theorem reconcile_tells {front back : List NodeId} (wf : WellFormed d)
    (kids : d.children q = front ++ id :: previous ++ back) (home : AtMost d q next)
    (solid : ∀ x ∈ next, d.content? x ≠ some .fragment)
    (done : reconcile (.behind id) previous next ⟨d, claims⟩ = .ok () stage) :
    Tells (Record.OfChildren q) d stage.document := by
  have child : ∀ x ∈ previous, x ∈ d.children q := fun x mem => by
    rw [kids]
    simp [mem]
  have apart : id ∉ previous := fun mem => by
    have once := wf.nodup q
    rw [kids] at once
    exact (apart_of_run once).2 id (by simp) mem
  obtain ⟨⟨⟩, stage₁, detached, placed⟩ := of_bind_ok done
  obtain ⟨e, done', out⟩ := detachOld_becomes claims next previous wf fun mem =>
    wf.body_not_mem_children q (child _ mem)
  cases detached.symm.trans done'
  obtain ⟨first, back_⟩ := detachOld_tells wf (atMost_of_children wf child) detached
  have up : e.parent? id = some q := out.wellFormed.parent_iff.mpr (by
    rw [out.children]
    refine List.mem_filter.mpr ⟨by rw [kids]; simp, ?_⟩
    exact decide_eq_true fun drops => apart (List.mem_of_mem_filter drops))
  rw [Act.bind_ask, Position.parent?, up] at placed
  exact first.trans (placeIn_tells out.wellFormed (by rwa [out.content])
    (fun x mem p up => home x mem p (back_ x p up)) placed)

/-! ## An anchor's update -/

open Document.Planted in
/-- All that the update of an anchor tells is told of the container. -/
theorem Steps.tells {claims' : Claims} {front back : List NodeId} {old new rest : List Entry} {w : ValueOf Empty}
    {d₁ d₂ : Document} (steps : Steps d d' claims claims' q id front back old new rest w d₁ d₂) (wf : WellFormed d)
    (kids : d.children q = front ++ id :: (plantsOf old).map root ++ back) (live : d.contains q = true) :
    Tells (Record.OfChildren q) d d' := by
  obtain ⟨taken, fresh, turn⟩ := steps.turn
  have laid := (Act.Hushed.layOut (itemsOf w.plain) (old.map Entry.remembered) ⟨d, claims⟩ (.refl wf)).1
  rw [left_ok steps.laid] at laid
  have wf₁ := laid.wellFormed
  have kids₁ := turn.kids_after live kids
  have child : ∀ x ∈ (plantsOf old).map root, x ∈ d₁.children q := fun x mem => by
    rw [kids₁]
    simp [mem]
  have home : AtMost d₁ q ((plantsOf new).map root) := fun x mem p up =>
    atMost_of_children wf₁ child x (turn.parents wf mem (wf₁.parent_iff.mp up)) p up
  have placed := reconcile_tells wf₁ kids₁ home
    (fun x mem => not_fragment_of_standAll turn.stand_after.1 x ((map_root_sublist _).subset mem)) steps.placed
  have loose : ∀ x ∈ (plantsOf rest).map root, ¬ Connected d₂ x := fun x mem connected => by
    have inner : x ≠ d₂.body := fun same => by
      rw [same, steps.reseated.body] at mem
      exact wf₁.body_not_mem_children q (child _ (turn.root_old.mpr (.inr mem)))
    obtain ⟨p, up, -⟩ := connected.parent inner
    rw [Up, turn.loose_rest steps.reseated wf₁ kids₁ x mem] at up
    cases up
  have freed := (Act.Hushed.discardUnclaimed loose ⟨d₂, claims'⟩ (.refl steps.reseated.wellFormed)).1
  rw [left_ok steps.freed] at freed
  exact (Tells.of_silent laid.account).trans (placed.trans (.of_silent freed.account))

end Inlay.Render
