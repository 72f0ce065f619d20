/-
# Proofs.Render.Service — an instance is shown, seen from the account

In a pass some tenants are idle, some have been used, and one may be at work.
What an idle one remembers are nodes from before the pass; what a used one shows
are nodes of its own or heads of others that were used (`Roll`). The tenant at work
goes through its plots; those behind it are settled, those before it still
remember what was (`AtWork`). Writing a slot carries this on (`AtWork.write`), and
so a whole update does (`AtWork.update`).
-/
import Inlay.Proofs.Render.Furnish
import Inlay.Proofs.Render.Turns
import Inlay.Proofs.Render.Upkeep

namespace Inlay.Render

set_option autoImplicit false

open Inlay.Document Inlay.Document.Planted

variable {base d d' e : Document} {claims claims' : Claims} {t s : Tenant} {idle used ts : List Tenant}
  {done rest before after : List Plot} {plot p : Plot} {a a' : Anchor} {x m : NodeId} {path : Path}
  {old : NodeId → Prop} {context : Value} {given pending : List (List NodeId)} {placed : List NodeId}

/-- The node is a head of one of the tenants. -/
def Heads (ts : List Tenant) (x : NodeId) : Prop := ∃ s ∈ ts, s.Head x

/-- What the anchors of plots show are nodes from before; those that live were made
there or are heads of others. -/
def Waits (old : NodeId → Prop) (d : Document) (ts : List Tenant) (t : Tenant) (plots : List Plot) : Prop :=
  ∀ p ∈ plots, ∀ a, p.slot.anchored? = some a → ∀ x ∈ a.current,
    old x ∧ (d.contains x = true → x ∈ p.roots ∨ Heads ts x ∧ x ∉ t.estate)

/-- What the anchors of plots show was made there or are heads of other used tenants. -/
def AtRest (used : List Tenant) (t : Tenant) (plots : List Plot) : Prop :=
  ∀ p ∈ plots, ∀ a, p.slot.anchored? = some a → ∀ x ∈ a.current, x ∈ p.roots ∨ Heads used x ∧ x ∉ t.estate

/-- The tenants in a pass. The nodes of used tenants are placed, or are pending. -/
structure Roll (old : NodeId → Prop) (base d : Document) (idle used ts : List Tenant)
    (pending : List (List NodeId)) (placed : List NodeId) : Prop where
  household : Household base d ts
  idle_mem : ∀ s ∈ idle, s ∈ ts
  used_mem : ∀ s ∈ used, s ∈ ts
  empty : ∀ s ∈ idle, d.children s.fragment = []
  waits : ∀ s ∈ idle, Waits old d ts s s.plots
  settled : ∀ s ∈ used, AtRest used s s.plots
  inside : ∀ s ∈ used, d.children s.fragment ⊆ s.inst.nodes
  placed_or : ∀ s ∈ used, d.children s.fragment = [] ∨ s.inst.nodes ∈ pending
  pending : ∀ nodes ∈ pending, ∀ x ∈ nodes, Heads used x
  placed : ∀ x ∈ placed, old x ∧ (d.contains x = true → Heads ts x)

namespace Roll

variable (roll : Roll old base d idle used ts pending placed)
include roll

theorem nodes_heads (mem : s ∈ used) (here : x ∈ s.inst.nodes) : Heads used x := by
  have housed := roll.household.housed s (roll.used_mem s mem)
  rcases housed.mem_nodes.mp here with top | ⟨p, memP, a, isAnchor, outer, behind⟩
  · exact ⟨s, mem, .inl top⟩
  · rcases roll.settled s mem p memP a isAnchor x behind with own | head
    · exact ⟨s, mem, .inr ⟨p, memP, a, isAnchor, outer, own⟩⟩
    · exact head.1

end Roll

namespace Roll

variable {value : Value} {pieces : List (List NodeId ⊕ Entry)} {taken fresh left : List Entry}
  (roll : Roll old base d idle used (t :: (idle ++ used)) (listed value ++ pending) placed)

/-- Nothing of the tenant at work stands in the fragment of another. -/
theorem not_in_fragment (roll : Roll old base d idle used (t :: (idle ++ used)) given placed)
    (mem : s ∈ idle ++ used) (own : x ∈ t.estate) : x ∉ d.children s.fragment := by
  intro child
  rcases List.mem_append.mp mem with isIdle | isUsed
  · rw [roll.empty s isIdle] at child
    cases child
  · obtain ⟨s', memS', head⟩ := roll.nodes_heads isUsed (roll.inside s isUsed child)
    have housed := roll.household.housed s' (roll.used_mem s' memS')
    exact roll.household.other (List.mem_append_right _ memS') (housed.head_mem head) own

include roll in
/-- The tenants after an update of an anchor of the one at work. -/
theorem upkept (able : Upkeepable base d e t (idle ++ used) plot a value claims)
    (upkept : Upkept (t :: (idle ++ used)) t plot a a' value pieces taken fresh left d d' claims claims')
    (split : t.plots = before ++ plot :: after) (path : Path)
    (back : ∀ x, old x → d'.contains x = true → d.contains x = true) :
    Roll old base d' idle used (t.replant before ⟨.anchor path a', entriesOf pieces⟩ after :: (idle ++ used))
      pending placed := by
  have house := roll.household
  have wf := house.wellFormed
  have away : ∀ s ∈ idle ++ used, d.parent? a.comment ≠ some s.fragment := fun s mem up =>
    roll.not_in_fragment mem (Tenant.mem_estate_of_ground able.ground) (wf.parent_iff.mp up)
  have shrinks : ∀ s ∈ idle ++ used, d'.children s.fragment ⊆ d.children s.fragment := fun s mem x child =>
    (upkept.mem_children wf (house.live (List.mem_cons_of_mem _ mem) Tenant.fragment_mem) child).resolve_right
      fun both => away s mem both.2
  have heads : ∀ x, Heads (t :: (idle ++ used)) x → d'.contains x = true →
      Heads (t.replant before ⟨.anchor path a', entriesOf pieces⟩ after :: (idle ++ used)) x :=
    fun x ⟨s, mem, head⟩ live => upkept.head able split path head mem live
  refine ⟨upkept.household able split path, fun s mem => List.mem_cons_of_mem _ (List.mem_append_left _ mem),
    fun s mem => List.mem_cons_of_mem _ (List.mem_append_right _ mem), fun s mem => ?_, fun s mem p memP a' isA x here => ?_,
    roll.settled, fun s mem x child => ?_, fun s mem => ?_, fun nodes mem => ?_, fun x mem => ?_⟩
  · have := shrinks s (List.mem_append_left _ mem)
    rw [roll.empty s mem] at this
    exact List.eq_nil_of_subset_nil this
  · obtain ⟨before_, where_⟩ := roll.waits s mem p memP a' isA x here
    exact ⟨before_, fun live => (where_ (back x before_ live)).imp_right fun both => ⟨heads x both.1 live, both.2⟩⟩
  · exact roll.inside s mem (shrinks s (List.mem_append_right _ mem) child)
  · rcases roll.placed_or s mem with none_ | waiting
    · left
      have := shrinks s (List.mem_append_right _ mem)
      rw [none_] at this
      exact List.eq_nil_of_subset_nil this
    · rcases List.mem_append.mp waiting with now | later
      · left
        refine List.eq_nil_iff_forall_not_mem.mpr fun x child => ?_
        have shown := upkept.given_subset now
          (roll.inside s mem (shrinks s (List.mem_append_right _ mem) child))
        exact away s (List.mem_append_right _ mem)
          ((upkept.parents x shown).symm.trans (upkept.change.wellFormed.parent_iff.mpr child))
      · exact .inr later
  · exact roll.pending nodes (List.mem_append_right _ mem)
  · obtain ⟨before_, where_⟩ := roll.placed x mem
    exact ⟨before_, fun live => heads x (where_ (back x before_ live)) live⟩

end Roll

/-! ## The tenant at work -/

/-- The templates that the value of a plot lists. -/
def Plot.wanted (context : Value) (p : Plot) : List (List NodeId) :=
  match p.slot with
  | .anchor path _ => listed (valueAt context path)
  | _ => []

/-- The number of nodes that the value of a slot takes. -/
def Slot.cost (context : Value) : Slot → Nat
  | .anchor path _ => madeCount (valueAt context path)
  | _ => 0

structure AtWork (old : NodeId → Prop) (base d : Document) (idle used : List Tenant) (t : Tenant)
    (done rest : List Plot) (context : Value) (under : List (List NodeId)) (placed : List NodeId)
    (claims : Claims) : Prop where
  roll : Roll old base d idle used (t :: (idle ++ used)) (rest.flatMap (Plot.wanted context) ++ under) placed
  split : t.plots = done ++ rest
  waits : Waits old d (t :: (idle ++ used)) t rest
  settled : AtRest used t done
  inside : ∀ x ∈ d.children t.fragment, x ∈ t.tops ∨
    ∃ p ∈ done, ∃ a, p.slot.anchored? = some a ∧ a.comment ∈ t.tops ∧ x ∈ a.current
  claimed : ∀ x ∈ claims, (∃ s ∈ used, x ∈ s.estate) ∨ ∃ p ∈ done, x ∈ p.ids
  sized : ∀ p ∈ done, p.ids.length = p.slot.cost context

namespace AtWork

variable {under : List (List NodeId)}
  (work : AtWork old base d idle used t done (p :: rest) context under placed claims)
include work

theorem mem : p ∈ t.plots := by
  rw [work.split]
  exact List.mem_append_right _ List.mem_cons_self

theorem kept : p.Kept d t := (work.roll.household.housed t List.mem_cons_self).plots p work.mem

/-- Plots are told apart by what was made there. -/
theorem not_done {q : Plot} (mem : q ∈ done) (here : x ∈ q.ids) : x ∉ p.ids := fun there => by
  have nodup := Tenant.plots_nodup (work.roll.household.estate_nodup List.mem_cons_self)
  rw [work.split, List.flatMap_append, List.flatMap_cons] at nodup
  exact (List.nodup_append.mp nodup).2.2 x (List.mem_flatMap.mpr ⟨q, mem, here⟩) x
    (List.mem_append_left _ there) rfl

theorem able (unrevived : Unrevived old d e) (isAnchor : p.slot = .anchor path a) :
    Upkeepable base d e t (idle ++ used) p a (valueAt context path) claims where
  household := work.roll.household
  mem := work.mem
  isAnchor := by rw [isAnchor]; rfl
  held := fun x mem live =>
    (work.waits p List.mem_cons_self a (by rw [isAnchor]; rfl) x mem).2 live
  unrevived := unrevived.mono fun x mem =>
    (work.waits p List.mem_cons_self a (by rw [isAnchor]; rfl) x mem).1
  given := fun nodes mem x here => by
    have wanted : nodes ∈ p.wanted context := by
      rw [Plot.wanted, isAnchor]
      exact mem
    obtain ⟨s, memS, head⟩ := work.roll.pending nodes
      (List.mem_append_left _ (List.mem_append_left _ wanted)) x here
    exact ⟨s, List.mem_append_right _ memS, head⟩
  unclaimed := fun x claim here => by
    rcases work.claimed x claim with ⟨s, memS, inS⟩ | ⟨q, memQ, inQ⟩
    · exact work.roll.household.other (List.mem_append_right _ memS) inS (Tenant.mem_estate_of_plot work.mem here)
    · exact work.not_done memQ inQ here

/-- An anchor of the tenant at work is updated. -/
theorem anchor {pieces : List (List NodeId ⊕ Entry)} {taken fresh left : List Entry} (isAnchor : p.slot = .anchor path a)
    (unrevived : Unrevived old d e)
    (upkept : Upkept (t :: (idle ++ used)) t p a a' (valueAt context path) pieces taken fresh left d d' claims claims')
    (back : ∀ x, old x → d'.contains x = true → d.contains x = true) :
    AtWork old base d' idle used (t.replant done ⟨.anchor path a', entriesOf pieces⟩ rest)
      (done ++ [⟨.anchor path a', entriesOf pieces⟩]) rest context under placed claims' := by
  have able := work.able unrevived isAnchor
  have isA : p.slot.anchored? = some a := by rw [isAnchor]; rfl
  have house := work.roll.household
  have wf := house.wellFormed
  have wanted : p.wanted context = listed (valueAt context path) := by rw [Plot.wanted, isAnchor]
  have roll := work.roll
  rw [List.flatMap_cons, List.append_assoc, wanted] at roll
  have roll' := roll.upkept able upkept work.split path back
  have comment : a'.comment = a.comment := by rw [upkept.anchor]
  have shown : ∀ x ∈ a'.current, x ∈ entryRoots (entriesOf pieces) ∨ Heads used x := fun x mem => by
    rw [upkept.anchor] at mem
    refine (mem_pieceNodes.mp mem).imp_right fun shows => ?_
    obtain ⟨nodes, memN, here⟩ := shows
    rw [templatesOf_eq upkept.shown, filterMap_itemsOf] at memN
    exact roll.pending nodes (List.mem_append_left _ memN) x here
  have others : ∀ {x}, Heads used x → x ∉ t.estate →
      Heads used x ∧ x ∉ (t.replant done ⟨.anchor path a', entriesOf pieces⟩ rest).estate := by
    rintro x ⟨s, memS, head⟩ out
    have memAll := work.roll.used_mem s memS
    have live := house.live memAll ((house.housed s memAll).head_mem head)
    exact ⟨⟨s, memS, head⟩, upkept.not_mem_estate work.split path live out⟩
  have settled : AtRest used (t.replant done ⟨.anchor path a', entriesOf pieces⟩ rest)
      (done ++ [⟨.anchor path a', entriesOf pieces⟩]) := by
    intro q mem b isB x here
    rcases List.mem_append.mp mem with old_ | new
    · exact (work.settled q old_ b isB x here).imp_right fun both => others both.1 both.2
    · cases List.mem_singleton.mp new
      cases isB
      refine (shown x here).imp_right fun heads => others heads ?_
      obtain ⟨s, memS, head⟩ := heads
      exact house.other (List.mem_append_right _ memS) ((house.housed s (work.roll.used_mem s memS)).head_mem head)
  have grow : ∀ q ∈ done, q ∈ done ++ [⟨.anchor path a', entriesOf pieces⟩] := fun q mem =>
    List.mem_append_left _ mem
  refine ⟨roll', by simp [Tenant.replant], fun q mem b isB x here => ?_, settled, fun x child => ?_, fun x claim => ?_, fun q mem => ?_⟩
  · obtain ⟨before_, where_⟩ := work.waits q (List.mem_cons_of_mem _ mem) b isB x here
    refine ⟨before_, fun live => (where_ (back x before_ live)).imp_right fun heads => ?_⟩
    obtain ⟨⟨s, memS, head⟩, out⟩ := heads
    exact ⟨upkept.head able work.split path head memS live,
      upkept.not_mem_estate work.split path (back x before_ live) out⟩
  · rcases upkept.mem_children wf (house.live List.mem_cons_self Tenant.fragment_mem) child with old_ | ⟨new, up⟩
    · exact (work.inside x old_).imp_right fun ground => ground.imp fun q both => ⟨grow q both.1, both.2⟩
    · refine .inr ⟨_, List.mem_append_right _ (List.mem_singleton_self _), a', rfl, ?_, new⟩
      rw [comment]
      by_contra inner
      obtain ⟨m, ground, there⟩ := (house.housed t List.mem_cons_self).under a.comment able.ground inner
      rw [up] at there
      cases there
      exact Tenant.ne_fragment_of_ground able.nodup ground rfl
  · rcases upkept.claims x claim with old_ | new
    · exact (work.claimed x old_).imp_right fun own => own.imp fun q both => ⟨grow q both.1, both.2⟩
    · rcases shown x new with own | ⟨s, memS, head⟩
      · exact .inr ⟨_, List.mem_append_right _ (List.mem_singleton_self _), entryRoots_subset _ own⟩
      · exact .inl ⟨s, memS, (house.housed s (work.roll.used_mem s memS)).head_mem head⟩
  · rcases List.mem_append.mp mem with old_ | new
    · exact work.sized q old_
    · cases List.mem_singleton.mp new
      exact upkept.length_ids

/-- Another slot of the tenant at work is written. -/
theorem touched (plain : p.slot.anchored? = none) (touched : Touched p.slot.node d d') :
    AtWork old base d' idle used t (done ++ [p]) rest context under placed claims := by
  have roll := work.roll
  have kept := work.kept
  have empty : p.entries = [] := kept.plain plain
  have fewer : ∀ nodes ∈ (rest.flatMap (Plot.wanted context) ++ under : List (List NodeId)),
      nodes ∈ (p :: rest).flatMap (Plot.wanted context) ++ under := fun nodes mem => by
    rw [List.flatMap_cons, List.append_assoc]
    exact List.mem_append_right _ mem
  have none_ : p.wanted context = [] := by
    unfold Plot.wanted
    cases slot : p.slot <;> first | rfl | (rw [slot] at plain; cases plain)
  refine ⟨⟨roll.household.touched List.mem_cons_self kept.node touched, roll.idle_mem, roll.used_mem, fun s mem => ?_,
    fun s mem q memQ a isA x here => ?_, roll.settled, fun s mem => ?_, fun s mem => ?_,
    fun nodes mem => roll.pending nodes (fewer nodes mem), fun x mem => ?_⟩, by simp [work.split],
    fun q mem a isA x here => ?_, fun q mem a isA x here => ?_, fun x child => ?_, fun x claim => ?_, fun q mem => ?_⟩
  · rw [touched.children]
    exact roll.empty s mem
  · rw [touched.contains]
    exact roll.waits s mem q memQ a isA x here
  · rw [touched.children]
    exact roll.inside s mem
  · rw [touched.children]
    have waiting := roll.placed_or s mem
    rwa [List.flatMap_cons, none_, List.nil_append] at waiting
  · rw [touched.contains]
    exact roll.placed x mem
  · rw [touched.contains]
    exact work.waits q (List.mem_cons_of_mem _ mem) a isA x here
  · rcases List.mem_append.mp mem with old_ | new
    · exact work.settled q old_ a isA x here
    · rw [List.mem_singleton.mp new, plain] at isA
      cases isA
  · rw [touched.children] at child
    exact (work.inside x child).imp_right fun ⟨q, mem, rest_⟩ => ⟨q, List.mem_append_left _ mem, rest_⟩
  · exact (work.claimed x claim).imp_right fun ⟨q, mem, here⟩ => ⟨q, List.mem_append_left _ mem, here⟩
  · rcases List.mem_append.mp mem with old_ | new
    · exact work.sized q old_
    · rw [List.mem_singleton.mp new, Plot.ids, Plot.grown, empty]
      cases slot : p.slot <;> first | rfl | (rw [slot] at plain; cases plain)

end AtWork

/-- A slot without an anchor writes to its node and stays as it is. -/
theorem Slot.write_plain (wf : WellFormed d) {slot slot' : Slot} (plain : slot.anchored? = none)
    (wrote : slot.write context ⟨d, claims⟩ = .ok slot' ⟨d', claims'⟩) :
    slot' = slot ∧ claims' = claims ∧ Touched slot.node d d' := by
  cases slot with
  | text node content =>
      obtain ⟨changed, stage, done, last⟩ := of_bind_ok wrote
      obtain ⟨d₁, did, rfl⟩ := Act.of_edit done
      cases last
      exact ⟨rfl, rfl, .of_setText wf did⟩
  | textareaValue holder content =>
      obtain ⟨changed, stage, done, last⟩ := of_bind_ok wrote
      obtain ⟨d₁, did, rfl⟩ := Act.of_edit done
      cases last
      exact ⟨rfl, rfl, .of_setProperty wf did⟩
  | «attribute» holder name content property =>
      obtain ⟨⟨⟩, stage, done, last⟩ := of_bind_ok wrote
      cases last
      obtain ⟨changed, stage₁, put, follows⟩ := of_bind_ok done
      have one : ∃ d₁, stage₁ = ⟨d₁, claims⟩ ∧ Touched holder d d₁ := by
        cases text : attributeText content context with
        | some value =>
            rw [text] at put
            obtain ⟨d₁, did, same⟩ := Act.of_edit put
            exact ⟨d₁, same, .of_setAttribute wf did⟩
        | none =>
            rw [text] at put
            obtain ⟨d₁, did, same⟩ := Act.of_edit put
            exact ⟨d₁, same, .of_removeAttribute wf did⟩
      obtain ⟨d₁, rfl, first⟩ := one
      cases property with
      | none =>
          cases follows
          exact ⟨rfl, rfl, first⟩
      | some property =>
          obtain ⟨changed', stage₂, wrote, last⟩ := of_bind_ok follows
          cases last
          obtain ⟨d₂, did, same⟩ := Act.of_edit wrote
          cases same
          exact ⟨rfl, rfl, first.trans (.of_setProperty first.wellFormed did)⟩
  | anchor path a => cases plain

/-- The path of the anchor of a slot. -/
def Slot.path? : Slot → Option Path
  | .anchor path _ => some path
  | _ => none

namespace AtWork

/-- The slots that are left are written. -/
theorem writeAll {under : List (List NodeId)} : ∀ {rest done : List Plot} {t : Tenant} {d : Document} {claims : Claims}
    {slots : List Slot}, AtWork old base d idle used t done rest context under placed claims →
    Slot.writeAll context (rest.map (·.slot)) ⟨d, claims⟩ = ((none, slots), ⟨d', claims'⟩) →
    Sequel d' e → Unrevived old d e →
    ∃ plots : List Plot, plots.map (·.slot) = slots ∧ slots.map Slot.unwritten = rest.map (·.slot.unwritten) ∧
      AtWork old base d' idle used { t with plots := done ++ plots } (done ++ plots) [] context under placed claims'
  | [], done, t, d, claims, slots, work, wrote, later, unrevived => by
      cases wrote
      have same : ({ t with plots := done } : Tenant) = t := by
        have := work.split
        rw [List.append_nil] at this
        rw [← this]
      refine ⟨[], rfl, rfl, ?_⟩
      rw [List.append_nil, same]
      exact work
  | p :: rest, done, t, d, claims, slots, work, wrote, later, unrevived => by
      have wf := work.roll.household.wellFormed
      cases first : p.slot.write context ⟨d, claims⟩ with
      | error fault stage => simp [Slot.writeAll, first] at wrote
      | ok slot stage =>
          obtain ⟨d₁, claims₁⟩ := stage
          rw [List.map_cons, Slot.writeAll, first] at wrote
          have sequel : Sequel d d₁ := by
            have := p.slot.steady_write context ⟨d, claims⟩ wf
            rwa [left_ok first] at this
          have wf₁ : WellFormed (⟨d₁, claims₁⟩ : Stage).document := sequel.wellFormed
          have sequel₁ := Slot.sequel_writeAll context (rest.map (·.slot)) wf₁
          rcases result : Slot.writeAll context (rest.map (·.slot)) ⟨d₁, claims₁⟩ with ⟨⟨fault, others⟩, stage₂⟩
          rw [result] at sequel₁
          simp only [result] at wrote
          cases wrote
          have later₁ := sequel₁.trans later
          cases isAnchor : p.slot.anchored? with
          | none =>
              obtain ⟨rfl, rfl, touched⟩ := Slot.write_plain wf isAnchor first
              obtain ⟨plots, slots_, same, finished⟩ :=
                writeAll (work.touched isAnchor touched) result later (unrevived.later sequel)
              refine ⟨p :: plots, by rw [List.map_cons, slots_], by rw [List.map_cons, List.map_cons, same], ?_⟩
              rw [List.append_assoc] at finished
              exact finished
          | some a =>
              obtain ⟨path, slot_⟩ := Slot.exists_path isAnchor
              rw [slot_] at first
              obtain ⟨a', stage, updated, last⟩ := of_bind_ok first
              cases last
              obtain ⟨pieces, taken, fresh, left, upkept⟩ := (work.able unrevived slot_).upkept updated later₁
              have next := work.anchor slot_ unrevived upkept fun _ => unrevived.back wf sequel later₁
              obtain ⟨plots, slots_, same, finished⟩ := writeAll next result later (unrevived.later sequel)
              refine ⟨⟨.anchor path a', entriesOf pieces⟩ :: plots, by rw [List.map_cons, slots_], ?_, ?_⟩
              · rw [List.map_cons, List.map_cons, same, slot_, upkept.anchor]
                rfl
              · rw [List.append_assoc] at finished
                exact finished

end AtWork

end Inlay.Render
