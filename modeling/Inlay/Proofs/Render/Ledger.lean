/-
# Proofs.Render.Ledger — the pools of a pass, seen from the account

The pools of a renderer are its tenants, by name (`Ledger`): of every name the
first ones have been used in the pass, and the others are idle. A turn takes the
next tenant of its name, or a new one, and leaves it among the used ones
(`Ledger.turn`); so a list of turns does, if every turn reaches the templates of
its context (`Ledger.plays`).
-/
import Inlay.Proofs.Data.Sorted
import Inlay.Proofs.Render.Lease

namespace Inlay.Render

set_option autoImplicit false

open Inlay.Document Inlay.Document.Planted Inlay.Markup
open Inlay.Template hiding root

variable {base d d' e : Document} {claims claims' : Claims} {t : Tenant} {x : NodeId} {old : NodeId → Prop}
  {context : Value} {pile under : List (List NodeId)} {placed nodes : List NodeId} {template : Template}
  {library : Library} {selection : Option String} {prototype : Prototype} {pass pass' : Pass} {key : String}
  {taken taken' : String → Nat} {stock : Fields (List Tenant)} {total : Nat}

/-! ## Showing the next selection -/

/-- How many instances of a name the pass has used. -/
def Pass.count (pass : Pass) (name : String) : Nat := (pass.used.get? name).getD 0

/-- The instance that a turn shows, and the pass in which it does. -/
inductive Called (prototype : Prototype) (key : String) (pass : Pass) :
    List Instance → Instance → Stage → Prop
  | again {inst : Instance} :
      ((pass.pools.get? key).getD [])[pass.count key]? = some inst →
      Called prototype key pass ((pass.pools.get? key).getD []) inst pass.stage
  | anew {inst : Instance} {stage : Stage} :
      ((pass.pools.get? key).getD [])[pass.count key]? = none →
      Instance.ofPrototype prototype pass.stage = .ok inst stage →
      Called prototype key pass ((pass.pools.get? key).getD [] ++ [inst]) inst stage

theorem Called.sequel {instances : List Instance} {inst : Instance} {stage : Stage}
    (called : Called prototype key pass instances inst stage) (wf : WellFormed pass.stage.document) :
    Sequel pass.stage.document stage.document := by
  cases called with
  | again found => exact .refl wf
  | anew found made =>
      have := Instance.steady_ofPrototype prototype pass.stage wf
      rwa [left_ok made] at this

/-- The parts of a turn that answers. -/
theorem of_showNext (shown : Passing.showNext template selection context pass = .ok nodes pass') :
    ∃ prototype instances inst stage inst' stage', template.prototype? selection = some prototype ∧
      Called prototype (selection.getD rootName) pass instances inst stage ∧
      inst.update context stage = ((none, inst'), stage') ∧ nodes = inst'.nodes ∧
      pass' = ⟨stage', pass.pools.put (selection.getD rootName)
          (instances.set (pass.count (selection.getD rootName)) inst'),
        pass.used.put (selection.getD rootName) (pass.count (selection.getD rootName) + 1)⟩ := by
  rw [Passing.showNext] at shown
  generalize selection.getD rootName = key at shown ⊢
  obtain ⟨ordinal, pass₀, next, shown⟩ := of_bind_ok shown
  cases next
  cases known : template.prototype? selection with
  | none =>
      simp only [selected, known, throw, throwThe, MonadExceptOf.throw] at shown
      cases shown
  | some prototype =>
      simp only [selected, known] at shown
      obtain ⟨inst, pass₁, called, updated⟩ := of_bind_ok shown
      change Passing.instanceAt prototype key (pass.count key)
        { pass with used := pass.used.put key (pass.count key + 1) } = .ok inst pass₁ at called
      rw [Passing.instanceAt] at called
      obtain ⟨instances_, pass₀, fetched, called⟩ := of_bind_ok called
      cases fetched
      obtain ⟨instances, stage, here, at_, rest⟩ : ∃ instances stage, Called prototype key pass instances inst stage ∧
          pass₁.stage = stage ∧ (∀ v, pass₁.pools.put key v = pass.pools.put key v) ∧
          (pass₁.pools.get? key).getD [] = instances ∧ pass₁.used = pass.used.put key (pass.count key + 1) := by
        cases found : ((pass.pools.get? key).getD [])[pass.count key]? with
        | some inst₀ =>
            simp only [found] at called
            cases called
            exact ⟨_, _, .again found, rfl, fun _ => rfl, rfl, rfl⟩
        | none =>
            simp only [found] at called
            obtain ⟨inst₀, pass₂, acted, called⟩ := of_bind_ok called
            cases made : Instance.ofPrototype prototype pass.stage with
            | error fault stage => simp [Passing.act, made] at acted
            | ok inst₁ stage =>
                simp only [Passing.act, made] at acted
                cases acted
                cases called
                exact ⟨_, _, .anew found made, rfl, fun v => Fields.put_put v _, by simp [Fields.get?_put], rfl⟩
      obtain ⟨puts, pool, used⟩ := rest
      rcases result : inst.update context pass₁.stage with ⟨⟨fault, inst'⟩, stage'⟩
      rw [Passing.updateAt] at updated
      simp only [result] at updated
      cases fault with
      | some fault => cases updated
      | none =>
          cases updated
          refine ⟨prototype, instances, inst, stage, inst', stage', rfl, here, at_ ▸ result, rfl, ?_⟩
          rw [pool, puts, used]
          rfl

/-! ## The stock -/

/-- The tenants that were not used. -/
def idleOf (taken : String → Nat) (stock : Fields (List Tenant)) : List Tenant :=
  stock.flatMap fun entry => entry.2.drop (taken entry.1)

/-- The tenants that were used. -/
def usedOf (taken : String → Nat) (stock : Fields (List Tenant)) : List Tenant :=
  stock.flatMap fun entry => entry.2.take (taken entry.1)

/-- The stock seen from one name: what is kept of the others, and the tenants of the name. -/
structure Shelf (taken : String → Nat) (stock : Fields (List Tenant)) (key : String)
    (idleFront usedFront idleBack usedBack : List Tenant) : Prop where
  idle : idleOf taken stock = idleFront ++ (((stock.get? key).getD []).drop (taken key) ++ idleBack)
  used : usedOf taken stock = usedFront ++ (((stock.get? key).getD []).take (taken key) ++ usedBack)
  idle_put : ∀ (taken' : String → Nat) (tenants : List Tenant), (∀ other, other ≠ key → taken' other = taken other) →
    idleOf taken' (stock.put key tenants) = idleFront ++ (tenants.drop (taken' key) ++ idleBack)
  used_put : ∀ (taken' : String → Nat) (tenants : List Tenant), (∀ other, other ≠ key → taken' other = taken other) →
    usedOf taken' (stock.put key tenants) = usedFront ++ (tenants.take (taken' key) ++ usedBack)

theorem exists_shelf (sorted : stock.Sorted) (taken : String → Nat) (key : String) :
    ∃ idleFront usedFront idleBack usedBack, Shelf taken stock key idleFront usedFront idleBack usedBack := by
  have idles : ∀ {part : Fields (List Tenant)} {taken' : String → Nat}, (∀ entry ∈ part, entry.1 ≠ key) →
      (∀ other, other ≠ key → taken' other = taken other) → idleOf taken' part = idleOf taken part :=
    fun others same => List.flatMap_congr fun entry mem => by rw [same entry.1 (others entry mem)]
  have useds : ∀ {part : Fields (List Tenant)} {taken' : String → Nat}, (∀ entry ∈ part, entry.1 ≠ key) →
      (∀ other, other ≠ key → taken' other = taken other) → usedOf taken' part = usedOf taken part :=
    fun others same => List.flatMap_congr fun entry mem => by rw [same entry.1 (others entry mem)]
  obtain ⟨front, back, middle, split, put_, notFront, notBack⟩ : ∃ (front back middle : Fields (List Tenant)),
      stock = front ++ middle ++ back ∧ (∀ value, stock.put key value = front ++ (key, value) :: back) ∧
        (∀ entry ∈ front, entry.1 ≠ key) ∧ (∀ entry ∈ back, entry.1 ≠ key) ∧
        middle = ((stock.get? key).map fun tenants => (key, tenants)).toList := by
    cases found : stock.get? key with
    | some tenants =>
        obtain ⟨front, back, split, put_, notFront, notBack⟩ := Fields.put_of_get? sorted found
        exact ⟨front, back, [(key, tenants)], by simpa using split, put_, notFront, notBack, rfl⟩
    | none =>
        obtain ⟨front, back, split, put_, absent⟩ := Fields.put_of_none found
        refine ⟨front, back, [], by simpa using split, put_, fun entry mem => absent entry ?_,
          fun entry mem => absent entry ?_, rfl⟩
        · rw [split]
          exact List.mem_append_left _ mem
        · rw [split]
          exact List.mem_append_right _ mem
  obtain ⟨notBack, middle_⟩ := notBack
  have pieces : ∀ f : List Tenant → List Tenant, f [] = [] →
      middle.flatMap (fun entry => f entry.2) = f ((stock.get? key).getD []) := fun f none_ => by
    rw [middle_]
    cases stock.get? key <;> simp [none_]
  have named : ∀ entry ∈ middle, entry.1 = key := by
    rw [middle_]
    cases stock.get? key <;> simp
  refine ⟨idleOf taken front, usedOf taken front, idleOf taken back, usedOf taken back, ?_, ?_,
    fun taken' tenants same => ?_, fun taken' tenants same => ?_⟩
  · have inner := pieces (·.drop (taken key)) (by simp)
    rw [← inner, idleOf, split, List.flatMap_append, List.flatMap_append, List.append_assoc]
    congr 2
    exact List.flatMap_congr fun entry mem => by rw [named entry mem]
  · have inner := pieces (·.take (taken key)) (by simp)
    rw [← inner, usedOf, split, List.flatMap_append, List.flatMap_append, List.append_assoc]
    congr 2
    exact List.flatMap_congr fun entry mem => by rw [named entry mem]
  · rw [put_, idleOf, List.flatMap_append, List.flatMap_cons]
    exact congrArg₂ _ (idles notFront same) (congrArg _ (idles notBack same))
  · rw [put_, usedOf, List.flatMap_append, List.flatMap_cons]
    exact congrArg₂ _ (useds notFront same) (congrArg _ (useds notBack same))

/-! ## The ledger -/

/-- The tenant is an instance of what its name selects. -/
def Tenant.Enrolled (template : Template) (library : Library) (key : String) (t : Tenant) : Prop :=
  ∃ selection prototype, template.prototype? selection = some prototype ∧ selection.getD rootName = key ∧
    t.Fits (library selection)

/-- Where a pass stands: its pools are those of the stock, the first of every name are
the used ones, and `total` is the size of their estates. -/
structure Ledger (template : Template) (library : Library) (old : NodeId → Prop) (base : Document) (pass : Pass)
    (stock : Fields (List Tenant)) (pile : List (List NodeId)) (placed : List NodeId) (total : Nat) : Prop where
  sorted : stock.Sorted
  pools : pass.pools = stock.mapValues (·.map Tenant.inst)
  counts : ∀ key, pass.count key ≤ ((stock.get? key).getD []).length
  enrolled : ∀ entry ∈ stock, ∀ t ∈ entry.2, t.Enrolled template library entry.1
  roll : Roll old base pass.stage.document (idleOf pass.count stock) (usedOf pass.count stock)
    (idleOf pass.count stock ++ usedOf pass.count stock) pile placed
  claimed : ∀ x ∈ pass.stage.claims, ∃ s ∈ usedOf pass.count stock, x ∈ s.estate
  total : ((usedOf pass.count stock).map (·.estate.length)).sum = total

/-- Selections of one name are the same: no definition has the name of the root. -/
theorem selection_unique {first second : Option String} {one two : Prototype}
    (unnamed : template.prototype? (some rootName) = none) (known : template.prototype? first = some one)
    (known' : template.prototype? second = some two) (same : first.getD rootName = second.getD rootName) :
    first = second := by
  cases first with
  | none =>
      cases second with
      | none => rfl
      | some name =>
          cases (show rootName = name from same)
          rw [unnamed] at known'
          cases known'
  | some name =>
      cases second with
      | none =>
          cases (show name = rootName from same)
          rw [unnamed] at known
          cases known
      | some other => exact congrArg some same

/-- The tenant that a turn takes: one of the pool, or a new one behind it. -/
structure Taken (old : NodeId → Prop) (base d : Document) (used known tenants : List Tenant) (ordinal : Nat)
    (t : Tenant) (idle : List Tenant) (content : List Tree) (pile : List (List NodeId)) (placed : List NodeId) :
    Prop where
  at_ : tenants[ordinal]? = some t
  front : tenants.take ordinal = known.take ordinal
  others : ∀ s ∈ tenants, s ∈ known ∨ s = t
  fits : t.Fits content
  roll : Roll old base d idle used (t :: (idle ++ used)) pile placed
  waits : Waits old d (t :: (idle ++ used)) t t.plots
  inside : d.children t.fragment ⊆ t.tops

/-- Where the tenant of a turn comes from: it was an idle one, or it is new. -/
inductive Fetched (d : Document) (idle rest : List Tenant) (content : List Tree) : Document → Tenant → Prop
  | again {t : Tenant} : idle.Perm (t :: rest) → Fetched d idle rest content d t
  | anew {d' : Document} {fragment : NodeId} {rs : List Planted} : Potted d d' fragment (clearedPlants rs) →
      trees rs = content → idle = rest → Fetched d idle rest content d' (.sown fragment rs)

namespace Ledger

variable (ledger : Ledger template library old base pass stock pile placed total)
include ledger

/-- What a turn takes from the pools. -/
theorem takes (unnamed : template.prototype? (some rootName) = none) (compiled : Compiled template library)
    {instances : List Instance} {inst : Instance} {stage : Stage} {idleFront usedFront idleBack usedBack : List Tenant}
    (known : template.prototype? selection = some prototype) (named : selection.getD rootName = key)
    (called : Called prototype key pass instances inst stage)
    (shelf : Shelf pass.count stock key idleFront usedFront idleBack usedBack)
    (later : Sequel stage.document e) (unrevived : Unrevived old pass.stage.document e) :
    ∃ tenants t, instances = tenants.map Tenant.inst ∧ inst = t.inst ∧ stage.claims = pass.stage.claims ∧
      Taken old base stage.document (usedOf pass.count stock) ((stock.get? key).getD []) tenants (pass.count key) t
        (idleFront ++ (tenants.drop (pass.count key + 1) ++ idleBack)) (library selection) pile placed ∧
      Fetched pass.stage.document (idleOf pass.count stock)
        (idleFront ++ (tenants.drop (pass.count key + 1) ++ idleBack)) (library selection) stage.document t := by
  have pool : (pass.pools.get? key).getD [] = ((stock.get? key).getD []).map Tenant.inst := by
    rw [ledger.pools, Fields.get?_mapValues]
    cases stock.get? key <;> rfl
  have short := ledger.counts key
  cases called with
  | again found =>
      rw [pool, List.getElem?_map] at found
      obtain ⟨t, at_, rfl⟩ := Option.map_eq_some_iff.mp found
      obtain ⟨tenants, shelved⟩ : ∃ tenants, stock.get? key = some tenants := by
        cases here : stock.get? key with
        | none =>
            rw [here] at at_
            cases at_
        | some tenants => exact ⟨tenants, rfl⟩
      have split : ((stock.get? key).getD []).drop (pass.count key) =
          t :: ((stock.get? key).getD []).drop (pass.count key + 1) := by
        obtain ⟨inside, here⟩ := List.getElem?_eq_some_iff.mp at_
        rw [List.drop_eq_getElem_cons inside, here]
      have perm : (idleOf pass.count stock).Perm
          (t :: (idleFront ++ (((stock.get? key).getD []).drop (pass.count key + 1) ++ idleBack))) := by
        rw [shelf.idle, split]
        exact List.perm_middle
      have mem : t ∈ idleOf pass.count stock := perm.mem_iff.mpr List.mem_cons_self
      obtain ⟨selection', prototype', known', named', fits⟩ :=
        ledger.enrolled (key, tenants) (Fields.mem_of_get? shelved) t (by
          rw [shelved] at at_
          exact List.mem_of_getElem? at_)
      cases selection_unique unnamed known' known (named'.trans named.symm)
      have roll := ledger.roll.perm (perm.append_right _)
        (fun s mem => perm.mem_iff.mpr (List.mem_cons_of_mem _ mem)) fun _ => .rfl
      refine ⟨(stock.get? key).getD [], t, pool, rfl, rfl,
        ⟨at_, rfl, fun s mem => .inl mem, fits, roll, ?_, ?_⟩, .again perm⟩
      · intro p memP a isA x here
        refine (ledger.roll.waits t mem p memP a isA x here).imp_right fun where_ live => ?_
        exact (where_ live).imp_right fun both =>
          ⟨both.1.mono fun s => (perm.append_right _).mem_iff.mp, both.2⟩
      · rw [ledger.roll.empty t mem]
        exact List.nil_subset _
  | anew found made =>
      rw [pool, List.getElem?_map] at found
      have long : ((stock.get? key).getD []).length ≤ pass.count key := by
        simpa using found
      have exact_ : pass.count key = ((stock.get? key).getD []).length := Nat.le_antisymm short long
      obtain ⟨fragment, rs, d₁, made', source, potted⟩ :=
        ofPrototype_ok ledger.roll.household.wellFormed pass.stage.claims (compiled.of_selection known)
      cases made.symm.trans made'
      have none_ : ((stock.get? key).getD []).drop (pass.count key) = [] := List.drop_eq_nil_of_le long
      have idle : idleOf pass.count stock =
          idleFront ++ ((((stock.get? key).getD []) ++ [Tenant.sown fragment rs]).drop (pass.count key + 1) ++ idleBack) := by
        rw [shelf.idle, none_, List.drop_eq_nil_of_le (by simp [exact_])]
      have back : ∀ x, old x → d₁.contains x = true → pass.stage.document.contains x = true := fun x before_ live => by
        by_contra dead
        rw [unrevived _ d₁ (.refl ledger.roll.household.wellFormed) ⟨potted.wellFormed, potted.aged⟩ later x before_
          (by simpa using dead)] at live
        cases live
      refine ⟨((stock.get? key).getD []) ++ [.sown fragment rs], .sown fragment rs, ?_, Tenant.inst_sown.symm, rfl, ?_⟩
      · rw [List.map_append, ← pool, List.map_singleton, Tenant.inst_sown]
      rw [← idle]
      refine ⟨⟨?_, ?_, fun s mem => (List.mem_append.mp mem).imp_right List.mem_singleton.mp, source ▸ Tenant.fits_sown,
        ledger.roll.sow potted back, ?_, ?_⟩, .anew potted source rfl⟩
      · rw [exact_]
        simp
      · rw [exact_]
        simp
      · intro p mem a isA x here
        obtain ⟨slot, there, rfl⟩ := List.mem_map.mp mem
        obtain ⟨path, rfl⟩ := Slot.exists_path isA
        have new : a = .new a.comment := (anchorsOf_slotsAll none rs).2.2 (path, a) (mem_anchorsOf.mpr there)
        rw [new] at here
        cases here
      · show d₁.children fragment ⊆ rs.map root
        rw [potted.kids, map_root_clearedPlants]
        exact List.Subset.refl _

end Ledger

/-- An instance is updated by the tenant that takes the turn. -/
theorem Taken.update {used known tenants idle : List Tenant} {ordinal : Nat} {content : List Tree}
    {inst : Instance} (taken : Taken old base d used known tenants ordinal t idle content (under ++ leaves context) placed)
    (claimed : ∀ x ∈ claims, ∃ s ∈ used, x ∈ s.estate) (reaches : leaves context ⊆ reached content context)
    (updated : t.inst.update context ⟨d, claims⟩ = ((none, inst), ⟨d', claims'⟩)) (later : Sequel d' e)
    (unrevived : Unrevived old d e) :
    ∃ t' : Tenant, t'.inst = inst ∧ t'.Fits content ∧ t'.estate.length = weight content context ∧
      Roll old base d' idle (used ++ [t']) (t' :: (idle ++ used)) (under ++ [inst.nodes]) placed ∧
      ∀ x ∈ claims', ∃ s ∈ used ++ [t'], x ∈ s.estate := by
  have start : AtWork old base d idle used t [] t.plots context under placed claims :=
    .start taken.roll taken.waits taken.inside claimed (by rw [taken.fits.wanted_eq]; exact reaches)
  rw [Instance.update] at updated
  rcases wrote : Slot.writeAll context t.inst.slots ⟨d, claims⟩ with ⟨⟨fault, slots⟩, stage⟩
  rw [wrote] at updated
  cases updated
  obtain ⟨plots, slots_, same, work⟩ := start.writeAll wrote later unrevived
  rw [List.nil_append] at work
  obtain ⟨roll, claimed'⟩ := work.finish
  have fits : ({ t with plots := plots } : Tenant).Fits content := by
    refine ⟨taken.fits.source, ?_⟩
    rw [← taken.fits.slots, ← same, ← slots_, List.map_map]
    rfl
  refine ⟨_, ?_, fits, fits.length_estate work.sized, ?_, claimed'⟩
  · rw [Tenant.inst, slots_]
    rfl
  · rw [Tenant.inst, slots_] at roll
    exact roll

/-- The pass after a turn: the instance is back in its pool, and counted. -/
def Pass.turned (pass : Pass) (key : String) (instances : List Instance) (inst : Instance) (stage : Stage) : Pass :=
  ⟨stage, pass.pools.put key (instances.set (pass.count key) inst), pass.used.put key (pass.count key + 1)⟩

theorem Pass.count_turned {instances : List Instance} {inst : Instance} {stage : Stage} (other : String) :
    (pass.turned key instances inst stage).count other =
      if other = key then pass.count key + 1 else pass.count other := by
  show ((pass.used.put key (pass.count key + 1)).get? other).getD 0 = _
  rw [Fields.get?_put]
  split <;> rfl

namespace Ledger

variable (ledger : Ledger template library old base pass stock (under ++ leaves context) placed total)
include ledger

/-- The tenant that took a turn is entered among the used ones. -/
theorem settle {tenants : List Tenant} {t t' : Tenant} {idleFront usedFront idleBack usedBack : List Tenant}
    (known : template.prototype? selection = some prototype) (named : selection.getD rootName = key)
    (shelf : Shelf pass.count stock key idleFront usedFront idleBack usedBack)
    (taken : Taken old base d (usedOf pass.count stock) ((stock.get? key).getD []) tenants (pass.count key) t
      (idleFront ++ (tenants.drop (pass.count key + 1) ++ idleBack)) (library selection) (under ++ leaves context) placed)
    (fits : t'.Fits (library selection)) (size : t'.estate.length = weight (library selection) context)
    (roll : Roll old base d' (idleFront ++ (tenants.drop (pass.count key + 1) ++ idleBack))
      (usedOf pass.count stock ++ [t'])
      (t' :: ((idleFront ++ (tenants.drop (pass.count key + 1) ++ idleBack)) ++ usedOf pass.count stock))
      (under ++ [t'.inst.nodes]) placed)
    (claimed : ∀ x ∈ claims', ∃ s ∈ usedOf pass.count stock ++ [t'], x ∈ s.estate) :
    Ledger template library old base (pass.turned key (tenants.map Tenant.inst) t'.inst ⟨d', claims'⟩)
        (stock.put key (tenants.set (pass.count key) t')) (under ++ [t'.inst.nodes]) placed
        (total + weight (library selection) context) ∧
      idleOf (pass.turned key (tenants.map Tenant.inst) t'.inst ⟨d', claims'⟩).count
        (stock.put key (tenants.set (pass.count key) t')) =
          idleFront ++ (tenants.drop (pass.count key + 1) ++ idleBack) ∧
      (usedOf (pass.turned key (tenants.map Tenant.inst) t'.inst ⟨d', claims'⟩).count
        (stock.put key (tenants.set (pass.count key) t'))).Perm (usedOf pass.count stock ++ [t']) := by
  have inside : pass.count key < tenants.length := (List.getElem?_eq_some_iff.mp taken.at_).1
  have count : ∀ other, (pass.turned key (tenants.map Tenant.inst) t'.inst ⟨d', claims'⟩).count other =
      if other = key then pass.count key + 1 else pass.count other := Pass.count_turned
  have here := (count key).trans (if_pos rfl)
  have elsewhere := fun other (ne : other ≠ key) => (count other).trans (if_neg ne)
  have idle : idleOf (pass.turned key (tenants.map Tenant.inst) t'.inst ⟨d', claims'⟩).count
      (stock.put key (tenants.set (pass.count key) t')) =
        idleFront ++ (tenants.drop (pass.count key + 1) ++ idleBack) := by
    rw [shelf.idle_put _ _ elsewhere, here, List.drop_set, if_pos (Nat.lt_succ_self _)]
  have used : (usedOf (pass.turned key (tenants.map Tenant.inst) t'.inst ⟨d', claims'⟩).count
      (stock.put key (tenants.set (pass.count key) t'))).Perm (usedOf pass.count stock ++ [t']) := by
    have taken_ : (tenants.set (pass.count key) t').take (pass.count key + 1) =
        ((stock.get? key).getD []).take (pass.count key) ++ [t'] := by
      rw [List.take_succ_eq_append_getElem (by simpa using inside), List.take_set_of_le (Nat.le_refl _), taken.front]
      simp
    rw [shelf.used_put _ _ elsewhere, here, taken_, shelf.used, List.append_assoc, List.append_assoc, List.append_assoc]
    exact (List.perm_append_comm.append_left _).append_left _
  refine ⟨⟨Fields.sorted_put ledger.sorted, ?_, fun other => ?_, fun entry mem s memS => ?_, ?_, fun x claim => ?_, ?_⟩,
    idle, used⟩
  · show pass.pools.put key _ = _
    rw [Fields.mapValues_put, ← ledger.pools, List.map_set]
  · rw [count, Fields.get?_put]
    split
    · simpa using inside
    · exact ledger.counts other
  · have enrolled : ∀ s ∈ ((stock.get? key).getD []), s.Enrolled template library key := fun s mem => by
      cases found : stock.get? key with
      | none =>
          rw [found] at mem
          cases mem
      | some list =>
          rw [found] at mem
          exact ledger.enrolled _ (Fields.mem_of_get? found) s mem
    have itself : ∀ s : Tenant, s.Fits (library selection) → s.Enrolled template library key := fun s fits =>
      ⟨selection, prototype, known, named, fits⟩
    rcases Fields.mem_put mem with rfl | before
    · rcases List.mem_or_eq_of_mem_set memS with kept | rfl
      · rcases taken.others s kept with known_ | rfl
        · exact enrolled s known_
        · exact itself s taken.fits
      · exact itself s fits
    · exact ledger.enrolled entry before s memS
  · rw [idle]
    refine roll.perm ?_ (fun _ => id) fun s => used.mem_iff.symm
    refine (List.Perm.append_left _ used).trans ?_ |>.symm
    rw [← List.append_assoc]
    exact List.perm_append_singleton _ _
  · obtain ⟨s, mem, inS⟩ := claimed x claim
    exact ⟨s, used.mem_iff.mpr mem, inS⟩
  · rw [(used.map _).sum_eq, List.map_append, List.sum_append, ledger.total]
    simp [size]

/-- A turn that reaches the templates of its context leaves the ledger in order. -/
theorem turn (unnamed : template.prototype? (some rootName) = none) (compiled : Compiled template library)
    (shown : Passing.showNext template selection context pass = .ok nodes pass')
    (reaches : leaves context ⊆ reached (library selection) context) (later : Sequel pass'.stage.document e)
    (unrevived : Unrevived old pass.stage.document e) :
    ∃ stock', Ledger template library old base pass' stock' (under ++ [nodes]) placed
      (total + weight (library selection) context) := by
  obtain ⟨prototype, instances, inst, stage, inst', ⟨d', claims'⟩, known, called, updated, rfl, rfl⟩ := of_showNext shown
  have first := called.sequel ledger.roll.household.wellFormed
  obtain ⟨d, claims⟩ := stage
  obtain ⟨idleFront, usedFront, idleBack, usedBack, shelf⟩ :=
    exists_shelf ledger.sorted pass.count (selection.getD rootName)
  have second : Sequel d d' := by
    have wf : WellFormed (⟨d, claims⟩ : Stage).document := first.wellFormed
    have := Slot.sequel_writeAll context inst.slots wf
    rw [Instance.update] at updated
    rcases wrote : Slot.writeAll context inst.slots ⟨d, claims⟩ with ⟨⟨fault, slots⟩, stage⟩
    rw [wrote] at updated this
    cases updated
    exact this
  obtain ⟨tenants, t, rfl, rfl, same, taken, -⟩ :=
    ledger.takes unnamed compiled known rfl called shelf (second.trans later) unrevived
  cases (show claims = pass.stage.claims from same)
  obtain ⟨t', rfl, fits, size, roll, claimed⟩ :=
    taken.update ledger.claimed reaches updated later (unrevived.later first)
  exact ⟨_, (ledger.settle known rfl shelf taken fits size roll claimed).1⟩

end Ledger

/-! ## All turns of a pass -/

/-- The turn reaches the templates of its context. -/
def Turn.Reaches (library : Library) (turn : Turn) : Prop :=
  leaves turn.context ⊆ reached (library turn.selection) turn.context

/-- The number of nodes a turn takes. -/
def Turn.weight (library : Library) (turn : Turn) : Nat := Render.weight (library turn.selection) turn.context

theorem Plays.sequel : ∀ {turns : List Turn} {pass : Pass} {pile pile' : List (List NodeId)},
    WellFormed pass.stage.document → Plays template turns pass pile pass' pile' →
    Sequel pass.stage.document pass'.stage.document
  | [], _, _, _, wf, ⟨rfl, _⟩ => .refl wf
  | turn :: _, pass, _, _, wf, ⟨pass₁, _, _, shown, plays⟩ => by
      have first := Passing.steady_showNext template turn.selection turn.context pass wf
      rw [left_ok shown] at first
      exact first.trans (plays.sequel first.wellFormed)

/-- A list of turns leaves the ledger in order. -/
theorem Ledger.plays (unnamed : template.prototype? (some rootName) = none) (compiled : Compiled template library) :
    ∀ {turns : List Turn} {pass : Pass} {stock : Fields (List Tenant)} {pile pile' : List (List NodeId)} {total : Nat},
    Ledger template library old base pass stock pile placed total →
    Plays template turns pass pile pass' pile' → (∀ turn ∈ turns, turn.Reaches library) →
    Sequel pass'.stage.document e → Unrevived old pass.stage.document e →
    ∃ stock', Ledger template library old base pass' stock' pile' placed
      (total + (turns.map (Turn.weight library)).sum)
  | [], _, stock, _, _, _, ledger, ⟨rfl, rfl⟩, _, _, _ => ⟨stock, ledger⟩
  | turn :: rest, pass, _, _, _, total, ledger, played, reach, later, unrevived => by
      obtain ⟨pass₁, under, rfl, shown, plays⟩ := played
      obtain ⟨here, others⟩ := List.forall_mem_cons.mp reach
      have first := Passing.steady_showNext template turn.selection turn.context pass ledger.roll.household.wellFormed
      rw [left_ok shown] at first
      have second := plays.sequel first.wellFormed
      obtain ⟨stock₁, ledger₁⟩ := ledger.turn unnamed compiled shown here (second.trans later) unrevived
      obtain ⟨stock₂, ledger₂⟩ := ledger₁.plays unnamed compiled plays others later (unrevived.later first)
      refine ⟨stock₂, ?_⟩
      rw [List.map_cons, List.sum_cons, ← Nat.add_assoc]
      exact ledger₂

/-! ## What the data say -/

/-- Every template of the fields is reached. -/
def Wholly (library : Library) (selection : Option String) (fields : Fields Datum) : Prop :=
  List.range' 0 (templateCountOfFields fields) ⊆ reachedNumbers (library selection) fields

/-- The number of nodes that showing fields takes, below the selections in them. -/
def sourceWeight (library : Library) (source : Option String × Fields Datum) : Nat :=
  1 + nodeCountAll (library source.1) +
    ((anchors (library source.1)).map fun path =>
      madeCount (valueAt (.map (outlineOfFields 0 source.2)) path)).sum

namespace Turn.Tells

variable {turn : Turn} {source : Option String × Fields Datum} (tells : turn.Tells source)
include tells

theorem reaches (wholly : Wholly library source.1 source.2) : turn.Reaches library := by
  obtain ⟨same, f, context⟩ := tells
  rw [Turn.Reaches, same, context, leaves_relabel, reached_relabel]
  refine List.map_subset f ?_
  show leavesOfFields (outlineOfFields 0 source.2) ⊆ _
  rw [leavesOfFields_outline]
  exact wholly

theorem weight_eq : turn.weight library = sourceWeight library source := by
  obtain ⟨same, f, context⟩ := tells
  rw [Turn.weight, Render.weight, sourceWeight, same, context]
  simp only [valueAt_relabel, madeCount_relabel]

end Turn.Tells

theorem sum_weight {sources : List (Option String × Fields Datum)} {turns : List Turn}
    (told : List.Forall₂ (fun source turn => turn.Tells source) sources turns) :
    (turns.map (Turn.weight library)).sum = (sources.map (sourceWeight library)).sum := by
  induction told with
  | nil => rfl
  | cons tells _ ih => rw [List.map_cons, List.map_cons, List.sum_cons, List.sum_cons, ih, tells.weight_eq]

theorem reaches_of_told {sources : List (Option String × Fields Datum)} {turns : List Turn}
    (told : List.Forall₂ (fun source turn => turn.Tells source) sources turns)
    (wholly : ∀ s ∈ sources, Wholly library s.1 s.2) : ∀ turn ∈ turns, turn.Reaches library := by
  induction told with
  | nil => nofun
  | cons tells _ ih =>
      obtain ⟨first, later⟩ := List.forall_mem_cons.mp wholly
      exact List.forall_mem_cons.mpr ⟨tells.reaches first, ih later⟩

end Inlay.Render
