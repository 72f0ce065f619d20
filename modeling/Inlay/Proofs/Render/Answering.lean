/-
# Proofs.Render.Answering — a pass that is not refused

When nothing is in the way a turn answers (`Firm.turn`), and the turns of any data do
whose templates are all defined and reached (`answers_resolve`). What they answer is
what the data say: the nodes of every selection are those of the trees that the
selection expands to, as far as the slots of its instance tell (`Voiced`).
-/
import Inlay.Proofs.Render.FirstPass
import Inlay.Proofs.Render.Ledger
import Inlay.Proofs.Render.Working

namespace Inlay.Render

set_option autoImplicit false

open Inlay.Document Inlay.Document.Planted Inlay.Markup
open Inlay.Template hiding root

variable {strict : Prop} {base d d' e : Document} {claims claims' : Claims} {t : Tenant} {idle used ts : List Tenant}
  {old : NodeId → Prop} {context : Value} {pile under : List (List NodeId)}
  {placed nodes : List NodeId} {template : Template} {library : Library} {selection : Option String}
  {prototype : Prototype} {pass pass' : Pass} {key : String} {stock stock' : Fields (List Tenant)} {total : Nat}

/-! ## A turn -/

/-- There is an instance for every turn of a known name. -/
theorem exists_called (compiled : Compiled template library) (known : template.prototype? selection = some prototype)
    (wf : WellFormed pass.stage.document) (key : String) :
    ∃ instances inst stage, Called prototype key pass instances inst stage := by
  cases found : ((pass.pools.get? key).getD [])[pass.count key]? with
  | some inst => exact ⟨_, inst, _, .again found⟩
  | none =>
      obtain ⟨fragment, rs, d', made, -⟩ := ofPrototype_ok wf pass.stage.claims (compiled.of_selection known)
      exact ⟨_, _, _, .anew found made⟩

/-- A turn is the update of the instance that is called. -/
theorem showNext_of_called (known : template.prototype? selection = some prototype) {instances : List Instance}
    {inst : Instance} {stage : Stage}
    (called : Called prototype (selection.getD rootName) pass instances inst stage) :
    Passing.showNext template selection context pass =
      match inst.update context stage with
      | ((none, inst'), stage') => .ok inst'.nodes (pass.turned (selection.getD rootName) instances inst' stage')
      | ((some fault, inst'), stage') =>
        .error fault (pass.turned (selection.getD rootName) instances inst' stage') := by
  generalize key_ : selection.getD rootName = key at called ⊢
  -- the instance is there, or is put there
  obtain ⟨pass₁, found, at_, puts, pool, used⟩ : ∃ pass₁, Passing.instanceAt prototype key (pass.count key)
      { pass with used := pass.used.put key (pass.count key + 1) } = .ok inst pass₁ ∧ pass₁.stage = stage ∧
      (∀ v, pass₁.pools.put key v = pass.pools.put key v) ∧ (pass₁.pools.get? key).getD [] = instances ∧
      pass₁.used = pass.used.put key (pass.count key + 1) := by
    cases called with
    | again found =>
        refine ⟨{ pass with used := pass.used.put key (pass.count key + 1) }, ?_, rfl, fun _ => rfl, rfl, rfl⟩
        rw [Passing.instanceAt, bind_ok (show Passing.pool key _ = .ok _ _ from rfl), found]
        rfl
    | anew found made =>
        refine ⟨⟨stage, pass.pools.put key (((pass.pools.get? key).getD []) ++ [inst]),
          pass.used.put key (pass.count key + 1)⟩, ?_, rfl, fun v => Fields.put_put v _, by simp [Fields.get?_put], rfl⟩
        rw [Passing.instanceAt, bind_ok (show Passing.pool key _ = .ok _ _ from rfl), found]
        have acted : Passing.act (Instance.ofPrototype prototype)
            { pass with used := pass.used.put key (pass.count key + 1) } =
              .ok inst ⟨stage, pass.pools, pass.used.put key (pass.count key + 1)⟩ := by
          simp only [Passing.act, made]
        exact bind_ok acted
  have begun : Passing.showNext template selection context pass =
      Passing.updateAt key (pass.count key) context inst pass₁ := by
    rw [Passing.showNext, key_, bind_ok (show Passing.nextOrdinal key pass = .ok (pass.count key) _ from rfl)]
    simp only [selected, known]
    exact bind_ok found
  rw [begun, Passing.updateAt, at_]
  rcases inst.update context stage with ⟨⟨fault, inst'⟩, stage'⟩
  cases fault <;> simp only [Pass.turned, pool, puts, used]

/-- A turn leaves what writing the slots of its instance leaves. -/
theorem left_showNext (known : template.prototype? selection = some prototype) {instances : List Instance}
    {inst : Instance} {stage : Stage}
    (called : Called prototype (selection.getD rootName) pass instances inst stage) :
    (left (Passing.showNext template selection context) pass).stage =
      (Slot.writeAll context inst.slots stage).2 := by
  rw [left, showNext_of_called known called, Instance.update]
  rcases Slot.writeAll context inst.slots stage with ⟨⟨fault, slots⟩, stage'⟩
  cases fault <;> rfl

/-- A pass between two turns, with nothing in the way of the next one. -/
structure Firm (strict : Prop) (template : Template) (library : Library) (old : NodeId → Prop) (base : Document) (pass : Pass)
    (stock : Fields (List Tenant)) (pile : List (List NodeId)) (placed : List NodeId) (total : Nat) : Prop where
  ledger : Ledger template library old base pass stock pile placed total
  quartered : Quartered pass.stage.document (idleOf pass.count stock) (usedOf pass.count stock) pile pass.stage.claims
  clad : ∀ s ∈ idleOf pass.count stock ++ usedOf pass.count stock, s.Clad pass.stage.document
  arrayed : strict → Arrayed pass.stage.document (usedOf pass.count stock) pile pass.stage.claims

/-- Between two points of a pass tenants are put to use, and those in use are left alone. -/
structure Onward (pass : Pass) (stock : Fields (List Tenant)) (pass' : Pass) (stock' : Fields (List Tenant)) : Prop where
  grows : ∀ s ∈ usedOf pass.count stock, s ∈ usedOf pass'.count stock'
  stays : Steadfast pass.stage.document pass'.stage.document (usedOf pass.count stock)

theorem Onward.trans {pass'' : Pass} {stock'' : Fields (List Tenant)} (first : Onward pass stock pass' stock')
    (second : Onward pass' stock' pass'' stock'') : Onward pass stock pass'' stock'' :=
  ⟨fun s mem => second.grows s (first.grows s mem), first.stays.trans second.stays first.grows⟩

/-- What was said goes on being said. -/
theorem Onward.voiced (onward : Onward pass stock pass' stock')
    (ledger : Ledger template library old base pass stock pile placed total) {shown : List Tree}
    (voiced : Voiced pass.stage.document (usedOf pass.count stock) nodes shown) :
    Voiced pass'.stage.document (usedOf pass'.count stock') nodes shown :=
  voiced.mono onward.grows onward.stays fun s mem p memP =>
    ((ledger.roll.household.housed s (ledger.roll.used_mem s mem)).plots p memP).node

/-- The tenant that a turn fetches can begin its work. -/
theorem Firm.start (firm : Firm strict template library old base pass stock (under ++ leaves context) placed total)
    (compiled : Compiled template library) {known tenants rest : List Tenant} {ordinal : Nat}
    (taken : Taken old base d (usedOf pass.count stock) known tenants ordinal t rest (library selection)
      (under ++ leaves context) placed)
    (fetched : Fetched pass.stage.document (idleOf pass.count stock) rest (library selection) d t)
    (reaches : leaves context ⊆ reached (library selection) context)
    (singly : strict → (reached (library selection) context).Perm (leaves context)) :
    Working strict old base d rest (usedOf pass.count stock) t [] t.plots context under placed pass.stage.claims ∧
      Steadfast pass.stage.document d (usedOf pass.count stock) := by
  have wanted : leaves context ⊆ t.plots.flatMap (Plot.wanted context) := by
    rw [taken.fits.wanted_eq]
    exact reaches
  have wanted_perm : strict → (t.plots.flatMap (Plot.wanted context)).Perm (leaves context) := fun all => by
    rw [taken.fits.wanted_eq]
    exact singly all
  have tidy : TidyAll (trees t.source) := taken.fits.source ▸ compiled.tidy selection
  have roll := firm.ledger.roll
  have house := roll.household
  have work : AtWork old base d rest (usedOf pass.count stock) t [] t.plots context under placed pass.stage.claims :=
    .start taken.roll taken.waits taken.inside firm.ledger.claimed wanted
  cases fetched with
  | again perm =>
      have mine : t ∈ idleOf pass.count stock := perm.mem_iff.mpr List.mem_cons_self
      have clad : ∀ s ∈ t :: (rest ++ usedOf pass.count stock), s.Clad pass.stage.document := fun s mem =>
        firm.clad s ((perm.append_right _).mem_iff.mpr (by rwa [List.cons_append]))
      refine ⟨⟨work, ?_, clad, taken.fits.slots, tidy, nofun, fun all => ?_⟩, .refl _ _⟩
      · exact .start (firm.quartered.perm (fun s mem => perm.mem_iff.mpr (List.mem_cons_of_mem _ mem)) fun _ => .rfl)
          (firm.quartered.idles t mine) wanted
      · exact .start (firm.arrayed all) (clad t List.mem_cons_self) (wanted_perm all)
  | @anew _ fragment rs potted source same =>
      subst same
      have change : Change (fun _ => False) none pass.stage.document d := .of_potted house.wellFormed potted
      have live : ∀ s ∈ idleOf pass.count stock ++ usedOf pass.count stock, ∀ x ∈ s.grounds,
          pass.stage.document.contains x = true := fun s mem x ground =>
        house.live mem (Tenant.mem_estate_of_ground ground)
      have live' : ∀ s ∈ idleOf pass.count stock ++ usedOf pass.count stock, ∀ x ∈ s.grounds,
          d.contains x = true := fun s mem x ground =>
        (house.sow potted).live (List.mem_cons_of_mem _ mem) (Tenant.mem_estate_of_ground ground)
      have clad : ∀ s ∈ Tenant.sown fragment rs :: (idleOf pass.count stock ++ usedOf pass.count stock), s.Clad d := by
        refine List.forall_mem_cons.mpr ⟨Tenant.clad_sown tidy potted, fun s mem => ?_⟩
        exact (firm.clad s mem).change change (house.estate_nodup mem) (live s mem) (live' s mem) fun _ _ _ => id
      refine ⟨⟨work, ?_, clad, taken.fits.slots, tidy, nofun, fun all => ?_⟩, .of_change change
        (fun s mem => live s (List.mem_append_right _ mem)) fun s mem => live' s (List.mem_append_right _ mem)⟩
      · exact .start (firm.quartered.sow house roll.idle_mem roll.used_mem potted) (lodgers_sown potted) wanted
      · exact .start ((firm.arrayed all).sow house roll.used_mem potted) (clad _ List.mem_cons_self) (wanted_perm all)

/-- What the update of the tenant of a turn leaves. -/
structure Updated (strict : Prop) (old : NodeId → Prop) (base d d' : Document) (idle used : List Tenant) (t' : Tenant)
    (content : List Tree) (context : Value) (under : List (List NodeId)) (placed : List NodeId) (claims' : Claims) :
    Prop where
  fits : t'.Fits content
  size : t'.estate.length = weight content context
  roll : Roll old base d' idle (used ++ [t']) (t' :: (idle ++ used)) (under ++ [t'.inst.nodes]) placed
  claimed : ∀ x ∈ claims', ∃ s ∈ used ++ [t'], x ∈ s.estate
  quartered : Quartered d' idle (used ++ [t']) (under ++ [t'.inst.nodes]) claims'
  clad : ∀ s ∈ t' :: (idle ++ used), s.Clad d'
  arrayed : strict → Arrayed d' (used ++ [t']) (under ++ [t'.inst.nodes]) claims'
  told : ∀ p ∈ t'.plots, p.Says d' context
  stays : Steadfast d d' used

/-- The tenant of a turn is updated, and is a used one from then on. -/
theorem Working.finish (working : Working strict old base d idle used t [] t.plots context under placed claims)
    {content : List Tree} (source : trees t.source = content) (unrevived : Unrevived old d e)
    (later : Sequel (Slot.writeAll context t.inst.slots ⟨d, claims⟩).2.document e) :
    ∃ (t' : Tenant) (d' : Document) (claims' : Claims),
      t.inst.update context ⟨d, claims⟩ = ((none, t'.inst), ⟨d', claims'⟩) ∧
      Updated strict old base d d' idle used t' content context under placed claims' := by
  obtain ⟨plots, d', claims', wrote, stays, finished⟩ := working.writeAll unrevived later
  rw [List.nil_append] at finished
  obtain ⟨roll, claimed⟩ := finished.work.finish
  have fits : ({ t with plots := plots } : Tenant).Fits content := ⟨source, finished.form⟩
  refine ⟨{ t with plots := plots }, d', claims', ?_, fits, fits.length_estate finished.work.sized, roll, claimed,
    finished.quartering.finish finished.work, finished.clad, fun all => (finished.arraying all).finish finished.work,
    finished.told, stays⟩
  rw [Instance.update, show t.inst.slots = t.plots.map (·.slot) from rfl, wrote]
  rfl

/-- A turn of a known name answers, if it reaches the templates of its context. -/
theorem Firm.turn (firm : Firm strict template library old base pass stock (under ++ leaves context) placed total)
    (unnamed : template.prototype? (some rootName) = none) (compiled : Compiled template library)
    (known : template.prototype? selection = some prototype)
    (reaches : leaves context ⊆ reached (library selection) context)
    (singly : strict → (reached (library selection) context).Perm (leaves context))
    (later : Sequel (left (Passing.showNext template selection context) pass).stage.document e)
    (unrevived : Unrevived old pass.stage.document e) :
    ∃ t pass' stock', Passing.showNext template selection context pass = .ok t.inst.nodes pass' ∧
      Firm strict template library old base pass' stock' (under ++ [t.inst.nodes]) placed
        (total + weight (library selection) context) ∧
      Onward pass stock pass' stock' ∧ t ∈ usedOf pass'.count stock' ∧ trees t.source = library selection ∧
      ∀ p ∈ t.plots, p.Says pass'.stage.document context := by
  have ledger := firm.ledger
  have wf := ledger.roll.household.wellFormed
  obtain ⟨instances, inst, ⟨d, claims⟩, called⟩ := exists_called compiled known wf (selection.getD rootName)
  have first := called.sequel wf
  rw [left_showNext known called] at later
  have wf₁ : WellFormed (⟨d, claims⟩ : Stage).document := first.wellFormed
  have second : Sequel d (Slot.writeAll context inst.slots ⟨d, claims⟩).2.document :=
    Slot.sequel_writeAll context inst.slots wf₁
  obtain ⟨idleFront, usedFront, idleBack, usedBack, shelf⟩ :=
    exists_shelf ledger.sorted pass.count (selection.getD rootName)
  obtain ⟨tenants, t, rfl, rfl, same, taken, fetched⟩ :=
    ledger.takes unnamed compiled known rfl called shelf (second.trans later) unrevived
  cases (show claims = pass.stage.claims from same)
  obtain ⟨working, begins⟩ := firm.start compiled taken fetched reaches singly
  obtain ⟨t', d', claims', updated, done⟩ := working.finish taken.fits.source (unrevived.later first) later
  obtain ⟨ledger', idle', used'⟩ := ledger.settle known rfl shelf taken done.fits done.size done.roll done.claimed
  have itself : t' ∈ usedOf (pass.turned (selection.getD rootName) (tenants.map Tenant.inst) t'.inst ⟨d', claims'⟩).count
      (stock.put (selection.getD rootName) (tenants.set (pass.count (selection.getD rootName)) t')) :=
    used'.mem_iff.mpr (List.mem_append_right _ (List.mem_singleton_self _))
  refine ⟨t', pass.turned (selection.getD rootName) (tenants.map Tenant.inst) t'.inst ⟨d', claims'⟩, _, ?_,
    ⟨ledger', ?_, fun s mem => ?_, fun all => (done.arrayed all).perm fun s => used'.mem_iff.mp⟩,
    ⟨fun s mem => used'.mem_iff.mpr (List.mem_append_left _ mem), begins.trans done.stays fun _ => id⟩, itself,
    done.fits.source, done.told⟩
  · rw [showNext_of_called known called]
    simp only [updated]
  · rw [idle']
    exact done.quartered.perm (fun _ => id) fun s => used'.mem_iff.symm
  · rw [idle'] at mem
    refine done.clad s ?_
    rcases List.mem_append.mp mem with isIdle | isUsed
    · exact List.mem_cons_of_mem _ (List.mem_append_left _ isIdle)
    · rcases List.mem_append.mp (used'.mem_iff.mp isUsed) with before | last
      · exact List.mem_cons_of_mem _ (List.mem_append_right _ before)
      · exact List.mem_singleton.mp last ▸ List.mem_cons_self

/-! ## What the data say -/

/-- Fields of which every template is reached, and none twice, are reached template by template. -/
theorem reachedNumbers_perm {fields : Fields Datum} (wholly : Wholly library selection fields)
    (disjointly : Disjointly library selection fields) :
    (reachedNumbers (library selection) fields).Perm (List.range' 0 (templateCountOfFields fields)) := by
  refine (List.perm_ext_iff_of_nodup disjointly List.nodup_range').mpr fun n => ⟨fun mem => ?_, fun mem => wholly mem⟩
  rw [List.mem_range'_1]
  exact ⟨Nat.zero_le _, by simpa using lt_of_mem_reachedNumbers mem⟩

theorem Turn.Tells.reached_perm {turn : Turn} {source : Option String × Fields Datum} (tells : turn.Tells source)
    (wholly : Wholly library source.1 source.2) (disjointly : Disjointly library source.1 source.2) :
    (reached (library turn.selection) turn.context).Perm (leaves turn.context) := by
  obtain ⟨same, f, context⟩ := tells
  rw [same, context, leaves_relabel, reached_relabel]
  refine List.Perm.map f ?_
  show (reachedNumbers (library source.1) source.2).Perm (leavesOfFields (outlineOfFields 0 source.2))
  rw [leavesOfFields_outline]
  exact reachedNumbers_perm wholly disjointly

/-- The value is that of the datum, with the nodes of every template; `pairs` are these
nodes and the trees that the template expands to. -/
def LabelsDatum (library : Library) (datum : Datum) (value : Value) (pairs : List (List NodeId × List Tree)) : Prop :=
  ∃ both : ValueOf (List NodeId × List Tree), both.relabel Prod.fst = value ∧
    both.relabel Prod.snd = expandedDatum library datum ∧ leaves both = pairs

def LabelsItems (library : Library) (items : List Datum) (values : List Value) (pairs : List (List NodeId × List Tree)) :
    Prop :=
  ∃ both : List (ValueOf (List NodeId × List Tree)), ValueOf.relabelItems Prod.fst both = values ∧
    ValueOf.relabelItems Prod.snd both = expandedItems library items ∧ leavesOfItems both = pairs

def LabelsFields (library : Library) (fields : List (String × Datum)) (values : List (String × Value))
    (pairs : List (List NodeId × List Tree)) : Prop :=
  ∃ both : List (String × ValueOf (List NodeId × List Tree)), ValueOf.relabelFields Prod.fst both = values ∧
    ValueOf.relabelFields Prod.snd both = expandedFields library fields ∧ leavesOfFields both = pairs

/-! ## All turns of a pass -/

/-- A part of a pass that ends in `e` answers; what it gives is to be placed, and says
what it is labelled with. -/
def Answers {α : Type} (strict : Prop) (template : Template) (library : Library) (old : NodeId → Prop) (base : Document)
    (placed : List NodeId) (e : Document) (part : Passing α) (labels : α → List (List NodeId × List Tree) → Prop) : Prop :=
  ∀ pass stock pile total, Firm strict template library old base pass stock pile placed total →
    Sequel (left part pass).stage.document e → Unrevived old pass.stage.document e →
    ∃ answer pass' stock' total' pairs, part pass = .ok answer pass' ∧ labels answer pairs ∧
      Firm strict template library old base pass' stock' (pile ++ pairs.map Prod.fst) placed total' ∧
      Onward pass stock pass' stock' ∧
      ∀ pair ∈ pairs, Voiced pass'.stage.document (usedOf pass'.count stock') pair.1 pair.2

namespace Answers

variable {α β γ : Type} {part : Passing α} {part' : Passing β} {labels : α → List (List NodeId × List Tree) → Prop}
  {labels' : β → List (List NodeId × List Tree) → Prop}

theorem pure {answer : α} (none_ : labels answer []) :
    Answers strict template library old base placed e (pure answer) labels := fun pass stock pile total firm _ _ =>
  ⟨answer, pass, stock, total, [], rfl, none_, by rwa [List.map_nil, List.append_nil], ⟨fun _ => id, .refl _ _⟩, nofun⟩

theorem map {f : α → β} (first : Answers strict template library old base placed e part labels)
    (steady : Passing.Steady part) (same : ∀ a pairs, labels a pairs → labels' (f a) pairs) :
    Answers strict template library old base placed e (part >>= fun a => Pure.pure (f a)) labels' := by
  intro pass stock pile total firm later unrevived
  have begins := sequel_left_bind (fun pass : Pass => pass.stage.document) steady
    (fun a => .pure (f a)) firm.ledger.roll.household.wellFormed
  obtain ⟨a, pass', stock', total', pairs, done, labelled, rest⟩ :=
    first pass stock pile total firm (begins.trans later) unrevived
  exact ⟨f a, pass', stock', total', pairs, bind_ok done, same a pairs labelled, rest⟩

/-- Two parts, one after the other. -/
theorem both {f : α → β → γ} {all : γ → List (List NodeId × List Tree) → Prop}
    (first : Answers strict template library old base placed e part labels)
    (second : Answers strict template library old base placed e part' labels') (steady : Passing.Steady part)
    (steady' : Passing.Steady part')
    (same : ∀ a b pairs pairs', labels a pairs → labels' b pairs' → all (f a b) (pairs ++ pairs')) :
    Answers strict template library old base placed e (part >>= fun a => part' >>= fun b => Pure.pure (f a b)) all := by
  intro pass stock pile total firm later unrevived
  have wf := firm.ledger.roll.household.wellFormed
  have begins := sequel_left_bind (fun pass : Pass => pass.stage.document) steady
    (fun a => steady'.bind fun b => .pure (f a b)) wf
  obtain ⟨a, pass₁, stock₁, total₁, pairs, done, labelled, firm₁, onward, voiced⟩ :=
    first pass stock pile total firm (begins.trans later) unrevived
  have moved := steady pass wf
  rw [left_ok done] at moved
  rw [left_bind done] at later
  have next := sequel_left_bind (fun pass : Pass => pass.stage.document) steady'
    (fun b => .pure (f a b)) firm₁.ledger.roll.household.wellFormed
  obtain ⟨b, pass', stock', total', pairs', done', labelled', firm', onward', voiced'⟩ :=
    second pass₁ stock₁ _ total₁ firm₁ (next.trans later) (unrevived.later moved)
  refine ⟨f a b, pass', stock', total', pairs ++ pairs', (bind_ok done).trans (bind_ok done'),
    same a b pairs pairs' labelled labelled', ?_, onward.trans onward', fun pair mem => ?_⟩
  · rw [List.map_append, ← List.append_assoc]
    exact firm'
  · rcases List.mem_append.mp mem with early | late
    · exact onward'.voiced firm₁.ledger (voiced pair early)
    · exact voiced' pair late

/-- The fields of a selection, and then the selection itself. -/
theorem shows (unnamed : template.prototype? (some rootName) = none) (compiled : Compiled template library)
    (known : template.prototype? selection = some prototype) {fields : Fields Datum}
    (wholly : Wholly library selection fields) (disjointly : strict → Disjointly library selection fields)
    (inner : Answers strict template library old base placed e (Passing.resolveFields template fields)
      (LabelsFields library fields)) :
    Answers strict template library old base placed e (Passing.resolveFields template fields >>= fun values =>
      Passing.showNext template selection (.map values))
        fun nodes pairs => pairs = [(nodes, expansion library selection fields)] := by
  intro pass stock pile total firm later unrevived
  have wf := firm.ledger.roll.household.wellFormed
  have steady := Passing.steady_resolveFields template fields
  have begins := sequel_left_bind (fun pass : Pass => pass.stage.document) steady
    (fun values => Passing.steady_showNext template selection (.map values)) wf
  obtain ⟨values, pass₁, stock₁, total₁, pairs, done, ⟨both, nodes_, trees_, rfl⟩, firm₁, onward, voiced⟩ :=
    inner pass stock pile total firm (begins.trans later) unrevived
  have moved := steady pass wf
  rw [left_ok done] at moved
  rw [left_bind done] at later
  obtain ⟨-, -, numbered⟩ := resolveFields_stretch fields done
  obtain ⟨f, same⟩ := numbered 0
  have tells : Turn.Tells (selection, fields) ⟨selection, .map values, []⟩ := ⟨rfl, f, congrArg ValueOf.map same⟩
  have pile_ : (leavesOfFields both).map Prod.fst = leaves (ValueOf.map values) := by
    rw [← nodes_]
    exact (leaves_relabel (.map both)).symm
  rw [pile_] at firm₁
  obtain ⟨t, pass', stock', shown, firm', onward', used, source, told⟩ :=
    firm₁.turn unnamed compiled known (tells.reaches wholly) (fun all => tells.reached_perm wholly (disjointly all)) later
      (unrevived.later moved)
  refine ⟨t.inst.nodes, pass', stock', _, _, (bind_ok done).trans shown, rfl, firm', onward.trans onward', fun pair mem => ?_⟩
  rw [List.mem_singleton.mp mem]
  have voice : Voiced pass'.stage.document (usedOf pass'.count stock') t.inst.nodes
      (expanded ((ValueOf.map both).relabel Prod.snd) none (trees t.source)) := by
    refine .of_told used ?_ fun pair mem => onward'.voiced firm₁.ledger (voiced pair mem)
    rw [ValueOf.relabel, nodes_]
    exact told
  rwa [ValueOf.relabel, trees_, source] at voice

end Answers

mutual

/-- Data are resolved, if their templates are all defined and reached. -/
theorem answers_resolve (unnamed : template.prototype? (some rootName) = none) (compiled : Compiled template library) :
    ∀ datum : Datum, (∀ name ∈ selections datum, template.defines name = true) → Throughout (Wholly library) datum →
    (strict → Throughout (Disjointly library) datum) →
    Answers strict template library old base placed e (Passing.resolve template datum) (LabelsDatum library datum)
  | .null, _, _, _ => .pure ⟨.null, rfl, rfl, rfl⟩
  | .bool flag, _, _, _ => .pure ⟨.bool flag, rfl, rfl, rfl⟩
  | .number x, _, _, _ => .pure ⟨.number x, rfl, rfl, rfl⟩
  | .text content, _, _, _ => .pure ⟨.string content, rfl, rfl, rfl⟩
  | .list items, defined, wholly, disjointly =>
      (answers_resolveItems unnamed compiled items defined wholly disjointly).map
        (Passing.steady_resolveItems template items) fun _ _ ⟨both, nodes, trees, pairs⟩ =>
          ⟨.list both, congrArg ValueOf.list nodes, congrArg ValueOf.list trees, pairs⟩
  | .record fields, defined, wholly, disjointly =>
      (answers_resolveFields unnamed compiled fields defined wholly disjointly).map
        (Passing.steady_resolveFields template fields) fun _ _ ⟨both, nodes, trees, pairs⟩ =>
          ⟨.map both, congrArg ValueOf.map nodes, congrArg ValueOf.map trees, pairs⟩
  | .template name fields, defined, ⟨here, inner⟩, disjointly => by
      obtain ⟨prototype, known⟩ := defines_iff.mp (defined name List.mem_cons_self)
      have below := answers_resolveFields unnamed compiled fields
        (fun other mem => defined other (List.mem_cons_of_mem _ mem)) inner fun all => (disjointly all).2
      have steady : Passing.Steady (Passing.resolveFields template fields >>= fun values =>
          Passing.showNext template (some name) (.map values)) :=
        (Passing.steady_resolveFields template fields).bind fun _ => Passing.steady_showNext template _ _
      have shown : Answers strict template library old base placed e ((Passing.resolveFields template fields >>= fun values =>
          Passing.showNext template (some name) (.map values)) >>= fun nodes => pure (ValueOf.nodes nodes))
          (LabelsDatum library (.template name fields)) :=
        (Answers.shows unnamed compiled known here (fun all => (disjointly all).1) below).map steady
          fun nodes _ pairs => ⟨.nodes (nodes, expansion library (some name) fields), rfl, rfl, pairs.symm⟩
      rwa [bind_assoc] at shown

theorem answers_resolveItems (unnamed : template.prototype? (some rootName) = none)
    (compiled : Compiled template library) :
    ∀ items : List Datum,
    (∀ name ∈ selectionsOfItems items, template.defines name = true) → ThroughoutItems (Wholly library) items →
    (strict → ThroughoutItems (Disjointly library) items) →
    Answers strict template library old base placed e (Passing.resolveItems template items) (LabelsItems library items)
  | [], _, _, _ => .pure ⟨[], rfl, rfl, rfl⟩
  | item :: rest, defined, ⟨here, others⟩, disjointly =>
      (answers_resolve unnamed compiled item (fun name mem => defined name (List.mem_append_right _ mem)) here
          fun all => (disjointly all).1).both
        (answers_resolveItems unnamed compiled rest (fun name mem => defined name (List.mem_append_left _ mem)) others
          fun all => (disjointly all).2)
        (Passing.steady_resolve template item) (Passing.steady_resolveItems template rest)
        fun _ _ _ _ ⟨one, nodes, trees, pairs⟩ ⟨more, nodes', trees', pairs'⟩ =>
          ⟨one :: more, congrArg₂ List.cons nodes nodes', congrArg₂ List.cons trees trees',
            congrArg₂ (· ++ ·) pairs pairs'⟩

theorem answers_resolveFields (unnamed : template.prototype? (some rootName) = none)
    (compiled : Compiled template library) :
    ∀ fields : List (String × Datum),
    (∀ name ∈ selectionsOfFields fields, template.defines name = true) → ThroughoutFields (Wholly library) fields →
    (strict → ThroughoutFields (Disjointly library) fields) →
    Answers strict template library old base placed e (Passing.resolveFields template fields) (LabelsFields library fields)
  | [], _, _, _ => .pure ⟨[], rfl, rfl, rfl⟩
  | (name, datum) :: rest, defined, ⟨here, others⟩, disjointly =>
      (answers_resolve unnamed compiled datum (fun name mem => defined name (List.mem_append_right _ mem)) here
          fun all => (disjointly all).1).both
        (answers_resolveFields unnamed compiled rest (fun name mem => defined name (List.mem_append_left _ mem)) others
          fun all => (disjointly all).2)
        (Passing.steady_resolve template datum) (Passing.steady_resolveFields template rest)
        fun _ _ _ _ ⟨one, nodes, trees, pairs⟩ ⟨more, nodes', trees', pairs'⟩ =>
          ⟨(name, one) :: more, congrArg₂ (fun v l => (name, v) :: l) nodes nodes',
            congrArg₂ (fun v l => (name, v) :: l) trees trees', congrArg₂ (· ++ ·) pairs pairs'⟩

end

end Inlay.Render
