/-
# Proofs.Render.FirstPass — the first pass of a renderer

In a first pass no selection finds an instance of before (`Unused`): each makes
one in a new fragment, fills it and leaves it there until the anchor that
reaches it takes its nodes. So every template of the data stands in a pot of its
own when its fields are resolved (`Raised`), and the pot holds its expansion.
-/
import Inlay.Proofs.Render.Dress
import Inlay.Render.Renderer

namespace Inlay.Render

set_option autoImplicit false

open Relation Inlay.Document Inlay.Document.Planted Inlay.Markup
open Inlay.Template hiding root

variable {d d' d'' : Document} {claims : Claims} {x : NodeId} {template : Template} {library : Library}

/-! ## One instance -/

/-- An instance is a cleared copy of its content in a new fragment. -/
theorem ofPrototype_ok (wf : WellFormed d) (claims : Claims) {prototype : Prototype}
    {content : List Tree} (compiled : CompiledFrom prototype content) :
    ∃ fragment rs d', Instance.ofPrototype prototype ⟨d, claims⟩ =
        .ok ⟨fragment, rs.map root, slotsAll .blank none rs⟩ ⟨d', claims⟩ ∧
      trees rs = content ∧ Potted d d' fragment (clearedPlants rs) := by
  obtain ⟨fragment, ps, d', planted, same, potted⟩ := plantFragment_potted prototype.content wf
  rw [compiled.cleared] at same
  obtain ⟨rs, source, rfl⟩ := exists_sources same
  have kids : d'.children fragment = rs.map root := by
    rw [potted.kids, map_root_clearedPlants]
  have bound : Instance.bindAll prototype.label d' fragment prototype.bindings =
      .ok (slotsAll .blank none rs) :=
    bindAll_eq potted.wellFormed potted.stand kids (source ▸ compiled.bound)
  refine ⟨fragment, rs, d', ?_, source, potted⟩
  rw [Instance.ofPrototype, bind_ok (Act.edit_ok planted), Act.bind_ask, Act.bind_ask, bound, kids]
  rfl

/-- A new instance that was filled. -/
structure Grown (d d' : Document) (pots : List Pot) (pot : Pot) : Prop where
  keeps : Keeps (pots.flatMap Pot.ids) d d'
  stands : pot.Stands d'
  origin : ∀ x ∈ pot.ids, x ∈ pots.flatMap Pot.ids ∨ d.contains x = false

theorem update_ok {rs : List Planted} {fragment : NodeId}
    (potted : Potted d d' fragment (clearedPlants rs)) (claims : Claims) (w : ValueOf Pot) {pots : List Pot}
    (reach : reached (trees rs) w = pots) (standing : ∀ pot ∈ pots, pot.Stands d)
    (apart : (pots.flatMap Pot.ids).Nodup) (legible : LegibleAll (trees rs)) (tidy : TidyAll (trees rs)) :
    ∃ d'' claims' inst pot,
      (Instance.mk fragment (rs.map root) (slotsAll .blank none rs)).update (w.relabel Pot.roots)
          ⟨d', claims⟩ = ((none, inst), ⟨d'', claims'⟩) ∧
      inst.nodes = pot.roots ∧ pot.trees = expanded (w.relabel Pot.trees) none (trees rs) ∧
      Grown d d'' pots pot := by
  have kept : Keeps (pots.flatMap Pot.ids) d d' := .of_potted potted
  have untouched : Keeps [] d d' := .of_potted potted
  have standing' : ∀ pot ∈ pots, pot.Stands d' := fun pot mem =>
    (standing pot mem).keeps untouched (by simp)
  have live : ∀ x ∈ pots.flatMap Pot.ids, d.contains x = true := by
    intro x mem
    obtain ⟨pot, there, here⟩ := List.mem_flatMap.mp mem
    exact (standing pot there).contains x here
  have fresh : ∀ x ∈ fragment :: idsAll rs, d.contains x = false := by
    simpa using potted.fresh
  have away : ∀ x ∈ fragment :: idsAll rs, x ∉ pots.flatMap Pot.ids := by
    intro x new old
    have dead := fresh x new
    rw [live x old] at dead
    cases dead
  have ready : Ready d' fragment [] [] rs pots :=
    { wellFormed := potted.wellFormed
      kids := by simpa using potted.kids
      live := contains_iff_content?.mpr ⟨_, potted.isFragment⟩
      stand := potted.stand
      standing := standing'
      apart := by
        refine List.nodup_append.mpr ⟨by simpa using potted.nodup, apart, ?_⟩
        rintro x new y old rfl
        exact away x new old
      legible := legible
      tidy := tidy }
  have held : Held d' fragment none := nofun
  obtain ⟨d'', claims', memory, ps, done, shows, dressed⟩ :=
    dress_trees w rs claims reach ready held
  refine ⟨d'', claims', ⟨fragment, rs.map root, slotsAll memory none rs⟩, ⟨fragment, ps⟩, ?_, ?_, shows,
    ?_, ⟨?_, by simpa [Pot.roots] using dressed.kids, dressed.stand⟩, ?_⟩
  · simp only [Instance.update, done]
  · rw [nodes_eq dressed.blank, ← dressed.roots]
    rfl
  · have off : ∀ x, d.contains x = true → x ∉ pots.flatMap Pot.ids →
        x ∉ fragment :: idsAll rs ++ pots.flatMap Pot.ids := by
      intro x alive absent mem
      rcases List.mem_append.mp mem with new | old
      · rw [fresh x new] at alive
        cases alive
      · exact absent old
    exact ⟨dressed.keeps.wellFormed, fun x alive => dressed.keeps.alive x (kept.alive x alive),
      fun x alive absent => (dressed.keeps.content x (kept.alive x alive) (off x alive absent)).trans
        (kept.content x alive absent),
      fun x alive absent => (dressed.keeps.children x (kept.alive x alive) (off x alive absent)).trans
        (kept.children x alive absent)⟩
  · have holder := dressed.holder
    rw [potted.isFragment] at holder
    obtain ⟨content, here, same⟩ := Option.map_eq_some_iff.mp holder
    cases content with
    | fragment => exact here
    | element e => cases same
    | text data => cases same
    | comment data => cases same
  · intro x mem
    have dead : ∀ x, d'.contains x = false → d.contains x = false := by
      intro x gone
      by_contra alive
      rw [kept.alive x (by simpa using alive)] at gone
      cases gone
    rcases List.mem_cons.mp mem with rfl | mem
    · exact .inr (fresh _ List.mem_cons_self)
    · rcases dressed.origin x mem with here | new
      · rcases List.mem_append.mp here with new | old
        · exact .inr (fresh x (List.mem_cons_of_mem _ new))
        · exact .inl old
      · exact .inr (dead x new)

/-! ## One selection -/

/-- Every instance in the pools was used in this pass. -/
structure Unspared (pass : Pass) : Prop where
  pools : ∀ name, ((pass.pools.get? name).getD []).length = (pass.used.get? name).getD 0
  entries : ∀ entry ∈ pass.pools, entry.2.length ≤ (pass.used.get? entry.1).getD 0

theorem Unspared.put {pass pass' : Pass} (unspared : Unspared pass) {name : String}
    {instances instances' : List Instance}
    (pools : pass'.pools = (pass.pools.put name instances).put name instances')
    (length : instances'.length = (pass.used.get? name).getD 0 + 1)
    (shorter : instances.length ≤ instances'.length)
    (used : pass'.used = pass.used.put name ((pass.used.get? name).getD 0 + 1)) : Unspared pass' := by
  refine ⟨fun other => ?_, fun entry mem => ?_⟩
  · rw [pools, used, Fields.get?_put, Fields.get?_put, Fields.get?_put]
    by_cases same : other = name
    · simp [same, length]
    · simp only [if_neg same]
      exact unspared.pools other
  · rw [used, Fields.get?_put]
    have grown : entry.2.length ≤ (pass.used.get? entry.1).getD 0 ∨
        entry.1 = name ∧ entry.2.length ≤ instances'.length := by
      rw [pools] at mem
      rcases Fields.mem_put mem with rfl | mem
      · exact .inr ⟨rfl, Nat.le_refl _⟩
      rcases Fields.mem_put mem with rfl | mem
      · exact .inr ⟨rfl, shorter⟩
      · exact .inl (unspared.entries entry mem)
    by_cases same : entry.1 = name
    · simp only [same, if_true, Option.getD_some]
      rcases grown with old | ⟨-, new⟩
      · rw [same] at old
        omega
      · omega
    · simp only [if_neg same]
      exact grown.resolve_right fun new => same new.1

/-- The pass behind a selection that was shown by a new instance. -/
def Pass.grown (pass : Pass) (name : String) (blank inst : Instance) (stage : Stage) : Pass where
  stage := stage
  pools := (pass.pools.put name ((pass.pools.get? name).getD [] ++ [blank])).put name
    ((pass.pools.get? name).getD [] ++ [inst])
  used := pass.used.put name ((pass.used.get? name).getD 0 + 1)

theorem Unspared.grown {pass : Pass} (unspared : Unspared pass) (name : String) (blank inst : Instance)
    (stage : Stage) : Unspared (pass.grown name blank inst stage) := by
  have length := unspared.pools name
  exact unspared.put rfl (by simp [length]) (by simp) rfl

/-- A selection for which there is no instance of before is shown by a new one,
which stays in its pool when it cannot be written. -/
theorem showNext_eq_grown {pass : Pass} {selection : Option String} {prototype : Prototype} {context : Value}
    {blank inst : Instance} {stage stage' : Stage} {fault : Option Fault}
    (chosen : selected template selection = .ok prototype) (unspared : Unspared pass)
    (made : Instance.ofPrototype prototype pass.stage = .ok blank stage)
    (updated : blank.update context stage = ((fault, inst), stage')) :
    Passing.showNext template selection context pass =
      match fault with
      | none => .ok inst.nodes (pass.grown (selection.getD rootName) blank inst stage')
      | some fault => .error fault (pass.grown (selection.getD rootName) blank inst stage') := by
  rw [Passing.showNext, Pass.grown]
  generalize selection.getD rootName = key
  have length := unspared.pools key
  have missing : ((pass.pools.get? key).getD [])[(pass.used.get? key).getD 0]? = none := by
    rw [← length]
    simp
  have placed : ((pass.pools.get? key).getD [] ++ [blank]).set ((pass.used.get? key).getD 0) inst =
      (pass.pools.get? key).getD [] ++ [inst] := by
    rw [← length]
    simp
  simp only [bind, EStateM.bind, Passing.nextOrdinal, chosen, Passing.instanceAt, Passing.pool, missing,
    Passing.act, made, Passing.setPool, Passing.updateAt, Fields.get?_put, if_true, Option.getD_some, updated,
    placed, pure, EStateM.pure]
  cases fault <;> rfl

/-- Showing a selection for which there is no instance of before. -/
theorem showNext_new {pass : Pass} (compiled : Compiled template library) {selection : Option String}
    {prototype : Prototype} (known : template.prototype? selection = some prototype)
    (unspared : Unspared pass) (wf : WellFormed pass.stage.document) (w : ValueOf Pot) {pots : List Pot}
    (reach : reached (library selection) w = pots)
    (standing : ∀ pot ∈ pots, pot.Stands pass.stage.document) (apart : (pots.flatMap Pot.ids).Nodup) :
    ∃ pot pass', Passing.showNext template selection (w.relabel Pot.roots) pass = .ok pot.roots pass' ∧
      pot.trees = expanded (w.relabel Pot.trees) none (library selection) ∧ Unspared pass' ∧
      Grown pass.stage.document pass'.stage.document pots pot := by
  have from_ := compiled.of_selection known
  obtain ⟨fragment, rs, d₁, made, source, potted⟩ := ofPrototype_ok wf pass.stage.claims from_
  obtain ⟨d₂, claims₂, inst, pot, updated, nodes, shows, grown⟩ :=
    update_ok potted pass.stage.claims w (source ▸ reach) standing apart
      (source ▸ legible_of_bindings from_.bound) (source ▸ compiled.tidy selection)
  generalize Instance.mk fragment (rs.map root) (slotsAll .blank none rs) = blank at made updated
  have chosen : selected template selection = .ok prototype := by simp [selected, known]
  refine ⟨pot, pass.grown (selection.getD rootName) blank inst ⟨d₂, claims₂⟩, ?_, source ▸ shows,
    unspared.grown _ _ _ _, grown⟩
  rw [showNext_eq_grown chosen unspared made updated, nodes]

/-! ## All data -/

instance : Inhabited Pot := ⟨⟨⟨0, 0⟩, []⟩⟩

/-- The templates of the numbers from `first` on stand in new pots. -/
structure Raised (pass pass' : Pass) (first count : Nat) (pots : Nat → Pot) : Prop where
  unspared : Unspared pass'
  keeps : Keeps [] pass.stage.document pass'.stage.document
  stands : ∀ n, first ≤ n → n < first + count → (pots n).Stands pass'.stage.document
  fresh : ∀ n, first ≤ n → n < first + count → ∀ x ∈ (pots n).ids,
    pass.stage.document.contains x = false
  apart : ∀ m n, first ≤ m → m < first + count → first ≤ n → n < first + count → m ≠ n →
    ∀ x ∈ (pots m).ids, x ∉ (pots n).ids

namespace Raised

variable {pass pass' pass'' : Pass} {first count count' : Nat} {pots pots' : Nat → Pot}

theorem nil (unspared : Unspared pass) (wf : WellFormed pass.stage.document) :
    Raised pass pass first 0 pots where
  unspared := unspared
  keeps := .refl wf
  stands := fun n low high => by omega
  fresh := fun n low high => by omega
  apart := fun m n low high => by omega

theorem append (one : Raised pass pass' first count pots)
    (two : Raised pass' pass'' (first + count) count' pots') :
    Raised pass pass'' first (count + count') fun n =>
      if n < first + count then pots n else pots' n := by
  have alive : ∀ n, first ≤ n → n < first + count → ∀ x ∈ (pots n).ids,
      pass'.stage.document.contains x = true := fun n low high => (one.stands n low high).contains
  have later : ∀ n, first + count ≤ n → n < first + count + count' → ∀ x ∈ (pots' n).ids,
      pass'.stage.document.contains x = false := two.fresh
  refine ⟨two.unspared, one.keeps.trans two.keeps, fun n low high => ?_, fun n low high => ?_,
    fun m n low high low' high' ne => ?_⟩
  · split
    · next early => exact (one.stands n low early).keeps two.keeps (by simp)
    · next late => exact two.stands n (by omega) (by omega)
  · split
    · next early => exact one.fresh n low early
    · next late =>
        intro x mem
        by_contra live
        have gone := later n (by omega) (by omega) x mem
        rw [one.keeps.alive x (by simpa using live)] at gone
        cases gone
  · intro x here there
    split at here
    · next early =>
        split at there
        · next early' => exact one.apart m n low early low' early' ne x here there
        · next late' =>
            have gone := later n (by omega) (by omega) x there
            rw [alive m low early x here] at gone
            cases gone
    · next late =>
        split at there
        · next early' =>
            have gone := later m (by omega) (by omega) x here
            rw [alive n low' early' x there] at gone
            cases gone
        · next late' =>
            exact two.apart m n (by omega) (by omega) (by omega) (by omega) ne x here there

/-- The pots of some of the numbers. -/
theorem flatMap_nodup (raised : Raised pass pass' first count pots) {numbers : List Nat}
    (nodup : numbers.Nodup) (range : ∀ n ∈ numbers, first ≤ n ∧ n < first + count) :
    ((numbers.map pots).flatMap Pot.ids).Nodup := by
  rw [List.flatMap_map]
  refine List.nodup_flatMap.mpr ⟨fun n mem => ?_, ?_⟩
  · exact (raised.stands n (range n mem).1 (range n mem).2).nodup raised.keeps.wellFormed
  · refine List.Pairwise.imp_of_mem ?_ nodup
    intro m n here there ne x
    exact raised.apart m n (range m here).1 (range m here).2 (range n there).1 (range n there).2 ne x

end Raised

/-- A template of the data, when its fields are raised. -/
theorem raised_template {pass pass' pass'' : Pass} {first count count' : Nat} {pots : Nat → Pot} {pot : Pot}
    {numbers : List Nat} (raised : Raised pass pass' first count pots)
    (range : ∀ n ∈ numbers, first ≤ n ∧ n < first + count) (unspared : Unspared pass'')
    (grown : Grown pass'.stage.document pass''.stage.document (numbers.map pots) pot) :
    Raised pass pass'' count' 1 fun _ => pot := by
  have fresh : ∀ x ∈ (numbers.map pots).flatMap Pot.ids, pass.stage.document.contains x = false := by
    intro x mem
    rw [List.flatMap_map] at mem
    obtain ⟨n, there, here⟩ := List.mem_flatMap.mp mem
    exact raised.fresh n (range n there).1 (range n there).2 x here
  refine ⟨unspared, raised.keeps.trans_away grown.keeps fresh, fun _ _ _ => grown.stands,
    fun _ _ _ x mem => ?_, fun m n low high low' high' ne => by omega⟩
  rcases grown.origin x mem with old | new
  · exact fresh x old
  · by_contra live
    rw [raised.keeps.alive x (by simpa using live)] at new
    cases new

theorem defines_iff {name : String} : template.defines name = true ↔
    ∃ prototype, template.prototype? (some name) = some prototype :=
  Option.isSome_iff_exists

mutual

theorem resolve_new (compiled : Compiled template library) : ∀ (datum : Datum) (first : Nat) {pass : Pass},
    (∀ name ∈ selections datum, template.defines name = true) → Throughout (Disjointly library) datum →
    Unspared pass → WellFormed pass.stage.document →
    ∃ pots pass', Passing.resolve template datum pass =
        .ok (((outline first datum).relabel pots).relabel Pot.roots) pass' ∧
      ((outline first datum).relabel pots).relabel Pot.trees = expandedDatum library datum ∧
      Raised pass pass' first (templateCount datum) pots
  | .null, first, pass, _, _, unspared, wf =>
      ⟨default, pass, rfl, rfl, .nil unspared wf⟩
  | .bool _, first, pass, _, _, unspared, wf =>
      ⟨default, pass, rfl, rfl, .nil unspared wf⟩
  | .number _, first, pass, _, _, unspared, wf =>
      ⟨default, pass, rfl, rfl, .nil unspared wf⟩
  | .text _, first, pass, _, _, unspared, wf =>
      ⟨default, pass, rfl, rfl, .nil unspared wf⟩
  | .list items, first, pass, known, once, unspared, wf => by
      obtain ⟨pots, pass', done, shows, raised⟩ :=
        resolveItems_new compiled items first known once unspared wf
      refine ⟨pots, pass', ?_, ?_, raised⟩
      · rw [Passing.resolve, bind_ok done]
        rfl
      · simp only [outline, ValueOf.relabel, expandedDatum, shows]
  | .record fields, first, pass, known, once, unspared, wf => by
      obtain ⟨pots, pass', done, shows, raised⟩ :=
        resolveFields_new compiled fields first known once unspared wf
      refine ⟨pots, pass', ?_, ?_, raised⟩
      · rw [Passing.resolve, bind_ok done]
        rfl
      · simp only [outline, ValueOf.relabel, expandedDatum, shows]
  | .template name fields, first, pass, known, once, unspared, wf => by
      obtain ⟨here, others⟩ := List.forall_mem_cons.mp known
      obtain ⟨prototype, found⟩ := defines_iff.mp here
      obtain ⟨pots, pass₁, done, shows, raised⟩ :=
        resolveFields_new compiled fields 0 others once.2 unspared wf
      have range : ∀ n ∈ reachedNumbers (library (some name)) fields,
          0 ≤ n ∧ n < 0 + templateCountOfFields fields := fun n mem =>
        ⟨Nat.zero_le _, by simpa using lt_of_mem_reachedNumbers mem⟩
      obtain ⟨pot, pass₂, shown, trees, unspared₂, grown⟩ :=
        showNext_new compiled found raised.unspared raised.keeps.wellFormed
          (.map (ValueOf.relabelFields pots (outlineOfFields 0 fields)))
          (reached_relabel pots (.map (outlineOfFields 0 fields)) (library (some name)))
          (fun pot mem => by
            obtain ⟨n, there, rfl⟩ := List.mem_map.mp mem
            exact raised.stands n (range n there).1 (range n there).2)
          (raised.flatMap_nodup once.1 range)
      refine ⟨fun _ => pot, pass₂, ?_, ?_, raised_template raised range unspared₂ grown⟩
      · rw [Passing.resolve, bind_ok done]
        exact bind_ok shown
      · simp only [outline, ValueOf.relabel, expandedDatum, trees, shows]

theorem resolveItems_new (compiled : Compiled template library) : ∀ (items : List Datum) (first : Nat)
    {pass : Pass}, (∀ name ∈ selectionsOfItems items, template.defines name = true) →
    ThroughoutItems (Disjointly library) items → Unspared pass → WellFormed pass.stage.document →
    ∃ pots pass', Passing.resolveItems template items pass =
        .ok (ValueOf.relabelItems Pot.roots (ValueOf.relabelItems pots (outlineOfItems first items))) pass' ∧
      ValueOf.relabelItems Pot.trees (ValueOf.relabelItems pots (outlineOfItems first items)) =
        expandedItems library items ∧
      Raised pass pass' first (templateCountOfItems items) pots
  | [], first, pass, _, _, unspared, wf =>
      ⟨default, pass, rfl, rfl, .nil unspared wf⟩
  | item :: rest, first, pass, known, once, unspared, wf => by
      simp only [selectionsOfItems, List.mem_append] at known
      obtain ⟨pots, pass₁, done, shows, one⟩ := resolve_new compiled item first
        (fun name mem => known name (.inr mem)) once.1 unspared wf
      obtain ⟨pots', pass₂, others, showsAll, two⟩ :=
        resolveItems_new compiled rest (first + templateCount item)
          (fun name mem => known name (.inl mem)) once.2 one.unspared one.keeps.wellFormed
      have early := outline_congr (f := fun n => if n < first + templateCount item then pots n else pots' n)
        (g := pots) item first fun n _ high => if_pos high
      have late := outlineOfItems_congr
        (f := fun n => if n < first + templateCount item then pots n else pots' n) (g := pots') rest
        (first + templateCount item) fun n low _ => if_neg (by omega)
      refine ⟨_, pass₂, ?_, ?_, one.append two⟩
      · rw [Passing.resolveItems, bind_ok done, bind_ok others]
        simp only [outlineOfItems, ValueOf.relabelItems, early, late]
        rfl
      · simp only [outlineOfItems, ValueOf.relabelItems, early, late, expandedItems, shows, showsAll]

theorem resolveFields_new (compiled : Compiled template library) : ∀ (fields : List (String × Datum))
    (first : Nat) {pass : Pass}, (∀ name ∈ selectionsOfFields fields, template.defines name = true) →
    ThroughoutFields (Disjointly library) fields → Unspared pass → WellFormed pass.stage.document →
    ∃ pots pass', Passing.resolveFields template fields pass =
        .ok (ValueOf.relabelFields Pot.roots
          (ValueOf.relabelFields pots (outlineOfFields first fields))) pass' ∧
      ValueOf.relabelFields Pot.trees (ValueOf.relabelFields pots (outlineOfFields first fields)) =
        expandedFields library fields ∧
      Raised pass pass' first (templateCountOfFields fields) pots
  | [], first, pass, _, _, unspared, wf =>
      ⟨default, pass, rfl, rfl, .nil unspared wf⟩
  | (name, datum) :: rest, first, pass, known, once, unspared, wf => by
      simp only [selectionsOfFields, List.mem_append] at known
      obtain ⟨pots, pass₁, done, shows, one⟩ := resolve_new compiled datum first
        (fun name mem => known name (.inr mem)) once.1 unspared wf
      obtain ⟨pots', pass₂, others, showsAll, two⟩ :=
        resolveFields_new compiled rest (first + templateCount datum)
          (fun name mem => known name (.inl mem)) once.2 one.unspared one.keeps.wellFormed
      have early := outline_congr (f := fun n => if n < first + templateCount datum then pots n else pots' n)
        (g := pots) datum first fun n _ high => if_pos high
      have late := outlineOfFields_congr
        (f := fun n => if n < first + templateCount datum then pots n else pots' n) (g := pots') rest
        (first + templateCount datum) fun n low _ => if_neg (by omega)
      refine ⟨_, pass₂, ?_, ?_, one.append two⟩
      · rw [Passing.resolveFields, bind_ok done, bind_ok others]
        simp only [outlineOfFields, ValueOf.relabelFields, early, late]
        rfl
      · simp only [outlineOfFields, ValueOf.relabelFields, early, late, expandedFields, shows, showsAll]

end

end Inlay.Render
