/-
# Proofs.Render.Turns — a pass as a list of turns

Resolving data shows their templates one after the other, inner ones first. Each
showing is a `Turn`: a selection, the context it was given and the nodes it gave.
A pass is its list of turns (`resolve_plays`); the nodes that turns gave wait on a
pile until the turn whose context holds them takes them off, so that each is
taken once. Whatever the state it starts from, a pass in which the same turns
give the same nodes gives the same value.
-/
import Inlay.Proofs.Data.Relabel
import Inlay.Proofs.Render.Reconcile
import Inlay.Render.Renderer

namespace Inlay.Render

set_option autoImplicit false

section Bind

variable {ε σ α β : Type} {s s'' : σ} {b : β}

/-- A program of two parts that gives an answer. -/
theorem of_bind_ok {e : EStateM ε σ α} {f : α → EStateM ε σ β} (done : (e >>= f) s = .ok b s'') :
    ∃ a s', e s = .ok a s' ∧ f a s' = .ok b s'' := by
  cases first : e s with
  | ok a s' => exact ⟨a, s', rfl, by rwa [bind_ok first] at done⟩
  | error fault s' => rw [bind_error first] at done; cases done

end Bind

/-! ## The templates of a value -/

section Leaves

variable {α β : Type}

mutual

/-- What stands for the templates of a value, wherever they are in it. -/
def leaves : ValueOf α → List α
  | .list items => leavesOfItems items
  | .map fields => leavesOfFields fields
  | .nodes shown => [shown]
  | _ => []

def leavesOfItems : List (ValueOf α) → List α
  | [] => []
  | item :: rest => leaves item ++ leavesOfItems rest

def leavesOfFields : List (String × ValueOf α) → List α
  | [] => []
  | (_, value) :: rest => leaves value ++ leavesOfFields rest

end

variable {f : α → β}

mutual

theorem leaves_relabel : ∀ value : ValueOf α, leaves (value.relabel f) = (leaves value).map f
  | .null => rfl
  | .bool _ => rfl
  | .number _ => rfl
  | .string _ => rfl
  | .list items => leavesOfItems_relabel items
  | .map fields => leavesOfFields_relabel fields
  | .nodes _ => rfl

theorem leavesOfItems_relabel : ∀ items : List (ValueOf α),
    leavesOfItems (ValueOf.relabelItems f items) = (leavesOfItems items).map f
  | [] => rfl
  | item :: rest => by
      simp only [ValueOf.relabelItems, leavesOfItems, leaves_relabel item, leavesOfItems_relabel rest,
        List.map_append]

theorem leavesOfFields_relabel : ∀ fields : List (String × ValueOf α),
    leavesOfFields (ValueOf.relabelFields f fields) = (leavesOfFields fields).map f
  | [] => rfl
  | (_, value) :: rest => by
      simp only [ValueOf.relabelFields, leavesOfFields, leaves_relabel value, leavesOfFields_relabel rest,
        List.map_append]

end

mutual

/-- The templates of a datum are numbered in order. -/
theorem leaves_outline : ∀ (datum : Datum) (first : Nat),
    leaves (outline first datum) = List.range' first (templateCount datum)
  | .null, _ => rfl
  | .bool _, _ => rfl
  | .number _, _ => rfl
  | .text _, _ => rfl
  | .list items, first => leavesOfItems_outline items first
  | .record fields, first => leavesOfFields_outline fields first
  | .template _ _, _ => rfl

theorem leavesOfItems_outline : ∀ (items : List Datum) (first : Nat),
    leavesOfItems (outlineOfItems first items) = List.range' first (templateCountOfItems items)
  | [], _ => rfl
  | item :: rest, first => by
      simp only [outlineOfItems, leavesOfItems, leaves_outline item, leavesOfItems_outline rest,
        templateCountOfItems, List.range'_append_1]

theorem leavesOfFields_outline : ∀ (fields : List (String × Datum)) (first : Nat),
    leavesOfFields (outlineOfFields first fields) = List.range' first (templateCountOfFields fields)
  | [], _ => rfl
  | (_, datum) :: rest, first => by
      simp only [outlineOfFields, leavesOfFields, leaves_outline datum, leavesOfFields_outline rest,
        templateCountOfFields, List.range'_append_1]

end

/-! ### What a path leads to -/

mutual

/-- What a value lists is among its templates. -/
theorem listed_subset : ∀ value : ValueOf α, listed value ⊆ leaves value
  | .null => List.nil_subset _
  | .bool _ => List.nil_subset _
  | .number _ => List.nil_subset _
  | .string _ => List.nil_subset _
  | .list items => listedAll_subset items
  | .map _ => List.nil_subset _
  | .nodes _ => List.Subset.refl _

theorem listedAll_subset : ∀ items : List (ValueOf α), listedAll items ⊆ leavesOfItems items
  | [] => List.Subset.refl _
  | item :: rest => by
      rw [listedAll, leavesOfItems]
      exact List.append_subset.mpr ⟨List.subset_append_of_subset_left _ (listed_subset item),
        List.subset_append_of_subset_right _ (listedAll_subset rest)⟩

end

theorem leaves_of_item {value : ValueOf α} : ∀ {items : List (ValueOf α)}, value ∈ items →
    leaves value ⊆ leavesOfItems items
  | item :: rest, mem => by
      rcases List.mem_cons.mp mem with rfl | mem
      · exact List.subset_append_left _ _
      · exact List.subset_append_of_subset_right _ (leaves_of_item mem)

theorem leaves_of_field {name : String} {value : ValueOf α} : ∀ {fields : List (String × ValueOf α)},
    Fields.get? name fields = some value → leaves value ⊆ leavesOfFields fields
  | (other, inner) :: rest, found => by
      rw [Fields.get?, List.lookup_cons] at found
      split at found
      · cases found
        exact List.subset_append_left _ _
      · exact List.subset_append_of_subset_right _ (leaves_of_field found)

theorem leaves_step? {last : Bool} {segment : String} {value inner : ValueOf α}
    (found : ValueOf.step? last segment value = some inner) : leaves inner ⊆ leaves value := by
  cases value with
  | map fields => exact leaves_of_field found
  | list items =>
      simp only [ValueOf.step?] at found
      split at found
      · cases found
        exact List.nil_subset _
      · obtain ⟨index, -, here⟩ := Option.bind_eq_some_iff.mp found
        exact leaves_of_item (List.mem_of_getElem? here)
  | string content =>
      simp only [ValueOf.step?] at found
      split at found
      · cases found
        exact List.nil_subset _
      · cases found
  | null => cases found
  | bool flag => cases found
  | number x => cases found
  | nodes shown => cases found

theorem leaves_find? : ∀ {segments : List String} {value inner : ValueOf α},
    ValueOf.find? segments value = some inner → leaves inner ⊆ leaves value
  | [], value, inner, found => by
      cases found
      exact List.Subset.refl _
  | segment :: rest, value, inner, found => by
      obtain ⟨next, one, others⟩ := Option.bind_eq_some_iff.mp found
      exact List.Subset.trans (leaves_find? others) (leaves_step? one)

/-- What a path leads to lists templates of the context. -/
theorem listed_valueAt (context : ValueOf α) (path : Path) : listed (valueAt context path) ⊆ leaves context := by
  unfold valueAt
  cases found : context.find? path.segments with
  | none => exact List.nil_subset _
  | some value => exact List.Subset.trans (listed_subset value) (leaves_find? found)

end Leaves

/-! ## Turns -/

/-- One showing of a selection. -/
structure Turn where
  selection : Option String
  context : Value
  nodes : List NodeId

/-- The turns lead from one pass to another. The pile holds what earlier turns
gave; a turn takes its context from the top and leaves its own nodes there. -/
def Plays (template : Template) : List Turn → Pass → List (List NodeId) → Pass → List (List NodeId) → Prop
  | [], pass, pile, pass', pile' => pass' = pass ∧ pile' = pile
  | turn :: rest, pass, pile, pass', pile' => ∃ pass₁ under, pile = under ++ leaves turn.context ∧
      Passing.showNext template turn.selection turn.context pass = .ok turn.nodes pass₁ ∧
      Plays template rest pass₁ (under ++ [turn.nodes]) pass' pile'

/-- The turns lead from one pass to another, whatever lies on the pile. -/
def Repeats (template : Template) : List Turn → Pass → Pass → Prop
  | [], pass, pass' => pass' = pass
  | turn :: rest, pass, pass' => ∃ pass₁,
      Passing.showNext template turn.selection turn.context pass = .ok turn.nodes pass₁ ∧
      Repeats template rest pass₁ pass'

mutual

/-- The selections of a datum with their fields, in the order in which they are shown. -/
def showings : Datum → List (Option String × Fields Datum)
  | .list items => showingsOfItems items
  | .record fields => showingsOfFields fields
  | .template name fields => showingsOfFields fields ++ [(some name, fields)]
  | _ => []

def showingsOfItems : List Datum → List (Option String × Fields Datum)
  | [] => []
  | item :: rest => showings item ++ showingsOfItems rest

def showingsOfFields : List (String × Datum) → List (Option String × Fields Datum)
  | [] => []
  | (_, datum) :: rest => showings datum ++ showingsOfFields rest

end

section Throughout

variable {holds : Option String → Fields Datum → Prop}

mutual

/-- What holds throughout a datum holds of all its selections. -/
theorem throughout_iff : ∀ datum : Datum, Throughout holds datum ↔ ∀ s ∈ showings datum, holds s.1 s.2
  | .null => by simp [Throughout, showings]
  | .bool _ => by simp [Throughout, showings]
  | .number _ => by simp [Throughout, showings]
  | .text _ => by simp [Throughout, showings]
  | .list items => throughoutItems_iff items
  | .record fields => throughoutFields_iff fields
  | .template name fields => by
      rw [Throughout, throughoutFields_iff fields, showings, List.forall_mem_append, and_comm]
      simp

theorem throughoutItems_iff : ∀ items : List Datum,
    ThroughoutItems holds items ↔ ∀ s ∈ showingsOfItems items, holds s.1 s.2
  | [] => by simp [ThroughoutItems, showingsOfItems]
  | item :: rest => by
      rw [ThroughoutItems, throughout_iff item, throughoutItems_iff rest, showingsOfItems,
        List.forall_mem_append]

theorem throughoutFields_iff : ∀ fields : List (String × Datum),
    ThroughoutFields holds fields ↔ ∀ s ∈ showingsOfFields fields, holds s.1 s.2
  | [] => by simp [ThroughoutFields, showingsOfFields]
  | (_, datum) :: rest => by
      rw [ThroughoutFields, throughout_iff datum, throughoutFields_iff rest, showingsOfFields,
        List.forall_mem_append]

end

/-- What holds of the root and throughout its fields holds of all that is shown. -/
theorem throughoutRoot_iff {selection : Option String} {fields : Fields Datum} :
    holds selection fields ∧ ThroughoutFields holds fields ↔
      ∀ s ∈ showingsOfFields fields ++ [(selection, fields)], holds s.1 s.2 := by
  rw [List.forall_mem_append, ← throughoutFields_iff, and_comm]
  simp

end Throughout

/-- The turn shows a selection; what stood for templates in its context depends on
the pass, and nothing else. -/
def Turn.Tells (source : Option String × Fields Datum) (turn : Turn) : Prop :=
  turn.selection = source.1 ∧
    ∃ f : Nat → List NodeId, turn.context = (ValueOf.map (outlineOfFields 0 source.2)).relabel f

/-- The context is that of fields of which the content reaches no template twice. -/
def Turn.Once (library : Library) (turn : Turn) : Prop :=
  ∃ fields : Fields Datum, turn.Tells (turn.selection, fields) ∧ Disjointly library turn.selection fields

variable {template : Template} {library : Library}

theorem Plays.append {second : List Turn} : ∀ {first : List Turn} {pass pass₁ pass' : Pass}
    {pile pile₁ pile' : List (List NodeId)}, Plays template first pass pile pass₁ pile₁ →
      Plays template second pass₁ pile₁ pass' pile' → Plays template (first ++ second) pass pile pass' pile'
  | [], _, _, _, _, _, _, ⟨rfl, rfl⟩, later => later
  | _ :: _, _, _, _, _, _, _, ⟨pass₂, under, split, shown, rest⟩, later =>
      ⟨pass₂, under, split, shown, rest.append later⟩

theorem repeats_append {second : List Turn} : ∀ {first : List Turn} {pass pass' : Pass},
    Repeats template (first ++ second) pass pass' ↔
      ∃ pass₁, Repeats template first pass pass₁ ∧ Repeats template second pass₁ pass'
  | [], pass, pass' => by simp [Repeats]
  | turn :: rest, pass, pass' => by
      simp only [List.cons_append, Repeats, repeats_append]
      constructor
      · rintro ⟨pass₁, shown, pass₂, first, second⟩
        exact ⟨pass₂, ⟨pass₁, shown, first⟩, second⟩
      · rintro ⟨pass₂, ⟨pass₁, shown, first⟩, second⟩
        exact ⟨pass₁, shown, pass₂, first, second⟩

/-- What a stretch of a pass is: its turns show the selections of the data one
after the other, they give what it adds to the pile, and it does the same wherever
they do the same. -/
structure Stretch {α : Type} (template : Template) (resolved : Passing α) (answer : α) (turns : List Turn)
    (pass pass' : Pass) (given : List (List NodeId)) (sources : List (Option String × Fields Datum)) : Prop where
  plays : ∀ pile, Plays template turns pass pile pass' (pile ++ given)
  repeats : ∀ q q', Repeats template turns q q' → resolved q = .ok answer q'
  told : List.Forall₂ (fun source turn => turn.Tells source) sources turns

theorem Stretch.pure {α : Type} (answer : α) (pass : Pass) :
    Stretch template (pure answer) answer [] pass pass [] [] :=
  ⟨fun pile => ⟨rfl, List.append_nil pile⟩, fun _ _ same => by cases same; rfl, .nil⟩

/-- Where the data reach no template twice, neither do the turns. -/
theorem once_of_told {library : Library} {sources : List (Option String × Fields Datum)} {turns : List Turn}
    (told : List.Forall₂ (fun source turn => turn.Tells source) sources turns)
    (disjoint : ∀ s ∈ sources, Disjointly library s.1 s.2) : ∀ turn ∈ turns, turn.Once library := by
  induction told with
  | nil => nofun
  | @cons source turn sources turns tells _ ih =>
      obtain ⟨first, later⟩ := List.forall_mem_cons.mp disjoint
      refine List.forall_mem_cons.mpr ⟨⟨source.2, ⟨rfl, tells.2⟩, ?_⟩, ih later⟩
      rw [tells.1]
      exact first

/-- A value whose templates were numbered from a first number on. -/
def Numbered {α β : Type} (relabelled : Nat → (Nat → α) → β) (value : β) : Prop :=
  ∀ first, ∃ f, value = relabelled first f

mutual

theorem resolve_stretch : ∀ (datum : Datum) {pass pass' : Pass} {value : Value},
    Passing.resolve template datum pass = .ok value pass' → ∃ turns,
      Stretch template (Passing.resolve template datum) value turns pass pass' (leaves value)
        (showings datum) ∧
      Numbered (fun first f => (outline first datum).relabel f) value
  | .null, pass, pass', value, done => by
      cases done
      exact ⟨[], .pure _ _, fun _ => ⟨fun _ => [], rfl⟩⟩
  | .bool _, pass, pass', value, done => by
      cases done
      exact ⟨[], .pure _ _, fun _ => ⟨fun _ => [], rfl⟩⟩
  | .number _, pass, pass', value, done => by
      cases done
      exact ⟨[], .pure _ _, fun _ => ⟨fun _ => [], rfl⟩⟩
  | .text _, pass, pass', value, done => by
      cases done
      exact ⟨[], .pure _ _, fun _ => ⟨fun _ => [], rfl⟩⟩
  | .list items, pass, pass', value, done => by
      obtain ⟨values, pass₁, resolved, last⟩ := of_bind_ok done
      cases last
      obtain ⟨turns, stretch, numbered⟩ := resolveItems_stretch items resolved
      refine ⟨turns, ⟨stretch.plays, fun q q' again => ?_, stretch.told⟩, fun first => ?_⟩
      · exact bind_ok (stretch.repeats q q' again)
      · obtain ⟨f, same⟩ := numbered first
        exact ⟨f, congrArg ValueOf.list same⟩
  | .record fields, pass, pass', value, done => by
      obtain ⟨values, pass₁, resolved, last⟩ := of_bind_ok done
      cases last
      obtain ⟨turns, stretch, numbered⟩ := resolveFields_stretch fields resolved
      refine ⟨turns, ⟨stretch.plays, fun q q' again => ?_, stretch.told⟩, fun first => ?_⟩
      · exact bind_ok (stretch.repeats q q' again)
      · obtain ⟨f, same⟩ := numbered first
        exact ⟨f, congrArg ValueOf.map same⟩
  | .template name fields, pass, pass', value, done => by
      obtain ⟨values, pass₁, resolved, done⟩ := of_bind_ok done
      obtain ⟨nodes, pass₂, shown, last⟩ := of_bind_ok done
      cases last
      obtain ⟨turns, stretch, numbered⟩ := resolveFields_stretch fields resolved
      obtain ⟨f, same⟩ := numbered 0
      have tells : Turn.Tells (some name, fields) ⟨some name, .map values, nodes⟩ :=
        ⟨rfl, f, congrArg ValueOf.map same⟩
      refine ⟨turns ++ [⟨some name, .map values, nodes⟩], ⟨fun pile => ?_, fun q q' again => ?_,
        List.rel_append stretch.told (.cons tells .nil)⟩, fun first => ⟨fun _ => nodes, rfl⟩⟩
      · exact (stretch.plays pile).append ⟨_, pile, rfl, shown, rfl, rfl⟩
      · obtain ⟨q₁, first, q₂, again', rfl⟩ := repeats_append.mp again
        refine (bind_ok (stretch.repeats q q₁ first)).trans ?_
        exact bind_ok again'

theorem resolveItems_stretch : ∀ (items : List Datum) {pass pass' : Pass}
    {values : List Value}, Passing.resolveItems template items pass = .ok values pass' → ∃ turns,
      Stretch template (Passing.resolveItems template items) values turns pass pass'
        (leavesOfItems values) (showingsOfItems items) ∧
      Numbered (fun first f => ValueOf.relabelItems f (outlineOfItems first items)) values
  | [], pass, pass', values, done => by
      cases done
      exact ⟨[], .pure _ _, fun _ => ⟨fun _ => [], rfl⟩⟩
  | item :: rest, pass, pass', values, done => by
      obtain ⟨value, pass₁, resolved, done⟩ := of_bind_ok done
      obtain ⟨others, pass₂, resolved', last⟩ := of_bind_ok done
      cases last
      obtain ⟨turns, one, numbered⟩ := resolve_stretch item resolved
      obtain ⟨turns', two, numbered'⟩ := resolveItems_stretch rest resolved'
      refine ⟨turns ++ turns', ⟨fun pile => ?_, fun q q' again => ?_, List.rel_append one.told two.told⟩,
        fun first => ?_⟩
      · have both := (one.plays pile).append (two.plays (pile ++ leaves value))
        rwa [List.append_assoc] at both
      · obtain ⟨q₁, again, again'⟩ := repeats_append.mp again
        refine (bind_ok (one.repeats q q₁ again)).trans ?_
        exact bind_ok (two.repeats q₁ q' again')
      · obtain ⟨f, same⟩ := numbered first
        obtain ⟨g, same'⟩ := numbered' (first + templateCount item)
        refine ⟨fun n => if n < first + templateCount item then f n else g n, ?_⟩
        have early := outline_congr (f := fun n => if n < first + templateCount item then f n else g n)
          (g := f) item first fun n _ high => if_pos high
        have late := outlineOfItems_congr (f := fun n => if n < first + templateCount item then f n else g n)
          (g := g) rest (first + templateCount item) fun n low _ => if_neg (by omega)
        simp only [outlineOfItems, ValueOf.relabelItems, early, late, ← same, ← same']

theorem resolveFields_stretch : ∀ (fields : List (String × Datum)) {pass pass' : Pass}
    {values : List (String × Value)}, Passing.resolveFields template fields pass = .ok values pass' →
      ∃ turns, Stretch template (Passing.resolveFields template fields) values turns pass pass'
        (leavesOfFields values) (showingsOfFields fields) ∧
      Numbered (fun first f => ValueOf.relabelFields f (outlineOfFields first fields)) values
  | [], pass, pass', values, done => by
      cases done
      exact ⟨[], .pure _ _, fun _ => ⟨fun _ => [], rfl⟩⟩
  | (name, datum) :: rest, pass, pass', values, done => by
      obtain ⟨value, pass₁, resolved, done⟩ := of_bind_ok done
      obtain ⟨others, pass₂, resolved', last⟩ := of_bind_ok done
      cases last
      obtain ⟨turns, one, numbered⟩ := resolve_stretch datum resolved
      obtain ⟨turns', two, numbered'⟩ := resolveFields_stretch rest resolved'
      refine ⟨turns ++ turns', ⟨fun pile => ?_, fun q q' again => ?_, List.rel_append one.told two.told⟩,
        fun first => ?_⟩
      · have both := (one.plays pile).append (two.plays (pile ++ leaves value))
        rwa [List.append_assoc] at both
      · obtain ⟨q₁, again, again'⟩ := repeats_append.mp again
        refine (bind_ok (one.repeats q q₁ again)).trans ?_
        exact bind_ok (two.repeats q₁ q' again')
      · obtain ⟨f, same⟩ := numbered first
        obtain ⟨g, same'⟩ := numbered' (first + templateCount datum)
        refine ⟨fun n => if n < first + templateCount datum then f n else g n, ?_⟩
        have early := outline_congr (f := fun n => if n < first + templateCount datum then f n else g n)
          (g := f) datum first fun n _ high => if_pos high
        have late := outlineOfFields_congr (f := fun n => if n < first + templateCount datum then f n else g n)
          (g := g) rest (first + templateCount datum) fun n low _ => if_neg (by omega)
        simp only [outlineOfFields, ValueOf.relabelFields, early, late, ← same, ← same']

end

/-- Showing the fields of a selection and then the selection itself. -/
theorem show_stretch {selection : Option String} {fields : Fields Datum} {pass pass' : Pass} {nodes : List NodeId}
    (done : (Passing.resolveFields template fields >>= fun values =>
      Passing.showNext template selection (.map values)) pass = .ok nodes pass') :
    ∃ turns, Stretch template (Passing.resolveFields template fields >>= fun values =>
        Passing.showNext template selection (.map values)) nodes turns pass pass' [nodes]
      (showingsOfFields fields ++ [(selection, fields)]) := by
  obtain ⟨values, pass₁, resolved, shown⟩ := of_bind_ok done
  obtain ⟨turns, stretch, numbered⟩ := resolveFields_stretch fields resolved
  obtain ⟨f, same⟩ := numbered 0
  have tells : Turn.Tells (selection, fields) ⟨selection, .map values, nodes⟩ := ⟨rfl, f, congrArg ValueOf.map same⟩
  refine ⟨turns ++ [⟨selection, .map values, nodes⟩], ⟨fun pile => ?_, fun q q' again => ?_,
    List.rel_append stretch.told (.cons tells .nil)⟩⟩
  · exact (stretch.plays pile).append ⟨_, pile, rfl, shown, rfl, rfl⟩
  · obtain ⟨q₁, first, q₂, again', rfl⟩ := repeats_append.mp again
    exact (bind_ok (stretch.repeats q q₁ first)).trans again'

/-- A turn that reaches no template twice reaches nodes without repetition, when
no node is in two of its templates. -/
theorem Turn.Once.nodup {turn : Turn} (once : turn.Once library)
    (nodup : (leaves turn.context).flatten.Nodup) :
    (reached (library turn.selection) turn.context).flatten.Nodup := by
  obtain ⟨fields, ⟨-, f, same⟩, disjoint⟩ := once
  have all : leaves turn.context = (List.range' 0 (templateCountOfFields fields)).map f := by
    rw [same, leaves_relabel]
    exact congrArg (List.map f) (leavesOfFields_outline fields 0)
  have some_ : reached (library turn.selection) turn.context =
      (reachedNumbers (library turn.selection) fields).map f := by
    rw [same, reached_relabel]
    rfl
  have range : ∀ n ∈ reachedNumbers (library turn.selection) fields,
      n ∈ List.range' 0 (templateCountOfFields fields) := fun n mem => by
    simpa using lt_of_mem_reachedNumbers mem
  rw [all, ← List.flatMap_def, List.nodup_flatMap] at nodup
  rw [some_, ← List.flatMap_def, List.nodup_flatMap]
  obtain ⟨each, apart⟩ := nodup
  refine ⟨fun n mem => each n (range n mem), ?_⟩
  have distinct : ∀ m ∈ List.range' 0 (templateCountOfFields fields),
      ∀ n ∈ List.range' 0 (templateCountOfFields fields), m ≠ n → List.Disjoint (f m) (f n) := by
    have : Std.Symm (Function.onFun List.Disjoint f) := ⟨fun _ _ away => away.symm⟩
    exact fun m first n second ne => apart.forall first second ne
  exact List.Pairwise.imp_of_mem (fun here there ne => distinct _ (range _ here) _ (range _ there) ne) disjoint

end Inlay.Render
