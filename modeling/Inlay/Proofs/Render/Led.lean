/-
# Proofs.Render.Led — every binding leads to the copy of its place

The bindings of a compiled template are the open places of its content, and in
every document an instance is made whose slots write to the copies of these
places (`bindings_led`): the child indices of a binding lead from the fragment
of the instance to the copy of the node that the same indices lead to in the
prototype, and the index of an attribute to the copy of that attribute. What is
written later changes no slot for one of another kind.
-/
import Inlay.Proofs.Render.FirstPass
import Inlay.Proofs.Render.Turns
import Inlay.Proofs.Template.Places
import Mathlib.Data.List.Forall2

namespace Inlay.Render

set_option autoImplicit false

open Inlay.Document Inlay.Document.Planted Inlay.Markup
open Inlay.Template hiding root

variable {d : Document} {fragment node : NodeId} {content : List Tree} {binding : Binding} {slot : Slot}

/-- A slot for what a binding writes, at any node. -/
inductive Slot.Serves : Slot → Target → Prop
  | text {node : NodeId} {pattern : Pattern} : Serves (.text node pattern) (.text pattern)
  | textareaValue {holder : NodeId} {pattern : Pattern} :
      Serves (.textareaValue holder pattern) (.textareaValue pattern)
  | attribute {holder : NodeId} {index : Nat} {name : String} {pattern : Pattern}
      {property : Option LiveProperty} :
      Serves (.attribute holder name pattern property) (.attribute index name pattern property)
  | anchor {path : Path} {a : Anchor} : Serves (.anchor path a) (.anchor path)

/-- A slot that writes to a node what a binding of the node writes. -/
inductive Slot.WritesTo (d : Document) (node : NodeId) : Slot → Target → Prop
  | text {pattern : Pattern} : WritesTo d node (.text node pattern) (.text pattern)
  | textareaValue {holder : NodeId} {pattern : Pattern} : d.parent? node = some holder →
      d.tag? holder = some "textarea" →
      WritesTo d node (.textareaValue holder pattern) (.textareaValue pattern)
  | attribute {index : Nat} {name : String} {pattern : Pattern} {property : Option LiveProperty}
      {e : Element} : d.element? node = some e → e.attributes[index]? = some ⟨name, ""⟩ →
      WritesTo d node (.attribute node name pattern property) (.attribute index name pattern property)
  | anchor {path : Path} : WritesTo d node (.anchor path (.new node)) (.anchor path)

/-- A binding leads from a fragment to the copy of its place, and the slot writes there. -/
def Led (d : Document) (fragment : NodeId) (content : List Tree) (binding : Binding) (slot : Slot) : Prop :=
  ∃ node tree, Slot.resolve? d fragment binding.path = some node ∧
    treeAt? content binding.path = some tree ∧ d.tree? node = some tree ∧
    slot.WritesTo d node binding.target

theorem Slot.WritesTo.serves {target : Target} (writes : slot.WritesTo d node target) :
    slot.Serves target := by
  cases writes <;> constructor

/-! ## Slots keep their kinds -/

theorem Slot.Serves.spoiled {target : Target} (serves : slot.Serves target) :
    slot.spoiled.Serves target := by
  cases serves <;> constructor

theorem Slot.Serves.write {target : Target} {context : Value} {stage stage' : Stage} {slot' : Slot}
    (serves : slot.Serves target) (done : slot.write context stage = .ok slot' stage') :
    slot'.Serves target := by
  cases serves <;> obtain ⟨_, _, _, last⟩ := of_bind_ok done <;> cases last <;> constructor

/-- Writing a context leaves every slot one for its binding, also when it fails. -/
theorem serves_writeAll (context : Value) {bindings : List Binding} {slots : List Slot} (stage : Stage)
    (serve : List.Forall₂ (fun binding slot => slot.Serves binding.target) bindings slots) :
    List.Forall₂ (fun binding slot => slot.Serves binding.target) bindings
      (Slot.writeAll context slots stage).1.2 := by
  induction serve generalizing stage with
  | nil => exact .nil
  | @cons _ slot _ _ serves others ih =>
      cases done : slot.write context stage with
      | error fault stage' =>
          simp only [Slot.writeAll, done]
          exact .cons serves.spoiled others
      | ok slot' stage' =>
          simp only [Slot.writeAll, done]
          exact .cons (serves.write done) (ih stage')

/-! ## The copy of a place -/

/-- The copy of what child indices lead to, in the copy of a tree. -/
structure CopyAt (d : Document) (start : NodeId) (path : List Nat) (place : Option String × Tree)
    (r : Planted) : Prop where
  stands : r.Stands d
  tree : r.tree = place.2
  resolved : Slot.resolve? d start path = some r.root

/-- Child indices lead to the copy of what they lead to in a tree; below its top
the copy stands in an element of the tag that the tree has there. -/
theorem exists_copyAt_within (wf : WellFormed d) : ∀ (sub : List Nat) {p : Planted} {parent : Option String}
    {place : Option String × Tree}, p.Stands d → within parent p.tree sub = some place →
    ∃ r, CopyAt d p.root sub place r ∧ (r = p ∧ place.1 = parent ∨
      ∃ tag holder, place.1 = some tag ∧ d.parent? r.root = some holder ∧ d.tag? holder = some tag)
  | [], p, parent, place, stands, here => by
      have same : place = (parent, p.tree) := by
        cases p <;> exact (Option.some.inj here).symm
      subst same
      exact ⟨p, ⟨stands, rfl, rfl⟩, .inl ⟨rfl, rfl⟩⟩
  | index :: sub, .text id words, parent, place, stands, here => by cases here
  | index :: sub, .comment id body, parent, place, stands, here => by cases here
  | index :: sub, .element id tag attributes children, parent, place, ⟨⟨e, found, isTag, _⟩, kids, stand⟩, here => by
      simp only [Planted.tree, within, Option.bind_eq_some_iff] at here
      obtain ⟨child, there, inside⟩ := here
      rw [trees_eq_map, List.getElem?_map] at there
      obtain ⟨p, at_, rfl⟩ := Option.map_eq_some_iff.mp there
      have member := List.mem_of_getElem? at_
      obtain ⟨r, copy, above⟩ := exists_copyAt_within wf sub (standAll_iff.mp stand p member) inside
      have step : Slot.resolve? d id (index :: sub) = Slot.resolve? d p.root sub := by
        simp [Slot.resolve?, childAt?, kids, at_]
      refine ⟨r, ⟨copy.stands, copy.tree, step.trans copy.resolved⟩, .inr ?_⟩
      rcases above with ⟨rfl, isParent⟩ | deeper
      · refine ⟨tag, id, isParent, wf.parent_iff.mpr ?_, ?_⟩
        · rw [kids]
          exact List.mem_map_of_mem member
        · rw [tag?, element?, found]
          exact congrArg some isTag
      · exact deeper

/-- In a fragment that holds the copy of a content. -/
theorem exists_copyAt (wf : WellFormed d) {ps : List Planted} {path : List Nat} {place : Option String × Tree}
    (stand : StandAll d ps) (kids : d.children fragment = ps.map root)
    (here : placeAt? (trees ps) path = some place) :
    ∃ r, CopyAt d fragment path place r ∧ ∀ tag, place.1 = some tag →
      ∃ holder, d.parent? r.root = some holder ∧ d.tag? holder = some tag := by
  cases path with
  | nil => cases here
  | cons index sub =>
      simp only [placeAt?, amongst, Nat.zero_le, if_true, Nat.sub_zero, Option.bind_eq_some_iff] at here
      obtain ⟨child, there, inside⟩ := here
      rw [trees_eq_map, List.getElem?_map] at there
      obtain ⟨p, at_, rfl⟩ := Option.map_eq_some_iff.mp there
      have member := List.mem_of_getElem? at_
      obtain ⟨r, copy, above⟩ := exists_copyAt_within wf sub (standAll_iff.mp stand p member) inside
      have step : Slot.resolve? d fragment (index :: sub) = Slot.resolve? d p.root sub := by
        simp [Slot.resolve?, childAt?, kids, at_]
      refine ⟨r, ⟨copy.stands, copy.tree, step.trans copy.resolved⟩, fun tag isTag => ?_⟩
      rcases above with ⟨-, isNone⟩ | ⟨tag', holder, isSome, up, named⟩
      · rw [isNone] at isTag
        cases isTag
      · rw [isSome] at isTag
        cases isTag
        exact ⟨holder, up, named⟩

/-! ## Instances -/

mutual

theorem tree_clearedPlant : ∀ r : Planted, (clearedPlant r).tree = clearedTree r.tree
  | .text _ _ => rfl
  | .comment _ _ => rfl
  | .element _ _ _ children => by
      rw [clearedPlant, Planted.tree, trees_clearedPlants children]
      rfl

theorem trees_clearedPlants : ∀ rs : List Planted, trees (clearedPlants rs) = cleared (trees rs)
  | [] => rfl
  | r :: rest => by
      rw [clearedPlants, trees, tree_clearedPlant r, trees_clearedPlants rest]
      rfl

end

/-- What is bound in a fragment are the bindings, each led to its node. -/
theorem forall₂_of_bindAll {label : String} : ∀ {bindings : List Binding} {slots : List Slot},
    Instance.bindAll label d fragment bindings = .ok slots →
    List.Forall₂ (fun binding slot => Slot.bind? d fragment binding = some slot) bindings slots
  | [], slots, bound => by
      cases bound
      exact .nil
  | binding :: rest, slots, bound => by
      cases first : Slot.bind? d fragment binding with
      | none => simp [Instance.bindAll, first] at bound
      | some slot =>
          cases others : Instance.bindAll label d fragment rest with
          | error fault => simp [Instance.bindAll, first, others, bind, Except.bind] at bound
          | ok more =>
              simp only [Instance.bindAll, first, others, bind, Except.bind] at bound
              cases bound
              exact .cons first (forall₂_of_bindAll others)

/-- The copy of an element has its attributes. -/
theorem element_of_copy {start : NodeId} {path : List Nat} {parent : Option String} {tag : String}
    {attributes : List Attribute} {children : List Tree} {r : Planted}
    (copy : CopyAt d start path (parent, .element tag attributes children) r) :
    ∃ e, d.element? r.root = some e ∧ e.attributes = attributes := by
  obtain ⟨stands, same, -⟩ := copy
  cases r with
  | text id words => cases same
  | comment id body => cases same
  | element id tag' attributes' children' =>
      cases same
      obtain ⟨⟨e, found, -, isSame⟩, -⟩ := stands
      exact ⟨e, by rw [Planted.root, element?, found], isSame⟩

/-- In a fragment that holds the copy of a cleared content, a binding of an open
place of the content leads to the copy of the place, and its slot writes there. -/
theorem led_of_bound (wf : WellFormed d) {ps : List Planted} (stand : StandAll d ps)
    (kids : d.children fragment = ps.map root) (copied : trees ps = cleared content)
    {place : Option String × Tree} (here : placeAt? content binding.path = some place)
    (opened : Open place.2 binding.site.2) (suits : Suits place binding.target)
    (bound : Slot.bind? d fragment binding = some slot) :
    Led d fragment (cleared content) binding slot := by
  have there : placeAt? (trees ps) binding.path = some (place.1, clearedTree place.2) := by
    rw [copied, placeAt?_cleared, here]
    rfl
  obtain ⟨r, copy, above⟩ := exists_copyAt wf stand kids there
  refine ⟨r.root, clearedTree place.2, copy.resolved, ?_, ?_, ?_⟩
  · rw [treeAt?, ← copied, there]
    rfl
  · rw [copy.stands.tree?_eq wf, copy.tree]
  obtain ⟨path, target⟩ := binding
  simp only [Slot.bind?, copy.resolved, Option.bind_eq_bind, Option.bind_some] at bound
  obtain ⟨other, read⟩ | read | @⟨parent, tag, attributes, children, index, a, pattern, at_, read⟩ |
    ⟨source, read⟩ := suits
  · cases bound
    exact .text
  · obtain ⟨holder, up, named⟩ := above _ rfl
    simp only [up] at bound
    cases bound
    exact .textareaValue up named
  · obtain ⟨e, found, same⟩ := element_of_copy copy
    -- what is cleared in a place that is open is empty
    have empty : clearAttribute a = ⟨a.name, ""⟩ := by
      obtain _ | _ | ⟨at', holds⟩ := opened
      cases at_.symm.trans at'
      rw [clearAttribute, clearText, if_pos (hasPlaceholder_iff.mpr holds)]
    have cleared : e.attributes[index]? = some ⟨a.name, ""⟩ := by
      rw [same, List.getElem?_map, at_, Option.map_some, empty]
    simp only [found, Option.bind_some, cleared] at bound
    cases bound
    exact .attribute found cleared
  · cases bound
    exact .anchor

/-- An instance whose slots write to the copies of the places of the bindings of
its prototype. -/
structure Instance.IsLed (d : Document) (prototype : Prototype) (inst : Instance) : Prop where
  holds : d.forest inst.fragment = prototype.content
  tops : inst.tops = d.children inst.fragment
  led : List.Forall₂ (Led d inst.fragment prototype.content) prototype.bindings inst.slots

/-- In every document an instance of a compiled prototype is made, and every
binding leads to the copy of its place. -/
theorem ofPrototype_led {prototype : Prototype} (compiled : CompiledFrom prototype content)
    (wf : WellFormed d) (claims : Claims) :
    ∃ inst d', Instance.ofPrototype prototype ⟨d, claims⟩ = .ok inst ⟨d', claims⟩ ∧ WellFormed d' ∧
      inst.IsLed d' prototype := by
  obtain ⟨fragment, rs, d', made, source, potted⟩ := ofPrototype_ok wf claims compiled
  refine ⟨_, d', made, potted.wellFormed, ?_⟩
  have copied : trees (clearedPlants rs) = cleared content := by rw [trees_clearedPlants, source]
  have kids : d'.children fragment = (clearedPlants rs).map root := potted.kids
  have heads : d'.children fragment = rs.map root := by rw [kids, map_root_clearedPlants]
  have bound : Instance.bindAll prototype.label d' fragment prototype.bindings =
      .ok (slotsAll .blank none rs) :=
    bindAll_eq potted.wellFormed potted.stand heads (source ▸ compiled.bound)
  refine ⟨?_, heads.symm, ?_⟩
  · rw [forest_eq potted.wellFormed potted.stand kids, copied, compiled.cleared]
  · rw [compiled.cleared]
    have sound := (listed_of_bindings compiled.bound).sound
    refine ((List.forall₂_and_left _ _).mpr ⟨fun _ mem => mem, forall₂_of_bindAll bound⟩).imp ?_
    rintro binding slot ⟨mem, isSlot⟩
    obtain ⟨sub, place, rfl, here, opened, suits⟩ := sound binding mem
    exact led_of_bound potted.wellFormed potted.stand kids copied here opened suits isSlot

theorem Led.serves (led : Led d fragment content binding slot) : slot.Serves binding.target := by
  obtain ⟨_, _, -, -, -, writes⟩ := led
  exact writes.serves

/-- Updates of an instance, each with a context and the stage it finds. -/
def Instance.updates (inst : Instance) (course : List (Value × Stage)) : Instance :=
  course.foldl (fun inst step => (inst.update step.1 step.2).1.2) inst

theorem Instance.updates_serve {bindings : List Binding} : ∀ (course : List (Value × Stage)) {inst : Instance},
    List.Forall₂ (fun binding slot => slot.Serves binding.target) bindings inst.slots →
    List.Forall₂ (fun binding slot => slot.Serves binding.target) bindings (inst.updates course).slots
  | [], _, serve => serve
  | (context, stage) :: rest, inst, serve =>
    have later : List.Forall₂ (fun binding slot => slot.Serves binding.target) bindings
        (inst.update context stage).1.2.slots := serves_writeAll context stage serve
    updates_serve rest later

/-- The bindings of a prototype that a source compiles to are the open places of
its content, in document order and each once; the prototype is the content with
these places cleared, and none of its own places is open. In every document an
instance is made, every binding leads to the copy of its place, and no update
gives a binding a slot of another kind. -/
theorem bindings_led {name source : String} {template : Template} {selection : Option String}
    {prototype : Prototype} (compiled : Template.compile name source = .ok template)
    (known : template.prototype? selection = some prototype) :
    Listed [] (placeAt? (Library.ofSource source selection)) prototype.bindings ∧
      prototype.content = cleared (Library.ofSource source selection) ∧
      (∀ path place index, placeAt? prototype.content path = some place → ¬ Open place.2 index) ∧
      ∀ (d : Document) (claims : Claims), WellFormed d → ∃ inst d',
        Instance.ofPrototype prototype ⟨d, claims⟩ = .ok inst ⟨d', claims⟩ ∧ WellFormed d' ∧
          inst.IsLed d' prototype ∧ ∀ course,
            List.Forall₂ (fun binding slot => slot.Serves binding.target) prototype.bindings
              (inst.updates course).slots := by
  have from_ := (compiled_of_compile compiled).of_selection known
  refine ⟨listed_of_bindings from_.bound, from_.cleared, fun path place index here => ?_,
    fun d claims wf => ?_⟩
  · exact closed_cleared (from_.cleared ▸ here) index
  · obtain ⟨inst, d', made, wf', led⟩ := ofPrototype_led from_ wf claims
    exact ⟨inst, d', made, wf', led, fun course =>
      Instance.updates_serve course (led.led.imp fun _ _ => Led.serves)⟩

namespace Sample

/-- A text, an attribute and a comment with placeholders, and a definition. -/
def leading : String :=
  "<p title=\"${t}\"> ${t}<b>b</b></p><!-- ${rows} --><template id=\"r\"><textarea>${t}</textarea></template>"

end Sample

/-- The sites of its root and of its definition, and an instance in a new document. -/
theorem bindings_led_page : ∃ template prototype,
    Template.compile "page" Sample.leading = .ok template ∧ template.prototype? (some "r") = some prototype ∧
      template.root.bindings.map Binding.site = [([0], some 0), ([0, 0], none), ([1], none)] ∧
      prototype.bindings.map Binding.site = [([0, 0], none)] ∧
      ∃ inst d', Instance.ofPrototype prototype ⟨.new, []⟩ = .ok inst ⟨d', []⟩ ∧ inst.IsLed d' prototype := by
  have sites : (Template.compile "page" Sample.leading).map (fun template =>
      (template.root.bindings.map Binding.site,
        (template.prototype? (some "r")).map fun prototype => prototype.bindings.map Binding.site)) =
      .ok ([([0], some 0), ([0, 0], none), ([1], none)], some [([0, 0], none)]) := by
    decide +kernel
  cases compiled : Template.compile "page" Sample.leading with
  | error fault => rw [compiled] at sites; cases sites
  | ok template =>
      simp only [compiled, Except.map, Except.ok.injEq, Prod.mk.injEq, Option.map_eq_some_iff] at sites
      obtain ⟨inRoot, prototype, known, inDefinition⟩ := sites
      obtain ⟨inst, d', made, -, led, -⟩ := (bindings_led compiled known).2.2.2 .new [] wellFormed_new
      exact ⟨template, prototype, rfl, known, inRoot, inDefinition, inst, d', made, led⟩

end Inlay.Render
