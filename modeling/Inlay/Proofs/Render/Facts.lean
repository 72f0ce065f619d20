/-
# Proofs.Render.Facts — what the slots of an instance say

Writing a context to a slot that is no anchor makes some facts hold of the
document: the data of a text, an attribute and the live property that follows it
(`Slot.facts`). A fact is about one place of one node, its cell, and what is
written elsewhere does not change it (`Wrote.keeps`).

When the facts of a slot hold already, writing the same context again changes
nothing, and counts nothing (`Slot.write_again`). A live property may differ all
the same, and is written then; that changes no HTML.
-/
import Inlay.Proofs.Render.Attire
import Inlay.Proofs.Render.Calm

namespace Inlay.Render

set_option autoImplicit false

open Inlay.Document Inlay.Markup

variable {d d' d'' : Document} {claims claims' : Claims} {id x : NodeId} {name : String}

/-! ## Facts -/

/-- What a slot writes of a node. -/
inductive Place where
  | data
  | attribute (name : String)
  | property (name : String)
  deriving DecidableEq

/-- A place of a node. -/
abbrev Cell := NodeId × Place

/-- A fact of the content of a node. -/
inductive Fact where
  | data (node : NodeId) (content : String)
  | element (node : NodeId)
  | wears (holder : NodeId) (name : String) (text : Option String)
  | property (holder : NodeId) (name : String) (value : Property)

namespace Fact

variable {f : Fact}

def node : Fact → NodeId
  | data node _ => node
  | element node => node
  | wears holder _ _ => holder
  | property holder _ _ => holder

/-- The cell a fact is about; that a node is an element is about none. -/
def cell? : Fact → Option Cell
  | data node _ => some (node, .data)
  | element _ => none
  | wears holder name _ => some (holder, .attribute name)
  | property holder name _ => some (holder, .property name)

/-- The fact is about a live property. -/
def isLive : Fact → Bool
  | property _ _ _ => true
  | _ => false

def Holds (d : Document) : Fact → Prop
  | data node content => d.data? node = some content
  | element node => ∃ e, d.content? node = some (.element e)
  | wears holder name text => ∃ e, d.content? holder = some (.element e) ∧ e.attribute? name = text
  | property holder name value =>
    ∃ e, d.content? holder = some (.element e) ∧ e.properties.get? name = some value

theorem Holds.content (holds : f.Holds d) : ∃ c, d.content? f.node = some c := by
  cases f with
  | data node content =>
      cases found : d.content? node with
      | none => simp [Holds, data?, found] at holds
      | some c => exact ⟨c, found⟩
  | element node => exact ⟨_, holds.choose_spec⟩
  | wears holder name text => exact ⟨_, holds.choose_spec.1⟩
  | property holder name value => exact ⟨_, holds.choose_spec.1⟩

theorem Holds.congr (holds : f.Holds d) (same : d'.content? f.node = d.content? f.node) : f.Holds d' := by
  cases f with
  | data node content =>
      have same : d'.content? node = d.content? node := same
      simpa only [Holds, data?, same] using holds
  | element node =>
      have same : d'.content? node = d.content? node := same
      simpa only [Holds, same] using holds
  | wears holder name text =>
      have same : d'.content? holder = d.content? holder := same
      simpa only [Holds, same] using holds
  | property holder name value =>
      have same : d'.content? holder = d.content? holder := same
      simpa only [Holds, same] using holds

theorem Holds.contains (holds : f.Holds d) : d.contains f.node = true :=
  contains_iff_content?.mpr holds.content

/-- A fact that is not about a live property does not see them. -/
theorem Holds.bare (holds : f.Holds d) (bare : SameBare d d') (dull : f.isLive = false) : f.Holds d' := by
  cases f with
  | data node content =>
      have here := bare node
      simp only [Holds, data?] at holds ⊢
      cases before : d.content? node with
      | none => simp [before] at holds
      | some c =>
          rw [before] at here holds
          obtain ⟨c', now, same⟩ := Option.map_eq_some_iff.mp (here.trans (Option.map_some ..))
          rw [now]
          cases c <;> cases c' <;> simp_all [bareContent]
  | element node =>
      obtain ⟨e, found⟩ := holds
      obtain ⟨e', now, -⟩ := bare.element found
      exact ⟨e', now⟩
  | wears holder name text =>
      obtain ⟨e, found, same⟩ := holds
      obtain ⟨e', now, -, attributes⟩ := bare.element found
      refine ⟨e', now, ?_⟩
      rw [Element.attribute?, attributes]
      exact same
  | property holder name value => cases dull

/-- Nothing that is written to the cells concerns the fact. -/
def Free (cells : List Cell) (f : Fact) : Prop := ∀ cell, f.cell? = some cell → cell ∉ cells

end Fact

/-! ## Writing facts -/

section Kind

variable (kind : (d'.content? x).map Content.isContainer = (d.content? x).map Content.isContainer)

include kind

/-- A node that takes children in both documents or in none lives in both or in none. -/
theorem contains_of_kind : d'.contains x = d.contains x := by
  have same := congrArg Option.isSome kind
  simp only [Option.isSome_map] at same
  simpa [Document.contains, content?] using same

theorem takes_of_kind (takes : ∃ c, d.content? x = some c ∧ c.isContainer = true) :
    ∃ c, d'.content? x = some c ∧ c.isContainer = true := by
  obtain ⟨c, found, takes⟩ := takes
  rw [found, Option.map_some] at kind
  obtain ⟨c', found', same⟩ := Option.map_eq_some_iff.mp kind
  exact ⟨c', found', same.trans takes⟩

end Kind

/-- The two documents have the same live nodes, and the same of them take children. -/
def SameKinds (d d' : Document) : Prop :=
  ∀ x, (d'.content? x).map Content.isContainer = (d.content? x).map Content.isContainer

namespace SameKinds

theorem refl (d : Document) : SameKinds d d := fun _ => rfl

theorem trans (first : SameKinds d d') (second : SameKinds d' d'') : SameKinds d d'' := fun x =>
  (second x).trans (first x)

theorem contains (kinds : SameKinds d d') (x : NodeId) : d'.contains x = d.contains x :=
  contains_of_kind (kinds x)

theorem of_bare (bare : SameBare d d') : SameKinds d d' := by
  have blind : ∀ c : Option Content, c.map Content.isContainer = (c.map bareContent).map Content.isContainer := by
    intro c
    rw [Option.map_map]
    refine congrArg (Option.map · c) (funext fun c => ?_)
    cases c <;> rfl
  intro x
  rw [blind, bare x, ← blind]

theorem of_putContent {old new : Content} (found : d.content? id = some old) (kind : SameKind old new)
    (becomes : Becomes d d' (putContent id new d.content?) d.children) : SameKinds d d' := by
  intro x
  rw [becomes.content, putContent]
  split
  · next here =>
    subst here
    rw [found, Option.map_some, Option.map_some]
    cases kind <;> rfl
  · rfl

end SameKinds

/-- Some facts were made to hold, by writing to their cells only. -/
structure Wrote (d d' : Document) (facts : List Fact) : Prop where
  wellFormed : WellFormed d'
  children : d'.children = d.children
  kinds : SameKinds d d'
  body : d'.body = d.body
  tells : ∀ f ∈ facts, f.Holds d'
  keeps : ∀ f : Fact, f.Holds d → f.Free (facts.filterMap Fact.cell?) → f.Holds d'

namespace Wrote

variable {facts more : List Fact}

theorem trans (first : Wrote d d' facts) (second : Wrote d' d'' more)
    (free : ∀ f ∈ facts, f.Free (more.filterMap Fact.cell?)) : Wrote d d'' (facts ++ more) where
  wellFormed := second.wellFormed
  children := second.children.trans first.children
  kinds := first.kinds.trans second.kinds
  body := second.body.trans first.body
  tells := by
    intro f mem
    rcases List.mem_append.mp mem with old | new
    · exact second.keeps f (first.tells f old) (free f old)
    · exact second.tells f new
  keeps := by
    intro f holds away
    rw [List.filterMap_append] at away
    have one := first.keeps f holds fun cell here mem => away cell here (List.mem_append_left _ mem)
    exact second.keeps f one fun cell here mem => away cell here (List.mem_append_right _ mem)

end Wrote

theorem wrote_data {node : NodeId} {value : String} {changed : Bool} (wf : WellFormed d)
    (done : setText node value d = .ok changed d') : Wrote d d' [.data node value] := by
  cases live : d.liveData node with
  | error fault => simp [setText, Edit.checked, live] at done
  | ok old =>
      have new : ∃ c, Becomes d d' (putContent node c d.content?) d.children ∧
          (∃ c₀, d.content? node = some c₀ ∧ SameKind c₀ c) ∧
          (c = .text value ∨ c = .comment value) := by
        rcases content_of_liveData live with found | found
        · obtain ⟨changed', d₁, done', becomes⟩ := setText_text wf found value
          rw [done] at done'
          cases done'
          exact ⟨_, becomes, ⟨_, found, .text _ _⟩, .inl rfl⟩
        · obtain ⟨changed', d₁, done', becomes⟩ := setText_comment wf found value
          rw [done] at done'
          cases done'
          exact ⟨_, becomes, ⟨_, found, .comment _ _⟩, .inr rfl⟩
      obtain ⟨c, becomes, ⟨c₀, found, kind⟩, cases_⟩ := new
      have now : d'.content? node = some c := by rw [becomes.content, putContent, if_pos rfl]
      refine ⟨becomes.wellFormed, becomes.children, .of_putContent found kind becomes, becomes.body, ?_, ?_⟩
      · intro f mem
        rw [List.mem_singleton.mp mem]
        rcases cases_ with rfl | rfl <;> simp [Fact.Holds, data?, now]
      · intro f holds away
        by_cases here : f.node = node
        · -- the node is no element, so the fact would be about the same cell
          have leaf : ∀ e, d.content? node ≠ some (.element e) := by
            intro e element
            rw [found] at element
            cases element
            cases kind
            rcases cases_ with same | same <;> cases same
          cases f with
          | data other content =>
              subst here
              exact absurd (List.mem_singleton_self _) (away _ rfl)
          | element other =>
              subst here
              exact absurd holds.choose_spec (leaf _)
          | wears other name text =>
              subst here
              exact absurd holds.choose_spec.1 (leaf _)
          | property other name property =>
              subst here
              exact absurd holds.choose_spec.1 (leaf _)
        · refine holds.congr ?_
          rw [becomes.content, putContent, if_neg here]

theorem find?_putAttribute {name other value : String} : ∀ attributes : List Attribute,
    Attribute.find? other (putAttribute name value attributes) =
      if other = name then some value else Attribute.find? other attributes
  | [] => by
      by_cases same : other = name
      · simp [putAttribute, Attribute.find?, same]
      · simp [putAttribute, Attribute.find?, same, Ne.symm same]
  | a :: rest => by
      have ih : Attribute.find? other (putAttribute name value rest) =
          if other = name then some value else Attribute.find? other rest := find?_putAttribute rest
      simp only [Attribute.find?] at ih
      by_cases here : a.name = name
      · by_cases same : other = name
        · simp [putAttribute, Attribute.find?, here, same]
        · simp [putAttribute, Attribute.find?, here, same, Ne.symm same]
      · by_cases same : a.name = other
        · have ne : other ≠ name := same ▸ here
          simp [putAttribute, Attribute.find?, same, ne]
        · simp only [putAttribute, if_neg here, Attribute.find?, List.find?_cons, same, decide_false]
          exact ih

theorem find?_attired {name other : String} (text : Option String) (attributes : List Attribute) :
    Attribute.find? other (attired name text attributes) =
      if other = name then text else Attribute.find? other attributes := by
  cases text with
  | some text => exact find?_putAttribute attributes
  | none =>
      simp only [attired, Attribute.find?, List.find?_filter]
      by_cases same : other = name
      · rw [if_pos same, List.find?_eq_none.mpr fun a _ => by simp [same], Option.map_none]
      · simp only [if_neg same]
        congr 2
        funext a
        by_cases here : a.name = other
        · simpa [here] using same
        · simp [here]

/-- An element is replaced by one that differs in what some facts say. -/
theorem wrote_element {e e' : Element} {facts : List Fact} (found : d.content? id = some (.element e))
    (becomes : Becomes d d' (putContent id (.element e') d.content?) d.children)
    (tells : ∀ f ∈ facts, f.Holds d')
    (attributes : ∀ name, (id, Place.attribute name) ∉ facts.filterMap Fact.cell? →
      e'.attribute? name = e.attribute? name)
    (properties : ∀ name, (id, Place.property name) ∉ facts.filterMap Fact.cell? →
      e'.properties.get? name = e.properties.get? name) : Wrote d d' facts := by
  have now : d'.content? id = some (.element e') := by rw [becomes.content, putContent, if_pos rfl]
  refine ⟨becomes.wellFormed, becomes.children, .of_putContent found (.element _ _) becomes, becomes.body,
    tells, fun f holds away => ?_⟩
  by_cases here : f.node = id
  · cases f with
    | data node content =>
        subst here
        simp [Fact.Holds, data?, show d.content? node = _ from found] at holds
    | element node =>
        subst here
        exact ⟨e', now⟩
    | wears holder name text =>
        subst here
        obtain ⟨e₀, found₀, same⟩ := holds
        rw [show d.content? holder = _ from found] at found₀
        cases found₀
        exact ⟨e', now, (attributes name (away _ rfl)).trans same⟩
    | property holder name value =>
        subst here
        obtain ⟨e₀, found₀, same⟩ := holds
        rw [show d.content? holder = _ from found] at found₀
        cases found₀
        exact ⟨e', now, (properties name (away _ rfl)).trans same⟩
  · refine holds.congr ?_
    rw [becomes.content, putContent, if_neg here]

theorem wrote_attribute {text : Option String} {changed : Bool} (wf : WellFormed d)
    (done : Slot.putOrRemove id name text ⟨d, claims⟩ = .ok changed ⟨d', claims'⟩) :
    claims' = claims ∧ Wrote d d' [.wears id name text] := by
  have put : claims' = claims ∧ ∃ e e', d.content? id = some (.element e) ∧
      e'.attributes = attired name text e.attributes ∧ e'.properties = e.properties ∧
      Becomes d d' (putContent id (.element e') d.content?) d.children := by
    cases live : d.liveElement id with
    | error fault =>
        cases text <;>
          simp [Slot.putOrRemove, Act.edit, setAttribute, removeAttribute, Edit.checked, live] at done
    | ok e =>
        have found := content_of_liveElement live
        cases text with
        | some value =>
            obtain ⟨changed', d₁, done', becomes⟩ := setAttribute_becomes wf found name value
            have acted : Slot.putOrRemove id name (some value) ⟨d, claims⟩ = .ok changed' ⟨d₁, claims⟩ :=
              Act.edit_ok done'
            rw [done] at acted
            cases acted
            exact ⟨rfl, e, ⟨e.tag, putAttribute name value e.attributes, e.properties⟩, found, rfl, rfl, becomes⟩
        | none =>
            obtain ⟨changed', d₁, done', becomes⟩ := removeAttribute_becomes wf found name
            have acted : Slot.putOrRemove id name none ⟨d, claims⟩ = .ok changed' ⟨d₁, claims⟩ :=
              Act.edit_ok done'
            rw [done] at acted
            cases acted
            exact ⟨rfl, e, ⟨e.tag, e.attributes.filter (·.name ≠ name), e.properties⟩, found, rfl, rfl, becomes⟩
  obtain ⟨same, e, e', found, attributes, properties, becomes⟩ := put
  refine ⟨same, wrote_element found becomes ?_ ?_ ?_⟩
  · intro f mem
    rw [List.mem_singleton.mp mem]
    refine ⟨e', by rw [becomes.content, putContent, if_pos rfl], ?_⟩
    rw [Element.attribute?, attributes, find?_attired, if_pos rfl]
  · intro other away
    have ne : other ≠ name := by
      rintro rfl
      exact away (by simp [Fact.cell?])
    rw [Element.attribute?, attributes, find?_attired, if_neg ne]
    rfl
  · intro other _
    rw [properties]

theorem wrote_property {value : Property} {changed : Bool} (wf : WellFormed d)
    (done : setProperty id name value d = .ok changed d') :
    Wrote d d' [.element id, .property id name value] := by
  cases live : d.liveElement id with
  | error fault => simp [setProperty, Edit.checked, live] at done
  | ok e =>
      have found := content_of_liveElement live
      obtain ⟨changed', d₁, done', becomes⟩ := setProperty_becomes wf found name value
      rw [done] at done'
      cases done'
      have now := congrFun becomes.content id
      rw [if_pos rfl] at now
      refine wrote_element found becomes ?_ ?_ ?_
      · intro f mem
        rcases List.mem_cons.mp mem with rfl | mem
        · exact ⟨_, now⟩
        · rw [List.mem_singleton.mp mem]
          refine ⟨_, now, ?_⟩
          simp [Fields.get?_put]
      · intro other _
        rfl
      · intro other away
        have ne : other ≠ name := by
          rintro rfl
          exact away (by simp [Fact.cell?])
        simp only [Fields.get?_put, if_neg ne]

/-! ## Writing again -/

/-- Nothing changed but live properties, and not even those if all was told before. -/
structure Hushed (told : Prop) (d d' : Document) : Prop where
  wellFormed : WellFormed d'
  children : d'.children = d.children
  slots : SameSlots d d'
  bare : SameBare d d'
  tally : told → d'.tally = d.tally
  keeps : told → ∀ f : Fact, f.Holds d → f.Holds d'

namespace Hushed

variable {told : Prop}

theorem refl (wf : WellFormed d) : Hushed told d d :=
  ⟨wf, rfl, .refl d, .refl d, fun _ => rfl, fun _ _ holds => holds⟩

theorem mono {more : Prop} (hushed : Hushed told d d') (weaker : more → told) : Hushed more d d' :=
  ⟨hushed.wellFormed, hushed.children, hushed.slots, hushed.bare, fun all => hushed.tally (weaker all),
    fun all => hushed.keeps (weaker all)⟩

end Hushed

theorem setText_again {node : NodeId} {value : String} (holds : (Fact.data node value).Holds d) :
    setText node value d = .ok false d := by
  have data : d.liveData node = .ok value := by
    simp only [Fact.Holds, data?] at holds
    cases found : d.content? node with
    | none => simp [found] at holds
    | some c =>
        obtain ⟨n, live, content⟩ := live_content found
        rw [found] at holds
        cases c <;> simp_all [liveData, bind, Except.bind, pure, Except.pure]
  simp [setText, Edit.checked, data]

theorem putOrRemove_again {text : Option String} (holds : (Fact.wears id name text).Holds d) :
    Slot.putOrRemove id name text ⟨d, claims⟩ = .ok false ⟨d, claims⟩ := by
  obtain ⟨e, found, same⟩ := holds
  have live := liveElement_ok found
  cases text with
  | some value => exact Act.edit_ok (by simp [setAttribute, Edit.checked, live, same])
  | none =>
      have absent : e.hasAttribute name = false := by
        rw [Element.attribute?, Attribute.find?, Option.map_eq_none_iff, List.find?_eq_none] at same
        rw [Element.hasAttribute, List.any_eq_false]
        exact same
      exact Act.edit_ok (by simp [removeAttribute, Edit.checked, live, absent])

theorem setProperty_again (wf : WellFormed d) (name : String) (value : Property)
    (element : (Fact.element id).Holds d) :
    ∃ changed d', setProperty id name value d = .ok changed d' ∧
      Hushed ((Fact.property id name value).Holds d) d d' := by
  obtain ⟨e, found⟩ := element
  obtain ⟨changed, d', done, becomes⟩ := setProperty_becomes wf found name value
  have slots : SameSlots d d' := (Edit.calm_setProperty id name value).of_ok done
  have bare : SameBare d d' := by
    intro x
    rw [becomes.content]
    dsimp only
    split
    · next here =>
      subst here
      rw [found]
      rfl
    · rfl
  refine ⟨changed, d', done, becomes.wellFormed, becomes.children, slots, bare, ?_, ?_⟩
  · rintro ⟨e', found', same⟩
    rw [found] at found'
    cases found'
    have before : d.property? id name = some value := by
      simp [property?, element?, found, same]
    simp only [setProperty, Edit.checked, liveElement_ok found, before, decide_true, if_true] at done
    cases done
    rfl
  · rintro ⟨e', found', same⟩ f holds
    rw [found] at found'
    cases found'
    have wrote := wrote_property wf done
    by_cases about : f.cell? = some (id, .property name)
    · -- the fact can only be the one that is written
      cases f with
      | property holder other value' =>
          cases about
          obtain ⟨e'', found'', same'⟩ := holds
          rw [found] at found''
          cases found''
          rw [same] at same'
          cases same'
          exact wrote.tells _ (by simp)
      | data node content => cases about
      | element node => cases about
      | wears holder other text => cases about
    · refine wrote.keeps f holds fun cell here mem => about ?_
      have only : (id, Place.property name) = cell := by simpa [Fact.cell?] using mem
      rw [here, only]

/-! ## Slots -/

namespace Slot

variable {context : Value} {slot slot' : Slot}

/-- What a slot makes of the document for a context. -/
def facts (context : Value) : Slot → List Fact
  | text node content => [.data node (content.render context)]
  | textareaValue holder content =>
    [.element holder, .property holder "value" (.text (content.render context))]
  | .attribute holder name content property =>
    .wears holder name (attributeText content context) ::
      property.toList.flatMap fun p =>
        [.element holder, .property holder p.name (propertyValue (attributeText content context) p)]
  | anchor _ _ => []

/-- The cells a slot writes. -/
def cells : Slot → List Cell
  | text node _ => [(node, .data)]
  | textareaValue holder _ => [(holder, .property "value")]
  | .attribute holder name _ property =>
    (holder, .attribute name) :: property.toList.map fun p => (holder, .property p.name)
  | anchor _ _ => []

theorem filterMap_cell?_facts (context : Value) (slot : Slot) :
    (slot.facts context).filterMap Fact.cell? = slot.cells := by
  cases slot with
  | text node content => rfl
  | textareaValue holder content => rfl
  | anchor path a => rfl
  | _ holder name content property => cases property <;> rfl

/-- What a slot that is no anchor writes. -/
theorem wrote_of_write (wf : WellFormed d) (plain : ∀ path a, slot ≠ .anchor path a)
    (done : slot.write context ⟨d, claims⟩ = .ok slot' ⟨d', claims'⟩) :
    slot' = slot ∧ claims' = claims ∧ Wrote d d' (slot.facts context) := by
  cases slot with
  | text node content =>
      cases set : setText node (content.render context) d with
      | error fault d₁ => simp [write, bind, EStateM.bind, Act.edit, set] at done
      | ok changed d₁ =>
          rw [write, bind_ok (Act.edit_ok set)] at done
          cases done
          exact ⟨rfl, rfl, wrote_data wf set⟩
  | textareaValue holder content =>
      cases set : setProperty holder "value" (.text (content.render context)) d with
      | error fault d₁ => simp [write, bind, EStateM.bind, Act.edit, set] at done
      | ok changed d₁ =>
          rw [write, bind_ok (Act.edit_ok set)] at done
          cases done
          exact ⟨rfl, rfl, wrote_property wf set⟩
  | anchor path a => exact absurd rfl (plain path a)
  | _ holder name content property =>
      simp only [facts, write, writeAttribute, bind_assoc] at done ⊢
      generalize attributeText content context = value at done ⊢
      cases put : putOrRemove holder name value ⟨d, claims⟩ with
      | error fault stage => rw [bind_error put] at done; cases done
      | ok changed stage =>
          obtain ⟨d₁, claims₁⟩ := stage
          rw [bind_ok put] at done
          obtain ⟨rfl, first⟩ := wrote_attribute wf put
          cases property with
          | none =>
              cases done
              exact ⟨rfl, rfl, first⟩
          | some property =>
              cases set : setProperty holder property.name (propertyValue value property) d₁ with
              | error fault d₂ => simp [follow, bind, EStateM.bind, Act.edit, set] at done
              | ok changed' d₂ =>
                  simp only [follow, bind_assoc] at done
                  rw [bind_ok (Act.edit_ok set)] at done
                  cases done
                  refine ⟨rfl, rfl, first.trans (wrote_property first.wellFormed set) ?_⟩
                  intro f mem cell about
                  rw [List.mem_singleton.mp mem] at about
                  cases about
                  simp [Fact.cell?]

/-- Writing a slot again when its facts hold, live properties aside. -/
theorem write_again (wf : WellFormed d) (plain : ∀ path a, slot ≠ .anchor path a)
    (holds : ∀ f ∈ slot.facts context, f.isLive = false → f.Holds d) (claims : Claims) :
    ∃ d', slot.write context ⟨d, claims⟩ = .ok slot ⟨d', claims⟩ ∧
      Hushed (∀ f ∈ slot.facts context, f.Holds d) d d' := by
  cases slot with
  | text node content =>
      refine ⟨d, ?_, .refl wf⟩
      rw [write, bind_ok (Act.edit_ok (setText_again (holds _ List.mem_cons_self rfl)))]
      rfl
  | textareaValue holder content =>
      obtain ⟨changed, d', done, hushed⟩ :=
        setProperty_again wf "value" (.text (content.render context))
          (holds _ List.mem_cons_self rfl)
      refine ⟨d', ?_, hushed.mono fun all => all _ (by simp [facts])⟩
      rw [write, bind_ok (Act.edit_ok done)]
      rfl
  | anchor path a => exact absurd rfl (plain path a)
  | _ holder name content property =>
      simp only [facts, write, writeAttribute, bind_assoc] at holds ⊢
      generalize attributeText content context = value at holds ⊢
      rw [bind_ok (putOrRemove_again (holds _ List.mem_cons_self rfl))]
      cases property with
      | none => exact ⟨d, rfl, .refl wf⟩
      | some property =>
          obtain ⟨changed, d', done, hushed⟩ :=
            setProperty_again wf property.name (propertyValue value property)
              (holds (.element holder) (by simp) rfl)
          refine ⟨d', ?_, hushed.mono fun all => all _ (by simp)⟩
          simp only [follow, bind_assoc]
          rw [bind_ok (Act.edit_ok done)]
          rfl

end Slot

end Inlay.Render
