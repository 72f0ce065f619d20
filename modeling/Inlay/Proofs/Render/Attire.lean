/-
# Proofs.Render.Attire — texts, attributes and values written to nodes

A slot that is no anchor writes to one node: its text, an attribute of it, or a
live property. Properties are no part of what stands in a document, so all that
counts of an element is its tag and its attributes.
-/
import Inlay.Proofs.Document.Write
import Inlay.Proofs.Render.Reconcile
import Inlay.Proofs.Render.Slots
import Inlay.Proofs.Data.Relabel

namespace Inlay.Render

set_option autoImplicit false

open Inlay.Document Inlay.Markup Inlay.Template

variable {d d' d'' : Document} {claims : Claims} {id x : NodeId} {context : Value}

/-! ## Slots in order -/

section WriteAll

variable {first second written : List Slot} {s s' : Stage}

theorem writeAll_nil (context : Value) (s : Stage) :
    Slot.writeAll context [] s = ((none, []), s) := rfl

theorem writeAll_cons {slot slot' : Slot} (done : slot.write context s = .ok slot' s') :
    Slot.writeAll context (slot :: second) s =
      ((( Slot.writeAll context second s').1.1, slot' :: (Slot.writeAll context second s').1.2),
        (Slot.writeAll context second s').2) := by
  simp [Slot.writeAll, done]

/-- Slots behind others that could all be written. -/
theorem writeAll_append (done : Slot.writeAll context first s = ((none, written), s')) :
    Slot.writeAll context (first ++ second) s =
      (((Slot.writeAll context second s').1.1, written ++ (Slot.writeAll context second s').1.2),
        (Slot.writeAll context second s').2) := by
  induction first generalizing s written with
  | nil =>
      cases done
      rfl
  | cons slot rest ih =>
      cases here : slot.write context s with
      | error fault s₁ => simp [Slot.writeAll, here] at done
      | ok slot' s₁ =>
          rw [writeAll_cons here] at done
          simp only [Prod.mk.injEq] at done
          obtain ⟨⟨fine, rfl⟩, last⟩ := done
          have rest_done : Slot.writeAll context rest s₁ =
              ((none, (Slot.writeAll context rest s₁).1.2), s') := by
            rw [← fine, ← last]
          rw [List.cons_append, writeAll_cons here, ih rest_done]
          rfl

theorem writeAll_single {slot slot' : Slot} (done : slot.write context s = .ok slot' s') :
    Slot.writeAll context [slot] s = ((none, [slot']), s') := by
  rw [writeAll_cons done, writeAll_nil]

end WriteAll

/-! ## Writing twice to one node -/

/-- The contents with other content at one node. -/
def putContent (id : NodeId) (content : Content) (old : NodeId → Option Content) (x : NodeId) :
    Option Content :=
  if x = id then some content else old x

theorem overwrite_becomes {first second : Content}
    (one : Becomes d d' (putContent id first d.content?) d.children)
    (two : Becomes d' d'' (putContent id second d'.content?) d'.children) :
    Becomes d d'' (putContent id second d.content?) d.children := by
  have all := one.trans two
  rw [one.content, one.children] at all
  have same : putContent id second (putContent id first d.content?) =
      putContent id second d.content? := by
    funext x
    unfold putContent
    split <;> rfl
  rwa [same] at all

theorem putContent_self {content : Content} (found : d.content? id = some content) :
    putContent id content d.content? = d.content? := by
  funext x
  unfold putContent
  split
  · next same => rw [same, found]
  · rfl

/-! ## Single slots -/

theorem write_text (wf : WellFormed d) {old : String} (found : d.content? id = some (.text old))
    (claims : Claims) (context : Value) (pattern : Pattern) :
    ∃ d', (Slot.text id pattern).write context ⟨d, claims⟩ = .ok (.text id pattern) ⟨d', claims⟩ ∧
      Becomes d d' (putContent id (.text (pattern.render context)) d.content?) d.children := by
  obtain ⟨changed, d', done, becomes⟩ := setText_text wf found (pattern.render context)
  refine ⟨d', ?_, becomes⟩
  rw [Slot.write, bind_ok (Act.edit_ok done)]
  rfl

theorem write_textareaValue (wf : WellFormed d) {e : Element}
    (found : d.content? id = some (.element e)) (claims : Claims) (context : Value)
    (pattern : Pattern) :
    ∃ d' e', (Slot.textareaValue id pattern).write context ⟨d, claims⟩ =
        .ok (.textareaValue id pattern) ⟨d', claims⟩ ∧
      e'.tag = e.tag ∧ e'.attributes = e.attributes ∧
      Becomes d d' (putContent id (.element e') d.content?) d.children := by
  obtain ⟨changed, d', done, becomes⟩ :=
    setProperty_becomes wf found "value" (.text (pattern.render context))
  refine ⟨d', ⟨e.tag, e.attributes, e.properties.put "value" (.text (pattern.render context))⟩, ?_,
    rfl, rfl, becomes⟩
  rw [Slot.write, bind_ok (Act.edit_ok done)]
  rfl

/-- The attributes once one of them is set or removed. -/
def attired (name : String) (text : Option String) (attributes : List Attribute) : List Attribute :=
  match text with
  | some text => putAttribute name text attributes
  | none => attributes.filter (·.name ≠ name)

theorem write_attribute (wf : WellFormed d) {e : Element} (found : d.content? id = some (.element e))
    (claims : Claims) (context : Value) (name : String) (pattern : Pattern)
    (property : Option LiveProperty) :
    ∃ d' e', (Slot.attribute id name pattern property).write context ⟨d, claims⟩ =
        .ok (.attribute id name pattern property) ⟨d', claims⟩ ∧
      e'.tag = e.tag ∧
      e'.attributes = attired name (Slot.attributeText pattern context) e.attributes ∧
      Becomes d d' (putContent id (.element e') d.content?) d.children := by
  have first : ∃ changed d₁, Slot.putOrRemove id name (Slot.attributeText pattern context)
        ⟨d, claims⟩ = .ok changed ⟨d₁, claims⟩ ∧
      Becomes d d₁ (putContent id (.element { e with
        attributes := attired name (Slot.attributeText pattern context) e.attributes }) d.content?)
        d.children := by
    cases Slot.attributeText pattern context with
    | some text =>
        obtain ⟨changed, d₁, done, becomes⟩ := setAttribute_becomes wf found name text
        exact ⟨changed, d₁, Act.edit_ok done, becomes⟩
    | none =>
        obtain ⟨changed, d₁, done, becomes⟩ := removeAttribute_becomes wf found name
        exact ⟨changed, d₁, Act.edit_ok done, becomes⟩
  obtain ⟨changed, d₁, done, becomes⟩ := first
  -- the property does not count
  have second : ∃ d₂ e₂, Slot.follow id (Slot.attributeText pattern context) property ⟨d₁, claims⟩ =
        .ok () ⟨d₂, claims⟩ ∧ e₂.tag = e.tag ∧
      e₂.attributes = attired name (Slot.attributeText pattern context) e.attributes ∧
      Becomes d d₂ (putContent id (.element e₂) d.content?) d.children := by
    cases property with
    | none =>
        refine ⟨d₁, _, rfl, ?_, ?_, becomes⟩
        · rfl
        · rfl
    | some property =>
        have found₁ := congrFun becomes.content id
        rw [putContent, if_pos rfl] at found₁
        obtain ⟨changed', d₂, done', becomes'⟩ := setProperty_becomes becomes.wellFormed found₁
          property.name (Slot.propertyValue (Slot.attributeText pattern context) property)
        refine ⟨d₂, _, ?_, ?_, ?_, overwrite_becomes becomes becomes'⟩
        · exact bind_ok (Act.edit_ok done')
        · rfl
        · rfl
  obtain ⟨d₂, e₂, followed, tag, attributes, becomes₂⟩ := second
  refine ⟨d₂, e₂, ?_, tag, attributes, becomes₂⟩
  have wrote : Slot.writeAttribute id name property (Slot.attributeText pattern context) ⟨d, claims⟩ =
      .ok () ⟨d₂, claims⟩ := (bind_ok done).trans followed
  rw [Slot.write, bind_ok wrote]
  rfl

/-! ## What an attribute becomes -/

section Expanded

variable {α β : Type}

theorem expandedAttribute_of_pattern {a : Attribute} {pattern : Pattern}
    (read : Pattern.read? a.value = .ok (some pattern)) (context : ValueOf α) :
    expandedAttribute context a = (Slot.attributeText pattern context).map (⟨a.name, ·⟩) := by
  obtain ⟨parts⟩ := pattern
  have many : expandedText context a.value = (Pattern.mk parts).render context := by
    simp [expandedText, read]
  match parts with
  | [] => simp [expandedAttribute, read, many, Slot.attributeText, Pattern.whole?]
  | [.literal content] => simp [expandedAttribute, read, many, Slot.attributeText, Pattern.whole?]
  | [.place path] =>
      simp only [expandedAttribute, read, Slot.attributeText, Pattern.whole?]
      cases context.find? path.segments with
      | none => rfl
      | some value =>
          cases value with
          | bool flag => cases flag <;> rfl
          | null => rfl
          | number x => rfl
          | string content => rfl
          | list items => rfl
          | map fields => rfl
          | nodes shown => rfl
  | first :: second :: rest =>
      cases first <;>
        simp [expandedAttribute, read, many, Slot.attributeText, Pattern.whole?]

theorem expandedAttribute_of_plain {a : Attribute} (read : Pattern.read? a.value = .ok none)
    (context : ValueOf α) : expandedAttribute context a = some a := by
  simp [expandedAttribute, expandedText, read]

theorem expandedAttribute_name {a b : Attribute} {context : ValueOf α}
    (here : expandedAttribute context a = some b) : b.name = a.name := by
  unfold expandedAttribute at here
  split at here
  · obtain ⟨text, -, rfl⟩ := Option.map_eq_some_iff.mp here
    rfl
  · cases here
    rfl

@[simp] theorem expandedAttribute_relabel (f : α → β) (context : ValueOf α) (a : Attribute) :
    expandedAttribute (context.relabel f) a = expandedAttribute context a := by
  cases read : Pattern.read? a.value with
  | error fault => simp [expandedAttribute, read]
  | ok found =>
      cases found with
      | none => rw [expandedAttribute_of_plain read, expandedAttribute_of_plain read]
      | some pattern =>
          rw [expandedAttribute_of_pattern read, expandedAttribute_of_pattern read,
            attributeText_relabel]

end Expanded

/-- A text without a placeholder is no pattern and is not cleared. -/
theorem clearText_of_plain {content : String} (read : Pattern.read? content = .ok none) :
    clearText content = content := by
  unfold Pattern.read? at read
  unfold clearText
  split at read
  · cases pattern : Pattern.read content with
    | error fault => simp [pattern, Except.map] at read
    | ok found => simp [pattern, Except.map] at read
  · next plain => rw [if_neg plain]

theorem hasPlaceholder_of_pattern {content : String} {pattern : Pattern}
    (read : Pattern.read? content = .ok (some pattern)) : hasPlaceholder content = true := by
  unfold Pattern.read? at read
  split at read
  · next has => exact has
  · cases read

theorem hasPlaceholder_of_plain {content : String} (read : Pattern.read? content = .ok none) :
    hasPlaceholder content = false := by
  cases has : hasPlaceholder content with
  | false => rfl
  | true =>
      cases pattern : Pattern.read content with
      | error fault => simp [Pattern.read?, has, pattern, Except.map] at read
      | ok found => simp [Pattern.read?, has, pattern, Except.map] at read

/-! ## All attributes of an element -/

theorem putAttribute_split {name text : String} {front behind : List Attribute} {old : String}
    (apart : ∀ b ∈ front, b.name ≠ name) :
    putAttribute name text (front ++ ⟨name, old⟩ :: behind) = front ++ ⟨name, text⟩ :: behind := by
  induction front with
  | nil => simp [putAttribute]
  | cons b rest ih =>
      obtain ⟨here, others⟩ := List.forall_mem_cons.mp apart
      simp [putAttribute, here, ih others]

theorem attired_split {name : String} {text : Option String} {front behind : List Attribute}
    {old : String} (apart : ∀ b ∈ front ++ behind, b.name ≠ name) :
    attired name text (front ++ ⟨name, old⟩ :: behind) =
      front ++ (text.map (Attribute.mk name)).toList ++ behind := by
  cases text with
  | some text =>
      have here : ∀ b ∈ front, b.name ≠ name := fun b mem => apart b (List.mem_append_left _ mem)
      simp [attired, putAttribute_split here]
  | none =>
      have keep : ∀ list : List Attribute, (∀ b ∈ list, b.name ≠ name) →
          list.filter (·.name ≠ name) = list := fun list all =>
        List.filter_eq_self.mpr fun b mem => by simpa using all b mem
      rw [attired, List.filter_append, keep front fun b mem => apart b (List.mem_append_left _ mem),
        List.filter_cons_of_neg (by simp),
        keep behind fun b mem => apart b (List.mem_append_right _ mem)]
      simp

/-- Writing the slots of cleared attributes makes them what the context says;
those that are to be absent leave, the others stay in their order. -/
theorem writeAll_attributes (claims : Claims) (context : Value) (id : NodeId) (tag : String) :
    ∀ (attributes front : List Attribute) {d : Document} {e : Element}, WellFormed d →
      d.content? id = some (.element e) → e.attributes = front ++ attributes.map clearAttribute →
      DistinctNames (front ++ attributes) →
      (∀ a ∈ attributes, ∃ found, Pattern.read? a.value = .ok found) →
      ∃ d' e', Slot.writeAll context (attributes.flatMap (attributeSlots id tag)) ⟨d, claims⟩ =
          ((none, attributes.flatMap (attributeSlots id tag)), ⟨d', claims⟩) ∧
        e'.tag = e.tag ∧
        e'.attributes = front ++ attributes.filterMap (expandedAttribute context) ∧
        Becomes d d' (putContent id (.element e') d.content?) d.children
  | [], front, d, e, wf, found, same, _, _ => by
      refine ⟨d, e, rfl, rfl, by simpa using same, ?_⟩
      rw [putContent_self found]
      exact .refl wf
  | a :: rest, front, d, e, wf, found, same, distinct, readable => by
      obtain ⟨⟨pattern, read⟩, others⟩ := List.forall_mem_cons.mp readable
      have names : ((front.map (·.name)) ++ a.name :: rest.map (·.name)).Nodup := by
        simpa [DistinctNames] using distinct
      cases pattern with
      | none =>
          have plain : clearAttribute a = a := by simp [clearAttribute, clearText_of_plain read]
          have kept : e.attributes = (front ++ [a]) ++ rest.map clearAttribute := by
            simp [same, plain]
          obtain ⟨d', e', done, tag', attributes', becomes⟩ :=
            writeAll_attributes claims context id tag rest (front ++ [a]) wf found kept
              (by simpa using distinct) others
          refine ⟨d', e', ?_, tag', ?_, becomes⟩
          · simpa [attributeSlots, read] using done
          · simp [attributes', expandedAttribute_of_plain read]
      | some pattern =>
          have apart : ∀ b ∈ front ++ rest.map clearAttribute, b.name ≠ a.name := by
            have absent := (List.nodup_cons.mp (List.nodup_middle.mp names)).1
            intro b mem named
            refine absent (List.mem_append.mpr ?_)
            rcases List.mem_append.mp mem with mem | mem
            · exact .inl (named ▸ List.mem_map_of_mem mem)
            · obtain ⟨b', there, rfl⟩ := List.mem_map.mp mem
              exact .inr (named ▸ List.mem_map_of_mem (f := (·.name)) there)
          obtain ⟨d₁, e₁, wrote, tag₁, attributes₁, becomes₁⟩ :=
            write_attribute wf found claims context a.name pattern (LiveProperty.following? tag a.name)
          have found₁ : d₁.content? id = some (.element e₁) := by
            rw [becomes₁.content, putContent, if_pos rfl]
          rw [same, List.map_cons, clearAttribute, attired_split apart] at attributes₁
          have expanded := expandedAttribute_of_pattern read context
          have distinct₁ : DistinctNames
              (front ++ ((Slot.attributeText pattern context).map (Attribute.mk a.name)).toList ++ rest) := by
            unfold DistinctNames
            refine List.Nodup.sublist ?_ names
            simp only [List.map_append, List.append_assoc]
            refine List.Sublist.append (List.Sublist.refl _) ?_
            cases Slot.attributeText pattern context with
            | none => exact List.sublist_cons_self _ _
            | some text => exact List.Sublist.refl _
          obtain ⟨d', e', done, tag', attributes', becomes⟩ :=
            writeAll_attributes claims context id tag rest _ becomes₁.wellFormed found₁ attributes₁
              distinct₁ others
          refine ⟨d', e', ?_, tag'.trans tag₁, ?_, overwrite_becomes becomes₁ becomes⟩
          · rw [List.flatMap_cons]
            have here : attributeSlots id tag a =
                [.attribute id a.name pattern (LiveProperty.following? tag a.name)] := by
              simp [attributeSlots, read]
            rw [here, List.singleton_append, writeAll_cons wrote, done]
          · rw [attributes', List.filterMap_cons, expanded]
            cases Slot.attributeText pattern context <;> simp

end Inlay.Render
