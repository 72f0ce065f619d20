/-
# Proofs.Render.Retouch — texts and attributes that are written again

Attributes that come from a prototype, in any order and with any of the bound
ones missing, become the expanded ones when their slots are written
(`spares_attributes`), in an order of their own: an attribute that comes back is
the last one. `written_mem` says which nodes slots write to.
-/
import Inlay.Proofs.Render.Dressing

namespace Inlay.Render

set_option autoImplicit false

open Relation Inlay.Document Inlay.Document.Planted Inlay.Markup
open Inlay.Template hiding root

variable {d d' d'' : Document} {claims claims' : Claims} {id q x : NodeId} {front back : List NodeId}
  {context : Value}

/-! ## Trees up to the order of attributes -/

mutual

/-- The trees differ in the order of attributes inside elements at most. -/
inductive Alike : Tree → Tree → Prop
  | text (content : String) : Alike (.text content) (.text content)
  | comment (body : String) : Alike (.comment body) (.comment body)
  | element {tag : String} {attributes attributes' : List Attribute} {children children' : List Tree} :
      attributes.Perm attributes' → AlikeAll children children' →
      Alike (.element tag attributes children) (.element tag attributes' children')

inductive AlikeAll : List Tree → List Tree → Prop
  | nil : AlikeAll [] []
  | cons {tree tree' : Tree} {rest rest' : List Tree} :
      Alike tree tree' → AlikeAll rest rest' → AlikeAll (tree :: rest) (tree' :: rest')

end

mutual

theorem Alike.refl : ∀ tree : Tree, Alike tree tree
  | .text content => .text content
  | .comment body => .comment body
  | .element _ _ children => .element (.refl _) (.refl children)

theorem AlikeAll.refl : ∀ trees : List Tree, AlikeAll trees trees
  | [] => .nil
  | tree :: rest => .cons (.refl tree) (.refl rest)

end

theorem AlikeAll.append {first first' second second' : List Tree} (one : AlikeAll first first')
    (two : AlikeAll second second') : AlikeAll (first ++ second) (first' ++ second') := by
  induction first generalizing first' with
  | nil =>
      cases one
      exact two
  | cons tree rest ih =>
      cases one with
      | cons here others => exact .cons here (ih others)

/-! ## Attributes again -/

theorem mem_attired {name : String} {text : Option String} {attributes : List Attribute}
    (distinct : DistinctNames attributes) (b : Attribute) :
    b ∈ attired name text attributes ↔
      (b.name = name ∧ text = some b.value) ∨ (b ∈ attributes ∧ b.name ≠ name) := by
  cases text with
  | none => simp [attired]
  | some text =>
      rw [attired]
      induction attributes with
      | nil =>
          obtain ⟨other, value⟩ := b
          simp [putAttribute, eq_comm]
      | cons a rest ih =>
          obtain ⟨fresh, distinct⟩ := List.nodup_cons.mp distinct
          rw [putAttribute]
          split
          · next same =>
            subst same
            have others : b ∈ rest → b.name ≠ a.name := fun mem same =>
              fresh (List.mem_map.mpr ⟨b, mem, same⟩)
            obtain ⟨other, value⟩ := b
            simp only [List.mem_cons, Attribute.mk.injEq, Option.some.injEq] at others ⊢
            constructor
            · rintro (⟨rfl, rfl⟩ | mem)
              · exact .inl ⟨rfl, rfl⟩
              · exact .inr ⟨.inr mem, others mem⟩
            · rintro (⟨rfl, rfl⟩ | ⟨rfl | mem, ne⟩)
              · exact .inl ⟨rfl, rfl⟩
              · exact absurd rfl ne
              · exact .inr mem
          · next other =>
            rw [List.mem_cons, ih distinct, List.mem_cons]
            constructor
            · rintro (rfl | set | ⟨mem, ne⟩)
              · exact .inr ⟨.inl rfl, other⟩
              · exact .inl set
              · exact .inr ⟨.inr mem, ne⟩
            · rintro (set | ⟨rfl | mem, ne⟩)
              · exact .inr (.inl set)
              · exact .inl rfl
              · exact .inr (.inr ⟨mem, ne⟩)

theorem distinctNames_attired {name : String} {text : Option String} {attributes : List Attribute}
    (distinct : DistinctNames attributes) : DistinctNames (attired name text attributes) := by
  cases text with
  | none => exact distinct.sublist (List.filter_sublist.map _)
  | some text =>
      rw [attired]
      induction attributes with
      | nil => exact List.nodup_singleton _
      | cons a rest ih =>
          obtain ⟨fresh, others⟩ := List.nodup_cons.mp distinct
          rw [putAttribute]
          split
          · exact distinct
          · next other =>
            refine List.nodup_cons.mpr ⟨fun mem => ?_, ih others⟩
            obtain ⟨b, there, same⟩ := List.mem_map.mp mem
            have set : b.name = name ∧ some text = some b.value ∨ b ∈ rest ∧ b.name ≠ name := (mem_attired others b).mp there
            rcases set with ⟨named, -⟩ | ⟨old, -⟩
            · exact other (same.symm.trans named)
            · exact fresh (same ▸ List.mem_map_of_mem old)

/-- The attribute has a placeholder. -/
def Bound (a : Attribute) : Prop := ∃ pattern, Pattern.read? a.value = .ok (some pattern)

/-- Writing the slots of attributes that have any: an attribute is there if the
context gives it, or if it was there and no slot has its name. -/
theorem writeAll_attributes_again (claims : Claims) (context : Value) (id : NodeId) (tag : String) :
    ∀ (source : List Attribute) {d : Document} {e : Element}, WellFormed d →
      d.content? id = some (.element e) → DistinctNames e.attributes → DistinctNames source →
      (∀ a ∈ source, ∃ found, Pattern.read? a.value = .ok found) →
      ∃ d' e', Slot.writeAll context (source.flatMap (attributeSlots id tag)) ⟨d, claims⟩ =
          ((none, source.flatMap (attributeSlots id tag)), ⟨d', claims⟩) ∧
        e'.tag = e.tag ∧ DistinctNames e'.attributes ∧
        (∀ b, b ∈ e'.attributes ↔ (∃ a ∈ source, Bound a ∧ expandedAttribute context a = some b) ∨
          (b ∈ e.attributes ∧ ∀ a ∈ source, Bound a → a.name ≠ b.name)) ∧
        Becomes d d' (putContent id (.element e') d.content?) d.children
  | [], d, e, wf, found, distinct, _, _ => by
      refine ⟨d, e, rfl, rfl, distinct, by simp, ?_⟩
      rw [putContent_self found]
      exact .refl wf
  | a :: rest, d, e, wf, found, distinct, names, readable => by
      obtain ⟨⟨pattern, read⟩, others⟩ := List.forall_mem_cons.mp readable
      obtain ⟨fresh, names⟩ := List.nodup_cons.mp names
      cases pattern with
      | none =>
          have free : ¬ Bound a := by
            rintro ⟨pattern, other⟩
            rw [read] at other
            cases other
          obtain ⟨d', e', done, tag', distinct', same, becomes⟩ :=
            writeAll_attributes_again claims context id tag rest wf found distinct names others
          refine ⟨d', e', ?_, tag', distinct', fun b => ?_, becomes⟩
          · simpa [attributeSlots, read] using done
          · simp [same b, free]
      | some pattern =>
          have bound : Bound a := ⟨pattern, read⟩
          obtain ⟨d₁, e₁, wrote, tag₁, attributes₁, becomes₁⟩ :=
            write_attribute wf found claims context a.name pattern (LiveProperty.following? tag a.name)
          have found₁ : d₁.content? id = some (.element e₁) := by
            rw [becomes₁.content, putContent, if_pos rfl]
          obtain ⟨d', e', done, tag', distinct', same, becomes⟩ :=
            writeAll_attributes_again claims context id tag rest becomes₁.wellFormed found₁
              (attributes₁ ▸ distinctNames_attired distinct) names others
          refine ⟨d', e', ?_, tag'.trans tag₁, distinct', fun b => ?_, overwrite_becomes becomes₁ becomes⟩
          · rw [List.flatMap_cons]
            have here : attributeSlots id tag a =
                [.attribute id a.name pattern (LiveProperty.following? tag a.name)] := by
              simp [attributeSlots, read]
            rw [here, List.singleton_append, writeAll_cons wrote, done]
          · have gives : expandedAttribute context a = some b ↔
                b.name = a.name ∧ Slot.attributeText pattern context = some b.value := by
              rw [expandedAttribute_of_pattern read, Option.map_eq_some_iff]
              obtain ⟨name, value⟩ := b
              constructor
              · rintro ⟨text, found, same⟩
                cases same
                exact ⟨rfl, found⟩
              · rintro ⟨rfl, found⟩
                exact ⟨value, found, rfl⟩
            have apart : b.name = a.name → ∀ a' ∈ rest, Bound a' → a'.name ≠ b.name :=
              fun named a' mem _ same => fresh (List.mem_map.mpr ⟨a', mem, same.trans named⟩)
            rw [same b, attributes₁, mem_attired distinct, ← gives]
            simp only [List.mem_cons, exists_eq_or_imp, forall_eq_or_imp, bound, true_and, forall_const]
            constructor
            · rintro (later | ⟨here | ⟨old, other⟩, free⟩)
              · exact .inl (.inr later)
              · exact .inl (.inl here)
              · exact .inr ⟨old, Ne.symm other, free⟩
            · rintro ((here | later) | ⟨old, other, free⟩)
              · exact .inr ⟨.inl here, apart (gives.mp here).1⟩
              · exact .inl later
              · exact .inr ⟨.inr ⟨old, Ne.symm other⟩, free⟩

theorem names_expanded_sublist (context : Value) : ∀ source : List Attribute,
    ((source.filterMap (expandedAttribute context)).map (·.name)).Sublist (source.map (·.name))
  | [] => .refl _
  | a :: rest => by
      have others := names_expanded_sublist context rest
      cases here : expandedAttribute context a with
      | none =>
          rw [List.filterMap_cons_none here]
          exact others.cons _
      | some b =>
          rw [List.filterMap_cons_some here, List.map_cons, List.map_cons, expandedAttribute_name here]
          exact others.cons_cons _

/-- Attributes that come from a prototype are the expanded ones once every slot
is written. -/
theorem worn_of_written {source attributes written : List Attribute} (names : DistinctNames source)
    (readable : ∀ a ∈ source, ∃ found, Pattern.read? a.value = .ok found)
    (worn : Dressing.Worn source attributes) (distinct : DistinctNames written)
    (same : ∀ b, b ∈ written ↔ (∃ a ∈ source, Bound a ∧ expandedAttribute context a = some b) ∨
      (b ∈ attributes ∧ ∀ a ∈ source, Bound a → a.name ≠ b.name)) :
    Dressing.Worn source written ∧ written.Perm (source.filterMap (expandedAttribute context)) := by
  have once : ∀ a ∈ source, ∀ b ∈ source, a.name = b.name → a = b :=
    List.inj_on_of_nodup_map names
  have free : ∀ a ∈ source, Pattern.read? a.value = .ok none → ∀ b ∈ source, Bound b →
      b.name ≠ a.name := by
    rintro a mem read b there ⟨pattern, bound⟩ named
    rw [once b there a mem named, read] at bound
    cases bound
  have gives : ∀ b, b ∈ written ↔ ∃ a ∈ source, expandedAttribute context a = some b := by
    intro b
    rw [same b]
    constructor
    · rintro (⟨a, mem, -, here⟩ | ⟨old, unbound⟩)
      · exact ⟨a, mem, here⟩
      · obtain ⟨a, mem, named⟩ := worn.known b old
        obtain ⟨pattern, read⟩ := readable a mem
        cases pattern with
        | some pattern => exact absurd named (unbound a mem ⟨pattern, read⟩)
        | none =>
            have b_eq : a = b :=
              List.inj_on_of_nodup_map worn.distinct (worn.plain a mem read) old named
            exact ⟨a, mem, b_eq ▸ expandedAttribute_of_plain read context⟩
    · rintro ⟨a, mem, here⟩
      obtain ⟨pattern, read⟩ := readable a mem
      cases pattern with
      | some pattern => exact .inl ⟨a, mem, ⟨pattern, read⟩, here⟩
      | none =>
          rw [expandedAttribute_of_plain read, Option.some.injEq] at here
          subst here
          exact .inr ⟨worn.plain a mem read, free a mem read⟩
  refine ⟨⟨distinct, fun b mem => ?_, fun a mem read => ?_⟩, ?_⟩
  · obtain ⟨a, there, here⟩ := (gives b).mp mem
    exact ⟨a, there, (expandedAttribute_name here).symm⟩
  · exact (gives a).mpr ⟨a, mem, expandedAttribute_of_plain read context⟩
  · have expanded : DistinctNames (source.filterMap (expandedAttribute context)) :=
      names.sublist (names_expanded_sublist context source)
    refine (List.perm_ext_iff_of_nodup (distinct.of_map _) (expanded.of_map _)).mpr fun b => ?_
    rw [gives b, List.mem_filterMap]

/-! ## What slots write to -/

/-- The node whose content a slot writes. -/
def Slot.written? : Slot → Option NodeId
  | .text node _ => some node
  | .textareaValue node _ => some node
  | .attribute node _ _ _ => some node
  | .anchor _ _ => none

/-- The nodes whose content slots write. -/
def writtenBy (slots : List Slot) : List NodeId := slots.filterMap Slot.written?

@[simp] theorem writtenBy_append (first second : List Slot) :
    writtenBy (first ++ second) = writtenBy first ++ writtenBy second := List.filterMap_append

/-- Writing the slots of a node's attributes changes that node, if there are any. -/
theorem spares_attributes (claims : Claims) (context : Value) (wf : WellFormed d) {e : Element}
    (found : d.content? id = some (.element e)) {source attributes : List Attribute}
    (attributes_eq : e.attributes = attributes) (tag : String) (names : DistinctNames source)
    (readable : ∀ a ∈ source, ∃ found, Pattern.read? a.value = .ok found)
    (worn : Dressing.Worn source attributes) :
    ∃ d' e', Slot.writeAll context (source.flatMap (attributeSlots id tag)) ⟨d, claims⟩ =
        ((none, source.flatMap (attributeSlots id tag)), ⟨d', claims⟩) ∧
      d'.content? id = some (.element e') ∧ e'.tag = e.tag ∧ Dressing.Worn source e'.attributes ∧
      e'.attributes.Perm (source.filterMap (expandedAttribute context)) ∧
      d'.children = d.children ∧
      Spares (writtenBy (source.flatMap (attributeSlots id tag))) [] d d' := by
  subst attributes_eq
  obtain ⟨d', e', done, tag', distinct, same, becomes⟩ :=
    writeAll_attributes_again claims context id tag source wf found worn.distinct names readable
  obtain ⟨worn', perm⟩ := worn_of_written names readable worn distinct same
  refine ⟨d', e', done, by rw [becomes.content, putContent, if_pos rfl], tag', worn', perm,
    becomes.children, becomes.wellFormed, fun x live away => ?_, fun x _ _ => by rw [becomes.children]⟩
  rw [becomes.content, putContent]
  split
  · next here =>
    subst here
    -- no slot writes to the node, so there is none
    have none : source.flatMap (attributeSlots x tag) = [] := by
      refine List.eq_nil_iff_forall_not_mem.mpr fun slot mem => away ?_
      obtain ⟨a, there, here⟩ := List.mem_flatMap.mp mem
      refine List.mem_filterMap.mpr ⟨slot, mem, ?_⟩
      unfold attributeSlots at here
      split at here
      · rw [List.mem_singleton.mp here]
        rfl
      · cases here
    rw [none, writeAll_nil] at done
    have same : d = d' := congrArg (fun s => s.2.document) done
    subst same
    rw [becomes.content, putContent, if_pos rfl]
  · rfl

mutual

/-- What is no anchor is the same in a dressing and in the prototype. -/
theorem filter_slots (keep : Slot → Bool) (fixed : ∀ path a, keep (.anchor path a) = false) :
    ∀ (g : Dressing) (parent : Option (String × NodeId)),
      (g.slots parent).filter keep = (slots .blank parent g.basis).filter keep
  | .text _ _ _, _ => rfl
  | .comment id body, _ => by
      rw [Dressing.slots, Dressing.basis, slots, commentSlots]
      split <;> simp [fixed]
  | .anchor id body path entries, _ => by
      rw [Dressing.slots, Dressing.basis, slots, commentSlots]
      split <;> simp [fixed]
  | .element id tag source attributes children, _ => by
      rw [Dressing.slots, Dressing.basis, slots, List.filter_append, List.filter_append,
        filter_slotsAll keep fixed children]

theorem filter_slotsAll (keep : Slot → Bool) (fixed : ∀ path a, keep (.anchor path a) = false) :
    ∀ (gs : List Dressing) (parent : Option (String × NodeId)),
      (Dressing.slotsAll parent gs).filter keep =
        (slotsAll .blank parent (Dressing.basisAll gs)).filter keep
  | [], _ => rfl
  | g :: rest, parent => by
      rw [Dressing.slotsAll, Dressing.basisAll, slotsAll, List.filter_append, List.filter_append,
        filter_slots keep fixed g, filter_slotsAll keep fixed rest]

end

theorem writtenBy_filter (slots : List Slot) :
    writtenBy slots = writtenBy (slots.filter fun slot => slot.written?.isSome) := by
  rw [writtenBy, writtenBy, List.filterMap_filter]
  refine List.filterMap_congr fun slot _ => ?_
  cases slot.written? <;> rfl

/-- What is written depends on the prototype alone. -/
theorem writtenBy_slotsAll {gs hs : List Dressing} (same : Dressing.basisAll gs = Dressing.basisAll hs)
    (parent : Option (String × NodeId)) :
    writtenBy (Dressing.slotsAll parent gs) = writtenBy (Dressing.slotsAll parent hs) := by
  rw [writtenBy_filter, writtenBy_filter (Dressing.slotsAll parent hs),
    filter_slotsAll _ (fun _ _ => rfl) gs, filter_slotsAll _ (fun _ _ => rfl) hs, same]

/-- The values of `<textarea>` elements depend on the prototype alone. -/
theorem textareaValue_mem {gs hs : List Dressing} (same : Dressing.basisAll gs = Dressing.basisAll hs)
    {parent : Option (String × NodeId)} {content : Pattern}
    (mem : Slot.textareaValue x content ∈ Dressing.slotsAll parent gs) :
    Slot.textareaValue x content ∈ Dressing.slotsAll parent hs := by
  have kept : Slot.textareaValue x content ∈
      (Dressing.slotsAll parent gs).filter fun slot => slot.written?.isSome :=
    List.mem_filter.mpr ⟨mem, rfl⟩
  rw [filter_slotsAll _ (fun _ _ => rfl) gs, same, ← filter_slotsAll _ (fun _ _ => rfl) hs] at kept
  exact (List.mem_filter.mp kept).1

mutual

/-- A slot writes to a node of the prototype, or to the `<textarea>` around it. -/
theorem written_mem : ∀ {g : Dressing} {parent : Option (String × NodeId)} {slot : Slot},
    slot ∈ g.slots parent → slot.written? = some x → x ∈ g.basis.ids ∨ parent = some ("textarea", x)
  | .text id source _, parent, slot, mem, writes => by
      simp only [Dressing.slots, textSlots] at mem
      split at mem
      · split at mem
        · split at mem
          · next tag holder _ area =>
            rw [List.mem_singleton.mp mem] at writes
            cases writes
            exact .inr (by rw [area])
          · rw [List.mem_singleton.mp mem] at writes
            cases writes
            exact .inl (List.mem_singleton_self _)
        · rw [List.mem_singleton.mp mem] at writes
          cases writes
          exact .inl (List.mem_singleton_self _)
      · cases mem
  | .comment _ _, _, _, mem, _ => by cases mem
  | .anchor _ _ _ _, _, _, mem, writes => by
      rw [List.mem_singleton.mp mem] at writes
      cases writes
  | .element id tag source attributes children, parent, slot, mem, writes => by
      rw [Dressing.slots, List.mem_append] at mem
      rw [Dressing.basis, ids, List.mem_cons]
      rcases mem with own | inner
      · obtain ⟨a, -, here⟩ := List.mem_flatMap.mp own
        unfold attributeSlots at here
        split at here
        · rw [List.mem_singleton.mp here] at writes
          cases writes
          exact .inl (.inl rfl)
        · cases here
      · rcases written_mem_all inner writes with below | same
        · exact .inl (.inr below)
        · cases same
          exact .inl (.inl rfl)

theorem written_mem_all : ∀ {gs : List Dressing} {parent : Option (String × NodeId)} {slot : Slot},
    slot ∈ Dressing.slotsAll parent gs → slot.written? = some x →
      x ∈ idsAll (Dressing.basisAll gs) ∨ parent = some ("textarea", x)
  | [], _, _, mem, _ => by cases mem
  | g :: rest, parent, slot, mem, writes => by
      rw [Dressing.slotsAll, List.mem_append] at mem
      rw [Dressing.basisAll, idsAll, List.mem_append]
      rcases mem with here | later
      · exact (written_mem here writes).imp_left .inl
      · exact (written_mem_all later writes).imp_left .inr

end

theorem mem_writtenBy {gs : List Dressing} {parent : Option (String × NodeId)}
    (mem : x ∈ writtenBy (Dressing.slotsAll parent gs)) :
    x ∈ idsAll (Dressing.basisAll gs) ∨ parent = some ("textarea", x) := by
  obtain ⟨slot, there, writes⟩ := List.mem_filterMap.mp mem
  exact written_mem_all there writes

end Inlay.Render
