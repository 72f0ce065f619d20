/-
# Proofs.Render.Parts — the parts of an instance

The planted trees of an instance, inner ones included, each with the element that it
stands in (`partsAll`). A slot belongs to one part (`slotsAll_eq`), whose node it
writes to, or to the text of the `<textarea>` it writes to. What of a part is not
bound shows whatever was written (`Part.Wears`).
-/
import Inlay.Proofs.Render.Attire
import Inlay.Proofs.Render.Pieces
import Inlay.Proofs.Render.Retouch
import Inlay.Proofs.Render.Tenant

namespace Inlay.Render

set_option autoImplicit false

open Inlay.Document Inlay.Document.Planted Inlay.Markup
open Inlay.Template hiding root

variable {d d' : Document} {memory : Memory} {parent : Option (String × NodeId)} {r : Planted} {rs : List Planted}
  {x y : NodeId} {slot : Slot} {context : Value}

/-- A planted tree, with the element it stands in. -/
abbrev Part := Option (String × NodeId) × Planted

mutual

/-- A planted tree and those in it, in document order. -/
def parts (parent : Option (String × NodeId)) : Planted → List Part
  | .text id content => [(parent, .text id content)]
  | .comment id body => [(parent, .comment id body)]
  | .element id tag attributes children =>
    (parent, .element id tag attributes children) :: partsAll (some (tag, id)) children

def partsAll (parent : Option (String × NodeId)) : List Planted → List Part
  | [] => []
  | r :: rest => parts parent r ++ partsAll parent rest

end

namespace Part

def node (part : Part) : NodeId := part.2.root

/-- The slots at the node, and the one for the text of a `<textarea>`. -/
def slots (memory : Memory) : Part → List Slot
  | (parent, .text id content) => textSlots parent id content
  | (_, .comment id body) => commentSlots memory id body
  | (_, .element id tag attributes _) => attributes.flatMap (attributeSlots id tag)

/-- The nodes that stand in the node at first. -/
def kids : Part → List NodeId
  | (_, .element _ _ _ children) => children.map root
  | _ => []

/-- These nodes, each with what slots show behind it. -/
def row (slots : List Slot) (part : Part) : List NodeId := part.kids.flatMap (piece slots)

variable {part : Part}

/-- A slot writes to the node of its part, or to the `<textarea>` around it. -/
theorem node_of_mem_slots (mem : slot ∈ part.slots memory) :
    slot.node = part.node ∨ ∃ holder pattern, slot = .textareaValue holder pattern ∧ part.1 = some ("textarea", holder) := by
  obtain ⟨parent, r⟩ := part
  cases r with
  | text id content =>
      rw [slots, textSlots] at mem
      split at mem
      · split at mem
        · split at mem <;> cases List.mem_singleton.mp mem
          · next area => exact .inr ⟨_, _, rfl, by rw [area]⟩
          · exact .inl rfl
        · cases List.mem_singleton.mp mem
          exact .inl rfl
      · cases mem
  | comment id body =>
      rw [slots, commentSlots] at mem
      split at mem
      · cases List.mem_singleton.mp mem
        exact .inl rfl
      · cases mem
  | element id tag attributes children =>
      obtain ⟨a, -, here⟩ := List.mem_flatMap.mp mem
      rw [attributeSlots] at here
      split at here
      · cases List.mem_singleton.mp here
        exact .inl rfl
      · cases here

end Part

variable {part other : Part}

/-! ## All parts -/

mutual

theorem slots_eq : ∀ (r : Planted) (parent : Option (String × NodeId)),
    slots memory parent r = (parts parent r).flatMap (Part.slots memory)
  | .text _ _, _ => (List.append_nil _).symm
  | .comment _ _, _ => (List.append_nil _).symm
  | .element id tag attributes children, _ => by
      rw [slots, parts, List.flatMap_cons, slotsAll_eq children]
      rfl

/-- Every slot belongs to a part. -/
theorem slotsAll_eq : ∀ (rs : List Planted) (parent : Option (String × NodeId)),
    slotsAll memory parent rs = (partsAll parent rs).flatMap (Part.slots memory)
  | [], _ => rfl
  | r :: rest, parent => by
      rw [slotsAll, partsAll, List.flatMap_append, slots_eq r, slotsAll_eq rest]

end

mutual

theorem map_node_parts : ∀ (r : Planted) (parent : Option (String × NodeId)), (parts parent r).map Part.node = r.ids
  | .text _ _, _ => rfl
  | .comment _ _, _ => rfl
  | .element id tag attributes children, _ => by
      rw [parts, List.map_cons, map_node_partsAll children]
      rfl

/-- Every node is that of one part. -/
theorem map_node_partsAll : ∀ (rs : List Planted) (parent : Option (String × NodeId)),
    (partsAll parent rs).map Part.node = idsAll rs
  | [], _ => rfl
  | r :: rest, parent => by rw [partsAll, List.map_append, map_node_parts r, map_node_partsAll rest, idsAll]

end

theorem node_mem (mem : part ∈ partsAll parent rs) : part.node ∈ idsAll rs :=
  map_node_partsAll rs parent ▸ List.mem_map_of_mem mem

/-- Parts are told apart by their nodes. -/
theorem part_unique (nodup : (idsAll rs).Nodup) (mem : part ∈ partsAll parent rs) (mem' : other ∈ partsAll parent rs)
    (same : part.node = other.node) : part = other := by
  rw [← map_node_partsAll rs parent] at nodup
  exact List.inj_on_of_nodup_map nodup mem mem' same

/-- What a slot writes to belongs to the part of the slot. -/
theorem mem_slots_of_node (nodup : (idsAll rs).Nodup) (mem : part ∈ partsAll parent rs)
    (inside : slot ∈ slotsAll memory parent rs) (same : slot.node = part.node)
    (direct : ∀ holder pattern, slot ≠ .textareaValue holder pattern) : slot ∈ part.slots memory := by
  rw [slotsAll_eq] at inside
  obtain ⟨other, there, here⟩ := List.mem_flatMap.mp inside
  rcases Part.node_of_mem_slots here with own | ⟨holder, pattern, area, -⟩
  · rwa [part_unique nodup mem there (same.symm.trans own)]
  · exact absurd area (direct holder pattern)

mutual

/-- Parts stand in an element of other parts. -/
theorem holder_of_parts : ∀ (r : Planted) (parent : Option (String × NodeId)), ∀ part ∈ parts parent r,
    part = (parent, r) ∨ ∃ up id tag attributes children, (up, .element id tag attributes children) ∈ parts parent r ∧
      part.1 = some (tag, id) ∧ part.2 ∈ children
  | .text _ _, _, part, mem => .inl (List.mem_singleton.mp mem)
  | .comment _ _, _, part, mem => .inl (List.mem_singleton.mp mem)
  | .element id tag attributes children, parent, part, mem => by
      rw [parts] at mem ⊢
      rcases List.mem_cons.mp mem with rfl | below
      · exact .inl rfl
      · right
        rcases holder_of_partsAll children (some (tag, id)) part below with ⟨up, top⟩ | ⟨up, id', tag', others, inner, found, rest⟩
        · exact ⟨parent, id, tag, attributes, children, List.mem_cons_self, up, top⟩
        · exact ⟨up, id', tag', others, inner, List.mem_cons_of_mem _ found, rest⟩

/-- A part stands at the top, or in the element of another part. -/
theorem holder_of_partsAll : ∀ (rs : List Planted) (parent : Option (String × NodeId)), ∀ part ∈ partsAll parent rs,
    part.1 = parent ∧ part.2 ∈ rs ∨
      ∃ up id tag attributes children, (up, .element id tag attributes children) ∈ partsAll parent rs ∧
        part.1 = some (tag, id) ∧ part.2 ∈ children
  | [], _, _, mem => by cases mem
  | r :: rest, parent, part, mem => by
      rw [partsAll] at mem ⊢
      rcases List.mem_append.mp mem with here | later
      · rcases holder_of_parts r parent part here with rfl | ⟨up, id, tag, attributes, children, found, inner⟩
        · exact .inl ⟨rfl, List.mem_cons_self⟩
        · exact .inr ⟨up, id, tag, attributes, children, List.mem_append_left _ found, inner⟩
      · rcases holder_of_partsAll rest parent part later with ⟨up, top⟩ | ⟨up, id, tag, attributes, children, found, inner⟩
        · exact .inl ⟨up, List.mem_cons_of_mem _ top⟩
        · exact .inr ⟨up, id, tag, attributes, children, List.mem_append_right _ found, inner⟩

end

/-- A node that is not at the top stands in a part. -/
theorem exists_kid (mem : x ∈ idsAll rs) (inner : x ∉ rs.map root) : ∃ part ∈ partsAll parent rs, x ∈ part.kids := by
  rw [← map_node_partsAll rs parent] at mem
  obtain ⟨part, there, rfl⟩ := List.mem_map.mp mem
  rcases holder_of_partsAll rs parent part there with ⟨-, top⟩ | ⟨up, id, tag, attributes, children, found, -, kid⟩
  · exact absurd (List.mem_map_of_mem top) inner
  · exact ⟨_, found, List.mem_map_of_mem kid⟩

mutual

theorem kid_of_parts : ∀ (r : Planted) (parent : Option (String × NodeId)), ∀ part ∈ parts parent r,
    part.kids ⊆ r.ids.tail
  | .text _ _, _, part, mem => by
      rw [List.mem_singleton.mp mem]
      exact List.nil_subset _
  | .comment _ _, _, part, mem => by
      rw [List.mem_singleton.mp mem]
      exact List.nil_subset _
  | .element id tag attributes children, parent, part, mem => by
      rcases List.mem_cons.mp mem with rfl | below
      · exact (map_root_sublist children).subset
      · exact kid_of_partsAll children (some (tag, id)) part below

theorem kid_of_partsAll : ∀ (rs : List Planted) (parent : Option (String × NodeId)), ∀ part ∈ partsAll parent rs,
    part.kids ⊆ idsAll rs
  | [], _, _, mem => by cases mem
  | r :: rest, parent, part, mem => by
      rcases List.mem_append.mp mem with here | later
      · exact fun y kid => List.mem_append_left _ (List.mem_of_mem_tail (kid_of_parts r parent part here kid))
      · exact fun y kid => List.mem_append_right _ (kid_of_partsAll rest parent part later kid)

end

theorem ids_eq_root_cons (r : Planted) : r.ids = r.root :: r.ids.tail := by
  cases r <;> rfl

/-- What stands in a part is not at the top. -/
theorem kid_inner : ∀ {rs : List Planted}, (idsAll rs).Nodup → part ∈ partsAll parent rs → y ∈ part.kids → y ∉ rs.map root
  | r :: rest, nodup, mem, kid, top => by
      obtain ⟨own, others, apart⟩ := List.nodup_append.mp nodup
      rcases List.mem_append.mp mem with here | later
      · have below := kid_of_parts r parent part here kid
        rcases List.mem_cons.mp top with rfl | behind
        · rw [ids_eq_root_cons] at own
          exact (List.nodup_cons.mp own).1 below
        · exact apart y (List.mem_of_mem_tail below) y ((map_root_sublist rest).subset behind) rfl
      · have below := kid_of_partsAll rest parent part later kid
        rcases List.mem_cons.mp top with rfl | behind
        · exact apart _ root_mem_ids _ below rfl
        · exact kid_inner others later kid behind

mutual

theorem distinctNames_of_parts : ∀ {r : Planted} {parent : Option (String × NodeId)}, Tidy r.tree →
    ∀ part ∈ parts parent r, ∀ id tag attributes children, part.2 = .element id tag attributes children →
      DistinctNames attributes
  | .text _ _, _, _, part, mem, _, _, _, _, same => by
      rw [List.mem_singleton.mp mem] at same
      cases same
  | .comment _ _, _, _, part, mem, _, _, _, _, same => by
      rw [List.mem_singleton.mp mem] at same
      cases same
  | .element _ _ _ children, _, ⟨distinct, tidy⟩, part, mem, id, tag, attributes, kids, same => by
      rcases List.mem_cons.mp mem with rfl | below
      · cases same
        exact distinct
      · exact distinctNames_of_partsAll tidy part below id tag attributes kids same

theorem distinctNames_of_partsAll : ∀ {rs : List Planted} {parent : Option (String × NodeId)}, TidyAll (trees rs) →
    ∀ part ∈ partsAll parent rs, ∀ id tag attributes children, part.2 = .element id tag attributes children →
      DistinctNames attributes
  | [], _, _, _, mem, _, _, _, _, _ => by cases mem
  | _ :: _, _, ⟨tidy, others⟩, part, mem, id, tag, attributes, children, same => by
      rcases List.mem_append.mp mem with here | later
      · exact distinctNames_of_parts tidy part here id tag attributes children same
      · exact distinctNames_of_partsAll others part later id tag attributes children same

end

/-! ## What is not bound -/

/-- What of a part is not bound is what the document shows of it. -/
def Part.Wears (d : Document) : Part → Prop
  | (parent, .text id source) => ∃ content, d.content? id = some (.text content) ∧
      ((∀ pattern, Slot.text id pattern ∉ textSlots parent id source) → content = clearText source)
  | (_, .comment id body) => d.content? id = some (.comment (clearComment body))
  | (_, .element id tag source _) => ∃ e, d.content? id = some (.element e) ∧ e.tag = tag ∧ Dressing.Worn source e.attributes

namespace Part

theorem Wears.congr (wears : part.Wears d) (same : d'.content? part.node = d.content? part.node) : part.Wears d' := by
  obtain ⟨parent, r⟩ := part
  cases r with
  | text id source => exact wears.imp fun content both => ⟨same.trans both.1, both.2⟩
  | comment id body => exact same.trans wears
  | element id tag source children => exact wears.imp fun e both => ⟨same.trans both.1, both.2⟩

end Part

mutual

/-- Where a planted prototype stands, its parts wear what is not bound, and have their kids. -/
theorem wears_of_stands : ∀ {r : Planted} {parent : Option (String × NodeId)}, Tidy r.tree → Stands d (clearedPlant r) →
    ∀ part ∈ parts parent r, part.Wears d ∧ part.kids.Sublist (d.children part.node)
  | .text id source, _, _, stands, part, mem => by
      rw [List.mem_singleton.mp mem]
      exact ⟨⟨clearText source, stands, fun _ => rfl⟩, List.nil_sublist _⟩
  | .comment id body, _, _, stands, part, mem => by
      rw [List.mem_singleton.mp mem]
      exact ⟨stands, List.nil_sublist _⟩
  | .element id tag source children, _, ⟨distinct, tidy⟩, ⟨⟨e, found, isTag, wears⟩, kids, stand⟩, part, mem => by
      rcases List.mem_cons.mp mem with rfl | below
      · rw [map_root_clearedPlants] at kids
        exact ⟨⟨e, found, isTag, wears ▸ Dressing.worn_cleared distinct⟩, kids ▸ .refl _⟩
      · exact wears_of_standAll tidy stand part below

theorem wears_of_standAll : ∀ {rs : List Planted} {parent : Option (String × NodeId)}, TidyAll (trees rs) →
    StandAll d (clearedPlants rs) →
    ∀ part ∈ partsAll parent rs, part.Wears d ∧ part.kids.Sublist (d.children part.node)
  | [], _, _, _, _, mem => by cases mem
  | _ :: _, _, ⟨tidy, others⟩, ⟨stands, stand⟩, part, mem => by
      rcases List.mem_append.mp mem with here | later
      · exact wears_of_stands tidy stands part here
      · exact wears_of_standAll others stand part later

end

/-- The node of a slot is of the kind that the slot writes to. -/
def Slot.Suits (d : Document) : Slot → Prop
  | .text node _ => ∃ content, d.content? node = some (.text content)
  | .textareaValue holder _ => ∃ element, d.content? holder = some (.element element)
  | .attribute holder _ _ _ => ∃ element, d.content? holder = some (.element element)
  | .anchor _ _ => True

/-- Slots suit parts that wear what is not bound. -/
theorem suits_of_wears (wears : ∀ part ∈ partsAll none rs, part.Wears d) (mem : slot ∈ slotsAll memory none rs) :
    slot.Suits d := by
  rw [slotsAll_eq] at mem
  obtain ⟨⟨parent, r⟩, there, here⟩ := List.mem_flatMap.mp mem
  have worn := wears _ there
  cases r with
  | text id source =>
      rw [Part.slots, textSlots] at here
      split at here
      · split at here
        · next tag holder =>
          split at here <;> cases List.mem_singleton.mp here
          · -- the element around the text is a part
            rcases holder_of_partsAll rs none _ there with ⟨top, -⟩ | ⟨up, id', tag', attributes, children, found, same, -⟩
            · cases top
            · cases same
              obtain ⟨e, element, -⟩ := wears _ found
              exact ⟨e, element⟩
          · exact worn.imp fun _ both => both.1
        · cases List.mem_singleton.mp here
          exact worn.imp fun _ both => both.1
      · cases here
  | comment id body =>
      rw [Part.slots, commentSlots] at here
      split at here
      · cases List.mem_singleton.mp here
        trivial
      · cases here
  | element id tag attributes children =>
      obtain ⟨a, -, own⟩ := List.mem_flatMap.mp here
      rw [attributeSlots] at own
      split at own
      · cases List.mem_singleton.mp own
        exact worn.imp fun _ both => both.1
      · cases own

/-! ## Writing a slot -/

/-- What writing a slot makes of the content of its node. -/
inductive Slot.Redoes (context : Value) : Slot → Content → Content → Prop
  | text (node : NodeId) (pattern : Pattern) (old : String) :
      Redoes context (.text node pattern) (.text old) (.text (pattern.render context))
  | textareaValue (holder : NodeId) (pattern : Pattern) {old new : Element} : new.tag = old.tag →
      new.attributes = old.attributes → Redoes context (.textareaValue holder pattern) (.element old) (.element new)
  | attribute (holder : NodeId) (name : String) (pattern : Pattern) (property : Option LiveProperty) {old new : Element} :
      new.tag = old.tag → new.attributes = attired name (Slot.attributeText pattern context) old.attributes →
      Redoes context (.attribute holder name pattern property) (.element old) (.element new)

/-- A slot without an anchor that suits is written to its node. -/
theorem Slot.write_redoes (wf : WellFormed d) (claims : Claims) (context : Value) (plain : slot.anchored? = none)
    (suits : slot.Suits d) :
    ∃ d' old new, slot.write context ⟨d, claims⟩ = .ok slot ⟨d', claims⟩ ∧ d.content? slot.node = some old ∧
      slot.Redoes context old new ∧ Becomes d d' (putContent slot.node new d.content?) d.children := by
  cases slot with
  | anchor path a => cases plain
  | text node content =>
      obtain ⟨data, found⟩ := suits
      obtain ⟨d', done, becomes⟩ := write_text wf found claims context content
      exact ⟨d', _, _, done, found, .text _ _ _, becomes⟩
  | textareaValue holder content =>
      obtain ⟨element, found⟩ := suits
      obtain ⟨d', element', done, isTag, same, becomes⟩ := write_textareaValue wf found claims context content
      exact ⟨d', _, _, done, found, .textareaValue _ _ isTag same, becomes⟩
  | «attribute» holder name content property =>
      obtain ⟨element, found⟩ := suits
      obtain ⟨d', element', done, isTag, same, becomes⟩ := write_attribute wf found claims context name content property
      exact ⟨d', _, _, done, found, .attribute _ _ _ _ isTag same, becomes⟩

/-- An attribute that is bound may be set or removed. -/
theorem Dressing.Worn.attired {source attributes : List Attribute} {a : Attribute} (worn : Worn source attributes)
    (names : DistinctNames source) (mem : a ∈ source) (bound : Bound a) (text : Option String) :
    Worn source (attired a.name text attributes) where
  distinct := distinctNames_attired worn.distinct
  known := fun b inside => by
    rcases (mem_attired worn.distinct b).mp inside with ⟨named, -⟩ | ⟨old, -⟩
    · exact ⟨a, mem, named.symm⟩
    · exact worn.known b old
  plain := fun b inside read => by
    refine (mem_attired worn.distinct b).mpr (.inr ⟨worn.plain b inside read, fun named => ?_⟩)
    obtain ⟨pattern, other⟩ := bound
    rw [← List.inj_on_of_nodup_map names inside mem named, read] at other
    cases other

/-- Writing a slot leaves what is not bound. -/
theorem Part.Wears.redo {old new : Content} (wears : part.Wears d) (nodup : (idsAll rs).Nodup) (tidy : TidyAll (trees rs))
    (mem : part ∈ partsAll parent rs) (inside : slot ∈ slotsAll memory parent rs) (found : d.content? slot.node = some old)
    (redoes : slot.Redoes context old new) (becomes : Becomes d d' (putContent slot.node new d.content?) d.children) :
    part.Wears d' := by
  by_cases same : part.node = slot.node
  · have now : d'.content? part.node = some new := by rw [becomes.content, putContent, if_pos same]
    rw [← same] at found
    have own := mem_slots_of_node nodup mem inside same.symm
    obtain ⟨up, r⟩ := part
    cases r with
    | text id source =>
        obtain ⟨content, before, -⟩ := wears
        cases (before.symm.trans found)
        cases redoes
        refine ⟨_, now, fun free => ?_⟩
        have here := own (by simp)
        cases (show id = _ from same)
        exact absurd here (free _)
    | comment id body =>
        cases (show some (Content.comment (clearComment body)) = _ from wears.symm.trans found)
        cases redoes
    | element id tag source children =>
        obtain ⟨e, before, isTag, worn⟩ := wears
        cases (before.symm.trans found)
        cases redoes with
        | textareaValue holder pattern tags attributes => exact ⟨_, now, tags.trans isTag, attributes ▸ worn⟩
        | «attribute» holder name pattern property tags attributes =>
            refine ⟨_, now, tags.trans isTag, ?_⟩
            obtain ⟨a, there, here⟩ := List.mem_flatMap.mp (own (by simp))
            rw [attributeSlots] at here
            split at here
            · next read =>
              cases List.mem_singleton.mp here
              rw [attributes]
              exact worn.attired (distinctNames_of_partsAll tidy _ mem _ _ _ _ rfl) there ⟨_, read⟩ _
            · cases here
  · exact wears.congr (by rw [becomes.content, putContent, if_neg same])

end Inlay.Render
