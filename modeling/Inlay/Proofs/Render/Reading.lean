/-
# Proofs.Render.Reading — what the nodes of an instance show

Nodes depict trees when planted trees stand at them that differ from these in the
order of attributes at most (`Depicts`). Where the parts of an instance wear what is
not bound, its slots tell a value and its elements have their rows (`Part.Told`), the
nodes of the instance depict what its prototype expands to (`depicts_of_parts`); what
stands for templates in the value is depicted on both sides.
-/
import Inlay.Proofs.Render.Clad
import Inlay.Proofs.Render.Dress

namespace Inlay.Render

set_option autoImplicit false

open Inlay.Document Inlay.Document.Planted Inlay.Markup
open Inlay.Template hiding root

variable {d d' : Document} {nodes nodes' : List NodeId} {forest forest' : List Tree} {part : Part} {slots : List Slot}
  {value : ValueOf (List NodeId × List Tree)} {entries : List Entry}

/-! ## Nodes and trees -/

/-- Trees stand at the nodes that are the given ones, up to the order of attributes. -/
def Depicts (d : Document) (nodes : List NodeId) (forest : List Tree) : Prop :=
  ∃ ps, StandAll d ps ∧ ps.map root = nodes ∧ AlikeAll (trees ps) forest

namespace Depicts

theorem nil : Depicts d [] [] := ⟨[], trivial, rfl, .nil⟩

theorem single {p : Planted} {tree : Tree} (stands : p.Stands d) (alike : Alike p.tree tree) : Depicts d [p.root] [tree] :=
  ⟨[p], ⟨stands, trivial⟩, rfl, .cons alike .nil⟩

theorem append (first : Depicts d nodes forest) (second : Depicts d nodes' forest') :
    Depicts d (nodes ++ nodes') (forest ++ forest') := by
  obtain ⟨ps, stand, rfl, alike⟩ := first
  obtain ⟨qs, stand', rfl, alike'⟩ := second
  refine ⟨ps ++ qs, standAll_append.mpr ⟨stand, stand'⟩, List.map_append, ?_⟩
  rw [trees_append]
  exact alike.append alike'

end Depicts

/-! ## Attributes -/

/-- Attributes that come from a prototype are the expanded ones when each bound one is what its
slot writes. -/
theorem perm_of_worn (context : Value) {source attributes : List Attribute} (names : DistinctNames source)
    (readable : ∀ a ∈ source, ∃ found, Pattern.read? a.value = .ok found) (worn : Dressing.Worn source attributes)
    (wears : ∀ a ∈ source, ∀ pattern, Pattern.read? a.value = .ok (some pattern) →
      Attribute.find? a.name attributes = Slot.attributeText pattern context) :
    attributes.Perm (source.filterMap (expandedAttribute context)) := by
  have find : ∀ name text, Attribute.find? name attributes = some text ↔ ⟨name, text⟩ ∈ attributes := by
    intro name text
    rw [Attribute.find?, Option.map_eq_some_iff]
    constructor
    · rintro ⟨b, found, rfl⟩
      have named : b.name = name := by simpa using List.find?_some found
      exact named ▸ List.mem_of_find?_eq_some found
    · intro mem
      cases found : attributes.find? (·.name = name) with
      | none => simpa using List.find?_eq_none.mp found _ mem
      | some b =>
          have named : b.name = name := by simpa using List.find?_some found
          have same := List.inj_on_of_nodup_map worn.distinct (List.mem_of_find?_eq_some found) mem named
          exact ⟨b, rfl, by rw [same]⟩
  suffices rewritten : Dressing.Worn source attributes ∧ attributes.Perm (source.filterMap (expandedAttribute context)) from
    rewritten.2
  refine worn_of_written names readable worn worn.distinct fun b => ?_
  constructor
  · intro mem
    by_cases bound : ∃ a ∈ source, Bound a ∧ a.name = b.name
    · obtain ⟨a, there, ⟨pattern, read⟩, named⟩ := bound
      refine .inl ⟨a, there, ⟨pattern, read⟩, ?_⟩
      rw [expandedAttribute_of_pattern read, ← wears a there pattern read, (find a.name b.value).mpr (named ▸ mem),
        Option.map_some, named]
    · exact .inr ⟨mem, fun a there bound_ named => bound ⟨a, there, bound_, named⟩⟩
  · rintro (⟨a, there, ⟨pattern, read⟩, here⟩ | ⟨mem, -⟩)
    · rw [expandedAttribute_of_pattern read, ← wears a there pattern read] at here
      obtain ⟨text, found, rfl⟩ := Option.map_eq_some_iff.mp here
      exact (find a.name text).mp found
    · exact mem

/-! ## Parts -/

/-- The trees behind a planted tree that is an anchor. -/
def treesBehind (context : ValueOf (List Tree)) : Planted → List Tree
  | .comment _ body => ((anchorPath? body).map fun path => shown (valueAt context path)).getD []
  | _ => []

/-- What the document shows of a part is what a value tells. -/
structure Part.Told (d : Document) (slots : List Slot) (value : ValueOf (List NodeId × List Tree)) (part : Part) : Prop where
  wears : part.Wears d
  row : d.children part.node = part.row slots
  facts : ∀ slot ∈ part.slots .blank, ∀ f ∈ slot.facts (value.relabel Prod.fst), f.isLive = false → f.Holds d
  behind : Depicts d (behindIn slots part.node) (treesBehind (value.relabel Prod.snd) part.2)

/-- A comment shows what is left of it. -/
theorem expandedTree_comment (value : ValueOf (List NodeId × List Tree)) (id : NodeId) {body : String}
    (parent : Option (String × NodeId)) (legible : Legible (.comment body)) :
    expandedTree (value.relabel Prod.snd) (parent.map Prod.fst) (.comment body) =
      [.comment (clearComment body)] ++ treesBehind (value.relabel Prod.snd) (.comment id body) := by
  cases path : anchorPath? body with
  | some path =>
      have isAnchor : (anchorSource? body).isSome = true := by
        rw [anchorPath?] at path
        cases source : anchorSource? body with
        | none => simp [source] at path
        | some source => rfl
      simp [expandedTree, treesBehind, path, clearComment, isAnchor]
  | none =>
      have plain : anchorSource? body = none := by
        cases found : anchorSource? body with
        | none => rfl
        | some source =>
            have known := legible source found
            simp [path] at known
      simp [expandedTree, treesBehind, path, clearComment, plain]

namespace Part.Told

/-- A text shows what its pattern renders, and nothing in a `<textarea>`. -/
theorem text {id : NodeId} {source : String} {parent : Option (String × NodeId)} {found : Option Pattern}
    (told : Part.Told d slots value (parent, .text id source)) (read : Pattern.read? source = .ok found) :
    ∃ content, d.content? id = some (.text content) ∧
      expandedTree (value.relabel Prod.snd) (parent.map Prod.fst) (.text source) = [.text content] := by
  obtain ⟨⟨content, here, free⟩, -, facts, -⟩ := told
  refine ⟨content, here, ?_⟩
  cases found with
  | none =>
      have plain : content = source := by
        rw [free fun pattern mem => by simp [textSlots, read] at mem, clearText_of_plain read]
      simp [expandedTree, hasPlaceholder_of_plain read, expandedText, read, plain]
  | some pattern =>
      have has := hasPlaceholder_of_pattern read
      by_cases area : parent.map Prod.fst = some "textarea"
      · have empty : content = "" := by
          obtain ⟨⟨tag, holder⟩, rfl, rfl⟩ := Option.map_eq_some_iff.mp area
          rw [free fun other mem => by simp [textSlots, read] at mem, clearText, if_pos has]
        simp [expandedTree, has, area, empty]
      · have own : Slot.text id pattern ∈ textSlots parent id source := by
          cases parent with
          | none => simp [textSlots, read]
          | some pair =>
              have other : pair.1 ≠ "textarea" := by simpa using area
              simp [textSlots, read, other]
        have holds := facts _ own _ (List.mem_singleton_self _) rfl
        have same : content = pattern.render value := by
          simpa [Fact.Holds, data?, here] using holds
        simp [expandedTree, area, expandedText, read, same]

/-- An element wears what its attributes expand to. -/
theorem element {id : NodeId} {tag : String} {source : List Attribute} {children : List Planted}
    {parent : Option (String × NodeId)} (told : Part.Told d slots value (parent, .element id tag source children))
    (names : DistinctNames source) (readable : ∀ a ∈ source, ∃ found, Pattern.read? a.value = .ok found) :
    ∃ e, d.content? id = some (.element e) ∧ e.tag = tag ∧
      e.attributes.Perm (source.filterMap (expandedAttribute (value.relabel Prod.snd))) := by
  obtain ⟨⟨e, here, isTag, worn⟩, -, facts, -⟩ := told
  refine ⟨e, here, isTag, ?_⟩
  have perm := perm_of_worn (value.relabel Prod.fst) names readable worn fun a mem pattern read => by
    have own : Slot.attribute id a.name pattern (LiveProperty.following? tag a.name) ∈
        source.flatMap (attributeSlots id tag) :=
      List.mem_flatMap.mpr ⟨a, mem, by simp [attributeSlots, read]⟩
    obtain ⟨e', there, same⟩ := facts _ own _ List.mem_cons_self rfl
    cases here.symm.trans there
    exact same
  have same : ∀ a, expandedAttribute (value.relabel Prod.fst) a = expandedAttribute (value.relabel Prod.snd) a := by simp
  rwa [List.filterMap_congr fun a _ => same a] at perm

end Part.Told

mutual

/-- A part and what stands behind it depict what it expands to. -/
theorem depicts_of_part : ∀ {r : Planted} (parent : Option (String × NodeId)), Legible r.tree → Tidy r.tree →
    (∀ part ∈ parts parent r, part.Told d slots value) →
    Depicts d (piece slots r.root) (expandedTree (value.relabel Prod.snd) (parent.map Prod.fst) r.tree)
  | .text id source, parent, ⟨found, read⟩, _, all => by
      have told := all _ (List.mem_singleton_self _)
      obtain ⟨content, here, shows⟩ := told.text read
      have own : Depicts d [id] [.text content] := .single (p := .text id content) here (.text content)
      rw [tree, shows]
      exact own.append told.behind
  | .comment id body, parent, legible, _, all => by
      have told := all _ (List.mem_singleton_self _)
      have own : Depicts d [id] [.comment (clearComment body)] :=
        .single (p := .comment id (clearComment body)) told.wears (.comment _)
      rw [tree, expandedTree_comment value id parent legible]
      exact own.append told.behind
  | .element id tag source children, parent, ⟨readable, legible⟩, ⟨names, tidy⟩, all => by
      have told := all _ List.mem_cons_self
      obtain ⟨e, here, isTag, perm⟩ := told.element names readable
      obtain ⟨ps, stand, roots, alike⟩ := depicts_of_parts (some (tag, id)) legible tidy
        fun part mem => all part (List.mem_cons_of_mem _ mem)
      have own : Depicts d [id] [.element tag (source.filterMap (expandedAttribute (value.relabel Prod.snd)))
          (expanded (value.relabel Prod.snd) (some tag) (trees children))] := by
        refine .single (p := .element id tag e.attributes ps) ⟨⟨e, here, isTag, rfl⟩, ?_, stand⟩ (.element perm alike)
        rw [roots]
        exact told.row
      exact own.append told.behind

theorem depicts_of_parts : ∀ {rs : List Planted} (parent : Option (String × NodeId)), LegibleAll (trees rs) →
    TidyAll (trees rs) → (∀ part ∈ partsAll parent rs, part.Told d slots value) →
    Depicts d ((rs.map root).flatMap (piece slots)) (expanded (value.relabel Prod.snd) (parent.map Prod.fst) (trees rs))
  | [], _, _, _, _ => .nil
  | r :: rest, parent, ⟨legible, others⟩, ⟨tidy, tidies⟩, told => by
      have first := depicts_of_part parent legible tidy fun part mem => told part (List.mem_append_left _ mem)
      have later := depicts_of_parts parent others tidies fun part mem => told part (List.mem_append_right _ mem)
      exact first.append later

end

/-! ## Tenants -/

/-- The nodes of pieces depict the trees of their items. -/
theorem depicts_pieces : ∀ {items : List (ItemOf (List NodeId × List Tree))} {pieces : List (List NodeId ⊕ Entry)},
    List.Forall₂ Shown (items.map (ItemOf.map Prod.fst)) pieces → StandAll d ((entriesOf pieces).flatMap (·.plants)) →
    (∀ pair ∈ items.filterMap ItemOf.template?, Depicts d pair.1 pair.2) →
    Depicts d (pieces.flatMap (pieceNodes id)) ((items.map (ItemOf.map Prod.snd)).flatMap itemTrees)
  | [], [], _, _, _ => .nil
  | .nodes pair :: items, _, .cons (.nodes _) shown, stand, depicted => by
      have later := depicts_pieces shown stand fun pair mem => depicted pair (List.mem_cons_of_mem _ mem)
      exact (depicted pair List.mem_cons_self).append later
  | .made key :: items, .inr entry :: pieces, .cons here shown, stand, depicted => by
      cases here with
      | made _ shows =>
      have entries : entriesOf (.inr entry :: pieces) = entry :: entriesOf pieces := rfl
      rw [entries, List.flatMap_cons] at stand
      obtain ⟨here, others⟩ := standAll_append.mp stand
      have later := depicts_pieces shown others depicted
      have same : itemTrees (.made entry.key) = trees entry.plants := by
        rw [show trees entry.plants = Entry.keyTrees entry.key from shows]
        cases entry.key <;> rfl
      have own : Depicts d (entry.plants.map root) (itemTrees (.made entry.key)) := ⟨entry.plants, here, rfl, same ▸ .refl _⟩
      exact own.append later

variable {s : Tenant}

/-- The nodes that an anchor shows depict its value. -/
theorem Plot.Says.depicts {p : Plot} {path : Path} {a : Anchor} (told : p.Says d (value.relabel Prod.fst))
    (isAnchor : p.slot = .anchor path a) (stand : StandAll d p.grown)
    (depicted : ∀ pair ∈ leaves value, Depicts d pair.1 pair.2) :
    Depicts d a.current (shown (valueAt (value.relabel Prod.snd) path)) := by
  obtain ⟨pieces, shows, current, entries⟩ := told.shows path a isAnchor
  rw [valueAt_relabel, itemsOf_relabel] at shows
  rw [Plot.grown, entries] at stand
  have all := depicts_pieces shows stand fun pair mem => depicted pair <| by
    rw [filterMap_itemsOf] at mem
    exact listed_valueAt value path mem
  rwa [← current, ← itemsOf_relabel, flatMap_itemTrees, ← valueAt_relabel] at all

/-- What a slot of a part shows behind its node, if it is an anchor. -/
theorem treesBehind_of_anchor {context : ValueOf (List Tree)} {path : Path} {a : Anchor}
    (inside : Slot.anchor path a ∈ part.slots .blank) : treesBehind context part.2 = shown (valueAt context path) := by
  obtain ⟨up, r⟩ := part
  cases r with
  | comment id body =>
      rw [Part.slots, commentSlots] at inside
      split at inside
      · next other read =>
        cases List.mem_singleton.mp inside
        simp [treesBehind, read]
      · cases inside
  | text id source => exact absurd inside Dressing.anchor_not_mem_text
  | element id tag attributes children => exact absurd inside Dressing.anchor_not_mem_attributes

/-- Behind the node of a part without an anchor nothing is shown. -/
theorem treesBehind_of_plain {context : ValueOf (List Tree)}
    (plain : ∀ path, Slot.anchor path (.new part.node) ∉ part.slots .blank) : treesBehind context part.2 = [] := by
  obtain ⟨up, r⟩ := part
  cases r with
  | comment id body =>
      cases read : anchorPath? body with
      | none => simp [treesBehind, read]
      | some path =>
          refine absurd ?_ (plain path)
          rw [Part.slots, commentSlots, read]
          exact List.mem_singleton_self _
  | _ => rfl

/-- A tenant from which what its plots say can be read: its copy is in order, and its elements have
their rows. -/
structure Tenant.Readable (d : Document) (s : Tenant) : Prop where
  housed : s.Housed d
  nodup : s.estate.Nodup
  clad : s.Clad d
  form : s.plots.map (·.slot.unwritten) = slotsAll .blank none s.source
  legible : LegibleAll (trees s.source)
  tidy : TidyAll (trees s.source)
  rows : ∀ part ∈ s.parts, d.children part.node = part.row (s.plots.map (·.slot))

namespace Tenant.Readable

variable (readable : s.Readable d) (spoken : ∀ p ∈ s.plots, p.Says d (value.relabel Prod.fst))
include readable

/-- The slots of a part are those of plots, but for what an anchor remembers. -/
theorem exists_plot {slot : Slot} (mem : part ∈ s.parts) (inside : slot ∈ part.slots .blank) :
    ∃ p ∈ s.plots, p.slot.unwritten = slot := by
  have all : slot ∈ s.plots.map (·.slot.unwritten) := by
    rw [readable.form, slotsAll_eq]
    exact List.mem_flatMap.mpr ⟨part, mem, inside⟩
  exact List.mem_map.mp all

include spoken in
/-- The facts of the slots of a part hold. -/
theorem facts {slot : Slot} {f : Fact} (mem : part ∈ s.parts) (inside : slot ∈ part.slots .blank)
    (here : f ∈ slot.facts (value.relabel Prod.fst)) (dull : f.isLive = false) : f.Holds d := by
  obtain ⟨p, memP, rfl⟩ := readable.exists_plot mem inside
  cases slot : p.slot with
  | anchor path a =>
      rw [slot] at here
      cases here
  | _ =>
      refine (spoken p memP).facts f ?_ dull
      rw [slot] at here ⊢
      exact here

include spoken in
/-- What is behind the node of a part depicts the value of its anchor. -/
theorem behind (mem : part ∈ s.parts) (depicted : ∀ pair ∈ leaves value, Depicts d pair.1 pair.2) :
    Depicts d (behindIn (s.plots.map (·.slot)) part.node) (treesBehind (value.relabel Prod.snd) part.2) := by
  have find := fun a => Tenant.Housed.findSome?_eq (a := a) readable.housed.comments (c := part.node)
  rw [behindIn, show s.plots.map (·.slot) = s.inst.slots from rfl]
  cases found : s.inst.slots.findSome? (Slot.anchorAt? part.node) with
  | none =>
      rw [treesBehind_of_plain fun path inside => ?_]
      · exact .nil
      obtain ⟨p, memP, same⟩ := readable.exists_plot mem inside
      cases slot : p.slot with
      | anchor path' a =>
          rw [slot] at same
          have comment : a.comment = part.node := congrArg Slot.node same
          rw [(find a).mpr ⟨p, memP, by rw [slot]; rfl, comment⟩] at found
          cases found
      | _ =>
          rw [slot] at same
          cases same
  | some a =>
      obtain ⟨p, memP, isA, comment⟩ := (find a).mp found
      obtain ⟨path, slot⟩ := Slot.exists_path isA
      have inside : Slot.anchor path (.new a.comment) ∈ part.slots .blank := by
        refine mem_slots_of_node (grounds_nodup readable.nodup) mem ?_ comment (by simp)
        rw [← readable.form]
        exact List.mem_map.mpr ⟨p, memP, by rw [slot]; rfl⟩
      rw [treesBehind_of_anchor inside]
      exact (spoken p memP).depicts slot (readable.housed.plots p memP).stand depicted

include spoken in
/-- The nodes of a tenant depict what its plots say. -/
theorem depicts (depicted : ∀ pair ∈ leaves value, Depicts d pair.1 pair.2) :
    Depicts d s.inst.nodes (expanded (value.relabel Prod.snd) none (trees s.source)) := by
  have told : ∀ part ∈ s.parts, part.Told d (s.plots.map (·.slot)) value := fun part mem =>
    ⟨readable.clad.wears part mem, readable.rows part mem, fun _ inside _ => readable.facts spoken mem inside,
      readable.behind spoken mem depicted⟩
  rw [nodes_eq_pieces]
  exact depicts_of_parts none readable.legible readable.tidy told

end Tenant.Readable

/-- What used tenants say is what their nodes depict. -/
theorem Voiced.depicts {used : List Tenant} (voiced : Voiced d used nodes forest) (readable : ∀ s ∈ used, s.Readable d) :
    Depicts d nodes forest := by
  induction voiced with
  | of_told mem told _ ih => exact (readable _ mem).depicts told ih

end Inlay.Render
