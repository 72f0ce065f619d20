/-
# Proofs.Render.Dressing — a planted prototype and what it shows now

A `Dressing` is a planted tree of a prototype, still with its placeholders,
together with what its places show: the text of a bound text, the attributes of
an element, and the entries behind an anchor. It determines the slots of its
instance (`slotsAll`), the planted prototype it came from (`basisAll`) and what
stands in the document (`plantsAll`). A dressing `Fits` when what is not bound
shows the prototype.
-/
import Inlay.Proofs.Render.Dress
import Inlay.Proofs.Render.Refill

namespace Inlay.Render

set_option autoImplicit false

open Relation Inlay.Document Inlay.Document.Planted Inlay.Markup
open Inlay.Template hiding root

inductive Dressing where
  | text (id : NodeId) (source content : String)
  | comment (id : NodeId) (body : String)
  | anchor (id : NodeId) (body : String) (path : Path) (entries : List Entry)
  | element (id : NodeId) (tag : String) (source attributes : List Attribute)
      (children : List Dressing)

namespace Dressing

/-- The node of the prototype's tree. -/
def root : Dressing → NodeId
  | text id _ _ => id
  | comment id _ => id
  | anchor id _ _ _ => id
  | element id _ _ _ _ => id

/-- The entries behind an anchor at the root. -/
def entries : Dressing → List Entry
  | anchor _ _ _ entries => entries
  | _ => []

mutual

/-- The planted tree it came from, with its placeholders. -/
def basis : Dressing → Planted
  | .text id source _ => .text id source
  | .comment id body => .comment id body
  | .anchor id body _ _ => .comment id body
  | .element id tag source _ children => .element id tag source (basisAll children)

def basisAll : List Dressing → List Planted
  | [] => []
  | g :: rest => basis g :: basisAll rest

end

mutual

/-- What stands in the document: the tree, with the entries behind an anchor. -/
def plants : Dressing → List Planted
  | .text id _ content => [.text id content]
  | .comment id body => [.comment id body]
  | .anchor id _ _ entries => .comment id "" :: plantsOf entries
  | .element id tag _ attributes children => [.element id tag attributes (plantsAll children)]

def plantsAll : List Dressing → List Planted
  | [] => []
  | g :: rest => plants g ++ plantsAll rest

end

mutual

/-- The entries behind all anchors. -/
def entriesIn : Dressing → List Entry
  | .text _ _ _ => []
  | .comment _ _ => []
  | .anchor _ _ _ entries => entries
  | .element _ _ _ _ children => entriesInAll children

def entriesInAll : List Dressing → List Entry
  | [] => []
  | g :: rest => entriesIn g ++ entriesInAll rest

end

mutual

/-- The slots at and inside the tree. -/
def slots (parent : Option (String × NodeId)) : Dressing → List Slot
  | .text id source _ => textSlots parent id source
  | .comment _ _ => []
  | .anchor id _ path entries => [.anchor path (.ofEntries id entries)]
  | .element id tag source _ children =>
    source.flatMap (attributeSlots id tag) ++ slotsAll (some (tag, id)) children

def slotsAll (parent : Option (String × NodeId)) : List Dressing → List Slot
  | [] => []
  | g :: rest => slots parent g ++ slotsAll parent rest

end

/-! ## Fitting -/

/-- Attributes that come from those of a prototype: distinct, none of another
name, and those without a placeholder as they are. -/
structure Worn (source attributes : List Attribute) : Prop where
  distinct : DistinctNames attributes
  known : ∀ b ∈ attributes, ∃ a ∈ source, a.name = b.name
  plain : ∀ a ∈ source, Pattern.read? a.value = .ok none → a ∈ attributes

mutual

/-- What is not bound shows the prototype, in an element of tag `parent`. -/
def Fits (parent : Option String) : Dressing → Prop
  | .text _ source content => ∃ found, Pattern.read? source = .ok found ∧
      (found = none ∨ parent = some "textarea" → content = clearText source)
  | .comment _ body => anchorPath? body = none
  | .anchor _ body path entries => anchorPath? body = some path ∧ ∀ entry ∈ entries, entry.Shows
  | .element _ tag source attributes children =>
      DistinctNames source ∧ (∀ a ∈ source, ∃ found, Pattern.read? a.value = .ok found) ∧
        Worn source attributes ∧ (tag = "textarea" → children.length ≤ 1) ∧
        FitsAll (some tag) children

def FitsAll (parent : Option String) : List Dressing → Prop
  | [] => True
  | g :: rest => Fits parent g ∧ FitsAll parent rest

end

/-! ## Nodes of the prototype and entries -/

variable {d : Document} {g : Dressing} {gs hs : List Dressing} {x : NodeId}

theorem root_basis (g : Dressing) : g.basis.root = g.root := by
  cases g <;> rfl

theorem map_root_basisAll (gs : List Dressing) : (basisAll gs).map Planted.root = gs.map root := by
  induction gs with
  | nil => rfl
  | cons g rest ih => rw [basisAll, List.map_cons, List.map_cons, ih, root_basis]

theorem map_root_plants (g : Dressing) :
    g.plants.map Planted.root = g.root :: (plantsOf g.entries).map Planted.root := by
  cases g <;> rfl

theorem map_root_plantsAll (gs : List Dressing) : (plantsAll gs).map Planted.root =
    gs.flatMap fun g => g.root :: (plantsOf g.entries).map Planted.root := by
  induction gs with
  | nil => rfl
  | cons g rest ih => rw [plantsAll, List.map_append, ih, map_root_plants, List.flatMap_cons]

theorem basisAll_append : basisAll (gs ++ hs) = basisAll gs ++ basisAll hs := by
  induction gs with
  | nil => rfl
  | cons g rest ih => rw [List.cons_append, basisAll, ih, basisAll, List.cons_append]

theorem plantsAll_append : plantsAll (gs ++ hs) = plantsAll gs ++ plantsAll hs := by
  induction gs with
  | nil => rfl
  | cons g rest ih => rw [List.cons_append, plantsAll, ih, plantsAll, List.append_assoc]

theorem slotsAll_append {parent : Option (String × NodeId)} :
    slotsAll parent (gs ++ hs) = slotsAll parent gs ++ slotsAll parent hs := by
  induction gs with
  | nil => rfl
  | cons g rest ih => rw [List.cons_append, slotsAll, ih, slotsAll, List.append_assoc]

theorem fitsAll_append {parent : Option String} (first : FitsAll parent gs) (second : FitsAll parent hs) :
    FitsAll parent (gs ++ hs) := by
  induction gs with
  | nil => exact second
  | cons g rest ih => exact ⟨first.1, ih first.2⟩

mutual

/-- What stands is the prototype and the entries. -/
theorem ids_plants_perm : ∀ g : Dressing, (idsAll g.plants).Perm
    (g.basis.ids ++ idsAll (plantsOf g.entriesIn))
  | .text _ _ _ => .refl _
  | .comment _ _ => .refl _
  | .anchor id body path entries => .refl _
  | .element id tag source attributes children => by
      have inner := idsAll_plantsAll_perm children
      simpa [plants, basis, entriesIn, idsAll, ids] using inner

theorem idsAll_plantsAll_perm : ∀ gs : List Dressing, (idsAll (plantsAll gs)).Perm
    (idsAll (basisAll gs) ++ idsAll (plantsOf (entriesInAll gs)))
  | [] => .refl _
  | g :: rest => by
      have here := ids_plants_perm g
      have others := idsAll_plantsAll_perm rest
      rw [plantsAll, idsAll_append, basisAll, idsAll, entriesInAll, plantsOf_append, idsAll_append]
      refine (here.append others).trans ?_
      simp only [List.append_assoc]
      exact (List.perm_append_comm_assoc _ _ _).append_left _

end

theorem mem_ids_plantsAll : x ∈ idsAll (plantsAll gs) ↔
    x ∈ idsAll (basisAll gs) ∨ x ∈ idsAll (plantsOf (entriesInAll gs)) := by
  rw [(idsAll_plantsAll_perm gs).mem_iff, List.mem_append]

/-! ## Anchors -/

theorem anchor_not_mem_attributes {id : NodeId} {tag : String} {source : List Attribute} {path : Path}
    {a : Anchor} : Slot.anchor path a ∉ source.flatMap (attributeSlots id tag) := by
  intro mem
  obtain ⟨b, -, here⟩ := List.mem_flatMap.mp mem
  unfold attributeSlots at here
  split at here
  · cases List.mem_singleton.mp here
  · cases here

theorem anchor_not_mem_text {parent : Option (String × NodeId)} {id : NodeId} {source : String} {path : Path}
    {a : Anchor} : Slot.anchor path a ∉ textSlots parent id source := by
  unfold textSlots
  split
  · split
    · split <;> simp
    · simp
  · simp

mutual

/-- An anchor is at a comment of the prototype and shows entries that stand. -/
theorem anchor_mem {path : Path} {a : Anchor} : ∀ {g : Dressing} {parent : Option (String × NodeId)},
    Slot.anchor path a ∈ g.slots parent → a.comment ∈ g.basis.ids ∧
      ∃ entries, a = .ofEntries a.comment entries ∧ (StandAll d g.plants → StandAll d (plantsOf entries))
  | .text _ _ _, _, mem => absurd mem anchor_not_mem_text
  | .comment _ _, _, mem => by cases mem
  | .anchor id body path entries, _, mem => by
      cases List.mem_singleton.mp mem
      exact ⟨List.mem_singleton_self _, entries, rfl, fun stand => stand.2⟩
  | .element id tag source attributes children, _, mem => by
      rcases List.mem_append.mp mem with own | below
      · exact absurd own anchor_not_mem_attributes
      · obtain ⟨here, entries, same, stands⟩ := anchor_mem_all below
        exact ⟨List.mem_cons_of_mem _ here, entries, same, fun stand => stands stand.1.2.2⟩

theorem anchor_mem_all {path : Path} {a : Anchor} : ∀ {gs : List Dressing}
    {parent : Option (String × NodeId)}, Slot.anchor path a ∈ slotsAll parent gs →
      a.comment ∈ idsAll (basisAll gs) ∧ ∃ entries, a = .ofEntries a.comment entries ∧
        (StandAll d (plantsAll gs) → StandAll d (plantsOf entries))
  | [], _, mem => by cases mem
  | g :: rest, _, mem => by
      rw [basisAll, idsAll, List.mem_append, plantsAll, standAll_append]
      rcases List.mem_append.mp mem with here | later
      · obtain ⟨inside, entries, same, stands⟩ := anchor_mem here
        exact ⟨.inl inside, entries, same, fun stand => stands stand.1⟩
      · obtain ⟨inside, entries, same, stands⟩ := anchor_mem_all later
        exact ⟨.inr inside, entries, same, fun stand => stands stand.2⟩

end

/-! ## New dressings -/

mutual

/-- A planted tree that shows nothing yet. -/
def ofPlanted : Planted → Dressing
  | .text id content => .text id content (clearText content)
  | .comment id body =>
    match anchorPath? body with
    | some path => .anchor id body path []
    | none => .comment id body
  | .element id tag attributes children =>
    .element id tag attributes (attributes.map clearAttribute) (ofPlantedAll children)

def ofPlantedAll : List Planted → List Dressing
  | [] => []
  | r :: rest => ofPlanted r :: ofPlantedAll rest

end

theorem length_ofPlantedAll (rs : List Planted) : (ofPlantedAll rs).length = rs.length := by
  induction rs with
  | nil => rfl
  | cons r rest ih => simp [ofPlantedAll, ih]

theorem length_trees (rs : List Planted) : (trees rs).length = rs.length := by
  induction rs with
  | nil => rfl
  | cons r rest ih => simp [trees, ih]

mutual

theorem basis_ofPlanted : ∀ r : Planted, (ofPlanted r).basis = r
  | .text _ _ => rfl
  | .comment id body => by
      rw [ofPlanted]
      split <;> rfl
  | .element id tag attributes children => by rw [ofPlanted, basis, basisAll_ofPlantedAll children]

theorem basisAll_ofPlantedAll : ∀ rs : List Planted, basisAll (ofPlantedAll rs) = rs
  | [] => rfl
  | r :: rest => by rw [ofPlantedAll, basisAll, basis_ofPlanted r, basisAll_ofPlantedAll rest]

end

mutual

/-- Nothing stands but the cleared prototype. -/
theorem plants_ofPlanted : ∀ {r : Planted}, Legible r.tree → (ofPlanted r).plants = [clearedPlant r]
  | .text _ _, _ => rfl
  | .comment id body, legible => by
      cases source : anchorSource? body with
      | none =>
          have path : anchorPath? body = none := by simp [anchorPath?, source]
          simp [ofPlanted, path, plants, clearedPlant, clearComment, source]
      | some chars =>
          obtain ⟨path, found⟩ := Option.isSome_iff_exists.mp (legible chars source)
          simp [ofPlanted, found, plants, clearedPlant, clearComment, source, plantsOf]
  | .element id tag attributes children, legible => by
      rw [ofPlanted, plants, plantsAll_ofPlantedAll legible.2, clearedPlant]

theorem plantsAll_ofPlantedAll : ∀ {rs : List Planted}, LegibleAll (trees rs) →
    plantsAll (ofPlantedAll rs) = clearedPlants rs
  | [], _ => rfl
  | r :: rest, legible => by
      rw [ofPlantedAll, plantsAll, plants_ofPlanted legible.1, plantsAll_ofPlantedAll legible.2]
      rfl

end

mutual

theorem slots_ofPlanted : ∀ (r : Planted) (parent : Option (String × NodeId)),
    (ofPlanted r).slots parent = Render.slots .blank parent r
  | .text _ _, _ => rfl
  | .comment id body, _ => by
      cases path : anchorPath? body with
      | none => simp [ofPlanted, path, slots, Render.slots, commentSlots]
      | some found =>
          simp only [ofPlanted, path, slots, Render.slots, commentSlots]
          rfl
  | .element id tag attributes children, _ => by
      rw [ofPlanted, slots, slotsAll_ofPlantedAll children, Render.slots]

theorem slotsAll_ofPlantedAll : ∀ (rs : List Planted) (parent : Option (String × NodeId)),
    slotsAll parent (ofPlantedAll rs) = Render.slotsAll .blank parent rs
  | [], _ => rfl
  | r :: rest, parent => by
      rw [ofPlantedAll, slotsAll, slots_ofPlanted r, slotsAll_ofPlantedAll rest, Render.slotsAll]

end

theorem worn_cleared {attributes : List Attribute} (distinct : DistinctNames attributes) :
    Worn attributes (attributes.map clearAttribute) where
  distinct := by
    rw [DistinctNames, List.map_map]
    exact distinct
  known := by
    rintro b mem
    obtain ⟨a, there, rfl⟩ := List.mem_map.mp mem
    exact ⟨a, there, rfl⟩
  plain := by
    intro a mem read
    refine List.mem_map.mpr ⟨a, mem, ?_⟩
    rw [clearAttribute, clearText_of_plain read]

mutual

theorem fits_ofPlanted : ∀ {r : Planted} {parent : Option String}, Legible r.tree → Tidy r.tree →
    Everywhere Slim r.tree → Fits parent (ofPlanted r)
  | .text _ _, _, ⟨found, read⟩, _, _ => ⟨found, read, fun _ => rfl⟩
  | .comment id body, _, _, _, _ => by
      rw [ofPlanted]
      split
      · next found => exact ⟨found, by simp⟩
      · next none => exact none
  | .element id tag attributes children, _, legible, tidy, slim => by
      refine ⟨tidy.1, legible.1, worn_cleared tidy.1, ?_, fitsAll_ofPlantedAll legible.2 tidy.2 slim.2⟩
      rintro rfl
      have short := slim.1 (by decide)
      rwa [length_trees, ← length_ofPlantedAll] at short

theorem fitsAll_ofPlantedAll : ∀ {rs : List Planted} {parent : Option String}, LegibleAll (trees rs) →
    TidyAll (trees rs) → EverywhereAll Slim (trees rs) → FitsAll parent (ofPlantedAll rs)
  | [], _, _, _, _ => trivial
  | _ :: _, _, legible, tidy, slim =>
      ⟨fits_ofPlanted legible.1 tidy.1 slim.1, fitsAll_ofPlantedAll legible.2 tidy.2 slim.2⟩

end

end Dressing

end Inlay.Render
