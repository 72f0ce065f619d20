/-
# Proofs.Render.Slots — bindings lead to their nodes

A planted prototype is described by planted trees that still have their
placeholders (`source`), while the document holds them cleared. Its slots are
read off these trees (`slotsAll`), and following the paths of the bindings gives
exactly them (`bindAll_eq`). What an anchor remembers is a function of its
comment, so that an instance is its planted trees and a `Memory`.
-/
import Inlay.Proofs.Document.Planting
import Inlay.Proofs.Render.Compile
import Inlay.Render.Instance

namespace Inlay.Render

set_option autoImplicit false

open Inlay.Document Inlay.Document.Planted Inlay.Markup
open Inlay.Template hiding root

variable {d : Document} {fragment : NodeId} {label : String}

/-! ## Cleared trees -/

mutual

/-- The planted tree with every placeholder cleared. -/
def clearedPlant : Planted → Planted
  | .element id tag attributes children =>
    .element id tag (attributes.map clearAttribute) (clearedPlants children)
  | .text id content => .text id (clearText content)
  | .comment id body => .comment id (clearComment body)

def clearedPlants : List Planted → List Planted
  | [] => []
  | r :: rest => clearedPlant r :: clearedPlants rest

end

@[simp] theorem root_clearedPlant (r : Planted) : (clearedPlant r).root = r.root := by
  cases r <;> rfl

@[simp] theorem map_root_clearedPlants (rs : List Planted) :
    (clearedPlants rs).map root = rs.map root := by
  induction rs with
  | nil => rfl
  | cons r rest ih => simp [clearedPlants, ih]

mutual

@[simp] theorem ids_clearedPlant : ∀ r : Planted, (clearedPlant r).ids = r.ids
  | .element id tag attributes children => by
      simp only [clearedPlant, ids, idsAll_clearedPlants children]
  | .text _ _ => rfl
  | .comment _ _ => rfl

@[simp] theorem idsAll_clearedPlants : ∀ rs : List Planted, idsAll (clearedPlants rs) = idsAll rs
  | [] => rfl
  | r :: rest => by simp only [clearedPlants, idsAll, ids_clearedPlant r, idsAll_clearedPlants rest]

end

mutual

/-- Cleared trees that are planted come from planted trees with placeholders. -/
theorem exists_source : ∀ {tree : Tree} {p : Planted}, p.tree = clearedTree tree →
    ∃ r : Planted, r.tree = tree ∧ clearedPlant r = p
  | .element tag attributes children, .element id tag' attributes' children', same => by
      simp only [tree, clearedTree, Tree.element.injEq] at same
      obtain ⟨rfl, rfl, inner⟩ := same
      obtain ⟨rs, trees, rfl⟩ := exists_sources inner
      exact ⟨.element id tag' attributes rs, by simp [tree, trees], rfl⟩
  | .text content, .text id content', same => by
      simp only [tree, clearedTree, Tree.text.injEq] at same
      exact ⟨.text id content, rfl, by simp [clearedPlant, same]⟩
  | .comment body, .comment id body', same => by
      simp only [tree, clearedTree, Tree.comment.injEq] at same
      exact ⟨.comment id body, rfl, by simp [clearedPlant, same]⟩
  | .element _ _ _, .text _ _, same => by cases same
  | .element _ _ _, .comment _ _, same => by cases same
  | .text _, .element _ _ _ _, same => by cases same
  | .text _, .comment _ _, same => by cases same
  | .comment _, .element _ _ _ _, same => by cases same
  | .comment _, .text _ _, same => by cases same

theorem exists_sources : ∀ {content : List Tree} {ps : List Planted}, trees ps = cleared content →
    ∃ rs : List Planted, trees rs = content ∧ clearedPlants rs = ps
  | [], [], _ => ⟨[], rfl, rfl⟩
  | tree :: rest, p :: ps, same => by
      simp only [trees, cleared, List.cons.injEq] at same
      obtain ⟨r, here, rfl⟩ := exists_source same.1
      obtain ⟨rs, others, rfl⟩ := exists_sources same.2
      exact ⟨r :: rs, by simp [trees, here, others], rfl⟩
  | [], _ :: _, same => by cases same
  | _ :: _, [], same => by cases same

end

/-! ## The slots of planted trees -/

/-- What the anchors of an instance remember, by their comments. -/
structure Memory where
  behind : NodeId → List NodeId
  made : NodeId → List Made

namespace Memory

/-- Nothing was shown yet. -/
def blank : Memory := ⟨fun _ => [], fun _ => []⟩

def anchor (memory : Memory) (comment : NodeId) : Anchor :=
  ⟨comment, memory.behind comment, memory.made comment⟩

end Memory

/-- The slot of a text, which stands in an element of a tag. -/
def textSlots (parent : Option (String × NodeId)) (id : NodeId) (content : String) : List Slot :=
  match Pattern.read? content with
  | .ok (some pattern) =>
    match parent with
    | some (tag, holder) =>
      if tag = "textarea" then [.textareaValue holder pattern] else [.text id pattern]
    | none => [.text id pattern]
  | _ => []

def attributeSlots (id : NodeId) (tag : String) (a : Attribute) : List Slot :=
  match Pattern.read? a.value with
  | .ok (some pattern) => [.attribute id a.name pattern (LiveProperty.following? tag a.name)]
  | _ => []

def commentSlots (memory : Memory) (id : NodeId) (body : String) : List Slot :=
  match anchorPath? body with
  | some path => [.anchor path (memory.anchor id)]
  | none => []

mutual

/-- The slots at and inside a planted tree. -/
def slots (memory : Memory) (parent : Option (String × NodeId)) : Planted → List Slot
  | .text id content => textSlots parent id content
  | .comment id body => commentSlots memory id body
  | .element id tag attributes children =>
    attributes.flatMap (attributeSlots id tag) ++ slotsAll memory (some (tag, id)) children

def slotsAll (memory : Memory) (parent : Option (String × NodeId)) : List Planted → List Slot
  | [] => []
  | r :: rest => slots memory parent r ++ slotsAll memory parent rest

end

/-! ## Following paths -/

theorem bindAll_append {first second : List Binding} {ss ts : List Slot}
    (here : Instance.bindAll label d fragment first = .ok ss)
    (there : Instance.bindAll label d fragment second = .ok ts) :
    Instance.bindAll label d fragment (first ++ second) = .ok (ss ++ ts) := by
  induction first generalizing ss with
  | nil =>
      cases here
      exact there
  | cons binding rest ih =>
      cases slot : Slot.bind? d fragment binding with
      | none => simp [Instance.bindAll, slot, throw, throwThe, MonadExceptOf.throw] at here
      | some s =>
          cases others : Instance.bindAll label d fragment rest with
          | error fault => simp [Instance.bindAll, slot, others, bind, Except.bind] at here
          | ok more =>
              simp only [Instance.bindAll, slot, others, bind, Except.bind, pure, Except.pure,
                Except.ok.injEq] at here
              subst here
              simp [Instance.bindAll, slot, ih others, bind, Except.bind, pure, Except.pure]

theorem bindAll_single {binding : Binding} {slot : Slot}
    (bound : Slot.bind? d fragment binding = some slot) :
    Instance.bindAll label d fragment [binding] = .ok [slot] := by
  simp [Instance.bindAll, bound, bind, Except.bind, pure, Except.pure]

theorem resolve?_child {path : List Nat} {index : Nat} {q : NodeId}
    (resolved : Slot.resolve? d fragment path = some q) :
    Slot.resolve? d fragment (path ++ [index]) = (d.children q)[index]? := by
  simp only [Slot.resolve?] at resolved ⊢
  rw [List.foldlM_append, resolved]
  simp [childAt?]

theorem bindAll_text {parent : Option (String × NodeId)} {path : List Nat} {id : NodeId}
    {content : String} {all : List Binding} (resolved : Slot.resolve? d fragment path = some id)
    (up : ∀ tag holder, parent = some (tag, holder) → d.parent? id = some holder)
    (bound : textBindings (parent.map Prod.fst) path content = .ok all) :
    Instance.bindAll label d fragment all = .ok (textSlots parent id content) := by
  cases read : Pattern.read? content with
  | error fault => simp [textBindings, read, bind, Except.bind] at bound
  | ok found =>
      simp only [textBindings, read, bind, Except.bind] at bound
      cases found with
      | none =>
          cases bound
          simp [textSlots, read, Instance.bindAll]
      | some pattern =>
          cases bound
          simp only [textSlots, read]
          cases parent with
          | none =>
              apply bindAll_single
              simp [Slot.bind?, resolved]
          | some holder =>
              obtain ⟨tag, holder⟩ := holder
              by_cases area : tag = "textarea"
              · subst area
                apply bindAll_single
                simp [Slot.bind?, resolved, up _ _ rfl]
              · simp only [if_neg area]
                apply bindAll_single
                simp [Slot.bind?, resolved, area]

theorem bindAll_comment {path : List Nat} {id : NodeId} {body : String} {all : List Binding}
    (resolved : Slot.resolve? d fragment path = some id)
    (bound : commentBindings path body = .ok all) :
    Instance.bindAll label d fragment all = .ok (commentSlots .blank id body) := by
  cases source : anchorSource? body with
  | none =>
      simp only [commentBindings, source] at bound
      cases bound
      simp [commentSlots, anchorPath?, source, Instance.bindAll]
  | some chars =>
      cases read : Pattern.readPath chars with
      | error fault => simp [commentBindings, source, read, bind, Except.bind] at bound
      | ok found =>
          simp only [commentBindings, source, read, bind, Except.bind] at bound
          cases bound
          simp only [commentSlots, anchorPath?, source, read, Except.toOption, Option.bind_some]
          apply bindAll_single
          simp [Slot.bind?, resolved]
          rfl

theorem bindAll_attributes {tag : String} {path : List Nat} {id : NodeId} {e : Element}
    (resolved : Slot.resolve? d fragment path = some id) (found : d.element? id = some e) :
    ∀ {attributes : List Attribute} {index : Nat} (front : List Attribute) {all : List Binding},
      e.attributes = front ++ attributes.map clearAttribute → front.length = index →
      attributeBindings tag path index attributes = .ok all →
      Instance.bindAll label d fragment all = .ok (attributes.flatMap (attributeSlots id tag))
  | [], index, _, all, _, _, bound => by
      cases bound
      rfl
  | a :: rest, index, front, all, split, place, bound => by
      cases read : Pattern.read? a.value with
      | error fault => simp [attributeBindings, read, bind, Except.bind] at bound
      | ok found' =>
          cases others : attributeBindings tag path (index + 1) rest with
          | error fault => simp [attributeBindings, read, others, bind, Except.bind] at bound
          | ok more =>
              have ih := bindAll_attributes resolved found (front ++ [clearAttribute a])
                (by simp [split]) (by simp [place]) others
              simp only [attributeBindings, read, others, bind, Except.bind] at bound
              rw [List.flatMap_cons]
              cases found' with
              | none =>
                  cases bound
                  simpa [attributeSlots, read] using ih
              | some pattern =>
                  cases bound
                  simp only [attributeSlots, read]
                  refine bindAll_append (bindAll_single ?_) ih
                  have here : e.attributes[index]? = some (clearAttribute a) := by
                    rw [split, ← place]
                    simp
                  simp [Slot.bind?, resolved, found, here, clearAttribute]

mutual

theorem bindAll_tree (wf : WellFormed d) : ∀ {r : Planted} {parent : Option (String × NodeId)}
    {path : List Nat} {all : List Binding}, Stands d (clearedPlant r) →
    Slot.resolve? d fragment path = some r.root →
    (∀ tag holder, parent = some (tag, holder) → d.parent? r.root = some holder) →
    treeBindings (parent.map Prod.fst) path r.tree = .ok all →
    Instance.bindAll label d fragment all = .ok (slots .blank parent r)
  | .text id content, parent, path, all, _, resolved, up, bound => bindAll_text resolved up bound
  | .comment id body, parent, path, all, _, resolved, up, bound => bindAll_comment resolved bound
  | .element id tag attributes children, parent, path, all, stands, resolved, up, bound => by
      obtain ⟨⟨e, found, -, listed⟩, kids, inner⟩ := stands
      have element : d.element? id = some e := by rw [element?, found]
      simp only [tree, treeBindings] at bound
      cases own : attributeBindings tag path 0 attributes with
      | error fault => simp [own, bind, Except.bind] at bound
      | ok first =>
          cases below : bindings (some tag) path 0 (trees children) with
          | error fault => simp [own, below, bind, Except.bind] at bound
          | ok second =>
              simp only [own, below, bind, Except.bind, pure, Except.pure, Except.ok.injEq] at bound
              subst bound
              rw [map_root_clearedPlants] at kids
              refine bindAll_append (bindAll_attributes resolved element [] listed rfl own) ?_
              have holder : ∀ tag' holder, some (tag, id) = some (tag', holder) → holder = id := by
                rintro _ _ ⟨⟩
                rfl
              have split : d.children id = [] ++ children.map Planted.root := kids
              exact bindAll_trees wf [] inner resolved split rfl holder below

theorem bindAll_trees (wf : WellFormed d) : ∀ {rs : List Planted} {parent : Option (String × NodeId)}
    {path : List Nat} {index : Nat} {q : NodeId} (front : List NodeId) {all : List Binding},
    StandAll d (clearedPlants rs) → Slot.resolve? d fragment path = some q →
    d.children q = front ++ rs.map root → front.length = index →
    (∀ tag holder, parent = some (tag, holder) → holder = q) →
    bindings (parent.map Prod.fst) path index (trees rs) = .ok all →
    Instance.bindAll label d fragment all = .ok (slotsAll .blank parent rs)
  | [], parent, path, index, q, _, all, _, _, _, _, _, bound => by
      cases bound
      rfl
  | r :: rest, parent, path, index, q, front, all, ⟨stands, stand⟩, resolved, kids, place, up, bound => by
      simp only [trees, bindings] at bound
      cases own : treeBindings (parent.map Prod.fst) (path ++ [index]) r.tree with
      | error fault => simp [own, bind, Except.bind] at bound
      | ok first =>
          cases others : bindings (parent.map Prod.fst) path (index + 1) (trees rest) with
          | error fault => simp [own, others, bind, Except.bind] at bound
          | ok second =>
              simp only [own, others, bind, Except.bind, pure, Except.pure, Except.ok.injEq] at bound
              subst bound
              have child : Slot.resolve? d fragment (path ++ [index]) = some r.root := by
                rw [resolve?_child resolved, kids, ← place]
                simp
              have parentOf : d.parent? r.root = some q := wf.parent_iff.mpr (by simp [kids])
              refine bindAll_append (bindAll_tree wf stands child ?_ own)
                (bindAll_trees wf (front ++ [r.root]) stand resolved ?_ ?_ up others)
              · intro tag element same
                rw [parentOf, up tag element same]
              · simp [kids]
              · simp [place]

end

/-- Following the bindings of a content that is planted in a fragment. -/
theorem bindAll_eq (wf : WellFormed d) {rs : List Planted} {all : List Binding}
    (stand : StandAll d (clearedPlants rs)) (kids : d.children fragment = rs.map root)
    (bound : bindings none [] 0 (trees rs) = .ok all) :
    Instance.bindAll label d fragment all = .ok (slotsAll .blank none rs) := by
  have up : ∀ tag holder, (none : Option (String × NodeId)) = some (tag, holder) →
      holder = fragment := nofun
  exact bindAll_trees wf [] stand rfl kids rfl up bound

/-! ## Anchors of an instance -/

mutual

/-- The comments that are anchors. -/
def anchorIds : Planted → List NodeId
  | .text _ _ => []
  | .comment id body =>
    match anchorPath? body with
    | some _ => [id]
    | none => []
  | .element _ _ _ children => anchorIdsAll children

def anchorIdsAll : List Planted → List NodeId
  | [] => []
  | r :: rest => anchorIds r ++ anchorIdsAll rest

end

mutual

theorem anchorIds_subset : ∀ r : Planted, anchorIds r ⊆ r.ids
  | .text _ _ => by simp [anchorIds]
  | .comment id body => by
      simp only [anchorIds, ids]
      split <;> simp
  | .element id tag attributes children => by
      simp only [anchorIds, ids]
      exact List.Subset.trans (anchorIdsAll_subset children) (List.subset_cons_self _ _)

theorem anchorIdsAll_subset : ∀ rs : List Planted, anchorIdsAll rs ⊆ idsAll rs
  | [] => by simp [anchorIdsAll]
  | r :: rest => by
      simp only [anchorIdsAll, idsAll]
      exact List.append_subset.mpr
        ⟨List.subset_append_of_subset_left _ (anchorIds_subset r),
          List.subset_append_of_subset_right _ (anchorIdsAll_subset rest)⟩

end

theorem findSome?_attributeSlots (x id : NodeId) (tag : String) (attributes : List Attribute) :
    (attributes.flatMap (attributeSlots id tag)).findSome? (Slot.anchorAt? x) = none := by
  refine List.findSome?_eq_none_iff.mpr fun slot mem => ?_
  obtain ⟨a, -, here⟩ := List.mem_flatMap.mp mem
  unfold attributeSlots at here
  split at here
  · rw [List.mem_singleton.mp here]
    rfl
  · cases here

mutual

/-- The anchor that is found at a node. -/
theorem findSome?_slots (memory : Memory) (x : NodeId) : ∀ (r : Planted)
    (parent : Option (String × NodeId)),
    (slots memory parent r).findSome? (Slot.anchorAt? x) =
      if x ∈ anchorIds r then some (memory.anchor x) else none
  | .text id content, parent => by
      simp only [slots, anchorIds, textSlots, List.not_mem_nil, if_false]
      split
      · split
        · split <;> rfl
        · rfl
      · rfl
  | .comment id body, parent => by
      cases found : anchorPath? body with
      | none => simp [slots, anchorIds, commentSlots, found]
      | some path =>
          simp only [slots, anchorIds, commentSlots, found, List.findSome?_cons, List.mem_singleton,
            Slot.anchorAt?, Memory.anchor]
          by_cases same : x = id
          · simp [same]
          · simp [same, Ne.symm same]
  | .element id tag attributes children, parent => by
      simp only [slots, anchorIds, List.findSome?_append, findSome?_attributeSlots, Option.none_or]
      exact findSome?_slotsAll memory x children (some (tag, id))

theorem findSome?_slotsAll (memory : Memory) (x : NodeId) : ∀ (rs : List Planted)
    (parent : Option (String × NodeId)),
    (slotsAll memory parent rs).findSome? (Slot.anchorAt? x) =
      if x ∈ anchorIdsAll rs then some (memory.anchor x) else none
  | [], parent => by simp [slotsAll, anchorIdsAll]
  | r :: rest, parent => by
      simp only [slotsAll, anchorIdsAll, List.findSome?_append, findSome?_slots memory x r,
        findSome?_slotsAll memory x rest, List.mem_append]
      by_cases here : x ∈ anchorIds r <;> simp [here]

end

/-- The nodes an instance stands for: its top-level nodes, with what is behind
those that are anchors. -/
theorem nodes_eq {memory : Memory} {rs : List Planted}
    (bare : ∀ x, x ∉ anchorIdsAll rs → memory.behind x = []) :
    (Instance.mk fragment (rs.map root) (slotsAll memory none rs)).nodes =
      rs.flatMap fun r => r.root :: memory.behind r.root := by
  simp only [Instance.nodes, findSome?_slotsAll, List.flatMap_map]
  refine List.flatMap_congr fun r mem => ?_
  by_cases here : r.root ∈ anchorIdsAll rs
  · simp [here, Memory.anchor]
  · simp [here, bare _ here]

end Inlay.Render
