/-
# Proofs.Data.Relabel — values under a change of what stands for templates

What a placeholder reads does not depend on what stands for the templates of a
value: paths, texts and flags are the same before and after `relabel`, and
the items and the listed templates of a value are mapped one by one.
-/
import Inlay.Proofs.Render.Expansion
import Inlay.Render.Instance

namespace Inlay

set_option autoImplicit false

open Inlay.Template Inlay.Render

variable {α β γ : Type}

namespace ValueOf

mutual

/-- The value with other things in place of its templates. -/
def relabel (f : α → β) : ValueOf α → ValueOf β
  | .null => .null
  | .bool flag => .bool flag
  | .number x => .number x
  | .string content => .string content
  | .list items => .list (relabelItems f items)
  | .map fields => .map (relabelFields f fields)
  | .nodes shown => .nodes (f shown)

def relabelItems (f : α → β) : List (ValueOf α) → List (ValueOf β)
  | [] => []
  | item :: rest => relabel f item :: relabelItems f rest

def relabelFields (f : α → β) : List (String × ValueOf α) → List (String × ValueOf β)
  | [] => []
  | (name, value) :: rest => (name, relabel f value) :: relabelFields f rest

end

variable (f : α → β)

theorem relabelItems_eq (items : List (ValueOf α)) : relabelItems f items = items.map (relabel f) := by
  induction items with
  | nil => rfl
  | cons item rest ih => simp [relabelItems, ih]

mutual

theorem relabel_relabel (g : β → γ) : ∀ value : ValueOf α,
    relabel g (relabel f value) = relabel (fun a => g (f a)) value
  | .null => rfl
  | .bool _ => rfl
  | .number _ => rfl
  | .string _ => rfl
  | .list items => by simp only [relabel, relabelItems_relabelItems g items]
  | .map fields => by simp only [relabel, relabelFields_relabelFields g fields]
  | .nodes _ => rfl

theorem relabelItems_relabelItems (g : β → γ) : ∀ items : List (ValueOf α),
    relabelItems g (relabelItems f items) = relabelItems (fun a => g (f a)) items
  | [] => rfl
  | item :: rest => by simp only [relabelItems, relabel_relabel g item, relabelItems_relabelItems g rest]

theorem relabelFields_relabelFields (g : β → γ) : ∀ fields : List (String × ValueOf α),
    relabelFields g (relabelFields f fields) = relabelFields (fun a => g (f a)) fields
  | [] => rfl
  | (_, value) :: rest => by simp only [relabelFields, relabel_relabel g value, relabelFields_relabelFields g rest]

end

/-! ## Texts and paths -/

mutual

@[simp] theorem text_relabel : ∀ value : ValueOf α, (relabel f value).text = value.text
  | .null => rfl
  | .bool _ => rfl
  | .number _ => rfl
  | .string _ => rfl
  | .list items => by simp only [relabel, text, itemTexts_relabelItems items]
  | .map _ => rfl
  | .nodes _ => rfl

theorem itemTexts_relabelItems : ∀ items : List (ValueOf α),
    itemTexts (relabelItems f items) = itemTexts items
  | [] => rfl
  | item :: rest => by simp only [relabelItems, itemTexts, text_relabel item, itemTexts_relabelItems rest]

end

theorem get?_relabelFields (name : String) (fields : List (String × ValueOf α)) :
    Fields.get? name (relabelFields f fields) = (Fields.get? name fields).map (relabel f) := by
  induction fields with
  | nil => rfl
  | cons field rest ih =>
      obtain ⟨other, value⟩ := field
      simp only [relabelFields, Fields.get?, List.lookup_cons] at ih ⊢
      cases name == other with
      | true => rfl
      | false => exact ih

theorem step?_relabel (last : Bool) (segment : String) (value : ValueOf α) :
    step? last segment (relabel f value) = (step? last segment value).map (relabel f) := by
  cases value with
  | list items =>
      simp only [relabel, step?, relabelItems_eq, List.length_map]
      split
      · rfl
      · cases index? segment with
        | none => rfl
        | some index => simp
  | map fields => exact get?_relabelFields f segment fields
  | string content =>
      simp only [relabel, step?]
      split <;> rfl
  | null => rfl
  | bool flag => rfl
  | number x => rfl
  | nodes shown => rfl

theorem find?_relabel : ∀ (segments : List String) (value : ValueOf α),
    find? segments (relabel f value) = (find? segments value).map (relabel f)
  | [], _ => rfl
  | segment :: rest, value => by
      simp only [find?, step?_relabel]
      cases step? rest.isEmpty segment value with
      | none => rfl
      | some next => exact find?_relabel rest next

end ValueOf

variable (f : α → β) (context : ValueOf α)

@[simp] theorem Pattern.render_relabel (pattern : Pattern) :
    pattern.render (context.relabel f) = pattern.render context := by
  have part : Pattern.partText (context.relabel f) = Pattern.partText context := by
    funext part
    cases part with
    | literal content => rfl
    | place path =>
        simp only [Pattern.partText, ValueOf.find?_relabel]
        cases context.find? path.segments <;> simp
  rw [Pattern.render, part]
  rfl

namespace Render

@[simp] theorem attributeText_relabel (content : Pattern) :
    Slot.attributeText content (context.relabel f) = Slot.attributeText content context := by
  unfold Slot.attributeText
  cases content.whole? with
  | none => simp
  | some path =>
      simp only [ValueOf.find?_relabel]
      cases found : context.find? path.segments with
      | none => rfl
      | some value =>
          cases value with
          | bool flag => cases flag <;> rfl
          | list items => simp [ValueOf.relabel, ValueOf.isPresent, ValueOf.text,
              ValueOf.itemTexts_relabelItems]
          | null => rfl
          | number x => rfl
          | string content => rfl
          | map fields => rfl
          | nodes shown => rfl

theorem valueAt_relabel (path : Path) : valueAt (context.relabel f) path = (valueAt context path).relabel f := by
  simp only [valueAt, ValueOf.find?_relabel]
  cases context.find? path.segments <;> rfl

@[simp] theorem expandedText_relabel (content : String) :
    expandedText (context.relabel f) content = expandedText context content := by
  unfold expandedText
  split <;> simp

/-! ## Items and listed templates -/

/-- The item with something else in place of its template. -/
def ItemOf.map : ItemOf α → ItemOf β
  | .nodes shown => .nodes (f shown)
  | .made key => .made key

mutual

theorem itemsOf_relabel : ∀ value : ValueOf α,
    itemsOf (value.relabel f) = (itemsOf value).map (ItemOf.map f)
  | .null => rfl
  | .bool _ => rfl
  | .number _ => rfl
  | .string _ => rfl
  | .list items => by simp only [ValueOf.relabel, itemsOf, itemsOfAll_relabelItems items]
  | .map _ => rfl
  | .nodes _ => rfl

theorem itemsOfAll_relabelItems : ∀ items : List (ValueOf α),
    itemsOfAll (ValueOf.relabelItems f items) = (itemsOfAll items).map (ItemOf.map f)
  | [] => rfl
  | item :: rest => by
      simp only [ValueOf.relabelItems, itemsOfAll, itemsOf_relabel item, itemsOfAll_relabelItems rest,
        List.map_append]

end

mutual

theorem listed_relabel : ∀ value : ValueOf α, listed (value.relabel f) = (listed value).map f
  | .null => rfl
  | .bool _ => rfl
  | .number _ => rfl
  | .string _ => rfl
  | .list items => by simp only [ValueOf.relabel, listed, listedAll_relabelItems items]
  | .map _ => rfl
  | .nodes _ => rfl

theorem listedAll_relabelItems : ∀ items : List (ValueOf α),
    listedAll (ValueOf.relabelItems f items) = (listedAll items).map f
  | [] => rfl
  | item :: rest => by
      simp only [ValueOf.relabelItems, listedAll, listed_relabel item, listedAll_relabelItems rest,
        List.map_append]

end

theorem reached_relabel (trees : List Markup.Tree) :
    reached trees (context.relabel f) = (reached trees context).map f := by
  simp only [reached, valueAt_relabel, listed_relabel, List.map_flatMap]

/-- The templates among items. -/
def ItemOf.template? : ItemOf α → Option α
  | .nodes shown => some shown
  | .made _ => none

mutual

theorem filterMap_itemsOf : ∀ value : ValueOf α,
    (itemsOf value).filterMap ItemOf.template? = listed value
  | .null => rfl
  | .bool _ => rfl
  | .number _ => rfl
  | .string _ => rfl
  | .list items => filterMap_itemsOfAll items
  | .map _ => rfl
  | .nodes _ => rfl

theorem filterMap_itemsOfAll : ∀ items : List (ValueOf α),
    (itemsOfAll items).filterMap ItemOf.template? = listedAll items
  | [] => rfl
  | item :: rest => by
      simp only [itemsOfAll, listedAll, List.filterMap_append, filterMap_itemsOf item,
        filterMap_itemsOfAll rest]

end

/-- The trees that an item shows. -/
def itemTrees : ItemOf (List Markup.Tree) → List Markup.Tree
  | .nodes trees => trees
  | .made (.text content) => [.text content]
  | .made (.markup source) => markupTrees source

mutual

theorem flatMap_itemTrees : ∀ value : ValueOf (List Markup.Tree),
    (itemsOf value).flatMap itemTrees = shown value
  | .null => rfl
  | .bool _ => rfl
  | .number _ => rfl
  | .string _ => by simp [itemsOf, itemTrees, shown]
  | .list items => flatMap_itemTrees_all items
  | .map _ => rfl
  | .nodes _ => by simp [itemsOf, itemTrees, shown]

theorem flatMap_itemTrees_all : ∀ items : List (ValueOf (List Markup.Tree)),
    (itemsOfAll items).flatMap itemTrees = shownAll items
  | [] => rfl
  | item :: rest => by
      simp only [itemsOfAll, shownAll, List.flatMap_append, flatMap_itemTrees item,
        flatMap_itemTrees_all rest]

end

/-! ## Numbered templates -/

mutual

/-- Only the numbers that occur count. -/
theorem outline_congr {f g : Nat → α} : ∀ (datum : Datum) (first : Nat),
    (∀ n, first ≤ n → n < first + templateCount datum → f n = g n) →
    (outline first datum).relabel f = (outline first datum).relabel g
  | .null, _, _ => rfl
  | .bool _, _, _ => rfl
  | .number _, _, _ => rfl
  | .text _, _, _ => rfl
  | .list items, first, same => by
      simp only [outline, ValueOf.relabel, outlineOfItems_congr items first same]
  | .record fields, first, same => by
      simp only [outline, ValueOf.relabel, outlineOfFields_congr fields first same]
  | .template _ _, first, same => by
      show ValueOf.nodes (f first) = ValueOf.nodes (g first)
      rw [same first (Nat.le_refl _) (by simp [templateCount])]

theorem outlineOfItems_congr {f g : Nat → α} : ∀ (items : List Datum) (first : Nat),
    (∀ n, first ≤ n → n < first + templateCountOfItems items → f n = g n) →
    (ValueOf.relabelItems f (outlineOfItems first items)) = ValueOf.relabelItems g (outlineOfItems first items)
  | [], _, _ => rfl
  | item :: rest, first, same => by
      simp only [templateCountOfItems] at same
      have here := outline_congr item first fun n low high => same n low (by omega)
      have others := outlineOfItems_congr rest (first + templateCount item)
        fun n low high => same n (by omega) (by omega)
      simp only [outlineOfItems, ValueOf.relabelItems, here, others]

theorem outlineOfFields_congr {f g : Nat → α} : ∀ (fields : List (String × Datum)) (first : Nat),
    (∀ n, first ≤ n → n < first + templateCountOfFields fields → f n = g n) →
    (ValueOf.relabelFields f (outlineOfFields first fields)) =
      ValueOf.relabelFields g (outlineOfFields first fields)
  | [], _, _ => rfl
  | (name, datum) :: rest, first, same => by
      simp only [templateCountOfFields] at same
      have here := outline_congr datum first fun n low high => same n low (by omega)
      have others := outlineOfFields_congr rest (first + templateCount datum)
        fun n low high => same n (by omega) (by omega)
      simp only [outlineOfFields, ValueOf.relabelFields, here, others]

end

/-- Only numbers that are given are reached. -/
theorem lt_of_mem_reachedNumbers {content : List Markup.Tree} {fields : Fields Datum} {n : Nat}
    (mem : n ∈ reachedNumbers content fields) : n < templateCountOfFields fields := by
  have same := outlineOfFields_congr (f := fun n => decide (n < templateCountOfFields fields))
    (g := fun _ => true) fields 0 (fun n _ high => by simpa using high)
  have reach := reached_relabel (fun n => decide (n < templateCountOfFields fields))
    (.map (outlineOfFields 0 fields)) content
  have all := reached_relabel (fun _ => true) (.map (outlineOfFields 0 fields)) content
  simp only [ValueOf.relabel] at reach all
  rw [same, all] at reach
  have here := List.map_inj_left.mp reach n mem
  simpa using here.symm

end Render

end Inlay
