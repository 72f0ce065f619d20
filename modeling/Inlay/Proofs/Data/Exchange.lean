/-
# Proofs.Data.Exchange — data by way of JSON and back

A datum that goes to JSON and back comes back as it was, with three exceptions. A number that
is not finite has no JSON form. A record in which a text stands under the name that selects
templates is read as a selection. A selection with a field of that name loses the field, since
the name of the template is written there. `survivesJson_iff` says that these are all: a datum
survives exactly if none of the three is anywhere inside it.

Data that were read from JSON have no such part (`everywhere_ofJson`). An integer
of sixty-four bits is nearest to a finite number, so that even numbers of which JSON keeps more
digits do not get lost.

Fields are kept in the order of their names; `Ordered` says so of the fields of one datum, and
`Everywhere` of those of all data inside it.
-/
import Inlay.Data.Datum
import Inlay.Proofs.Data.Sorted
import Inlay.Proofs.Render.Screening

namespace Inlay

set_option autoImplicit false

/-! ## Integers as numbers -/

namespace Number

/-- A magnitude below that of the infinities is the magnitude of a finite number. -/
theorem isFinite_ofMagnitude (negative : Bool) {magnitude : Nat} (small : magnitude < infinityMagnitude) :
    (ofMagnitude negative magnitude).isFinite = true := by
  simp only [infinityMagnitude, Nat.pow_eq, Nat.reducePow, Nat.reduceMul] at small
  have field : (ofMagnitude negative magnitude).exponentField = magnitude / 2 ^ 52 := by
    simp only [exponentField, ofMagnitude, UInt64.toNat_ofNat', Nat.pow_eq, Nat.reducePow]
    cases negative <;> simp only [Bool.false_eq_true, if_true, if_false] <;> omega
  have other : magnitude / 2 ^ 52 ≠ 2047 := by omega
  rw [isFinite, field]
  simpa using other

/-- The exponent of an integer is that of its first bit, less fifty-two or fifty-three. -/
theorem unitExponent_one (n : Nat) :
    (n.log2 : Int) - 53 ≤ unitExponent n 1 ∧ unitExponent n 1 ≤ (n.log2 : Int) - 52 := by
  have one : Nat.log2 1 = 0 := by decide
  simp only [unitExponent, one]
  split <;> omega

/-- In units of its exponent an integer has at most fifty-four bits. -/
theorem roundUnits_le (n : Nat) : roundUnits n 1 (unitExponent n 1) ≤ 2 ^ 54 := by
  obtain ⟨low, -⟩ := unitExponent_one n
  generalize unitExponent n 1 = e at low
  have scaled : n * 2 ^ (-e).toNat < 2 ^ e.toNat * 2 ^ 54 := by
    calc n * 2 ^ (-e).toNat < 2 ^ (n.log2 + 1) * 2 ^ (-e).toNat :=
          Nat.mul_lt_mul_of_pos_right Nat.lt_log2_self (Nat.two_pow_pos _)
      _ = 2 ^ (n.log2 + 1 + (-e).toNat) := (Nat.pow_add ..).symm
      _ ≤ 2 ^ (e.toNat + 54) := Nat.pow_le_pow_right (by decide) (by omega)
      _ = 2 ^ e.toNat * 2 ^ 54 := Nat.pow_add ..
  have whole : n * 2 ^ (-e).toNat / 2 ^ e.toNat < 2 ^ 54 := Nat.div_lt_of_lt_mul scaled
  simp only [roundUnits, Nat.pow_eq, Nat.one_mul]
  split
  · exact whole.le
  · exact whole
  · split
    · exact whole.le
    · exact whole

/-- An integer of at most sixty-four bits is nearest to a finite number. -/
theorem isFinite_ofInt {n : Int} (fits : n.natAbs ≤ 2 ^ 64) : (ofInt n).isFinite = true := by
  unfold ofInt roundRatio
  split
  · exact isFinite_ofMagnitude _ (by decide)
  · next some_ =>
    have bits : n.natAbs.log2 < 65 := (Nat.log2_lt some_).mpr (lt_of_le_of_lt fits (by decide))
    have exponent := (unitExponent_one n.natAbs).2
    have units := roundUnits_le n.natAbs
    refine isFinite_ofMagnitude _ (lt_of_le_of_lt (Nat.min_le_left ..) ?_)
    simp only [infinityMagnitude, Nat.pow_eq, Nat.reducePow, Nat.reduceMul] at units ⊢
    omega

/-- A finite number is the same as itself. -/
theorem equals_self {x : Number} (finite : x.isFinite = true) : x.equals x = true := by
  simp [equals, finite]

end Number

theorem Numeral.isFinite_toNumber (numeral : Numeral) : numeral.toNumber.isFinite = true := by
  cases numeral with
  | @whole n fits => exact Number.isFinite_ofInt (by omega)
  | real x finite => exact finite

/-! ## Induction over JSON and data -/

/-- A statement about JSON values that passes from the items of an array and the members of an
object to the whole holds of all. -/
@[elab_as_elim]
theorem Json.induct {motive : Json → Prop} (null : motive .null) (bool : ∀ flag, motive (.bool flag))
    (number : ∀ numeral, motive (.number numeral)) (string : ∀ text, motive (.string text))
    (array : ∀ items, (∀ item ∈ items, motive item) → motive (.array items))
    (object : ∀ members, (∀ entry ∈ members, motive entry.2) → motive (.object members)) :
    ∀ json, motive json
  | .null => null
  | .bool flag => bool flag
  | .number numeral => number numeral
  | .string text => string text
  | .array items => array items fun item _ => Json.induct null bool number string array object item
  | .object members => object members fun entry _ => Json.induct null bool number string array object entry.2
termination_by json => sizeOf json
decreasing_by
  · have := List.sizeOf_lt_of_mem ‹item ∈ items›
    simp only [Json.array.sizeOf_spec]
    omega
  · have := List.sizeOf_lt_of_mem ‹entry ∈ members›
    obtain ⟨key, value⟩ := entry
    simp only [Json.object.sizeOf_spec, Prod.mk.sizeOf_spec] at this ⊢
    omega

namespace Datum

/-- A statement about data that passes from the items of a list and the fields of an object to
the whole holds of all. -/
@[elab_as_elim]
theorem induct {motive : Datum → Prop} (null : motive .null) (bool : ∀ flag, motive (.bool flag))
    (number : ∀ x, motive (.number x)) (text : ∀ content, motive (.text content))
    (list : ∀ items, (∀ item ∈ items, motive item) → motive (.list items))
    (record : ∀ fields : Fields Datum, (∀ entry ∈ fields, motive entry.2) → motive (.record fields))
    (template : ∀ name (fields : Fields Datum), (∀ entry ∈ fields, motive entry.2) →
      motive (.template name fields)) :
    ∀ datum, motive datum
  | .null => null
  | .bool flag => bool flag
  | .number x => number x
  | .text content => text content
  | .list items => list items fun item _ => induct null bool number text list record template item
  | .record fields => record fields fun entry _ => induct null bool number text list record template entry.2
  | .template name fields =>
      template name fields fun entry _ => induct null bool number text list record template entry.2
termination_by datum => sizeOf datum
decreasing_by
  · have := List.sizeOf_lt_of_mem ‹item ∈ items›
    simp only [Datum.list.sizeOf_spec]
    omega
  · have := List.sizeOf_lt_of_mem ‹entry ∈ fields›
    obtain ⟨key, value⟩ := entry
    simp only [Datum.record.sizeOf_spec, Prod.mk.sizeOf_spec] at this ⊢
    omega
  · have := List.sizeOf_lt_of_mem ‹entry ∈ fields›
    obtain ⟨key, value⟩ := entry
    simp only [Datum.template.sizeOf_spec, Prod.mk.sizeOf_spec] at this ⊢
    omega

/-! ## What holds everywhere in a datum -/

/-- The data directly inside a datum. -/
def parts : Datum → List Datum
  | .list items => items
  | .record fields => fields.map Prod.snd
  | .template _ fields => fields.map Prod.snd
  | _ => []

/-- Something holds of the datum and of all data inside it. -/
def Everywhere (holds : Datum → Prop) (datum : Datum) : Prop := ∀ inner, Within inner datum → holds inner

variable {holds : Datum → Prop} {datum part inner : Datum} {fields : Fields Datum} {name : String}

theorem within_of_part (mem : part ∈ datum.parts) (within : Within inner part) : Within inner datum := by
  cases datum with
  | list items => exact .item mem within
  | record fields =>
      obtain ⟨entry, there, rfl⟩ := List.mem_map.mp mem
      exact .field there within
  | template name fields =>
      obtain ⟨entry, there, rfl⟩ := List.mem_map.mp mem
      exact .selectionField there within
  | null | bool | number | text => cases mem

theorem everywhere_iff : Everywhere holds datum ↔ holds datum ∧ ∀ part ∈ datum.parts, Everywhere holds part := by
  constructor
  · exact fun all => ⟨all datum .itself, fun part mem inner within => all inner (within_of_part mem within)⟩
  · rintro ⟨here, below⟩ inner within
    cases within with
    | itself => exact here
    | item mem within => exact below _ mem inner within
    | field mem within => exact below _ (List.mem_map_of_mem mem) inner within
    | selectionField mem within => exact below _ (List.mem_map_of_mem mem) inner within

/-- The fields of an object stand in the order of their names. -/
def Ordered : Datum → Prop
  | .record fields => Fields.Sorted fields
  | .template _ fields => Fields.Sorted fields
  | _ => True

/-- What is read from the JSON form of the datum is of the same kind: a number is finite, a
record selects no template, and a selection has no field in the place of the template's name. -/
def Expressible : Datum → Prop
  | .number x => x.isFinite = true
  | .record fields => ∀ name, Fields.get? selector fields ≠ some (.text name)
  | .template _ fields => Fields.get? selector fields = none
  | _ => True

/-- Every datum inside is expressible: the three conditions one by one. -/
theorem everywhere_expressible_iff {datum : Datum} : datum.Everywhere Expressible ↔
    (∀ x, Within (.number x) datum → x.isFinite = true) ∧
    (∀ fields name, Within (.record fields) datum → Fields.get? selector fields ≠ some (.text name)) ∧
    ∀ name fields, Within (.template name fields) datum → Fields.get? selector fields = none := by
  constructor
  · intro all
    exact ⟨fun x within => all _ within, fun fields name within => all _ within name,
      fun name fields within => all _ within⟩
  · rintro ⟨numbers, records, templates⟩ inner within
    cases inner with
    | number x => exact numbers x within
    | record fields => exact fun name => records fields name within
    | template name fields => exact templates name fields within
    | null | bool | text | list => trivial

/-! ## Reading and writing, item by item -/

theorem ofJsonItems_eq (items : List Json) : ofJsonItems items = items.map ofJson := by
  induction items with
  | nil => rfl
  | cons item rest ih => rw [ofJsonItems, ih, List.map_cons]

theorem toJsonItems_eq (items : List Datum) : toJsonItems items = items.map toJson := by
  induction items with
  | nil => rfl
  | cons item rest ih => rw [toJsonItems, ih, List.map_cons]

theorem ofJsonMembers_eq (members : List (String × Json)) :
    ofJsonMembers members = Fields.mapValues ofJson members := by
  induction members with
  | nil => rfl
  | cons member rest ih =>
      rw [ofJsonMembers, ih]
      rfl

theorem toJsonFields_eq (fields : Fields Datum) : toJsonFields fields = fields.mapValues toJson := by
  induction fields with
  | nil => rfl
  | cons field rest ih =>
      rw [toJsonFields, ih]
      rfl

theorem ofFields_of_text (selects : fields.get? selector = some (.text name)) :
    ofFields fields = .template name (fields.drop selector) := by
  rw [ofFields, selects]

theorem ofFields_of_plain (plain : ∀ name, fields.get? selector ≠ some (.text name)) :
    ofFields fields = .record fields := by
  rw [ofFields]
  split
  · next name selects => exact absurd selects (plain name)
  · rfl

/-- An object selects a template, or it is a record that does not. -/
theorem ofFields_cases (fields : Fields Datum) :
    (∃ name, fields.get? selector = some (.text name) ∧ ofFields fields = .template name (fields.drop selector)) ∨
      (∀ name, fields.get? selector ≠ some (.text name)) ∧ ofFields fields = .record fields := by
  by_cases selects : ∃ name, fields.get? selector = some (.text name)
  · obtain ⟨name, selects⟩ := selects
    exact .inl ⟨name, selects, ofFields_of_text selects⟩
  · have plain := not_exists.mp selects
    exact .inr ⟨plain, ofFields_of_plain plain⟩

/-! ## There and back -/

/-- The datum that is read from the JSON form of a datum. -/
def reread (datum : Datum) : Datum := ofJson datum.toJson

theorem reread_number {x : Number} (finite : x.isFinite = true) : reread (.number x) = .number x := by
  rw [reread, toJson, numberToJson, dif_pos finite]
  rfl

theorem reread_list (items : List Datum) : reread (.list items) = .list (items.map reread) := by
  rw [reread, toJson, ofJson, toJsonItems_eq, ofJsonItems_eq, List.map_map]
  rfl

theorem mapValues_reread (fields : Fields Datum) :
    (fields.mapValues toJson).mapValues ofJson = fields.mapValues reread := List.map_map ..

/-- A record comes back as the object of what its fields come back as. -/
theorem reread_record (sorted : fields.Sorted) : reread (.record fields) = ofFields (fields.mapValues reread) := by
  rw [reread, toJson, ofJson, toJsonFields_eq, ofJsonMembers_eq, mapValues_reread,
    Fields.ofList_of_sorted (sorted.mapValues reread)]

/-- A selection comes back without a field in the place of the template's name. -/
theorem reread_template (sorted : fields.Sorted) :
    reread (.template name fields) = .template name ((fields.mapValues reread).drop selector) := by
  have put : Fields.mapValues ofJson (Fields.put selector (.string name) (fields.mapValues toJson)) =
      Fields.put selector (.text name) (fields.mapValues reread) := by
    rw [Fields.mapValues_put, mapValues_reread]
    rfl
  have selects : (Fields.put selector (.text name) (fields.mapValues reread)).get? selector = some (.text name) := by
    rw [Fields.get?_put, if_pos rfl]
  rw [reread, toJson, ofJson, toJsonFields_eq, ofJsonMembers_eq, put,
    Fields.ofList_of_sorted (Fields.sorted_put (sorted.mapValues reread)), ofFields_of_text selects, Fields.drop_put]

theorem mapValues_eq_self {f : Datum → Datum} (same : ∀ entry ∈ fields, f entry.2 = entry.2) :
    fields.mapValues f = fields := by
  have ids : fields.mapValues f = fields.map id :=
    List.map_congr_left fun entry mem => congrArg (entry.1, ·) (same entry mem)
  rw [ids, List.map_id]

/-- What is expressible throughout comes back as it was. -/
theorem reread_eq_self (ordered : datum.Everywhere Ordered) (expressible : datum.Everywhere Expressible) :
    reread datum = datum := by
  induction datum using Datum.induct with
  | null | bool | text => rfl
  | number x => exact reread_number (everywhere_iff.mp expressible).1
  | list items ih =>
      obtain ⟨-, orderedInside⟩ := everywhere_iff.mp ordered
      obtain ⟨-, inside⟩ := everywhere_iff.mp expressible
      have same : items.map reread = items.map id :=
        List.map_congr_left fun item mem => ih item mem (orderedInside item mem) (inside item mem)
      rw [reread_list, same, List.map_id]
  | record fields ih =>
      obtain ⟨sorted, orderedInside⟩ := everywhere_iff.mp ordered
      obtain ⟨plain, inside⟩ := everywhere_iff.mp expressible
      have same : fields.mapValues reread = fields := mapValues_eq_self fun entry mem =>
        ih entry mem (orderedInside _ (List.mem_map_of_mem mem)) (inside _ (List.mem_map_of_mem mem))
      rw [reread_record sorted, same, ofFields_of_plain plain]
  | template name fields ih =>
      obtain ⟨sorted, orderedInside⟩ := everywhere_iff.mp ordered
      obtain ⟨free, inside⟩ := everywhere_iff.mp expressible
      have same : fields.mapValues reread = fields := mapValues_eq_self fun entry mem =>
        ih entry mem (orderedInside _ (List.mem_map_of_mem mem)) (inside _ (List.mem_map_of_mem mem))
      rw [reread_template sorted, same, Fields.drop_eq_self free]

/-! ## The same datum -/

theorem sameItems_iff {items others : List Datum} :
    sameItems items others = true ↔ List.Forall₂ (fun a b => same a b = true) items others := by
  induction items generalizing others with
  | nil => cases others <;> simp [sameItems]
  | cons item rest ih => cases others <;> simp [sameItems, ih]

theorem sameFields_iff {fields others : Fields Datum} :
    sameFields fields others = true ↔ List.Forall₂ (fun a b => a.1 = b.1 ∧ same a.2 b.2 = true) fields others := by
  induction fields generalizing others with
  | nil => cases others <;> simp [sameFields]
  | cons field rest ih => cases others <;> simp [sameFields, ih, and_assoc]

theorem names_of_sameFields {fields others : Fields Datum} (same_ : sameFields fields others = true) :
    fields.map Prod.fst = others.map Prod.fst := by
  rw [← List.forall₂_eq_eq_eq, List.forall₂_map_left_iff, List.forall₂_map_right_iff]
  exact (sameFields_iff.mp same_).imp fun _ _ both => both.1

/-- A datum without undefined numbers is the same as itself. -/
theorem same_self (expressible : datum.Everywhere Expressible) : same datum datum = true := by
  induction datum using Datum.induct with
  | null => rfl
  | bool flag => simp [same]
  | text content => simp [same]
  | number x => exact Number.equals_self (everywhere_iff.mp expressible).1
  | list items ih =>
      have inside := (everywhere_iff.mp expressible).2
      rw [same, sameItems_iff, List.forall₂_same]
      exact fun item mem => ih item mem (inside item mem)
  | record fields ih =>
      have inside := (everywhere_iff.mp expressible).2
      rw [same, sameFields_iff, List.forall₂_same]
      exact fun entry mem => ⟨rfl, ih entry mem (inside _ (List.mem_map_of_mem mem))⟩
  | template name fields ih =>
      have inside := (everywhere_iff.mp expressible).2
      rw [same, beq_self_eq_true, Bool.true_and, sameFields_iff, List.forall₂_same]
      exact fun entry mem => ⟨rfl, ih entry mem (inside _ (List.mem_map_of_mem mem))⟩

/-- Fields that come back the same have come back the same one by one. -/
theorem same_of_mapValues {f : Datum → Datum} (back : sameFields (fields.mapValues f) fields = true) :
    ∀ entry ∈ fields, same (f entry.2) entry.2 = true := by
  rw [sameFields_iff, Fields.mapValues, List.forall₂_map_left_iff, List.forall₂_same] at back
  exact fun entry mem => (back entry mem).2

/-- Of what comes back the same every part is expressible. -/
theorem expressible_of_same (ordered : datum.Everywhere Ordered) (back : same (reread datum) datum = true) :
    datum.Everywhere Expressible := by
  rw [everywhere_iff]
  induction datum using Datum.induct with
  | null | bool | text => exact ⟨trivial, fun part mem => by cases mem⟩
  | number x =>
      refine ⟨?_, fun part mem => by cases mem⟩
      by_contra infinite
      have lost : reread (.number x) = .null := by
        rw [reread, toJson, numberToJson, dif_neg (show ¬ x.isFinite = true from infinite)]
        rfl
      rw [lost] at back
      cases back
  | list items ih =>
      have orderedInside := (everywhere_iff.mp ordered).2
      rw [reread_list, same, sameItems_iff, List.forall₂_map_left_iff, List.forall₂_same] at back
      exact ⟨trivial, fun item mem => everywhere_iff.mpr (ih item mem (orderedInside item mem) (back item mem))⟩
  | record fields ih =>
      obtain ⟨sorted, orderedInside⟩ := everywhere_iff.mp ordered
      rw [reread_record sorted] at back
      rcases ofFields_cases (fields.mapValues reread) with ⟨name, -, selection⟩ | ⟨plain, record⟩
      · rw [selection] at back
        cases back
      · rw [record, same] at back
        refine ⟨fun name selects => plain name ?_, List.forall_mem_map.mpr fun entry mem => everywhere_iff.mpr ?_⟩
        · rw [Fields.get?_mapValues, selects]
          rfl
        · exact ih entry mem (orderedInside _ (List.mem_map_of_mem mem)) (same_of_mapValues back entry mem)
  | template name fields ih =>
      obtain ⟨sorted, orderedInside⟩ := everywhere_iff.mp ordered
      rw [reread_template sorted, same, beq_self_eq_true, Bool.true_and] at back
      -- what comes back has the names of what went, and not the one that was dropped
      have free : fields.get? selector = none := by
        refine Fields.get?_eq_none_iff.mpr fun entry mem isSelector => ?_
        have there : entry.1 ∈ ((fields.mapValues reread).drop selector).map Prod.fst := by
          rw [names_of_sameFields back]
          exact List.mem_map_of_mem mem
        obtain ⟨other, kept, same_⟩ := List.mem_map.mp there
        exact of_decide_eq_true (List.mem_filter.mp kept).2 (same_.trans isSelector)
      have unmapped : (fields.mapValues reread).get? selector = none := by
        rw [Fields.get?_mapValues, free]
        rfl
      rw [Fields.drop_eq_self unmapped] at back
      refine ⟨free, List.forall_mem_map.mpr fun entry mem => everywhere_iff.mpr ?_⟩
      exact ih entry mem (orderedInside _ (List.mem_map_of_mem mem)) (same_of_mapValues back entry mem)

/-! ## Data that were read -/

/-- What is read from JSON is in order and expressible throughout. -/
theorem everywhere_ofJson (json : Json) :
    (ofJson json).Everywhere fun datum => Ordered datum ∧ Expressible datum := by
  induction json using Json.induct with
  | null | bool | string => exact everywhere_iff.mpr ⟨⟨trivial, trivial⟩, fun part mem => by cases mem⟩
  | number numeral =>
      exact everywhere_iff.mpr ⟨⟨trivial, numeral.isFinite_toNumber⟩, fun part mem => by cases mem⟩
  | array items ih =>
      rw [ofJson, ofJsonItems_eq]
      exact everywhere_iff.mpr ⟨⟨trivial, trivial⟩, List.forall_mem_map.mpr ih⟩
  | object members ih =>
      rw [ofJson, ofJsonMembers_eq]
      have sorted := Fields.sorted_ofList (Fields.mapValues ofJson members)
      have inside : ∀ entry ∈ Fields.ofList (Fields.mapValues ofJson members),
          entry.2.Everywhere fun datum => Ordered datum ∧ Expressible datum := by
        intro entry mem
        obtain ⟨member, there, rfl⟩ := List.mem_map.mp (Fields.mem_of_mem_ofList mem)
        exact ih member there
      rcases ofFields_cases (Fields.ofList (Fields.mapValues ofJson members)) with
        ⟨name, -, selection⟩ | ⟨plain, record⟩
      · rw [selection]
        refine everywhere_iff.mpr ⟨⟨sorted.filter _, ?_⟩, List.forall_mem_map.mpr fun entry mem => ?_⟩
        · exact (Fields.get?_drop selector selector _).trans (if_pos rfl)
        · exact inside entry (List.mem_filter.mp mem).1
      · rw [record]
        exact everywhere_iff.mpr ⟨⟨sorted, plain⟩, List.forall_mem_map.mpr inside⟩

/-! ## What survives -/

theorem survivesJson_iff (ordered : datum.Everywhere Ordered) :
    datum.survivesJson = true ↔ datum.Everywhere Expressible := by
  refine ⟨expressible_of_same ordered, fun expressible => ?_⟩
  show same (reread datum) datum = true
  rw [reread_eq_self ordered expressible]
  exact same_self expressible

/-- Data that were read from JSON come back as they were. Other data come back the same exactly
if every number in them is finite, no record has a text under the name that selects templates,
and no selection has a field of that name. -/
theorem survives_json :
    (∀ json : Json, ofJson (ofJson json).toJson = ofJson json ∧ (ofJson json).survivesJson = true) ∧
    ∀ datum : Datum, datum.Everywhere Ordered →
      (datum.survivesJson = true ↔
        (∀ x, Within (.number x) datum → x.isFinite = true) ∧
        (∀ fields name, Within (.record fields) datum → Fields.get? selector fields ≠ some (.text name)) ∧
        ∀ name fields, Within (.template name fields) datum → Fields.get? selector fields = none) := by
  refine ⟨fun json => ?_, fun datum ordered => ?_⟩
  · have ordered : (ofJson json).Everywhere Ordered := fun inner within => (everywhere_ofJson json inner within).1
    have expressible : (ofJson json).Everywhere Expressible :=
      fun inner within => (everywhere_ofJson json inner within).2
    exact ⟨reread_eq_self ordered expressible, (survivesJson_iff ordered).mpr expressible⟩
  · rw [survivesJson_iff ordered, everywhere_expressible_iff]

/-- A number under the name that selects templates does no harm in a record, and null under
that name does in a row that is a selection. -/
theorem survives_json_rows :
    Everywhere Ordered (.record [("$template", .number (.ofNat 2))]) ∧
    (Datum.record [("$template", .number (.ofNat 2))]).survivesJson = true ∧
    Everywhere Ordered (.list [.template "row" [("$template", .null)]]) ∧
    ¬ (Datum.list [.template "row" [("$template", .null)]]).survivesJson = true := by
  have leaf : ∀ {holds : Datum → Prop} {datum : Datum}, datum.parts = [] → holds datum → datum.Everywhere holds :=
    fun none here => everywhere_iff.mpr ⟨here, fun part mem => by simp [none] at mem⟩
  have plain : Everywhere Ordered (.record [("$template", .number (.ofNat 2))]) :=
    everywhere_iff.mpr ⟨List.pairwise_singleton _ _, List.forall_mem_singleton.mpr (leaf rfl trivial)⟩
  have row : Everywhere Ordered (.template "row" [("$template", .null)]) :=
    everywhere_iff.mpr ⟨List.pairwise_singleton _ _, List.forall_mem_singleton.mpr (leaf rfl trivial)⟩
  have rows : Everywhere Ordered (.list [.template "row" [("$template", .null)]]) :=
    everywhere_iff.mpr ⟨trivial, List.forall_mem_singleton.mpr row⟩
  refine ⟨plain, (survives_json.2 _ plain).mpr (everywhere_expressible_iff.mp ?_), rows, fun survives => ?_⟩
  · refine everywhere_iff.mpr ⟨fun name selects => ?_, List.forall_mem_singleton.mpr (leaf rfl ?_)⟩
    · cases selects
    · exact (by decide : (Number.ofNat 2).isFinite = true)
  · obtain ⟨-, -, free⟩ := (survives_json.2 _ rows).mp survives
    have there : Within (.template "row" [("$template", .null)]) (.list [.template "row" [("$template", .null)]]) :=
      .item List.mem_cons_self .itself
    cases free "row" _ there

end Datum
end Inlay
