/-
# Proofs.Data.Walk — paths as steps

A path leads somewhere exactly if each of its segments is a step from where the ones in front of
it lead (`find?_eq_some`). That a computed length is found by the last segment only makes no
difference: no step leads on from a number, and `length` is no index of a list. So a walk is
allowed to ask for a length anywhere, and paths compose (`find?_composes`): a path in front of
another one leads where the other one starts.
-/
import Inlay.Data.Value
import Inlay.Proofs.Template.Spelling
import Mathlib.Data.Nat.Digits.Defs

namespace Inlay

set_option autoImplicit false

open Inlay.Text Inlay.Path

variable {α : Type}

namespace ValueOf

variable {segment : String} {segments rest : List String} {value next found : ValueOf α} {index : Nat}

/-! ## Steps -/

/-- The number that digits write. -/
def decimal (digits : List Char) : Nat := Nat.ofDigits 10 (digits.reverse.map fun c => c.toNat - '0'.toNat)

theorem index?_eq_some : index? segment = some index ↔ IsIndex segment.toList ∧ index = decimal segment.toList := by
  have digits : segment ≠ "" ∧ segment.toList.all Char.isDigit = true ↔ IsIndex segment.toList := by
    simp [IsIndex, Char.isDigit, Char.le_def]
  have folded : segment.toList.foldl (fun n c => n * 10 + (c.toNat - '0'.toNat)) 0 = decimal segment.toList := by
    rw [decimal, Nat.ofDigits_eq_foldr, List.foldr_map, List.foldr_reverse]
    simp only [Nat.cast_id, Nat.add_comm, Nat.mul_comm]
  rw [index?, folded]
  split
  · next isIndex => simp [digits.mp isIndex, eq_comm]
  · next other => simp [mt digits.mpr other]

theorem index?_length : index? "length" = none := by decide

/-- A segment leads from a value to another one. -/
inductive Leads (segment : String) : ValueOf α → ValueOf α → Prop
  /-- A field, whatever its name is. -/
  | field {fields : Fields (ValueOf α)} {value : ValueOf α} : fields.get? segment = some value →
      Leads segment (.map fields) value
  | item {items : List (ValueOf α)} {value : ValueOf α} : IsIndex segment.toList →
      items[decimal segment.toList]? = some value → Leads segment (.list items) value
  | listLength {items : List (ValueOf α)} : segment = "length" →
      Leads segment (.list items) (.number (.ofNat items.length))
  | textLength {content : String} : segment = "length" →
      Leads segment (.string content) (.number (.ofNat content.length))

/-- Segments lead from a value to another one, each from where the one in front of it leads. -/
inductive Walks : List String → ValueOf α → ValueOf α → Prop
  | stay {value : ValueOf α} : Walks [] value value
  | step {segment : String} {rest : List String} {value next found : ValueOf α} : Leads segment value next →
      Walks rest next found → Walks (segment :: rest) value found

theorem step?_eq_some : step? true segment value = some next ↔ Leads segment value next := by
  constructor
  · intro leads
    cases value with
    | map fields => exact .field leads
    | list items =>
        by_cases length : segment = "length"
        · simp only [step?, length, and_self, if_true, Option.some.injEq] at leads
          exact leads ▸ .listLength length
        · simp only [step?, length, and_false, if_false, Option.bind_eq_some_iff] at leads
          obtain ⟨index, digits, item⟩ := leads
          obtain ⟨isIndex, rfl⟩ := index?_eq_some.mp digits
          exact .item isIndex item
    | string content =>
        by_cases length : segment = "length"
        · simp only [step?, length, and_self, if_true, Option.some.injEq] at leads
          exact leads ▸ .textLength length
        · simp [step?, length] at leads
    | null => cases leads
    | bool => cases leads
    | number => cases leads
    | nodes => cases leads
  · intro leads
    cases leads with
    | field found => exact found
    | item isIndex found =>
        have digits := index?_eq_some.mpr ⟨isIndex, rfl⟩
        have other : segment ≠ "length" := by
          rintro rfl
          rw [index?_length] at digits
          cases digits
        simp [step?, other, digits, found]
    | listLength same => simp [step?, same]
    | textLength same => simp [step?, same]

/-- Behind a segment that is not the last one it makes no difference whether a length is computed
there: nothing is found in it. -/
theorem find?_cons (segment : String) (rest : List String) (value : ValueOf α) :
    find? (segment :: rest) value = (step? true segment value).bind (find? rest) := by
  rw [find?]
  cases rest with
  | nil => rfl
  | cons other rest =>
      have stuck : ∀ x, find? (α := α) (other :: rest) (.number x) = none := fun _ => rfl
      cases value with
      | list items =>
          by_cases length : segment = "length"
          · simp [step?, length, index?_length, stuck]
          · simp [step?, length]
      | string content => by_cases length : segment = "length" <;> simp [step?, length, stuck]
      | map => rfl
      | null => rfl
      | bool => rfl
      | number => rfl
      | nodes => rfl

/-! ## Walks -/

theorem find?_eq_some : find? segments value = some found ↔ Walks segments value found := by
  induction segments generalizing value with
  | nil =>
      constructor
      · rintro ⟨⟩
        exact .stay
      · rintro ⟨⟩
        rfl
  | cons segment rest ih =>
      rw [find?_cons, Option.bind_eq_some_iff]
      constructor
      · rintro ⟨next, leads, walks⟩
        exact .step (step?_eq_some.mp leads) (ih.mp walks)
      · rintro (_ | ⟨leads, walks⟩)
        exact ⟨_, step?_eq_some.mpr leads, ih.mpr walks⟩

theorem find?_append (segments others : List String) (value : ValueOf α) :
    find? (segments ++ others) value = (find? segments value).bind (find? others) := by
  induction segments generalizing value with
  | nil => rfl
  | cons segment rest ih =>
      rw [List.cons_append, find?_cons, find?_cons, Option.bind_assoc]
      exact Option.bind_congr fun next _ => ih next

end ValueOf

/-! ## Paths one behind the other -/

theorem Text.join_append (mark : String) : ∀ {texts others : List String}, texts ≠ [] → others ≠ [] →
    join mark (texts ++ others) = join mark texts ++ mark ++ join mark others
  | [], _, some_, _ => absurd rfl some_
  | [_], _ :: _, _, _ => rfl
  | text :: next :: rest, others, _, some_ => by
      have ih := join_append mark (List.cons_ne_nil next rest) some_
      show text ++ mark ++ join mark (next :: rest ++ others) = text ++ mark ++ join mark (next :: rest) ++ mark ++ _
      rw [ih]
      simp only [String.append_assoc]

namespace Path

variable {p q : Path}

/-- The segments of a path and those of another one behind them. -/
def append (p q : Path) : Path := ⟨p.segments ++ q.segments⟩

theorem Valid.append (valid : p.Valid) (others : q.Valid) : (p.append q).Valid :=
  ⟨List.append_ne_nil_of_left_ne_nil valid.some_ _, fun segment mem =>
    (List.mem_append.mp mem).elim (valid.each segment) (others.each segment)⟩

theorem Valid.text_append (valid : p.Valid) (others : q.Valid) : (p.append q).text = p.text ++ "." ++ q.text :=
  join_append "." valid.some_ others.some_

/-- The written forms of two paths with a dot between them are read as the one path behind the other. -/
theorem Valid.read?_append (valid : p.Valid) (others : q.Valid) :
    Path.read? (p.text ++ "." ++ q.text).toList = .ok (p.append q) := by
  rw [← valid.text_append others]
  exact read?_eq_ok.mpr (valid.append others).spells_text

end Path

/-- Two paths one behind the other, which are again a path, lead from where the first one leads to
where the second one leads from there, and nowhere if the first one leads nowhere. -/
theorem ValueOf.find?_composes {source other : List Char} {p q : Path} (read : Path.read? source = .ok p)
    (reads : Path.read? other = .ok q) (value : ValueOf α) :
    Path.read? (p.text ++ "." ++ q.text).toList = .ok (p.append q) ∧
    find? (p.append q).segments value = (find? p.segments value).bind (find? q.segments) ∧
    (∀ found, find? (p.append q).segments value = some found ↔
      ∃ next, Walks p.segments value next ∧ Walks q.segments next found) := by
  refine ⟨(read?_eq_ok.mp read).valid.read?_append (read?_eq_ok.mp reads).valid, find?_append _ _ value, fun found => ?_⟩
  rw [Path.append, find?_append, Option.bind_eq_some_iff]
  simp only [find?_eq_some]

/-- A field named `length` is a field, and behind an index it is the length of a text. -/
theorem ValueOf.find?_composes_length :
    Path.read? "length".toList = .ok ⟨["length"]⟩ ∧ Path.read? "01 . length".toList = .ok ⟨["01", "length"]⟩ ∧
    Path.read? "length.01.length".toList = .ok ⟨["length", "01", "length"]⟩ ∧
    find? ["length", "01", "length"] (.map [("length", .list [.string "a", .string "bc"])] : Value) =
      some (.number (.ofNat 2)) ∧
    ∃ next, Walks ["length"] (.map [("length", .list [.string "a", .string "bc"])] : Value) next ∧
      Walks ["01", "length"] next (.number (.ofNat 2)) := by
  have read : Path.read? "length".toList = .ok ⟨["length"]⟩ := by decide +kernel
  have reads : Path.read? "01 . length".toList = .ok ⟨["01", "length"]⟩ := by decide +kernel
  obtain ⟨whole, finds, walks⟩ :=
    find?_composes read reads (.map [("length", .list [.string "a", .string "bc"])] : Value)
  have found : find? ["length", "01", "length"] (.map [("length", .list [.string "a", .string "bc"])] : Value) =
      some (.number (.ofNat 2)) := finds.trans rfl
  exact ⟨read, reads, whole, found, (walks _).mp found⟩

end Inlay
