/-
# Proofs.Data.Sorted — fields in the order of their names

What `put` does to fields that are in order: a value that is there is replaced
where it stands, and a new one is put between the others.
-/
import Inlay.Fields
import Mathlib.Data.String.Basic

namespace Inlay.Fields

set_option autoImplicit false

variable {α β : Type} {fields : Fields α} {name : String} {value old : α}

/-- What is found behind a `put`. -/
theorem get?_put (name other : String) (value : α) : ∀ fields : Fields α,
    (fields.put name value).get? other = if other = name then some value else fields.get? other
  | [] => by
      by_cases same : other = name
      · simp [put, get?, same]
      · simp [put, get?, same, List.lookup_cons, beq_false_of_ne same]
  | (first, old) :: rest => by
      have ih := get?_put name other value rest
      simp only [get?] at ih ⊢
      unfold put
      by_cases here : name = first
      · subst here
        by_cases same : other = name
        · simp [same]
        · simp [same, List.lookup_cons, beq_false_of_ne same]
      · rw [if_neg here]
        by_cases before : name < first
        · rw [if_pos before]
          by_cases same : other = name
          · simp [same]
          · simp [same, List.lookup_cons, beq_false_of_ne same]
        · rw [if_neg before, List.lookup_cons, List.lookup_cons, ih]
          by_cases atFirst : other = first
          · subst atFirst
            simp [Ne.symm here]
          · simp [beq_false_of_ne atFirst]

/-- The names ascend. -/
def Sorted (fields : Fields α) : Prop := (fields.map Prod.fst).Pairwise (· < ·)

theorem sorted_nil : Sorted ([] : Fields α) := .nil

theorem mem_put {entry : String × α} : ∀ {fields : Fields α},
    entry ∈ fields.put name value → entry = (name, value) ∨ entry ∈ fields
  | [], mem => .inl (List.mem_singleton.mp mem)
  | (other, old) :: rest, mem => by
      unfold put at mem
      split at mem
      · exact (List.mem_cons.mp mem).imp_right (List.mem_cons_of_mem _)
      split at mem
      · exact List.mem_cons.mp mem
      · rcases List.mem_cons.mp mem with rfl | mem
        · exact .inr List.mem_cons_self
        · exact (mem_put mem).imp_right (List.mem_cons_of_mem _)

theorem sorted_put : ∀ {fields : Fields α}, fields.Sorted → (fields.put name value).Sorted
  | [], _ => List.pairwise_singleton _ _
  | (other, old) :: rest, sorted => by
      obtain ⟨first, later⟩ := List.pairwise_cons.mp sorted
      unfold put
      split
      · next same => exact List.pairwise_cons.mpr ⟨same ▸ first, later⟩
      split
      · next before =>
          refine List.pairwise_cons.mpr ⟨fun key mem => ?_, sorted⟩
          rcases List.mem_cons.mp mem with rfl | mem
          · exact before
          · exact lt_trans before (first key mem)
      · next other_ before =>
          refine List.pairwise_cons.mpr ⟨fun key mem => ?_, sorted_put later⟩
          obtain ⟨entry, there, rfl⟩ := List.mem_map.mp mem
          rcases mem_put there with rfl | there
          · exact lt_of_le_of_ne (not_lt.mp before) (Ne.symm other_)
          · exact first entry.1 (List.mem_map_of_mem there)

/-- A value that is there is replaced in its place. -/
theorem put_of_get? : ∀ {fields : Fields α}, fields.Sorted → fields.get? name = some old →
    ∃ front back, fields = front ++ (name, old) :: back ∧ (∀ value, fields.put name value = front ++ (name, value) :: back) ∧
      (∀ entry ∈ front, entry.1 ≠ name) ∧ ∀ entry ∈ back, entry.1 ≠ name
  | [], _, found => by cases found
  | (other, first) :: rest, sorted, found => by
      obtain ⟨above, later⟩ := List.pairwise_cons.mp sorted
      rw [get?, List.lookup_cons] at found
      by_cases same : name = other
      · subst same
        simp only [beq_self_eq_true, Option.some.injEq] at found
        subst found
        refine ⟨[], rest, rfl, fun value => by simp [put], by simp, fun entry mem same => ?_⟩
        exact lt_irrefl name (same ▸ above entry.1 (List.mem_map_of_mem mem))
      · simp only [beq_false_of_ne same] at found
        obtain ⟨front, back, split, replaced, notFront, notBack⟩ := put_of_get? later found
        have before : ¬ name < other := by
          refine not_lt.mpr (above name ?_).le
          rw [split, List.map_append]
          exact List.mem_append_right _ List.mem_cons_self
        refine ⟨(other, first) :: front, back, by rw [split]; rfl, fun value => ?_, ?_, notBack⟩
        · rw [put, if_neg same, if_neg before, replaced]
          rfl
        · exact List.forall_mem_cons.mpr ⟨Ne.symm same, notFront⟩

/-- A new value is put between the others. -/
theorem put_of_none : ∀ {fields : Fields α}, fields.get? name = none →
    ∃ front back, fields = front ++ back ∧ (∀ value, fields.put name value = front ++ (name, value) :: back) ∧
      ∀ entry ∈ fields, entry.1 ≠ name
  | [], _ => ⟨[], [], rfl, fun _ => rfl, by simp⟩
  | (other, first) :: rest, missing => by
      rw [get?, List.lookup_cons] at missing
      by_cases same : name = other
      · simp [same] at missing
      · simp only [beq_false_of_ne same] at missing
        obtain ⟨front, back, split, put_, absent⟩ := put_of_none missing
        have absent' : ∀ entry ∈ (other, first) :: rest, entry.1 ≠ name :=
          List.forall_mem_cons.mpr ⟨Ne.symm same, absent⟩
        by_cases before : name < other
        · exact ⟨[], (other, first) :: rest, rfl, fun value => by rw [put, if_neg same, if_pos before]; rfl, absent'⟩
        · refine ⟨(other, first) :: front, back, by rw [split]; rfl, fun value => ?_, absent'⟩
          rw [put, if_neg same, if_neg before, put_]
          rfl

theorem put_put (value' : α) : ∀ fields : Fields α, (fields.put name value).put name value' = fields.put name value'
  | [] => by simp [put]
  | (other, old) :: rest => by
      by_cases same : name = other
      · simp [put, same]
      by_cases before : name < other
      · simp [put, same, before]
      · simp only [put, if_neg same, if_neg before, put_put value' rest]

theorem get?_of_mem (sorted : fields.Sorted) (mem : (name, value) ∈ fields) : fields.get? name = some value := by
  induction fields with
  | nil => cases mem
  | cons first rest ih =>
      obtain ⟨above, later⟩ := List.pairwise_cons.mp sorted
      rw [get?, List.lookup_cons]
      rcases List.mem_cons.mp mem with rfl | mem
      · simp
      · have other : name ≠ first.1 := (above name (List.mem_map_of_mem (f := Prod.fst) mem)).ne'
        simp only [beq_false_of_ne other]
        exact ih later mem

theorem mem_of_get? : ∀ {fields : Fields α}, fields.get? name = some value → (name, value) ∈ fields
  | [], found => by cases found
  | (other, first) :: rest, found => by
      rw [get?, List.lookup_cons] at found
      by_cases same : name = other
      · subst same
        simp only [beq_self_eq_true, Option.some.injEq] at found
        exact found ▸ List.mem_cons_self
      · simp only [beq_false_of_ne same] at found
        exact List.mem_cons_of_mem _ (mem_of_get? found)

theorem mapValues_put (f : α → β) : ∀ fields : Fields α,
    (fields.put name value).mapValues f = (fields.mapValues f).put name (f value)
  | [] => rfl
  | (other, old) :: rest => by
      show mapValues f (put name value ((other, old) :: rest)) = put name (f value) ((other, f old) :: mapValues f rest)
      unfold put
      split
      · rfl
      split
      · rfl
      · exact congrArg ((other, f old) :: ·) (mapValues_put f rest)

theorem get?_mapValues (f : α → β) : ∀ fields : Fields α, (fields.mapValues f).get? name = (fields.get? name).map f
  | [] => rfl
  | (other, old) :: rest => by
      show List.lookup name ((other, f old) :: mapValues f rest) = _
      rw [get?, List.lookup_cons, List.lookup_cons]
      split
      · rfl
      · exact get?_mapValues f rest

/-- What is found when a name is dropped. -/
theorem get?_drop (name other : String) : ∀ fields : Fields α,
    (fields.drop name).get? other = if other = name then none else fields.get? other
  | [] => by simp [drop, get?]
  | (first, value) :: rest => by
      have ih := get?_drop name other rest
      simp only [drop, get?] at ih ⊢
      by_cases gone : first = name
      · subst gone
        rw [List.filter_cons_of_neg (by simp), ih, List.lookup_cons]
        by_cases same : other = first
        · simp [same]
        · simp [same, beq_false_of_ne same]
      · rw [List.filter_cons_of_pos (by simpa using gone), List.lookup_cons, List.lookup_cons, ih]
        by_cases atFirst : other = first
        · subst atFirst
          simp [gone]
        · simp [beq_false_of_ne atFirst]

theorem Sorted.filter (sorted : fields.Sorted) (keep : String × α → Bool) : Sorted (fields.filter keep) :=
  List.Pairwise.sublist (List.filter_sublist.map Prod.fst) sorted

theorem Sorted.mapValues (sorted : fields.Sorted) (f : α → β) : (fields.mapValues f).Sorted := by
  unfold Sorted Fields.mapValues
  rwa [List.map_map]

/-- Fields of pairs in any order are in order. -/
theorem sorted_ofList (pairs : List (String × α)) : (ofList pairs).Sorted := by
  have kept : ∀ (pairs : List (String × α)) (fields : Fields α), fields.Sorted →
      (pairs.foldl (fun fields pair => fields.put pair.1 pair.2) fields).Sorted := by
    intro pairs
    induction pairs with
    | nil => exact fun _ sorted => sorted
    | cons pair rest ih => exact fun fields sorted => ih _ (sorted_put sorted)
  exact kept pairs [] sorted_nil

/-- The fields of pairs are among the pairs. -/
theorem mem_of_mem_ofList {entry : String × α} {pairs : List (String × α)} (mem : entry ∈ ofList pairs) :
    entry ∈ pairs := by
  have kept : ∀ (pairs : List (String × α)) (fields : Fields α),
      entry ∈ pairs.foldl (fun fields pair => fields.put pair.1 pair.2) fields → entry ∈ fields ∨ entry ∈ pairs := by
    intro pairs
    induction pairs with
    | nil => exact fun _ mem => .inl mem
    | cons pair rest ih =>
        intro fields mem
        rcases ih _ mem with mem | later
        · rcases mem_put mem with rfl | before
          · exact .inr List.mem_cons_self
          · exact .inl before
        · exact .inr (List.mem_cons_of_mem _ later)
  exact (kept pairs [] mem).resolve_left List.not_mem_nil

/-- A name above all others is put behind them. -/
theorem put_of_lt : ∀ {fields : Fields α}, (∀ entry ∈ fields, entry.1 < name) →
    fields.put name value = fields ++ [(name, value)]
  | [], _ => rfl
  | (other, old) :: rest, above => by
      obtain ⟨here, later⟩ := List.forall_mem_cons.mp above
      rw [put, if_neg here.ne', if_neg here.not_gt, put_of_lt later, List.cons_append]

/-- Fields that are in order are the fields of their pairs. -/
theorem ofList_of_sorted (sorted : fields.Sorted) : ofList fields = fields := by
  have built : ∀ (back front : Fields α), Sorted (front ++ back) →
      back.foldl (fun fields pair => fields.put pair.1 pair.2) front = front ++ back := by
    intro back
    induction back with
    | nil => exact fun front _ => (List.append_nil front).symm
    | cons pair rest ih =>
        intro front sorted
        have above : ∀ entry ∈ front, entry.1 < pair.1 := by
          intro entry mem
          rw [Sorted, List.map_append, List.pairwise_append] at sorted
          exact sorted.2.2 _ (List.mem_map_of_mem mem) _ (List.mem_map_of_mem List.mem_cons_self)
        rw [List.foldl_cons, put_of_lt above, ih _ (by simpa using sorted), List.append_assoc]
        rfl
  exact built fields [] sorted

theorem get?_eq_none_iff : fields.get? name = none ↔ ∀ entry ∈ fields, entry.1 ≠ name := by
  rw [get?, List.lookup_eq_none_iff]
  exact forall₂_congr fun entry _ => by rw [bne_iff_ne, ne_comm]

/-- Nothing is dropped with a name that is not there. -/
theorem drop_eq_self (missing : fields.get? name = none) : fields.drop name = fields :=
  List.filter_eq_self.mpr fun entry mem => decide_eq_true (get?_eq_none_iff.mp missing entry mem)

/-- What was put is dropped with its name. -/
theorem drop_put (name : String) (value : α) : ∀ fields : Fields α,
    (fields.put name value).drop name = fields.drop name
  | [] => by simp [put, drop]
  | (other, old) :: rest => by
      have ih := drop_put name value rest
      unfold drop at ih ⊢
      unfold put
      split
      · next same => simp [same]
      split
      · simp
      · next other_ _ =>
        rw [List.filter_cons_of_pos (by simpa using Ne.symm other_), ih,
          List.filter_cons_of_pos (by simpa using Ne.symm other_)]

theorem get?_filter (sorted : fields.Sorted) (keep : String × α → Bool) :
    Fields.get? name (fields.filter keep) = (fields.get? name).filter fun value => keep (name, value) := by
  refine Option.ext fun value => ?_
  rw [Option.filter_eq_some_iff]
  constructor
  · intro found
    obtain ⟨mem, kept⟩ := List.mem_filter.mp (mem_of_get? found)
    exact ⟨get?_of_mem sorted mem, kept⟩
  · rintro ⟨found, kept⟩
    exact get?_of_mem (sorted.filter keep) (List.mem_filter.mpr ⟨mem_of_get? found, kept⟩)

end Inlay.Fields
