/-
# Proofs.Host.Lines — what a cache does to the line of a name

Each function of a cache changes one line, or takes one caller out of every line;
what is loaded under a name changes when a load of it succeeds and at no other
time. The lines are kept in the order of their names and none of them is empty,
so a caller that leaves is taken out of the line that is found under a name
(`line_leave`).

A cache is `Genuine` when every template in it was compiled from some markup. A
library keeps its cache genuine, whatever markup it is given.
-/
import Inlay.Host.Library
import Inlay.Proofs.Data.Sorted

namespace Inlay.Host

set_option autoImplicit false

namespace Cache

variable {cache : Cache} {name other : String} {caller first : Nat} {rest : List Nat} {template : Template}

theorem line_setLine (line : List Nat) :
    (cache.setLine name line).line other = if other = name then line else cache.line other := by
  unfold Cache.line setLine
  by_cases empty : line.isEmpty = true
  · rw [if_pos empty, Fields.get?_drop]
    split
    · exact (List.isEmpty_iff.mp empty).symm
    · rfl
  · rw [if_neg empty, Fields.get?_put]
    split
    · rfl
    · rfl

theorem line_succeed :
    (cache.succeed name template).2.line other = if other = name then [] else cache.line other :=
  line_setLine []

theorem line_fail :
    (cache.fail name).2.line other = if other = name then (cache.line name).drop 1 else cache.line other :=
  line_setLine _

theorem sorted_setLine (sorted : cache.lines.Sorted) (line : List Nat) : (cache.setLine name line).lines.Sorted := by
  unfold setLine
  dsimp only
  split
  · exact sorted.filter _
  · exact Fields.sorted_put sorted

theorem sorted_succeed (sorted : cache.lines.Sorted) : (cache.succeed name template).2.lines.Sorted :=
  sorted_setLine sorted []

theorem sorted_fail (sorted : cache.lines.Sorted) : (cache.fail name).2.lines.Sorted :=
  sorted_setLine sorted _

/-! ## Asking -/

theorem ask_of_loaded (loaded : cache.loaded.get? name = some template) :
    cache.ask caller name = (.ready template, cache) := by
  simp only [ask, loaded]

section Unloaded

variable (unloaded : cache.loaded.get? name = none)
include unloaded

theorem ask_of_nobody (nobody : cache.line name = []) :
    cache.ask caller name = (.load, (cache.setLine name [caller]).beginLoad) := by
  simp only [ask, unloaded, nobody]

theorem ask_in_front (line : cache.line name = caller :: rest) :
    cache.ask caller name = (.load, cache.beginLoad) := by
  simp only [ask, unloaded, line, if_true]

theorem ask_in_line (line : cache.line name = first :: rest) (later : first ≠ caller) (mem : caller ∈ rest) :
    cache.ask caller name = (.wait, cache) := by
  simp only [ask, unloaded, line, if_neg later, List.contains_iff_mem.mpr mem, if_true]

theorem ask_behind (line : cache.line name = first :: rest) (later : first ≠ caller) (absent : caller ∉ rest) :
    cache.ask caller name = (.wait, cache.setLine name (first :: rest ++ [caller])) := by
  have notThere : rest.contains caller = false := by simpa using absent
  simp only [ask, unloaded, line, if_neg later, notThere, Bool.false_eq_true, if_false]

end Unloaded

theorem loaded_ask (caller : Nat) (name : String) (cache : Cache) :
    (cache.ask caller name).2.loaded = cache.loaded := by
  unfold ask
  split
  · rfl
  · split
    · rfl
    · split
      · rfl
      · split
        · rfl
        · rfl

theorem line_ask_of_ne (ne : other ≠ name) : (cache.ask caller name).2.line other = cache.line other := by
  unfold ask
  split
  · rfl
  · split
    · show (cache.setLine name [caller]).line other = _
      rw [line_setLine, if_neg ne]
    · split
      · rfl
      · split
        · rfl
        · exact (line_setLine _).trans (if_neg ne)

theorem sorted_ask (sorted : cache.lines.Sorted) : (cache.ask caller name).2.lines.Sorted := by
  unfold ask
  split
  · exact sorted
  · split
    · show (cache.setLine name [caller]).lines.Sorted
      exact sorted_setLine sorted _
    · split
      · exact sorted
      · split
        · exact sorted
        · exact sorted_setLine sorted _

theorem loads_ask : (cache.ask caller name).2.loads =
    match (cache.ask caller name).1 with
    | .load => cache.loads + 1
    | _ => cache.loads := by
  unfold ask
  split
  · rfl
  · split
    · rfl
    · split
      · rfl
      · split
        · rfl
        · rfl

/-- Only a loaded template is handed out. -/
theorem loaded_of_ready {cache' : Cache} (asked : cache.ask caller name = (.ready template, cache')) :
    cache.loaded.get? name = some template := by
  unfold ask at asked
  split at asked
  · next found =>
      cases asked
      exact found
  · split at asked
    · cases asked
    · split at asked
      · cases asked
      · split at asked
        · cases asked
        · cases asked

/-! ## Leaving -/

theorem line_leave (sorted : cache.lines.Sorted) :
    (cache.leave caller).2.line name = (cache.line name).filter (· ≠ caller) := by
  unfold leave Cache.line
  rw [Fields.get?_filter (sorted.mapValues _), Fields.get?_mapValues]
  cases cache.lines.get? name with
  | none => rfl
  | some line =>
      simp only [Option.map_some, Option.filter_some, Option.getD_some]
      split
      · rfl
      · next empty =>
          have nothing : (line.filter (· ≠ caller)).isEmpty = true := by simpa using empty
          exact (List.isEmpty_iff.mp nothing).symm

theorem sorted_leave (sorted : cache.lines.Sorted) : (cache.leave caller).2.lines.Sorted :=
  (sorted.mapValues _).filter _

/-- The callers that are to load in place of one that leaves stood right behind it. -/
theorem mem_leave (sorted : cache.lines.Sorted) {next : Nat} :
    next ∈ (cache.leave caller).1 ↔ ∃ name rest, cache.line name = caller :: next :: rest := by
  unfold leave
  simp only [List.mem_flatMap, Prod.exists]
  constructor
  · rintro ⟨name, line, mem, here⟩
    split at here
    · next front =>
        cases line with
        | nil => cases front
        | cons head behind =>
            cases behind with
            | nil => cases here
            | cons second rest =>
                obtain rfl := Option.some.inj front
                obtain rfl := List.mem_singleton.mp here
                exact ⟨name, rest, by rw [Cache.line, Fields.get?_of_mem sorted mem, Option.getD_some]⟩
    · cases here
  · rintro ⟨name, rest, line⟩
    unfold Cache.line at line
    cases found : cache.lines.get? name with
    | none =>
        rw [found] at line
        cases line
    | some stored =>
        rw [found, Option.getD_some] at line
        exact ⟨name, stored, Fields.mem_of_get? found, by simp [line]⟩

/-! ## Where the templates come from -/

/-- Every template in the cache was compiled under its name. -/
def Genuine (cache : Cache) : Prop :=
  ∀ name template, cache.loaded.get? name = some template → ∃ markup, Template.compile name markup = .ok template

end Cache

theorem compileFetched_ok {name : String} {fetched : Except Fault String} {template : Template} :
    compileFetched name fetched = .ok template ↔
      ∃ markup, fetched = .ok markup ∧ Template.compile name markup = .ok template := by
  cases fetched with
  | error fault => simp [compileFetched, bind, Except.bind]
  | ok markup =>
      cases compiled : Template.compile name markup with
      | error fault => simp [compileFetched, bind, Except.bind, compiled, throw, throwThe, MonadExceptOf.throw]
      | ok other => simp [compileFetched, bind, Except.bind, compiled, pure, Except.pure]

namespace Library

variable {library : Library} {name : String} {caller : Nat}

/-- A template that a library hands out was compiled under the name that was asked for. -/
def Answers (name : String) (reply : Library.Reply) : Prop :=
  match reply with
  | .ready template => ∃ markup, Template.compile name markup = .ok template
  | _ => True

theorem genuine_arrive (genuine : library.cache.Genuine) :
    (library.arrive name).2.cache.Genuine ∧ Answers name (library.arrive name).1.1 := by
  unfold arrive
  cases compiled : compileFetched name (library.fetch name) with
  | error fault => exact ⟨genuine, trivial⟩
  | ok template =>
      obtain ⟨markup, -, made⟩ := compileFetched_ok.mp compiled
      refine ⟨fun other found there => ?_, markup, made⟩
      replace there : (library.cache.loaded.put name template).get? other = some found := there
      rw [Fields.get?_put] at there
      split at there
      · next same =>
          cases there
          exact ⟨markup, same ▸ made⟩
      · exact genuine other found there

theorem genuine_ask (genuine : library.cache.Genuine) :
    (library.ask caller name).2.cache.Genuine ∧ Answers name (library.ask caller name).1.1 := by
  have kept : (library.cache.ask caller name).2.Genuine := by
    unfold Cache.Genuine
    rw [Cache.loaded_ask]
    exact genuine
  unfold ask
  split
  · next template cache asked =>
      rw [asked] at kept
      exact ⟨kept, genuine name template (Cache.loaded_of_ready asked)⟩
  · next asked =>
      rw [asked] at kept
      exact ⟨kept, trivial⟩
  · next cache asked =>
      rw [asked] at kept
      dsimp only
      split
      · exact @genuine_arrive { library with cache := cache, sought := library.sought ++ [name] } name kept
      · exact ⟨kept, trivial⟩

end Library

end Inlay.Host
