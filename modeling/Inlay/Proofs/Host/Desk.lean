/-
# Proofs.Host.Desk — callers at a cache

A `Desk` is a cache with the callers who use it and a book of what was done. Any
number of callers ask for any names, in any order; a load ends when its source
says so, with whatever the source says; a caller may give up at any time. Of the
callers in line for a name any one may be let in when nobody loads (`overtake`):
nothing is taken for granted about their order but that one at a time loads.

What happens under one name is told by the desk `only` of that name. `Consistent` says
of it who stands in line (`Lineup`) and what is in the book (`Annals`); every act
under the name keeps it (`Consistent.perform`).
-/
import Inlay.Proofs.Host.Lines
import Mathlib.Logic.Function.Basic
import Mathlib.Data.List.Nodup
import Mathlib.Data.List.Perm.Basic

namespace Inlay.Host

set_option autoImplicit false

/-- What a caller is doing. -/
inductive Errand where
  | idle
  /-- Waits for a template; when it has been called up it is to ask again. -/
  | waiting (name : String) (called : Bool)
  | loading (name : String)
  deriving DecidableEq

namespace Errand

/-- The name a caller has asked for. -/
def name? : Errand → Option String
  | idle => none
  | waiting name _ => some name
  | loading name => some name

/-- The errand as far as a name is concerned. -/
def under (name : String) (errand : Errand) : Errand := if errand.name? = some name then errand else idle

/-- A caller that waits may be called up. -/
def call (now : Bool) : Errand → Errand
  | idle => idle
  | waiting name called => waiting name (called || now)
  | loading name => loading name

end Errand

/-- Those of some callers that wait are called up. -/
def summon (callers : List Nat) (errand : Nat → Errand) : Nat → Errand := fun caller =>
  (errand caller).call (callers.contains caller)

/-- What is noted at a desk. -/
inductive Entry where
  /-- A caller began to load. -/
  | began (caller : Nat) (name : String)
  /-- The load of a caller ended with what was fetched, and the caller got the answer. -/
  | ended (caller : Nat) (name : String) (fetched : Except Fault String) (answer : Except Fault Template)
  /-- A caller got what somebody had loaded. -/
  | served (caller : Nat) (name : String) (template : Template)

namespace Entry

def name : Entry → String
  | began _ name => name
  | ended _ name _ _ => name
  | served _ name _ => name

def isBegan : Entry → Bool
  | began _ _ => true
  | _ => false

/-- The template a caller got. -/
def gave : Entry → Option Template
  | ended _ _ _ (.ok template) => some template
  | served _ _ template => some template
  | _ => none

end Entry

/-- A cache with its callers, and what happened, the latest last. -/
structure Desk where
  cache : Cache := {}
  errand : Nat → Errand := fun _ => .idle
  history : List Entry := []

/-- What may happen at a desk. -/
inductive Act where
  /-- A caller asks for a template. -/
  | get (caller : Nat) (name : String)
  /-- A caller that was called up asks again. -/
  | retry (caller : Nat) (name : String)
  /-- A load ends with what the source has to say. -/
  | settle (caller : Nat) (name : String) (fetched : Except Fault String)
  /-- A caller gives up. -/
  | leave (caller : Nat) (name : String)
  /-- Those who wait for a name stand in another order; the first of them is called up. -/
  | overtake (name : String) (line : List Nat)

def Act.name : Act → String
  | get _ name => name
  | retry _ name => name
  | settle _ name _ => name
  | leave _ name => name
  | overtake name _ => name

namespace Desk

/-- A caller asks the cache. -/
def ask (caller : Nat) (name : String) (s : Desk) : Desk :=
  match s.cache.ask caller name with
  | (.ready template, cache) =>
    ⟨cache, Function.update s.errand caller .idle, s.history ++ [.served caller name template]⟩
  | (.load, cache) => ⟨cache, Function.update s.errand caller (.loading name), s.history ++ [.began caller name]⟩
  | (.wait, cache) => ⟨cache, Function.update s.errand caller (.waiting name false), s.history⟩

/-- The load of a caller ends. -/
def settle (caller : Nat) (name : String) (fetched : Except Fault String) (s : Desk) : Desk :=
  let answer := compileFetched name fetched
  let (woken, cache) := match answer with
    | .ok template => s.cache.succeed name template
    | .error _ => s.cache.fail name
  ⟨cache, summon woken (Function.update s.errand caller .idle), s.history ++ [.ended caller name fetched answer]⟩

def Allows (s : Desk) : Act → Prop
  | .get caller _ => s.errand caller = .idle
  | .retry caller name => s.errand caller = .waiting name true
  | .settle caller name _ => s.errand caller = .loading name
  | .leave caller name => (s.errand caller).name? = some name
  | .overtake name line =>
    line.Perm (s.cache.line name) ∧ ∀ caller, s.errand caller = .loading name → line.head? = some caller

def perform (s : Desk) : Act → Desk
  | .get caller name => s.ask caller name
  | .retry caller name => s.ask caller name
  | .settle caller name fetched => s.settle caller name fetched
  | .leave caller _ =>
    let (woken, cache) := s.cache.leave caller
    ⟨cache, summon woken (Function.update s.errand caller .idle), s.history⟩
  | .overtake name line => ⟨s.cache.setLine name line, summon (line.take 1) s.errand, s.history⟩

/-- What comes of acts at an empty cache, the last act last. -/
inductive Runs : List Act → Desk → Prop where
  | start : Runs [] {}
  | snoc {acts : List Act} {s : Desk} (act : Act) : Runs acts s → s.Allows act → Runs (acts ++ [act]) (s.perform act)

end Desk

/-! ## Errands -/

namespace Errand

variable {errand : Errand} {name : String}

theorem name?_under : (errand.under name).name? = some name ↔ errand.name? = some name := by
  unfold under
  split
  · rfl
  · next other => exact iff_of_false nofun other

theorem under_of_name? (here : errand.name? = some name) : errand.under name = errand := if_pos here

theorem under_of_ne (away : errand.name? ≠ some name) : errand.under name = idle := if_neg away

theorem under_eq_iff {other : Errand} (about : other.name? = some name) :
    errand.under name = other ↔ errand = other := by
  unfold under
  split
  · rfl
  · next away =>
      refine iff_of_false ?_ ?_
      · rintro rfl
        cases about
      · rintro rfl
        exact away about

theorem under_call (errand : Errand) (now : Bool) : (errand.call now).under name = (errand.under name).call now := by
  cases errand with
  | idle => rfl
  | waiting other called => by_cases same : other = name <;> simp [under, name?, call, same]
  | loading other => by_cases same : other = name <;> simp [under, name?, call, same]

end Errand

section Summon

variable {callers : List Nat} {errand : Nat → Errand} {caller : Nat} {name : String}

theorem name?_summon : (summon callers errand caller).name? = (errand caller).name? := by
  unfold summon
  cases errand caller <;> rfl

theorem summon_eq_loading : summon callers errand caller = .loading name ↔ errand caller = .loading name := by
  unfold summon
  cases errand caller <;> simp [Errand.call]

theorem summon_eq_waiting :
    summon callers errand caller = .waiting name false ↔ errand caller = .waiting name false ∧ caller ∉ callers := by
  unfold summon
  cases errand caller <;> simp [Errand.call, and_assoc]

theorem summon_eq_idle : summon callers errand caller = .idle ↔ errand caller = .idle := by
  unfold summon
  cases errand caller <;> simp [Errand.call]

theorem summon_of_not_mem (absent : caller ∉ callers) : summon callers errand caller = errand caller := by
  unfold summon
  cases errand caller <;> simp [Errand.call, absent]

theorem summon_congr {callers' : List Nat} (same : ∀ c, c ∈ callers ↔ c ∈ callers') :
    summon callers errand = summon callers' errand := by
  funext c
  have member : callers.contains c = callers'.contains c := by simp [same]
  unfold summon
  rw [member]

theorem summon_under :
    (summon callers errand caller).under name = summon callers (fun c => (errand c).under name) caller :=
  Errand.under_call _ _

end Summon

/-! ## The line of a name -/

/-- Who stands in line for a name: while it is not loaded, everybody who has asked for it.
Who loads stands in front, and who waits has been called up when it stands in front or when
the name is loaded. -/
structure Lineup (name : String) (loaded : Option Template) (line : List Nat) (errand : Nat → Errand) : Prop where
  nodup : line.Nodup
  mem : ∀ c, c ∈ line ↔ loaded = none ∧ (errand c).name? = some name
  front : ∀ c, errand c = .loading name → line.head? = some c
  called : ∀ c, errand c = .waiting name false → loaded = none ∧ line.head? ≠ some c

namespace Lineup

variable {name : String} {loaded : Option Template} {line rest : List Nat} {errand : Nat → Errand} {caller first : Nat}
  {template : Template}

theorem nobody (lineup : Lineup name loaded line errand) (there : loaded ≠ none) : line = [] :=
  List.eq_nil_iff_forall_not_mem.mpr fun c mem => there ((lineup.mem c).mp mem).1

theorem served (lineup : Lineup name (some template) line errand) :
    Lineup name (some template) line (Function.update errand caller .idle) where
  nodup := lineup.nodup
  mem := by
    intro c
    rw [lineup.nobody nofun]
    exact iff_of_false List.not_mem_nil fun both => nomatch both.1
  front := by
    intro c loads
    by_cases same : c = caller
    · subst same
      rw [Function.update_self] at loads
      cases loads
    · rw [Function.update_of_ne same] at loads
      exact lineup.front c loads
  called := by
    intro c waits
    by_cases same : c = caller
    · subst same
      rw [Function.update_self] at waits
      cases waits
    · rw [Function.update_of_ne same] at waits
      exact lineup.called c waits

/-- A caller in front begins to load. -/
theorem begun (lineup : Lineup name none line errand) (inLine : line = [] ∧ rest = [] ∨ line = caller :: rest) :
    Lineup name none (caller :: rest) (Function.update errand caller (.loading name)) := by
  have others : ∀ c, c ≠ caller → (c ∈ caller :: rest ↔ c ∈ line) := by
    intro c ne
    rcases inLine with ⟨rfl, rfl⟩ | rfl
    · simp [ne]
    · rfl
  refine ⟨?_, fun c => ?_, fun c loads => ?_, fun c waits => ?_⟩
  · rcases inLine with ⟨-, rfl⟩ | rfl
    · exact List.nodup_singleton caller
    · exact lineup.nodup
  · by_cases same : c = caller
    · subst same
      simp [Errand.name?]
    · rw [others c same, Function.update_of_ne same, lineup.mem]
  · by_cases same : c = caller
    · rw [same]
      rfl
    · rw [Function.update_of_ne same] at loads
      have mem := List.mem_of_mem_head? (lineup.front c loads)
      rcases inLine with ⟨rfl, -⟩ | rfl
      · cases mem
      · exact absurd (Option.some.inj (lineup.front c loads)).symm same
  · refine ⟨rfl, fun front => ?_⟩
    obtain rfl := Option.some.inj front
    rw [Function.update_self] at waits
    cases waits

/-- A caller that is not in front waits. -/
theorem waits (lineup : Lineup name none (first :: rest) errand) (later : first ≠ caller) {line : List Nat}
    (inLine : caller ∈ rest ∧ line = first :: rest ∨ caller ∉ rest ∧ line = first :: rest ++ [caller]) :
    Lineup name none line (Function.update errand caller (.waiting name false)) := by
  have others : ∀ c, c ≠ caller → (c ∈ line ↔ c ∈ first :: rest) := by
    intro c ne
    rcases inLine with ⟨-, rfl⟩ | ⟨-, rfl⟩
    · rfl
    · simp [ne]
  have front : line.head? = some first := by
    rcases inLine with ⟨-, rfl⟩ | ⟨-, rfl⟩
    · rfl
    · rfl
  refine ⟨?_, fun c => ?_, fun c loads => ?_, fun c waits => ⟨rfl, fun head => ?_⟩⟩
  · rcases inLine with ⟨-, rfl⟩ | ⟨absent, rfl⟩
    · exact lineup.nodup
    · have new : caller ∉ first :: rest := by simp [later.symm, absent]
      exact List.Nodup.append lineup.nodup (List.nodup_singleton caller) (by simpa using new)
  · by_cases same : c = caller
    · subst same
      have here : c ∈ line := by
        rcases inLine with ⟨mem, rfl⟩ | ⟨-, rfl⟩
        · exact List.mem_cons_of_mem _ mem
        · simp
      simp [here, Errand.name?]
    · rw [others c same, Function.update_of_ne same, lineup.mem]
  · have ne : c ≠ caller := by
      rintro rfl
      rw [Function.update_self] at loads
      cases loads
    rw [Function.update_of_ne ne] at loads
    rw [front]
    exact lineup.front c loads
  · rw [front] at head
    obtain rfl := Option.some.inj head
    rw [Function.update_of_ne later] at waits
    exact (lineup.called first waits).2 rfl

/-- Who loads a name is alone with it. -/
theorem loading (lineup : Lineup name loaded line errand) (loads : errand caller = .loading name) :
    loaded = none ∧ ∃ rest, line = caller :: rest ∧ caller ∉ rest ∧
      ∀ c, errand c = .loading name → c = caller := by
  have front := lineup.front caller loads
  obtain ⟨rest, rfl⟩ : ∃ rest, line = caller :: rest := by
    cases line with
    | nil => cases front
    | cons first rest =>
        obtain rfl := Option.some.inj front
        exact ⟨rest, rfl⟩
  refine ⟨((lineup.mem caller).mp List.mem_cons_self).1, rest, rfl, (List.nodup_cons.mp lineup.nodup).1,
    fun c also => ?_⟩
  exact (Option.some.inj (lineup.front c also)).symm

theorem succeeds (lineup : Lineup name loaded line errand) (loads : errand caller = .loading name) :
    Lineup name (some template) [] (summon (line.drop 1) (Function.update errand caller .idle)) := by
  obtain ⟨rfl, rest, rfl, absent, alone⟩ := lineup.loading loads
  have others : ∀ c e, e ≠ Errand.idle → Function.update errand caller .idle c = e → c ≠ caller ∧ errand c = e := by
    intro c e busy here
    by_cases same : c = caller
    · subst same
      rw [Function.update_self] at here
      exact absurd here.symm busy
    · rw [Function.update_of_ne same] at here
      exact ⟨same, here⟩
  refine ⟨List.nodup_nil, fun c => iff_of_false List.not_mem_nil fun both => (nomatch both.1), fun c also => ?_,
    fun c waits => ?_⟩
  · obtain ⟨ne, also⟩ := others c (.loading name) nofun (summon_eq_loading.mp also)
    exact absurd (alone c also) ne
  · obtain ⟨waits, uncalled⟩ := summon_eq_waiting.mp waits
    obtain ⟨ne, waits⟩ := others c (.waiting name false) nofun waits
    have mem := (lineup.mem c).mpr ⟨rfl, by rw [waits]; rfl⟩
    exact absurd ((List.mem_cons.mp mem).resolve_left ne) uncalled

/-- A caller steps out of the line; who stands in front then is called up. -/
theorem leaves (lineup : Lineup name loaded line errand) (caller : Nat) {woken : List Nat}
    (next : ∀ second rest, line = caller :: second :: rest → second ∈ woken) :
    Lineup name loaded (line.filter (· ≠ caller)) (summon woken (Function.update errand caller .idle)) := by
  refine ⟨lineup.nodup.filter _, fun c => ?_, fun c loads => ?_, fun c waits => ?_⟩
  · rw [name?_summon]
    by_cases same : c = caller
    · subst same
      simp [Errand.name?]
    · rw [Function.update_of_ne same, ← lineup.mem]
      simp [same]
  · have ne : c ≠ caller := by
      rintro rfl
      rw [summon_eq_loading, Function.update_self] at loads
      cases loads
    rw [summon_eq_loading, Function.update_of_ne ne] at loads
    obtain ⟨-, rest, rfl, -⟩ := lineup.loading loads
    rw [List.filter_cons_of_pos (by simpa using ne)]
    rfl
  · obtain ⟨waits, uncalled⟩ := summon_eq_waiting.mp waits
    have ne : c ≠ caller := by
      rintro rfl
      rw [Function.update_self] at waits
      cases waits
    rw [Function.update_of_ne ne] at waits
    obtain ⟨unloaded, behind⟩ := lineup.called c waits
    refine ⟨unloaded, fun front => ?_⟩
    cases line with
    | nil => cases front
    | cons first rest =>
        by_cases gone : first = caller
        · subst gone
          have absent := (List.nodup_cons.mp lineup.nodup).1
          have rest_eq : rest.filter (· ≠ first) = rest :=
            List.filter_eq_self.mpr fun x mem => by simpa using fun same : x = first => absent (same ▸ mem)
          rw [List.filter_cons_of_neg (by simp), rest_eq] at front
          cases rest with
          | nil => cases front
          | cons second others =>
              obtain rfl := Option.some.inj front
              exact uncalled (next second others rfl)
        · rw [List.filter_cons_of_pos (by simpa using gone)] at front
          exact behind front

theorem fails (lineup : Lineup name loaded line errand) (loads : errand caller = .loading name) :
    Lineup name loaded (line.drop 1) (summon ((line.drop 1).take 1) (Function.update errand caller .idle)) := by
  obtain ⟨-, rest, rfl, absent, -⟩ := lineup.loading loads
  have rest_eq : (caller :: rest).filter (· ≠ caller) = rest := by
    rw [List.filter_cons_of_neg (by simp)]
    exact List.filter_eq_self.mpr fun x mem => by simpa using fun same : x = caller => absent (same ▸ mem)
  have next : ∀ second others, caller :: rest = caller :: second :: others → second ∈ rest.take 1 := by
    intro second others same
    obtain ⟨-, rfl⟩ := List.cons.inj same
    exact List.mem_singleton_self second
  have left := lineup.leaves caller next
  rwa [rest_eq] at left

theorem overtaken (lineup : Lineup name loaded line errand) {line' : List Nat} (perm : line'.Perm line)
    (keeps : ∀ c, errand c = .loading name → line'.head? = some c) :
    Lineup name loaded line' (summon (line'.take 1) errand) where
  nodup := perm.nodup_iff.mpr lineup.nodup
  mem := fun c => by rw [name?_summon, perm.mem_iff, lineup.mem]
  front := fun c loads => keeps c (summon_eq_loading.mp loads)
  called := by
    intro c waits
    obtain ⟨waits, uncalled⟩ := summon_eq_waiting.mp waits
    refine ⟨(lineup.called c waits).1, fun front => uncalled ?_⟩
    cases line' with
    | nil => cases front
    | cons first rest =>
        obtain rfl := Option.some.inj front
        exact List.mem_singleton_self first

end Lineup

/-! ## The book -/

/-- What is in the book about a name: it is loaded when a load of it has ended well, and
from then on it is served and nothing else. -/
structure Annals (name : String) (loaded : Option Template) (history : List Entry) : Prop where
  loaded_iff : ∀ template, loaded = some template ↔ ∃ c fetched, Entry.ended c name fetched (.ok template) ∈ history
  compiled : ∀ c fetched answer, Entry.ended c name fetched answer ∈ history → answer = compileFetched name fetched
  served : ∀ c template, Entry.served c name template ∈ history → loaded = some template
  closed : ∀ front c fetched template back, history = front ++ Entry.ended c name fetched (.ok template) :: back →
    ∀ entry ∈ back, entry.name = name → ∃ c', entry = .served c' name template

namespace Annals

variable {name : String} {loaded : Option Template} {history : List Entry} {caller : Nat} {template : Template}
  {entry : Entry}

theorem nil : Annals name none [] where
  loaded_iff := fun _ => iff_of_false nofun fun ⟨_, _, mem⟩ => nomatch mem
  compiled := nofun
  served := nofun
  closed := fun front _ _ _ _ split => absurd split.symm (by simp)

/-- A new entry is the last, or stands behind the load that has ended well. -/
theorem closed_append (annals : Annals name loaded history)
    (fits : ∀ template, loaded = some template → entry.name = name → ∃ c, entry = .served c name template) :
    ∀ front c fetched template back, history ++ [entry] = front ++ Entry.ended c name fetched (.ok template) :: back →
      ∀ other ∈ back, other.name = name → ∃ c', other = .served c' name template := by
  intro front c fetched template back split other mem about
  rcases List.eq_nil_or_concat' back with rfl | ⟨back, last, rfl⟩
  · cases mem
  · rw [← List.cons_append, ← List.append_assoc] at split
    obtain ⟨earlier, same⟩ := List.append_inj' split rfl
    obtain rfl := List.singleton_inj.mp same
    rcases List.mem_append.mp mem with before | here
    · exact annals.closed front c fetched template back earlier other before about
    · obtain rfl := List.mem_singleton.mp here
      refine fits template ((annals.loaded_iff template).mpr ⟨c, fetched, ?_⟩) about
      rw [earlier]
      exact List.mem_append_right _ List.mem_cons_self

theorem serve (annals : Annals name loaded history) (found : loaded = some template) :
    Annals name loaded (history ++ [.served caller name template]) where
  loaded_iff := by
    intro t
    rw [annals.loaded_iff]
    simp
  compiled := fun c fetched answer mem => annals.compiled c fetched answer (by simpa using mem)
  served := by
    intro c t mem
    rcases List.mem_append.mp mem with before | here
    · exact annals.served c t before
    · cases List.mem_singleton.mp here
      exact found
  closed := annals.closed_append fun t here _ => ⟨caller, by rw [Option.some.inj (found.symm.trans here)]⟩

theorem begin (annals : Annals name none history) : Annals name none (history ++ [.began caller name]) where
  loaded_iff := by
    intro t
    rw [annals.loaded_iff]
    simp
  compiled := fun c fetched answer mem => annals.compiled c fetched answer (by simpa using mem)
  served := fun c t mem => annals.served c t (by simpa using mem)
  closed := annals.closed_append nofun

theorem settle (annals : Annals name none history) (caller : Nat) (fetched : Except Fault String) :
    Annals name (compileFetched name fetched).toOption
      (history ++ [.ended caller name fetched (compileFetched name fetched)]) where
  loaded_iff := by
    intro t
    constructor
    · intro made
      cases answer : compileFetched name fetched with
      | error fault =>
          rw [answer] at made
          cases made
      | ok other =>
          rw [answer] at made
          cases made
          exact ⟨caller, fetched, by simp⟩
    · rintro ⟨c, other, mem⟩
      rcases List.mem_append.mp mem with before | here
      · exact absurd ((annals.loaded_iff t).mpr ⟨c, other, before⟩) nofun
      · obtain ⟨-, -, -, answer⟩ := Entry.ended.inj (List.mem_singleton.mp here)
        rw [← answer]
        rfl
  compiled := by
    intro c other answer mem
    rcases List.mem_append.mp mem with before | here
    · exact annals.compiled c other answer before
    · cases List.mem_singleton.mp here
      rfl
  served := by
    intro c t mem
    exact absurd (annals.served c t (by simpa using mem)) nofun
  closed := annals.closed_append nofun

end Annals

/-! ## What every act keeps -/

/-- What is known of a desk under one name. -/
structure Consistent (name : String) (s : Desk) : Prop where
  sorted : s.cache.lines.Sorted
  lineup : Lineup name (s.cache.loaded.get? name) (s.cache.line name) s.errand
  annals : Annals name (s.cache.loaded.get? name) s.history

namespace Consistent

variable {name : String} {s : Desk} {caller : Nat}

theorem start : Consistent name {} where
  sorted := Fields.sorted_nil
  lineup := ⟨List.nodup_nil, fun _ => iff_of_false List.not_mem_nil fun both => (nomatch both.2), nofun, nofun⟩
  annals := .nil

theorem ask (consistent : Consistent name s) : Consistent name (s.ask caller name) := by
  have lineup := consistent.lineup
  have annals := consistent.annals
  unfold Desk.ask
  cases loaded : s.cache.loaded.get? name with
  | some template =>
      rw [Cache.ask_of_loaded loaded]
      rw [loaded] at lineup annals
      exact ⟨consistent.sorted, by rw [loaded]; exact lineup.served, by rw [loaded]; exact annals.serve rfl⟩
  | none =>
      rw [loaded] at lineup annals
      cases line : s.cache.line name with
      | nil =>
          rw [Cache.ask_of_nobody loaded line]
          refine ⟨?_, ?_, ?_⟩
          · show (s.cache.setLine name [caller]).lines.Sorted
            exact Cache.sorted_setLine consistent.sorted _
          · show Lineup name (s.cache.loaded.get? name) ((s.cache.setLine name [caller]).line name) _
            rw [loaded, Cache.line_setLine, if_pos rfl]
            exact lineup.begun (.inl ⟨line, rfl⟩)
          · show Annals name (s.cache.loaded.get? name) _
            rw [loaded]
            exact annals.begin
      | cons first rest =>
          by_cases front : first = caller
          · subst front
            rw [Cache.ask_in_front loaded line]
            refine ⟨consistent.sorted, ?_, ?_⟩
            · show Lineup name (s.cache.loaded.get? name) (s.cache.line name) _
              rw [loaded, line]
              exact lineup.begun (.inr line)
            · show Annals name (s.cache.loaded.get? name) _
              rw [loaded]
              exact annals.begin
          · rw [line] at lineup
            by_cases mem : caller ∈ rest
            · rw [Cache.ask_in_line loaded line front mem]
              refine ⟨consistent.sorted, ?_, consistent.annals⟩
              show Lineup name (s.cache.loaded.get? name) (s.cache.line name) _
              rw [loaded, line]
              exact lineup.waits front (.inl ⟨mem, rfl⟩)
            · rw [Cache.ask_behind loaded line front mem]
              refine ⟨?_, ?_, consistent.annals⟩
              · show (s.cache.setLine name (first :: rest ++ [caller])).lines.Sorted
                exact Cache.sorted_setLine consistent.sorted _
              show Lineup name (s.cache.loaded.get? name)
                ((s.cache.setLine name (first :: rest ++ [caller])).line name) _
              rw [loaded, Cache.line_setLine, if_pos rfl]
              exact lineup.waits front (.inr ⟨mem, rfl⟩)

theorem settle (consistent : Consistent name s) {fetched : Except Fault String}
    (loads : s.errand caller = .loading name) :
    Consistent name (s.settle caller name fetched) := by
  have unloaded := (consistent.lineup.loading loads).1
  have annals := consistent.annals
  rw [unloaded] at annals
  replace annals := annals.settle caller fetched
  unfold Desk.settle
  cases answer : compileFetched name fetched with
  | ok template =>
      rw [answer] at annals
      have loaded : (s.cache.succeed name template).2.loaded.get? name = some template :=
        (Fields.get?_put _ _ _ _).trans (if_pos rfl)
      have line : (s.cache.succeed name template).2.line name = [] := Cache.line_succeed.trans (if_pos rfl)
      refine ⟨Cache.sorted_succeed consistent.sorted, ?_, by rw [loaded]; exact annals⟩
      rw [loaded, line]
      exact consistent.lineup.succeeds loads
  | error fault =>
      rw [answer] at annals
      have line : (s.cache.fail name).2.line name = (s.cache.line name).drop 1 := Cache.line_fail.trans (if_pos rfl)
      refine ⟨Cache.sorted_fail consistent.sorted, ?_, ?_⟩
      · rw [line]
        exact consistent.lineup.fails loads
      · show Annals name (s.cache.loaded.get? name) _
        rw [unloaded]
        exact annals

/-- An act under a name keeps what is known under it. -/
theorem perform (consistent : Consistent name s) {act : Act} (about : act.name = name) (allowed : s.Allows act) :
    Consistent name (s.perform act) := by
  subst about
  cases act with
  | get caller name => exact consistent.ask
  | retry caller name => exact consistent.ask
  | settle caller name fetched => exact consistent.settle allowed
  | leave caller name =>
      refine ⟨Cache.sorted_leave consistent.sorted, ?_, consistent.annals⟩
      show Lineup name (s.cache.loaded.get? name) ((s.cache.leave caller).2.line name) _
      rw [Cache.line_leave consistent.sorted]
      exact consistent.lineup.leaves caller fun second rest line =>
        (Cache.mem_leave consistent.sorted).mpr ⟨name, rest, line⟩
  | overtake name line =>
      refine ⟨Cache.sorted_setLine consistent.sorted _, ?_, consistent.annals⟩
      show Lineup name (s.cache.loaded.get? name) ((s.cache.setLine name line).line name) _
      rw [Cache.line_setLine, if_pos rfl]
      exact consistent.lineup.overtaken allowed.1 allowed.2

end Consistent

end Inlay.Host
