/-
# Proofs.Host.Sharing — every template is loaded once, whoever asks for it

What happens under one name does not depend on the others: the desk only of that
name is what the acts under it make of an empty cache (`Runs.only`). So what every
act keeps of its own name (`Consistent`) is known of all names at once (`Settled`).

The main result is `runs_share`: one load of a name at a time; after one that
succeeded none begins, and everybody who gets the template gets the one that this
load compiled; one that failed is answered and leaves the name to whoever waits or
comes next.
-/
import Inlay.Proofs.Host.Desk

namespace Inlay.Host

set_option autoImplicit false

/-! ## One name alone -/

namespace Cache

variable {cache cache' : Cache} {name : String} {caller loads : Nat} {template : Template}

/-- The cache as far as a name is concerned, with a number of loads. -/
def only (name : String) (loads : Nat) (cache : Cache) : Cache where
  loaded := (cache.loaded.get? name).toList.map fun template => (name, template)
  lines := if (cache.line name).isEmpty then [] else [(name, cache.line name)]
  loads := loads

theorem only_congr (line : cache'.line name = cache.line name)
    (loaded : cache'.loaded.get? name = cache.loaded.get? name) : cache'.only name loads = cache.only name loads := by
  simp only [only, line, loaded]

theorem line_only : (cache.only name loads).line name = cache.line name := by
  unfold only
  cases line : cache.line name with
  | nil => rfl
  | cons first rest => simp [Cache.line, Fields.get?]

theorem line_only_of_ne {other : String} (ne : other ≠ name) : (cache.only name loads).line other = [] := by
  unfold only
  cases line : cache.line name with
  | nil => rfl
  | cons first rest => simp [Cache.line, Fields.get?, List.lookup_cons, beq_false_of_ne ne]

theorem loaded_only : (cache.only name loads).loaded.get? name = cache.loaded.get? name := by
  unfold only
  cases cache.loaded.get? name with
  | none => rfl
  | some template => simp [Fields.get?]

theorem sorted_only : (cache.only name loads).lines.Sorted := by
  unfold only Fields.Sorted
  dsimp only
  split
  · exact .nil
  · exact List.pairwise_singleton _ _

theorem setLine_only (line : List Nat) :
    (cache.only name loads).setLine name line = (cache.setLine name line).only name loads := by
  have lines : (cache.setLine name line).line name = line := (line_setLine line).trans (if_pos rfl)
  unfold only
  rw [lines]
  unfold setLine
  cases cache.line name with
  | nil => cases line <;> rfl
  | cons first rest => cases line <;> simp [Fields.drop, Fields.put]

theorem succeed_only : (cache.only name loads).succeed name template =
    ((cache.succeed name template).1, (cache.succeed name template).2.only name loads) := by
  have lines : ((cache.only name loads).setLine name []).lines = [] := by
    rw [setLine_only]
    unfold only
    rw [line_setLine, if_pos rfl]
    rfl
  have put : Fields.put name template (cache.only name loads).loaded = [(name, template)] := by
    unfold only
    cases cache.loaded.get? name with
    | none => rfl
    | some old => simp [Fields.put]
  have after : (cache.succeed name template).2.only name loads = ⟨[(name, template)], [], loads⟩ := by
    unfold only
    rw [line_succeed, if_pos rfl, show (cache.succeed name template).2.loaded.get? name = some template from
      (Fields.get?_put _ _ _ _).trans (if_pos rfl)]
    rfl
  rw [after]
  unfold succeed
  rw [line_only, put]
  exact congrArg (fun lines => ((cache.line name).drop 1, (⟨[(name, template)], lines, loads⟩ : Cache))) lines

theorem fail_only : (cache.only name loads).fail name =
    ((cache.fail name).1, (cache.fail name).2.only name loads) := by
  unfold fail
  dsimp only
  rw [line_only, setLine_only]

theorem leave_only (sorted : cache.lines.Sorted) :
    ((cache.only name loads).leave caller).2 = (cache.leave caller).2.only name loads := by
  have after : (cache.leave caller).2.only name loads =
      { cache.only name loads with
        lines :=
          if ((cache.line name).filter (· ≠ caller)).isEmpty then []
          else [(name, (cache.line name).filter (· ≠ caller))] } := by
    unfold only
    rw [line_leave sorted]
    rfl
  rw [after]
  unfold only leave
  cases line : cache.line name with
  | nil => rfl
  | cons first rest =>
      simp only [List.isEmpty_cons, Bool.false_eq_true, if_false, Fields.mapValues, List.map_cons, List.map_nil]
      cases left : ((first :: rest).filter (· ≠ caller)) with
      | nil => simp 
      | cons second others => simp 

/-- A caller that stands in one line only calls up somebody of that line. -/
theorem mem_leave_only (sorted : cache.lines.Sorted) (alone : ∀ other, caller ∈ cache.line other → other = name)
    (next : Nat) :
    next ∈ (cache.leave caller).1 ↔ next ∈ ((cache.only name loads).leave caller).1 := by
  rw [mem_leave sorted, mem_leave sorted_only]
  constructor
  · rintro ⟨other, rest, line⟩
    obtain rfl := alone other (by rw [line]; exact List.mem_cons_self)
    exact ⟨other, rest, line_only.trans line⟩
  · rintro ⟨other, rest, line⟩
    by_cases same : other = name
    · subst same
      exact ⟨other, rest, line_only.symm.trans line⟩
    · rw [line_only_of_ne same] at line
      cases line

/-- Asking goes by what is loaded under the name and by its line. -/
theorem ask_only : (cache.only name loads).ask caller name =
    ((cache.ask caller name).1, (cache.ask caller name).2.only name
      (match (cache.ask caller name).1 with | .load => loads + 1 | _ => loads)) := by
  cases loaded : cache.loaded.get? name with
  | some template => rw [ask_of_loaded loaded, ask_of_loaded (loaded_only.trans loaded)]
  | none =>
      have unloaded : (cache.only name loads).loaded.get? name = none := loaded_only.trans loaded
      cases line : cache.line name with
      | nil =>
          rw [ask_of_nobody loaded line, ask_of_nobody unloaded (line_only.trans line), setLine_only]
          rfl
      | cons first rest =>
          by_cases front : first = caller
          · subst front
            rw [ask_in_front loaded line, ask_in_front unloaded (line_only.trans line)]
            rfl
          · by_cases mem : caller ∈ rest
            · rw [ask_in_line loaded line front mem, ask_in_line unloaded (line_only.trans line) front mem]
            · rw [ask_behind loaded line front mem, ask_behind unloaded (line_only.trans line) front mem, setLine_only]

end Cache

namespace Desk

variable {s s' : Desk} {act : Act} {acts : List Act} {name : String} {caller : Nat} {errand : Errand}

/-- The entries about a name. -/
def about (name : String) (history : List Entry) : List Entry := history.filter (·.name = name)

/-- The desk as far as a name is concerned. -/
def only (name : String) (s : Desk) : Desk where
  cache := s.cache.only name ((about name s.history).countP Entry.isBegan)
  errand := fun caller => (s.errand caller).under name
  history := about name s.history

theorem only_start : ({} : Desk).only name = {} := by
  have idle : (fun _ : Nat => Errand.idle.under name) = fun _ => Errand.idle := rfl
  unfold only
  rw [idle]
  rfl

theorem about_append (front back : List Entry) : about name (front ++ back) = about name front ++ about name back :=
  List.filter_append ..

theorem about_self {entry : Entry} (here : entry.name = name) (history : List Entry) :
    about name (history ++ [entry]) = about name history ++ [entry] := by
  simp [about, here]

theorem about_other (entry : Entry) (there : entry.name ≠ name) (history : List Entry) :
    about name (history ++ [entry]) = about name history := by
  simp [about, there]

theorem under_update (same : errand.under name = errand) :
    (fun c => (Function.update s.errand caller errand c).under name) =
      Function.update (fun c => (s.errand c).under name) caller errand := by
  funext c
  by_cases here : c = caller
  · subst here
    rw [Function.update_self, Function.update_self, same]
  · rw [Function.update_of_ne here, Function.update_of_ne here]

theorem only_ask : (s.ask caller name).only name = (s.only name).ask caller name := by
  unfold Desk.ask
  rw [show (s.only name).cache = s.cache.only name _ from rfl, Cache.ask_only]
  obtain ⟨reply, cache⟩ := s.cache.ask caller name
  cases reply with
  | ready template =>
      have noted := about_self (show (Entry.served caller name template).name = name from rfl) s.history
      simp only [only, noted, under_update (show Errand.idle.under name = .idle from rfl), List.countP_append]
      rfl
  | load =>
      have noted := about_self (show (Entry.began caller name).name = name from rfl) s.history
      simp only [only, noted,
        under_update (Errand.under_of_name? (show (Errand.loading name).name? = some name from rfl)),
        List.countP_append]
      rfl
  | wait =>
      simp only [only,
        under_update (Errand.under_of_name? (show (Errand.waiting name false).name? = some name from rfl))]

theorem only_settle (fetched : Except Fault String) :
    (s.settle caller name fetched).only name = (s.only name).settle caller name fetched := by
  unfold Desk.settle
  have noted :=
    about_self (show (Entry.ended caller name fetched (compileFetched name fetched)).name = name from rfl) s.history
  have errands : ∀ woken, (fun c => (summon woken (Function.update s.errand caller .idle) c).under name) =
      summon woken (Function.update (fun c => (s.errand c).under name) caller .idle) := by
    intro woken
    rw [← under_update (show Errand.idle.under name = .idle from rfl)]
    exact funext fun c => summon_under
  rw [show (s.only name).cache = s.cache.only name _ from rfl]
  cases answer : compileFetched name fetched with
  | ok template =>
      rw [answer] at noted
      simp only [Cache.succeed_only, only, noted, errands, List.countP_append]
      rfl
  | error fault =>
      rw [answer] at noted
      simp only [Cache.fail_only, only, noted, errands, List.countP_append]
      rfl

/-- An act under a name does on the desk of that name what it does on the whole one. -/
theorem only_perform (sorted : s.cache.lines.Sorted) (placed : ∀ m c, c ∈ s.cache.line m → (s.errand c).name? = some m)
    (here : act.name = name) (allowed : s.Allows act) : (s.perform act).only name = (s.only name).perform act := by
  subst here
  cases act with
  | get caller name => exact only_ask
  | retry caller name => exact only_ask
  | settle caller name fetched => exact only_settle fetched
  | leave caller name =>
      have alone : ∀ other, caller ∈ s.cache.line other → other = name := fun other mem =>
        Option.some.inj ((placed other caller mem).symm.trans allowed)
      have errands : (fun c => (summon (s.cache.leave caller).1 (Function.update s.errand caller .idle) c).under name) =
          summon ((s.only name).cache.leave caller).1
            (Function.update (fun c => (s.errand c).under name) caller .idle) := by
        have called : summon ((s.only name).cache.leave caller).1 = summon (s.cache.leave caller).1 :=
          funext fun _ => summon_congr fun c => (Cache.mem_leave_only sorted alone c).symm
        rw [called, ← under_update (show Errand.idle.under name = .idle from rfl)]
        exact funext fun c => summon_under
      simp only [only] at errands
      simp only [perform, only, Act.name, Cache.leave_only sorted, errands]
  | overtake name line =>
      have errands : (fun c => (summon (line.take 1) s.errand c).under name) =
          summon (line.take 1) fun c => (s.errand c).under name := funext fun c => summon_under
      simp only [perform, only, Act.name, Cache.setLine_only, errands]

theorem only_eq (line : s'.cache.line name = s.cache.line name)
    (loaded : s'.cache.loaded.get? name = s.cache.loaded.get? name)
    (errand : ∀ c, (s'.errand c).under name = (s.errand c).under name)
    (history : about name s'.history = about name s.history) : s'.only name = s.only name := by
  unfold only
  rw [Cache.only_congr line loaded, funext errand, history]

/-- What a caller does under other names is nothing to a name. -/
theorem under_of_update (old : (s.errand caller).name? ≠ some name) (new : errand.name? ≠ some name) (c : Nat) :
    (Function.update s.errand caller errand c).under name = (s.errand c).under name := by
  by_cases here : c = caller
  · subst here
    rw [Function.update_self, Errand.under_of_ne old, Errand.under_of_ne new]
  · rw [Function.update_of_ne here]

/-- Nor is it who is called up under other names. -/
theorem under_of_others {woken : List Nat} (old : (s.errand caller).name? ≠ some name) (new : errand.name? ≠ some name)
    (others : ∀ c ∈ woken, (s.errand c).name? ≠ some name) (c : Nat) :
    (summon woken (Function.update s.errand caller errand) c).under name = (s.errand c).under name := by
  by_cases mem : c ∈ woken
  · have away : (Function.update s.errand caller errand c).name? ≠ some name := by
      by_cases here : c = caller
      · subst here
        rwa [Function.update_self]
      · rw [Function.update_of_ne here]
        exact others c mem
    rw [Errand.under_of_ne (by rwa [name?_summon]), Errand.under_of_ne (others c mem)]
  · rw [summon_of_not_mem mem, under_of_update old new]

theorem ask_of_ne {other : String} (away : name ≠ other) (old : (s.errand caller).name? ≠ some name) :
    (s.ask caller other).only name = s.only name := by
  have line : (s.cache.ask caller other).2.line name = _ := Cache.line_ask_of_ne away
  have loaded := congrArg (Fields.get? name) (Cache.loaded_ask caller other s.cache)
  have asks : ∀ e : Errand, e = .loading other ∨ e = .waiting other false → e.name? ≠ some name := by
    rintro _ (rfl | rfl) same
    · exact away (Option.some.inj same).symm
    · exact away (Option.some.inj same).symm
  unfold ask
  cases asked : s.cache.ask caller other with
  | mk reply cache =>
      rw [asked] at line loaded
      cases reply with
      | ready template =>
          exact only_eq line loaded (under_of_update old nofun)
            (about_other (.served caller other template) away.symm _)
      | load =>
          exact only_eq line loaded (under_of_update old (asks _ (.inl rfl)))
            (about_other (.began caller other) away.symm _)
      | wait => exact only_eq line loaded (under_of_update old (asks _ (.inr rfl))) rfl

theorem settle_of_ne {other : String} (away : name ≠ other) (old : (s.errand caller).name? ≠ some name)
    (others : ∀ c ∈ s.cache.line other, (s.errand c).name? ≠ some name) (fetched : Except Fault String) :
    (s.settle caller other fetched).only name = s.only name := by
  unfold settle
  cases answer : compileFetched other fetched with
  | ok template =>
      refine only_eq (Cache.line_succeed.trans (if_neg away)) ((Fields.get?_put _ _ _ _).trans (if_neg away))
        (under_of_others old nofun fun c mem => ?_)
        (about_other (.ended caller other fetched _) away.symm _)
      exact others c (List.mem_of_mem_drop mem)
  | error fault =>
      refine only_eq (Cache.line_fail.trans (if_neg away)) rfl (under_of_others old nofun fun c mem => ?_)
        (about_other (.ended caller other fetched _) away.symm _)
      exact others c (List.mem_of_mem_drop (List.mem_of_mem_take mem))

/-- An act under another name leaves the desk of a name. -/
theorem only_of_ne (sorted : s.cache.lines.Sorted) (placed : ∀ m c, c ∈ s.cache.line m → (s.errand c).name? = some m)
    (away : name ≠ act.name) (allowed : s.Allows act) : (s.perform act).only name = s.only name := by
  have elsewhere : ∀ c, (s.errand c).name? = some act.name → (s.errand c).name? ≠ some name := fun c here there =>
    away (Option.some.inj (there.symm.trans here))
  have inLine : ∀ c ∈ s.cache.line act.name, (s.errand c).name? ≠ some name := fun c mem => elsewhere c (placed _ c mem)
  cases act with
  | get caller other =>
      refine ask_of_ne away ?_
      rw [show s.errand caller = .idle from allowed]
      nofun
  | retry caller other =>
      refine ask_of_ne away (elsewhere caller ?_)
      rw [show s.errand caller = .waiting other true from allowed]
      rfl
  | settle caller other fetched =>
      refine settle_of_ne away (elsewhere caller ?_) inLine fetched
      rw [show s.errand caller = .loading other from allowed]
      rfl
  | leave caller other =>
      have absent : caller ∉ s.cache.line name := fun mem => elsewhere caller allowed (placed name caller mem)
      refine only_eq ?_ rfl (under_of_others (elsewhere caller allowed) nofun fun c mem => ?_) rfl
      · show (s.cache.leave caller).2.line name = _
        rw [Cache.line_leave sorted]
        exact List.filter_eq_self.mpr fun c mem => by simpa using fun same : c = caller => absent (same ▸ mem)
      · obtain ⟨m, rest, line⟩ := (Cache.mem_leave sorted).mp mem
        have asked := placed m caller (by rw [line]; exact List.mem_cons_self)
        obtain rfl := Option.some.inj (asked.symm.trans allowed)
        exact inLine c (by rw [show (Act.leave caller m).name = m from rfl, line]; simp)
  | overtake other line =>
      have others : ∀ c, (summon (line.take 1) s.errand c).under name = (s.errand c).under name := by
        intro c
        by_cases mem : c ∈ line.take 1
        · have away := inLine c ((allowed.1.mem_iff).mp (List.mem_of_mem_take mem))
          rw [Errand.under_of_ne (by rwa [name?_summon]), Errand.under_of_ne away]
        · rw [summon_of_not_mem mem]
      exact only_eq ((Cache.line_setLine line).trans (if_neg away)) rfl others rfl

/-! ## All names at once -/

/-- What is known of a desk at any time. -/
structure Settled (s : Desk) : Prop where
  sorted : s.cache.lines.Sorted
  consistent : ∀ name, Consistent name (s.only name)
  loads : s.cache.loads = s.history.countP Entry.isBegan

theorem allows_only (allowed : s.Allows act) : (s.only act.name).Allows act := by
  cases act with
  | get caller name =>
      show (s.errand caller).under name = _
      rw [show s.errand caller = .idle from allowed]
      rfl
  | retry caller name => exact (Errand.under_eq_iff rfl).mpr allowed
  | settle caller name fetched => exact (Errand.under_eq_iff rfl).mpr allowed
  | leave caller name => exact Errand.name?_under.mpr allowed
  | overtake name line =>
      refine ⟨?_, fun c loads => allowed.2 c ((Errand.under_eq_iff rfl).mp loads)⟩
      show line.Perm ((s.cache.only name _).line name)
      rw [Cache.line_only]
      exact allowed.1

theorem sorted_ask (sorted : s.cache.lines.Sorted) : (s.ask caller name).cache.lines.Sorted := by
  have kept : (s.cache.ask caller name).2.lines.Sorted := Cache.sorted_ask sorted
  unfold ask
  cases asked : s.cache.ask caller name with
  | mk reply cache =>
      rw [asked] at kept
      cases reply <;> exact kept

theorem loads_ask (loads : s.cache.loads = s.history.countP Entry.isBegan) :
    (s.ask caller name).cache.loads = (s.ask caller name).history.countP Entry.isBegan := by
  have counted : (s.cache.ask caller name).2.loads = _ := Cache.loads_ask
  unfold ask
  cases asked : s.cache.ask caller name with
  | mk reply cache =>
      rw [asked] at counted
      cases reply with
      | ready template =>
          rw [List.countP_append]
          exact counted.trans loads
      | load =>
          rw [List.countP_append]
          exact counted.trans (congrArg (· + 1) loads)
      | wait => exact counted.trans loads

theorem sorted_settle (sorted : s.cache.lines.Sorted) (fetched : Except Fault String) :
    (s.settle caller name fetched).cache.lines.Sorted := by
  unfold settle
  cases compileFetched name fetched with
  | ok template => exact Cache.sorted_succeed sorted
  | error fault => exact Cache.sorted_fail sorted

theorem loads_settle (loads : s.cache.loads = s.history.countP Entry.isBegan) (fetched : Except Fault String) :
    (s.settle caller name fetched).cache.loads = (s.settle caller name fetched).history.countP Entry.isBegan := by
  unfold settle
  cases compileFetched name fetched with
  | ok template =>
      rw [List.countP_append]
      exact loads
  | error fault =>
      rw [List.countP_append]
      exact loads

namespace Settled

theorem start : Settled {} where
  sorted := Fields.sorted_nil
  consistent := fun name => by
    rw [only_start]
    exact .start
  loads := rfl

theorem placed (settled : s.Settled) (m : String) (c : Nat) (mem : c ∈ s.cache.line m) :
    (s.errand c).name? = some m := by
  have here := ((settled.consistent m).lineup.mem c).mp (Cache.line_only.symm ▸ mem)
  exact Errand.name?_under.mp here.2

theorem perform (settled : s.Settled) (allowed : s.Allows act) : (s.perform act).Settled where
  sorted := by
    cases act with
    | get caller name => exact sorted_ask settled.sorted
    | retry caller name => exact sorted_ask settled.sorted
    | settle caller name fetched => exact sorted_settle settled.sorted fetched
    | leave caller name => exact Cache.sorted_leave settled.sorted
    | overtake name line => exact Cache.sorted_setLine settled.sorted _
  consistent := by
    intro name
    by_cases here : act.name = name
    · rw [only_perform settled.sorted settled.placed here allowed]
      refine (settled.consistent name).perform here ?_
      rw [← here]
      exact allows_only allowed
    · rw [only_of_ne settled.sorted settled.placed (Ne.symm here) allowed]
      exact settled.consistent name
  loads := by
    cases act with
    | get caller name => exact loads_ask settled.loads
    | retry caller name => exact loads_ask settled.loads
    | settle caller name fetched => exact loads_settle settled.loads fetched
    | leave caller name => exact settled.loads
    | overtake name line => exact settled.loads

end Settled

theorem settled_of_runs (runs : Runs acts s) : s.Settled := by
  induction runs with
  | start => exact .start
  | snoc act _ allowed ih => exact ih.perform allowed

/-- What happens under one name comes of the acts under it alone. -/
theorem Runs.only (runs : Runs acts s) (name : String) : Runs (acts.filter (·.name = name)) (s.only name) := by
  induction runs with
  | start =>
      rw [only_start]
      exact .start
  | @snoc acts s act earlier allowed ih =>
      have settled := settled_of_runs earlier
      rw [List.filter_append]
      by_cases here : act.name = name
      · rw [only_perform settled.sorted settled.placed here allowed, List.filter_cons_of_pos (by simpa using here)]
        exact ih.snoc act (here ▸ allows_only allowed)
      · rw [only_of_ne settled.sorted settled.placed (Ne.symm here) allowed, List.filter_cons_of_neg (by simpa using here),
          List.filter_nil, List.append_nil]
        exact ih

/-- What is known of the desk only of a name is known of the whole one under the name. -/
theorem Settled.consistent_self (settled : s.Settled) (name : String) : Consistent name s := by
  obtain ⟨-, lineup, annals⟩ := settled.consistent name
  rw [show (s.only name).cache = s.cache.only name _ from rfl, Cache.line_only, Cache.loaded_only] at lineup
  rw [show (s.only name).cache = s.cache.only name _ from rfl, Cache.loaded_only] at annals
  have noted : ∀ entry : Entry, entry.name = name → (entry ∈ (s.only name).history ↔ entry ∈ s.history) := by
    intro entry here
    show entry ∈ s.history.filter _ ↔ _
    simp [here]
  refine ⟨settled.sorted, ⟨lineup.nodup, fun c => ?_, fun c loads => ?_, fun c waits => ?_⟩,
    ⟨fun t => ?_, fun c fetched answer mem => ?_, fun c t mem => ?_,
      fun front c fetched t back split entry mem here => ?_⟩⟩
  · exact (lineup.mem c).trans (and_congr_right fun _ => Errand.name?_under)
  · exact lineup.front c ((Errand.under_eq_iff rfl).mpr loads)
  · exact lineup.called c ((Errand.under_eq_iff rfl).mpr waits)
  · exact (annals.loaded_iff t).trans (exists_congr fun c => exists_congr fun fetched => noted _ rfl)
  · exact annals.compiled c fetched answer ((noted _ rfl).mpr mem)
  · exact annals.served c t ((noted _ rfl).mpr mem)
  · refine annals.closed (about name front) c fetched t (about name back) ?_ entry
      (List.mem_filter.mpr ⟨mem, by simpa using here⟩) here
    show about name s.history = _
    rw [split, about_append]
    simp [about, Entry.name]

/-! ## The main result -/

/-- Somebody may be let in to load. -/
def Lets (caller : Nat) (name : String) (acts : List Act) : Prop :=
  ∃ more s', (∀ act ∈ more, act.name = name) ∧ Runs (acts ++ more) s' ∧ s'.errand caller = .loading name

/-- Who waits for a name that nobody loads may be let in. -/
theorem Runs.lets_waiting (runs : Runs acts s) (unloaded : s.cache.loaded.get? name = none)
    (nobody : ∀ c, s.errand c ≠ .loading name) (waits : (s.errand caller).name? = some name) :
    Lets caller name acts := by
  have consistent := (settled_of_runs runs).consistent_self name
  have mem : caller ∈ s.cache.line name := (consistent.lineup.mem caller).mpr ⟨unloaded, waits⟩
  let line := caller :: (s.cache.line name).erase caller
  have first := runs.snoc (.overtake name line)
    ⟨(List.perm_cons_erase mem).symm, fun c loads => absurd loads (nobody c)⟩
  have called : (s.perform (.overtake name line)).errand caller = .waiting name true := by
    show (s.errand caller).call ([caller].contains caller) = _
    cases here : s.errand caller with
    | idle =>
        rw [here] at waits
        cases waits
    | waiting other called =>
        rw [here] at waits
        cases waits
        simp [Errand.call]
    | loading other =>
        rw [here] at waits
        cases waits
        exact absurd here (nobody caller)
  have second := first.snoc (.retry caller name) called
  have front : (s.perform (.overtake name line)).cache.ask caller name = _ :=
    Cache.ask_in_front unloaded ((Cache.line_setLine line).trans (if_pos rfl))
  refine ⟨[.overtake name line, .retry caller name], _, by simp [Act.name], by simpa using second, ?_⟩
  show ((s.perform (.overtake name line)).ask caller name).errand caller = _
  unfold ask
  rw [front]
  exact Function.update_self ..

/-- Who asks for a name that is not loaded loads it or waits. -/
theorem ask_unloaded (unloaded : s.cache.loaded.get? name = none) :
    (s.ask caller name).cache.loaded = s.cache.loaded ∧
      ((s.ask caller name).errand = Function.update s.errand caller (.loading name) ∨
        (s.ask caller name).errand = Function.update s.errand caller (.waiting name false)) := by
  have loaded := Cache.loaded_ask caller name s.cache
  unfold ask
  cases asked : s.cache.ask caller name with
  | mk reply cache =>
      rw [asked] at loaded
      cases reply with
      | ready template =>
          rw [Cache.loaded_of_ready asked] at unloaded
          cases unloaded
      | load => exact ⟨loaded, .inl rfl⟩
      | wait => exact ⟨loaded, .inr rfl⟩

/-- Who comes for a name that nobody loads may be let in. -/
theorem Runs.lets_coming (runs : Runs acts s) (unloaded : s.cache.loaded.get? name = none)
    (nobody : ∀ c, s.errand c ≠ .loading name) (idle : s.errand caller = .idle) : Lets caller name acts := by
  have next := runs.snoc (.get caller name) idle
  obtain ⟨same, step⟩ : (s.ask caller name).cache.loaded = s.cache.loaded ∧ _ := ask_unloaded unloaded
  rcases step with loads | waits
  · exact ⟨[.get caller name], _, by simp [Act.name], next, (congrFun loads caller).trans (Function.update_self ..)⟩
  · have there : (s.ask caller name).errand caller = .waiting name false :=
      (congrFun waits caller).trans (Function.update_self ..)
    have still : ∀ c, (s.ask caller name).errand c ≠ .loading name := by
      intro c loads
      by_cases here : c = caller
      · rw [here, there] at loads
        cases loads
      · rw [waits, Function.update_of_ne here] at loads
        exact nobody c loads
    have stays : (s.ask caller name).cache.loaded.get? name = none := by rwa [same]
    obtain ⟨more, s', own, later, loads⟩ := next.lets_waiting stays still
      (show ((s.ask caller name).errand caller).name? = some name by rw [there]; rfl)
    refine ⟨.get caller name :: more, s', ?_, by simpa using later, loads⟩
    rintro act (_ | ⟨_, mem⟩)
    · rfl
    · exact own act mem

/-- What a cache holds to. -/
structure Shares (acts : List Act) (s : Desk) : Prop where
  /-- One caller at a time loads a name. -/
  alone : ∀ name c c', s.errand c = .loading name → s.errand c' = .loading name → c = c'
  /-- The end of a load is told to the caller who loaded: what was fetched, compiled. -/
  answered : ∀ caller name fetched answer, .ended caller name fetched answer ∈ s.history →
    answer = compileFetched name fetched
  /-- A load that succeeded compiled the markup it fetched. From then on the name is served and never
  loaded, and whoever got a template of the name, before or after, got this one. -/
  once : ∀ front caller name fetched template back,
    s.history = front ++ .ended caller name fetched (.ok template) :: back →
      (∃ markup, fetched = .ok markup ∧ Template.compile name markup = .ok template) ∧
      (∀ entry ∈ back, entry.name = name → ∃ c, entry = .served c name template) ∧
      ∀ entry ∈ s.history, entry.name = name → ∀ other, entry.gave = some other → other = template
  /-- Nothing is served that was not loaded. -/
  served : ∀ caller name template, .served caller name template ∈ s.history →
    ∃ c fetched, .ended c name fetched (.ok template) ∈ s.history
  /-- A name is loaded exactly when a load of it has succeeded. -/
  isLoaded : ∀ name, s.cache.isLoaded name = true ↔
    ∃ c fetched template, .ended c name fetched (.ok template) ∈ s.history
  /-- Whoever waits for a loaded name has been called up, and whoever asks for it gets the template at once. -/
  ready : ∀ name, s.cache.isLoaded name = true → (∀ c, s.errand c ≠ .waiting name false) ∧
    ∃ template, ∀ c, (s.ask c name).history = s.history ++ [.served c name template] ∧ (s.ask c name).errand c = .idle
  /-- The loads that were begun are counted. -/
  loads : s.cache.loads = s.history.countP Entry.isBegan
  /-- A load that fails is told to its caller, and the name is not loaded and nobody loads it. -/
  failed : ∀ caller name fetched fault, s.Allows (.settle caller name fetched) →
    compileFetched name fetched = .error fault →
      (s.settle caller name fetched).history = s.history ++ [.ended caller name fetched (.error fault)] ∧
      (s.settle caller name fetched).errand caller = .idle ∧
      (s.settle caller name fetched).cache.isLoaded name = false ∧
      ∀ c, (s.settle caller name fetched).errand c ≠ .loading name
  /-- When nobody loads a name that is not loaded, the first in line has been called up and is to load;
  whoever else waits or comes may be let in instead, and nobody is needed for it who has to do with
  other names. -/
  retried : ∀ name, s.cache.isLoaded name = false → (∀ c, s.errand c ≠ .loading name) →
    (∀ first, (s.cache.line name).head? = some first →
      s.errand first = .waiting name true ∧ (s.ask first name).errand first = .loading name) ∧
    (∀ c, s.errand c = .idle → s.cache.line name = [] → (s.ask c name).errand c = .loading name) ∧
    ∀ c, s.errand c = .idle ∨ (s.errand c).name? = some name → Lets c name acts
  /-- What happens under a name comes of the acts under it alone. -/
  apart : ∀ name, Runs (acts.filter (·.name = name)) (s.only name)

/-- However callers come, wait, load, fail and give up at a cache, under any names and with any
outcome of their loads, the cache shares one load of each name among them. -/
theorem runs_share (runs : Runs acts s) : Shares acts s where
  alone := by
    intro name c c' loads loads'
    obtain ⟨-, rest, -, -, alone⟩ := ((settled_of_runs runs).consistent_self name).lineup.loading loads
    exact (alone c' loads').symm
  answered := fun caller name => ((settled_of_runs runs).consistent_self name).annals.compiled caller
  once := by
    intro front caller name fetched template back split
    have annals := ((settled_of_runs runs).consistent_self name).annals
    have mem : Entry.ended caller name fetched (.ok template) ∈ s.history := by simp [split]
    have loaded := (annals.loaded_iff template).mpr ⟨caller, fetched, mem⟩
    refine ⟨compileFetched_ok.mp (annals.compiled _ _ _ mem).symm, annals.closed _ _ _ _ _ split, ?_⟩
    intro entry there here other gave
    cases entry with
    | began c name' => cases gave
    | served c name' t =>
        obtain rfl := show name' = name from here
        cases gave
        exact Option.some.inj ((annals.served c other there).symm.trans loaded)
    | ended c name' fetched' answer =>
        obtain rfl := show name' = name from here
        cases answer with
        | error fault => cases gave
        | ok t =>
            cases gave
            exact Option.some.inj (((annals.loaded_iff other).mpr ⟨c, fetched', there⟩).symm.trans loaded)
  served := by
    intro caller name template mem
    have annals := ((settled_of_runs runs).consistent_self name).annals
    exact (annals.loaded_iff template).mp (annals.served caller template mem)
  isLoaded := by
    intro name
    have annals := ((settled_of_runs runs).consistent_self name).annals
    rw [Cache.isLoaded, Option.isSome_iff_exists, exists_congr annals.loaded_iff]
    exact ⟨fun ⟨t, c, fetched, mem⟩ => ⟨c, fetched, t, mem⟩, fun ⟨c, fetched, t, mem⟩ => ⟨t, c, fetched, mem⟩⟩
  ready := by
    intro name loaded
    obtain ⟨template, loaded⟩ := Option.isSome_iff_exists.mp loaded
    refine ⟨fun c waits => ?_, template, fun c => ?_⟩
    · have unloaded := (((settled_of_runs runs).consistent_self name).lineup.called c waits).1
      rw [loaded] at unloaded
      cases unloaded
    · unfold ask
      rw [Cache.ask_of_loaded loaded]
      exact ⟨rfl, Function.update_self ..⟩
  loads := (settled_of_runs runs).loads
  failed := by
    intro caller name fetched fault loads failure
    have shape : s.settle caller name fetched = ⟨(s.cache.fail name).2,
        summon (s.cache.fail name).1 (Function.update s.errand caller .idle),
        s.history ++ [.ended caller name fetched (.error fault)]⟩ := by
      unfold settle
      rw [failure]
    obtain ⟨unloaded, -, -, -, alone⟩ := ((settled_of_runs runs).consistent_self name).lineup.loading loads
    rw [shape]
    refine ⟨rfl, summon_eq_idle.mpr (Function.update_self ..), ?_, fun c also => ?_⟩
    · show (s.cache.loaded.get? name).isSome = false
      rw [unloaded]
      rfl
    · replace also := summon_eq_loading.mp also
      by_cases same : c = caller
      · subst same
        rw [Function.update_self] at also
        cases also
      · rw [Function.update_of_ne same] at also
        exact same (alone c also)
  retried := by
    intro name notLoaded nobody
    have lineup := ((settled_of_runs runs).consistent_self name).lineup
    have unloaded : s.cache.loaded.get? name = none := by simpa [Cache.isLoaded] using notLoaded
    refine ⟨fun first front => ⟨?_, ?_⟩, fun c _ empty => ?_, fun c here => ?_⟩
    · have about := ((lineup.mem first).mp (List.mem_of_mem_head? front)).2
      cases here : s.errand first with
      | idle =>
          rw [here] at about
          cases about
      | loading other =>
          rw [here] at about
          cases about
          exact absurd here (nobody first)
      | waiting other called =>
          rw [here] at about
          cases about
          cases called with
          | true => rfl
          | false => exact absurd front (lineup.called first here).2
    · obtain ⟨rest, line⟩ := List.head?_eq_some_iff.mp front
      unfold ask
      rw [Cache.ask_in_front unloaded line]
      exact Function.update_self ..
    · unfold ask
      rw [Cache.ask_of_nobody unloaded empty]
      exact Function.update_self ..
    · rcases here with idle | waits
      · exact runs.lets_coming unloaded nobody idle
      · exact runs.lets_waiting unloaded nobody waits
  apart := runs.only

namespace Sample

/-- Two callers of one name, whose first load fails, and one of another. -/
def visits : List Act :=
  [.get 0 "a", .get 1 "a", .get 2 "b", .settle 0 "a" (.error (.load "a" .notFound)), .retry 1 "a",
    .settle 1 "a" (.ok "<p>${x}</p>"), .get 0 "a"]

def desk : Desk := visits.foldl perform {}

theorem runs_desk : Runs visits desk := by
  have first : Runs [.get 0 "a", .get 1 "a", .get 2 "b"] _ :=
    .snoc (.get 2 "b") (.snoc (.get 1 "a") (.snoc (.get 0 "a") .start rfl) rfl) rfl
  have failed :
      Runs [.get 0 "a", .get 1 "a", .get 2 "b", .settle 0 "a" (.error (.load "a" .notFound)), .retry 1 "a"] _ :=
    .snoc (.retry 1 "a") (.snoc (.settle 0 "a" (.error (.load "a" .notFound))) first rfl) rfl
  exact .snoc (.get 0 "a") (.snoc (.settle 1 "a" (.ok "<p>${x}</p>")) failed rfl) (by show _ = _; decide +kernel)

end Sample

theorem runs_share_two : Sample.desk.cache.loads = 3 ∧ Sample.desk.cache.isLoaded "a" = true ∧
    Sample.desk.cache.isLoaded "b" = false ∧
    ∀ c template, .ended c "a" (.ok "<p>${x}</p>") (.ok template) ∈ Sample.desk.history →
      Template.compile "a" "<p>${x}</p>" = .ok template := by
  have shares := runs_share Sample.runs_desk
  refine ⟨shares.loads.trans (by decide +kernel), by decide +kernel, by decide +kernel, fun c template mem => ?_⟩
  obtain ⟨front, back, split⟩ := List.append_of_mem mem
  obtain ⟨markup, same, compiled⟩ := (shares.once _ _ _ _ _ _ split).1
  cases same
  exact compiled

end Desk

/-! ## A library serves its callers so -/

namespace Library

variable {library : Library} {s : Desk} {name : String} {caller : Nat}

/-- The end of a load. -/
theorem arrive_settles (same : library.cache = s.cache) :
    (library.arrive name).2.cache = (s.settle caller name (library.fetch name)).cache ∧
      (library.arrive name).1.1 = match compileFetched name (library.fetch name) with
        | .ok template => .ready template
        | .error fault => .refused fault := by
  unfold arrive Desk.settle
  rw [same]
  cases compileFetched name (library.fetch name) with
  | ok template => exact ⟨rfl, rfl⟩
  | error fault => exact ⟨rfl, rfl⟩

/-- A caller asks; a load that takes no time ends at once. -/
theorem ask_asks (same : library.cache = s.cache) : (library.ask caller name).2.cache =
    if (s.ask caller name).errand caller = .loading name ∧ library.latency = 0 then
      ((s.ask caller name).settle caller name (library.fetch name)).cache
    else (s.ask caller name).cache := by
  unfold ask Desk.ask
  rw [same]
  cases s.cache.ask caller name with
  | mk reply cache =>
      cases reply with
      | ready template => simp
      | wait => simp
      | load =>
          by_cases instant : library.latency = 0
          · simp only [instant, Function.update_self, and_self, if_true]
            exact (arrive_settles rfl).1
          · simp [instant]

end Library

end Inlay.Host
