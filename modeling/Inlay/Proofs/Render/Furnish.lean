/-
# Proofs.Render.Furnish — writing the slots of a new instance

A new instance is written slot by slot. `Bench` is the state in front of the
slots that are left, `Furnished` what was done once they are written: every
anchor made one move, of nodes that stood somewhere before or were made for it,
and every other slot made its facts hold. From what is kept here the same slots
can be written again (`Refinds`, `Told`).

In the strict case no node is in two of the lists the anchors reach. Then no two
moves of the instance share a node, and none tears an earlier one apart.
-/
import Inlay.Proofs.Render.Behind
import Inlay.Proofs.Render.Cells
import Inlay.Proofs.Render.Refind

namespace Inlay.Render

set_option autoImplicit false

open Inlay.Document

variable {d d' d₁ : Document} {claims : Claims} {level level' : Level} {n : Nat} {moves : List Move}
  {context : Value} {slots slots' : List Slot} {strict : Prop} {x : NodeId}

/-! ## Levels -/

/-- The level of the nodes of the last of `n` instances. -/
def storey (n : Nat) : ℕ∞ := (2 * n : Nat)

/-- The level of what is made for the anchors of the instance behind `n` others. -/
def mezzanine (n : Nat) : ℕ∞ := (2 * n + 1 : Nat)

theorem storey_lt (n : Nat) : storey n < mezzanine n := by
  rw [storey, mezzanine, Nat.cast_lt]
  omega

theorem mezzanine_lt (n : Nat) : mezzanine n < storey (n + 1) := by
  rw [storey, mezzanine, Nat.cast_lt]
  omega

theorem ne_storey_of_le {l : ℕ∞} (low : l ≤ mezzanine n) : l ≠ storey (n + 1) :=
  (low.trans_lt (mezzanine_lt n)).ne

/-! ## What is kept of a slot -/

/-- The move of an anchor. -/
def Slot.move? : Slot → Option Move
  | .anchor _ a => some ⟨.behind a.comment, a.current⟩
  | _ => none

/-- The moves of slots, in order. -/
def movesOf (slots : List Slot) : List Move := slots.filterMap Slot.move?

/-- The slot as it was before anything was written. -/
def Slot.unwritten : Slot → Slot
  | .anchor path a => .anchor path (.new a.comment)
  | slot => slot

/-- What the anchors among slots reach in a context. -/
def reach (context : Value) (slots : List Slot) : List (List NodeId) :=
  (anchorsOf slots).flatMap fun pair => listed (valueAt context pair.1)

/-- The facts of slots hold, but for what later ones among them overwrote. -/
def Told (d : Document) (context : Value) : List Slot → Prop
  | [] => True
  | slot :: rest =>
    (∀ f ∈ slot.facts context, f.Free (rest.flatMap Slot.cells) → f.Holds d) ∧ Told d context rest

/-- Every anchor among the slots finds what it shows in what it remembers. -/
def Refinds (context : Value) (slots : List Slot) : Prop :=
  ∀ path a, Slot.anchor path a ∈ slots → ∀ stage,
    Anchor.layOut (itemsOf (valueAt context path)) a.made stage = .ok ⟨a.current, a.made, []⟩ stage

theorem Told.mono (keeps : ∀ f : Fact, f.Holds d → f.Holds d') : ∀ {slots : List Slot},
    Told d context slots → Told d' context slots
  | [], _ => trivial
  | _ :: _, ⟨here, others⟩ => ⟨fun f mem free => keeps f (here f mem free), others.mono keeps⟩

theorem mem_movesOf {m : Move} : m ∈ movesOf slots ↔
    ∃ path a, Slot.anchor path a ∈ slots ∧ m = ⟨.behind a.comment, a.current⟩ := by
  rw [movesOf, List.mem_filterMap]
  constructor
  · rintro ⟨slot, mem, same⟩
    cases slot with
    | anchor path a => exact ⟨path, a, mem, (Option.some.inj same).symm⟩
    | _ => cases same
  · rintro ⟨path, a, mem, rfl⟩
    exact ⟨_, mem, rfl⟩

/-- What does not look at what anchors remember does not change. -/
theorem congr_unwritten {α : Sort*} {f : List Slot → α} (blind : ∀ list, f (list.map Slot.unwritten) = f list)
    (same : slots'.map Slot.unwritten = slots.map Slot.unwritten) : f slots' = f slots := by
  rw [← blind, same, blind]

/-- The cells of slots do not change. -/
theorem cells_unwritten (same : slots'.map Slot.unwritten = slots.map Slot.unwritten) :
    slots'.flatMap Slot.cells = slots.flatMap Slot.cells := by
  refine congr_unwritten (fun list => ?_) same
  rw [List.flatMap_map]
  refine List.flatMap_congr fun slot _ => ?_
  cases slot <;> rfl

theorem comments_unwritten (same : slots'.map Slot.unwritten = slots.map Slot.unwritten) :
    (anchorsOf slots').map (·.2.comment) = (anchorsOf slots).map (·.2.comment) := by
  refine congr_unwritten (f := fun list => (anchorsOf list).map (·.2.comment)) (fun list => ?_) same
  rw [anchorsOf, anchorsOf, List.filterMap_map, List.map_filterMap, List.map_filterMap]
  refine List.filterMap_congr fun slot _ => ?_
  cases slot <;> rfl

theorem places_movesOf (slots : List Slot) :
    (movesOf slots).map (·.position.place) = (anchorsOf slots).map (·.2.comment) := by
  rw [movesOf, anchorsOf, List.map_filterMap, List.map_filterMap]
  refine List.filterMap_congr fun slot _ => ?_
  cases slot <;> rfl

/-- A move is made by a comment of the slots. -/
theorem place_mem_comments {m : Move} (same : slots'.map Slot.unwritten = slots.map Slot.unwritten)
    (mem : m ∈ movesOf slots') : m.position.place ∈ (anchorsOf slots).map (·.2.comment) := by
  rw [← comments_unwritten same, ← places_movesOf]
  exact List.mem_map_of_mem mem

section Plain

variable {slot : Slot} (plain : ∀ path a, slot ≠ .anchor path a)

include plain

theorem movesOf_cons_plain (slots : List Slot) : movesOf (slot :: slots) = movesOf slots := by
  cases slot with
  | anchor path a => exact absurd rfl (plain path a)
  | _ => rfl

theorem anchorsOf_cons_plain (slots : List Slot) : anchorsOf (slot :: slots) = anchorsOf slots := by
  cases slot with
  | anchor path a => exact absurd rfl (plain path a)
  | _ => rfl

end Plain

theorem reach_subset (context : Value) (slots : List Slot) : reach context slots ⊆ leaves context := by
  intro list mem
  obtain ⟨pair, -, here⟩ := List.mem_flatMap.mp mem
  exact listed_valueAt context pair.1 here

/-! ## Before and after -/

/-- A list of nodes that may be shown by the instance behind `n` others. -/
structure Usable (d : Document) (level : Level) (moves : List Move) (n : Nat) (nodes : List NodeId) : Prop where
  attached : ∀ x ∈ nodes, Attached d x
  low : ∀ x ∈ nodes, level x ≤ storey n
  whole : ∀ m ∈ moves, m.Whole nodes

/-- The state in front of slots of a new instance. -/
structure Bench (strict : Prop) (d : Document) (level : Level) (n : Nat) (moves : List Move) (context : Value)
    (slots : List Slot) : Prop where
  poised : Poised strict d level moves
  usable : ∀ nodes ∈ leaves context, Usable d level moves n nodes
  blank : ∀ path a, Slot.anchor path a ∈ slots → a = .new a.comment ∧ Attached d a.comment ∧
    level a.comment = storey (n + 1) ∧ ∀ m ∈ moves, a.comment ∉ m.run
  comments : ((anchorsOf slots).map (·.2.comment)).Nodup
  apart : strict → (reach context slots).flatten.Nodup
  pieces : strict → ∀ m ∈ moves, ∀ nodes ∈ reach context slots, Unsplit m.run nodes

/-- What was done once the slots were written. -/
structure Furnished (strict : Prop) (d d' : Document) (level level' : Level) (n : Nat) (moves : List Move)
    (context : Value) (slots slots' : List Slot) : Prop where
  poised : Poised strict d' level' (moves ++ movesOf slots')
  kinds : ∀ x, d.contains x = true →
    (d'.content? x).map Content.isContainer = (d.content? x).map Content.isContainer
  levels : ∀ x, d.contains x = true → level' x = level x
  attached : ∀ x, Attached d x → Attached d' x
  keeps : ∀ f : Fact, f.Holds d → f.Free (slots.flatMap Slot.cells) → f.Holds d'
  told : Told d' context slots'
  refinds : Refinds context slots'
  form : slots'.map Slot.unwritten = slots.map Slot.unwritten
  high : ∀ m ∈ movesOf slots', level' m.position.place = storey (n + 1)
  low : ∀ m ∈ movesOf slots', ∀ x ∈ m.nodes, level' x ≤ mezzanine n
  origin : ∀ m ∈ movesOf slots', ∀ x ∈ m.nodes, x ∈ (reach context slots).flatten ∨ d.contains x = false
  whole : ∀ m ∈ moves ++ movesOf slots', ∀ m' ∈ movesOf slots', m.Whole m'.nodes
  pieces : strict → ∀ m ∈ moves, ∀ m' ∈ movesOf slots', Unsplit m.run m'.nodes
  nodup : strict → ∀ m ∈ movesOf slots', m.nodes.Nodup
  apart : strict → (movesOf slots').Pairwise fun m m' => ∀ x ∈ m.run, x ∉ m'.run

namespace Furnished

theorem nil (bench : Bench strict d level n moves context []) :
    Furnished strict d d level level n moves context [] [] where
  poised := by simpa [movesOf] using bench.poised
  kinds := fun _ _ => rfl
  levels := fun _ _ => rfl
  attached := fun _ attached => attached
  keeps := fun _ holds _ => holds
  told := trivial
  refinds := by simp [Refinds]
  form := rfl
  high := by simp [movesOf]
  low := by simp [movesOf]
  origin := by simp [movesOf]
  whole := by simp [movesOf]
  pieces := by simp [movesOf]
  nodup := by simp [movesOf]
  apart := by simp [movesOf]

/-- A slot that is no anchor in front. -/
theorem cons_plain {slot : Slot} (wrote : Wrote d d₁ (slot.facts context))
    (plain : ∀ path a, slot ≠ .anchor path a)
    (rest : Furnished strict d₁ d' level level' n moves context slots slots') :
    Furnished strict d d' level level' n moves context (slot :: slots) (slot :: slots') := by
  have noMove := movesOf_cons_plain plain slots'
  have live : ∀ x, d₁.contains x = d.contains x := wrote.kinds.contains
  obtain ⟨poised, kinds, levels, attached, keeps, told, refinds, form, high, low, origin, whole, pieces,
    nodup, apart⟩ := rest
  refine ⟨noMove ▸ poised, fun x alive => (kinds x ((live x).trans alive)).trans (wrote.kinds x),
    fun x alive => levels x ((live x).trans alive), fun x here => attached x ?_, fun f holds free => ?_,
    ⟨fun f mem free => ?_, told⟩, fun path a mem => ?_, by simp only [List.map_cons, form], noMove ▸ high,
    noMove ▸ low, ?_, noMove ▸ whole, noMove ▸ pieces, noMove ▸ nodup, noMove ▸ apart⟩
  · obtain ⟨p, mem⟩ := here
    exact ⟨p, by rwa [wrote.children]⟩
  · rw [List.flatMap_cons] at free
    refine keeps f (wrote.keeps f holds fun cell about mem => ?_) fun cell about mem =>
      free cell about (List.mem_append_right _ mem)
    rw [Slot.filterMap_cell?_facts] at mem
    exact free cell about (List.mem_append_left _ mem)
  · exact keeps f (wrote.tells f mem) (by rwa [← cells_unwritten form])
  · rcases List.mem_cons.mp mem with same | mem
    · exact absurd same.symm (plain path a)
    · exact refinds path a mem
  · intro m mem x here
    rw [reach, anchorsOf_cons_plain plain, ← live]
    exact origin m (noMove ▸ mem) x here

end Furnished

/-- The bench behind a slot that is no anchor. -/
theorem Bench.plain {slot : Slot} (bench : Bench strict d level n moves context (slot :: slots))
    (wrote : Wrote d d₁ (slot.facts context)) (plain : ∀ path a, slot ≠ .anchor path a) :
    Bench strict d₁ level n moves context slots := by
  have same := wrote.children
  have attached : ∀ {y}, Attached d y → Attached d₁ y := fun ⟨p, mem⟩ => ⟨p, by rwa [same]⟩
  have anchors := anchorsOf_cons_plain plain slots
  obtain ⟨poised, usable, blank, comments, apart, pieces⟩ := bench
  rw [anchors] at comments
  simp only [reach, anchors] at apart pieces
  refine ⟨poised.congr wrote.wellFormed same, fun nodes mem => ?_, fun path a mem => ?_, comments, apart, pieces⟩
  · obtain ⟨held, low, whole⟩ := usable nodes mem
    exact ⟨fun x here => attached (held x here), low, whole⟩
  · obtain ⟨new, held, high, fresh⟩ := blank path a (List.mem_cons_of_mem _ mem)
    exact ⟨new, attached held, high, fresh⟩

/-! ## One anchor -/

section Anchor

variable {path : Path} {comment : NodeId} {fresh nodes : List NodeId}

/-- What is new for an anchor, and how it fits what is on the bench. -/
structure Fitting (strict : Prop) (d d₁ : Document) (level : Level) (n : Nat) (moves : List Move)
    (comment : NodeId) (fresh nodes : List NodeId) : Prop where
  poised : Poised strict d₁ (level.raise fresh (mezzanine n)) moves
  ready : Poised.Next strict d₁ (level.raise fresh (mezzanine n)) moves comment nodes
  low : ∀ x ∈ nodes, level.raise fresh (mezzanine n) x ≤ mezzanine n
  same : ∀ x, d.contains x = true → level.raise fresh (mezzanine n) x = level x

theorem Bench.fitting (bench : Bench strict d level n moves context (.anchor path (.new comment) :: slots))
    (shows : Shows d d₁ (listed (valueAt context path)) fresh nodes) :
    Fitting strict d d₁ level n moves comment fresh nodes := by
  have wf := bench.poised.wellFormed
  have spawned := shows.spawned
  obtain ⟨-, attached, high, absent⟩ := bench.blank path (.new comment) List.mem_cons_self
  have same : ∀ x, d.contains x = true → level.raise fresh (mezzanine n) x = level x := fun x live =>
    if_neg (spawned.old live)
  have usable : ∀ list ∈ listed (valueAt context path), Usable d level moves n list := fun list mem =>
    bench.usable list (listed_valueAt context path mem)
  have held : ∀ x ∈ (listed (valueAt context path)).flatten, Attached d x ∧ level x ≤ storey n := by
    intro x mem
    obtain ⟨list, there, here⟩ := List.mem_flatten.mp mem
    exact ⟨(usable list there).attached x here, (usable list there).low x here⟩
  have old : ∀ m ∈ moves, ∀ x ∈ m.run, x ∉ fresh := fun m mem x here =>
    spawned.old ((bench.poised.attached_run mem here).contains wf)
  have low : ∀ x ∈ nodes, level.raise fresh (mezzanine n) x ≤ mezzanine n := by
    intro x mem
    rcases shows.origin mem with old | new
    · obtain ⟨attached, low⟩ := held x old
      rw [same x (attached.contains wf)]
      exact low.trans (storey_lt n).le
    · rw [Level.raise, if_pos new]
  refine ⟨bench.poised.spawn spawned (mezzanine n), ⟨spawned.attached wf attached, fun x mem => ?_, fun x mem => ?_,
    fun m mem => ?_, fun all => ?_, fun all m mem => ⟨absent m mem, ?_⟩⟩, low, same⟩
  · rcases shows.origin mem with old | new
    · exact (spawned.attached wf (held x old).1).portable spawned.wellFormed
    · exact shows.portable x new
  · rw [same comment (attached.contains wf), show level comment = _ from high]
    exact (low x mem).trans_lt (mezzanine_lt n)
  · refine shows.whole (fun part there => (usable part there).whole m mem) fun c cursor => old m mem c ?_
    exact List.mem_append_left _ (Option.mem_toList.mpr cursor)
  · refine shows.nodup ?_ fun x mem => (held x mem).1.contains wf
    exact (bench.apart all).sublist (List.Sublist.flatten (List.sublist_append_left _ _))
  · exact shows.unsplit (fun part there => bench.pieces all m mem part (List.mem_append_left _ there)) (old m mem)

/-- The anchor in front has made its move. -/
structure Moved (strict : Prop) (d d₁ d₂ : Document) (level : Level) (n : Nat) (moves : List Move) (context : Value)
    (path : Path) (comment : NodeId) (slots : List Slot) (fresh nodes : List NodeId) : Prop where
  bench : Bench strict d level n moves context (.anchor path (.new comment) :: slots)
  shows : Shows d d₁ (listed (valueAt context path)) fresh nodes
  content : d₂.content? = d₁.content?
  poised : Poised strict d₂ (level.raise fresh (mezzanine n)) (moves ++ [⟨.behind comment, nodes⟩])
  attached : ∀ x, Attached d x → Attached d₂ x

namespace Moved

variable {d₂ : Document} {m : Move} {list : List NodeId}
  (moved : Moved strict d d₁ d₂ level n moves context path comment slots fresh nodes)

include moved

theorem held : Attached d comment ∧ level comment = storey (n + 1) := by
  obtain ⟨-, attached, high, -⟩ := moved.bench.blank path (.new comment) List.mem_cons_self
  exact ⟨attached, high⟩

theorem alive (live : d.contains x = true) : d₂.contains x = true :=
  (contains_congr moved.content x).trans (moved.shows.spawned.alive live)

/-- No node of an earlier turn is as high as the comment. -/
theorem comment_not_mem (mem : list ∈ leaves context) : comment ∉ list := fun here =>
  ne_storey_of_le (((moved.bench.usable list mem).low comment here).trans (storey_lt n).le) moved.held.2

/-- A list that is reached later shares no node with the move. -/
theorem away (all : strict) (mem : list ∈ reach context slots) : ∀ x ∈ comment :: nodes, x ∉ list := by
  have inside := reach_subset context slots mem
  intro x here there
  rcases List.mem_cons.mp here with rfl | here
  · exact moved.comment_not_mem inside there
  rcases moved.shows.origin here with old | new
  · have apart : (listed (valueAt context path) ++ reach context slots).flatten.Nodup := moved.bench.apart all
    rw [List.flatten_append] at apart
    exact (List.nodup_append.mp apart).2.2 x old x (List.mem_flatten.mpr ⟨list, mem, there⟩) rfl
  · have live := ((moved.bench.usable list inside).attached x there).contains moved.bench.poised.wellFormed
    exact moved.shows.spawned.old live new

/-- The bench behind the anchor. -/
theorem behind : Bench strict d₂ (level.raise fresh (mezzanine n)) n (moves ++ [⟨.behind comment, nodes⟩]) context
    slots := by
  have bench := moved.bench
  have wf := bench.poised.wellFormed
  have fitting := bench.fitting moved.shows
  obtain ⟨fresh_comment, comments⟩ := List.nodup_cons.mp bench.comments
  refine ⟨moved.poised, fun list mem => ?_, fun path' a mem => ?_, comments, fun all => ?_,
    fun all m mem list there => ?_⟩
  · obtain ⟨held, low, whole⟩ := bench.usable list mem
    refine ⟨fun x here => moved.attached x (held x here), fun x here => ?_, List.forall_mem_append.mpr ⟨whole, ?_⟩⟩
    · rw [fitting.same x ((held x here).contains wf)]
      exact low x here
    · rw [List.forall_mem_singleton]
      intro c cursor here
      cases cursor
      exact absurd here (moved.comment_not_mem mem)
  · obtain ⟨new, held, high, absent⟩ := bench.blank path' a (List.mem_cons_of_mem _ mem)
    have same := fitting.same _ (held.contains wf)
    refine ⟨new, moved.attached _ held, same.trans high, List.forall_mem_append.mpr ⟨absent, ?_⟩⟩
    rw [List.forall_mem_singleton]
    intro here
    rcases List.mem_cons.mp here with same' | here
    · exact fresh_comment (List.mem_map.mpr ⟨(path', a), mem_anchorsOf.mpr mem, same'⟩)
    · exact ne_storey_of_le (fitting.low _ here) (same.trans high)
  · exact (bench.apart all).sublist (List.Sublist.flatten (List.sublist_append_right _ _))
  · rcases List.mem_append.mp mem with old | new
    · exact bench.pieces all m old list (List.mem_append_right _ there)
    · rw [List.mem_singleton.mp new]
      exact .inr (moved.away all there)

section Rest

variable (rest : Furnished strict d₂ d' (level.raise fresh (mezzanine n)) level' n
  (moves ++ [⟨.behind comment, nodes⟩]) context slots slots')

include rest

theorem level_eq (live : d.contains x = true) : level' x = level x := by
  rw [rest.levels x (moved.alive live), (moved.bench.fitting moved.shows).same x live]

theorem level_comment : level' comment = storey (n + 1) :=
  (moved.level_eq rest (moved.held.1.contains moved.bench.poised.wellFormed)).trans moved.held.2

theorem level_le (mem : x ∈ nodes) : level' x ≤ mezzanine n := by
  have attached := moved.poised.attached ⟨.behind comment, nodes⟩ (List.mem_append_right _ List.mem_cons_self) x mem
  rw [rest.levels x (attached.contains moved.poised.wellFormed)]
  exact (moved.bench.fitting moved.shows).low x mem

/-- No comment was moved by the anchor in front. -/
theorem place_not_mem (mem : m ∈ movesOf slots') : m.position.place ∉ comment :: nodes := by
  intro here
  rcases List.mem_cons.mp here with same | here
  · have comments := place_mem_comments rest.form mem
    rw [same] at comments
    exact (List.nodup_cons.mp moved.bench.comments).1 comments
  · exact ne_storey_of_le (moved.level_le rest here) (rest.high m mem)

/-- A later move and the one in front share no node. -/
theorem apart (all : strict) (mem : m ∈ movesOf slots') : ∀ x ∈ comment :: nodes, x ∉ m.run := by
  intro x here there
  obtain ⟨path', a, inside, rfl⟩ := mem_movesOf.mp mem
  rcases List.mem_cons.mp there with rfl | there
  · exact moved.place_not_mem rest mem here
  · rcases rest.origin _ mem x there with old | new
    · obtain ⟨list, reached, inside⟩ := List.mem_flatten.mp old
      exact moved.away all reached x here inside
    · have attached := moved.poised.attached_run (m := ⟨.behind comment, nodes⟩)
        (List.mem_append_right _ List.mem_cons_self) here
      rw [attached.contains moved.poised.wellFormed] at new
      cases new

/-- The nodes of the move in front hold no comment of these slots. -/
theorem whole (mem : m ∈ ⟨.behind comment, nodes⟩ :: movesOf slots') : m.Whole nodes := by
  intro c cursor here
  rcases List.mem_cons.mp mem with rfl | mem
  · cases cursor
    exact absurd (moved.level_comment rest) (ne_storey_of_le (moved.level_le rest here))
  · rw [← Position.place_of_cursor cursor] at here
    exact absurd (List.mem_cons_of_mem _ here) (moved.place_not_mem rest mem)

/-- What a move of these slots took was reached by them, or is new. -/
theorem origin (mem : m ∈ ⟨.behind comment, nodes⟩ :: movesOf slots') (here : x ∈ m.nodes) :
    x ∈ (listed (valueAt context path) ++ reach context slots).flatten ∨ d.contains x = false := by
  rw [List.flatten_append, List.mem_append]
  rcases List.mem_cons.mp mem with rfl | mem
  · exact (moved.shows.origin here).imp .inl (moved.shows.spawned.dead x)
  · refine (rest.origin m mem x here).imp .inr fun dead => ?_
    by_contra live
    rw [moved.alive (by simpa using live)] at dead
    cases dead

end Rest

end Moved

/-- An anchor in front. -/
theorem Furnished.cons_anchor {d₂ : Document} {made : List Made}
    (moved : Moved strict d d₁ d₂ level n moves context path comment slots fresh nodes)
    (refind : ∀ stage, Anchor.layOut (itemsOf (valueAt context path)) made stage = .ok ⟨nodes, made, []⟩ stage)
    (rest : Furnished strict d₂ d' (level.raise fresh (mezzanine n)) level' n
      (moves ++ [⟨.behind comment, nodes⟩]) context slots slots') :
    Furnished strict d d' level level' n moves context (.anchor path (.new comment) :: slots)
      (.anchor path ⟨comment, nodes, made⟩ :: slots') := by
  have spawned := moved.shows.spawned
  have ready := (moved.bench.fitting moved.shows).ready
  have split : movesOf (.anchor path ⟨comment, nodes, made⟩ :: slots') =
      ⟨.behind comment, nodes⟩ :: movesOf slots' := rfl
  have all_moves : moves ++ ⟨.behind comment, nodes⟩ :: movesOf slots' =
      (moves ++ [⟨.behind comment, nodes⟩]) ++ movesOf slots' := by
    rw [List.append_assoc, List.singleton_append]
  refine
    { poised := split ▸ all_moves ▸ rest.poised
      kinds := fun x live => ?_
      levels := fun x live => moved.level_eq rest live
      attached := fun x here => rest.attached x (moved.attached x here)
      keeps := fun f holds free =>
        rest.keeps f ((spawned.holds holds).congr (congrFun moved.content _)) free
      told := ⟨by simp [Slot.facts], rest.told⟩
      refinds := fun path' a mem => ?_
      form := ?_
      high := List.forall_mem_cons.mpr ⟨moved.level_comment rest, rest.high⟩
      low := List.forall_mem_cons.mpr ⟨fun x here => moved.level_le rest here, rest.low⟩
      origin := fun m mem x here => moved.origin rest mem here
      whole := fun m mem => ?_
      pieces := fun all m mem => List.forall_mem_cons.mpr
        ⟨(ready.pieces all m mem).2, rest.pieces all m (List.mem_append_left _ mem)⟩
      nodup := fun all => List.forall_mem_cons.mpr ⟨ready.nodup all, rest.nodup all⟩
      apart := fun all => List.pairwise_cons.mpr ⟨fun m mem => moved.apart rest all mem, rest.apart all⟩ }
  · rw [rest.kinds x (moved.alive live), moved.content, spawned.content x (spawned.old live)]
  · rcases List.mem_cons.mp mem with same | mem
    · cases same
      exact refind
    · exact rest.refinds path' a mem
  · rw [List.map_cons, List.map_cons, rest.form]
    rfl
  · rw [split] at mem ⊢
    refine List.forall_mem_cons.mpr ⟨?_, rest.whole m (all_moves ▸ mem)⟩
    rcases List.mem_append.mp mem with old | new
    · exact ready.whole m old
    · exact moved.whole rest new

end Anchor

/-- Slots of a new instance that are written without a fault. -/
theorem furnish : ∀ {slots slots' : List Slot} {d : Document} {level : Level} {moves : List Move} {claims : Claims}
    {stage : Stage}, Bench strict d level n moves context slots →
      Slot.writeAll context slots ⟨d, claims⟩ = ((none, slots'), stage) →
      ∃ level', Furnished strict d stage.document level level' n moves context slots slots'
  | [], slots', d, level, moves, claims, stage, bench, done => by
      cases done
      exact ⟨level, .nil bench⟩
  | slot :: rest, slots', d, level, moves, claims, stage, bench, done => by
      rw [Slot.writeAll] at done
      cases wrote : slot.write context ⟨d, claims⟩ with
      | error fault stage' => rw [wrote] at done; cases done
      | ok slot' stage₁ =>
          obtain ⟨d₁, claims₁⟩ := stage₁
          rw [wrote] at done
          cases others : Slot.writeAll context rest ⟨d₁, claims₁⟩ with
          | mk result stage' =>
              obtain ⟨fault, rest'⟩ := result
              simp only [others, Prod.mk.injEq] at done
              obtain ⟨⟨rfl, rfl⟩, rfl⟩ := done
              by_cases plain : ∀ path a, slot ≠ .anchor path a
              · obtain ⟨rfl, rfl, facts⟩ := Slot.wrote_of_write bench.poised.wellFormed plain wrote
                obtain ⟨level', furnished⟩ := furnish (bench.plain facts plain) others
                exact ⟨level', .cons_plain facts plain furnished⟩
              · simp only [not_forall, not_not] at plain
                obtain ⟨path, a, rfl⟩ := plain
                obtain ⟨comment, rfl⟩ : ∃ comment, a = .new comment :=
                  ⟨_, (bench.blank path a List.mem_cons_self).1⟩
                obtain ⟨d₂, nodes, made, fresh, laid, shows⟩ :=
                  layOut_parts bench.poised.wellFormed claims (valueAt context path)
                have fitting := bench.fitting shows
                obtain ⟨d₃, claims₃, done, content, poised, kept⟩ := fitting.poised.move fitting.ready claims
                have updated : Slot.write context (.anchor path (.new comment)) ⟨d, claims⟩ =
                    .ok (.anchor path ⟨comment, nodes, made⟩) ⟨d₃, claims₃⟩ := by
                  refine bind_ok ?_
                  exact (bind_ok laid).trans (bind_ok done)
                rw [updated] at wrote
                cases wrote
                have moved : Moved strict d d₂ d₁ level n moves context path comment rest fresh nodes :=
                  ⟨bench, shows, content, poised, fun x here =>
                    kept x (shows.spawned.attached bench.poised.wellFormed here)⟩
                obtain ⟨level', furnished⟩ := furnish moved.behind others
                exact ⟨level', .cons_anchor moved (Anchor.layOut_again _ laid) furnished⟩

end Inlay.Render
