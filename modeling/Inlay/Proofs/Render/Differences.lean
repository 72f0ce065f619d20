/-
# Proofs.Render.Differences — an update tells of what differs

The top-level nodes of an instance need not stand together. As long as each of them is
followed by what the instance shows behind it, wherever that is (`Strewn`), a context
without templates can be written tree by tree: what one tree becomes is nowhere near the
others (`Strewn.replace`). So an instance that nobody else works on (`Lasting`) holds the
context that was written last, and another one tells only of the slots for which the two
contexts differ (`update_tells_differences`).
-/
import Inlay.Proofs.Document.Refused
import Inlay.Proofs.Render.Lifetime
import Inlay.Proofs.Render.Sparing

namespace Inlay.Render

set_option autoImplicit false

open Relation Inlay.Document Inlay.Document.Planted Inlay.Markup
open Inlay.Template hiding root

variable {base d d' : Document} {claims claims' : Claims} {q x : NodeId} {front back : List NodeId}
  {seat : NodeId → NodeId} {g : Dressing} {gs hs pre post : List Dressing} {rs : List Planted} {inst inst' : Instance}

/-! ## Trees that stand apart -/

/-- A piece of a list that another one takes no part in is still there when that is replaced. -/
theorem infix_of_replaced {α : Type} {front run run' back other : List α} (some : run ≠ [])
    (apart : ∀ x ∈ other, x ∉ run) (inside : other <:+: front ++ run ++ back) : other <:+: front ++ run' ++ back := by
  obtain ⟨early, late, same⟩ := inside
  obtain ⟨r, rest, rfl⟩ := List.exists_cons_of_ne_nil some
  rw [List.append_assoc, List.append_assoc, List.append_eq_append_iff] at same
  rcases same with ⟨between, rfl, same⟩ | ⟨between, rfl, same⟩
  · -- the piece begins in front of the run, and ends there
    rw [List.append_eq_append_iff] at same
    rcases same with ⟨more, rfl, -⟩ | ⟨more, rfl, same⟩
    · exact ⟨early, more ++ run' ++ back, by simp⟩
    · cases more with
      | nil => exact ⟨early, run' ++ back, by simp⟩
      | cons first more =>
          obtain ⟨rfl, -⟩ := List.cons.inj same
          exact absurd List.mem_cons_self (apart r (by simp))
  · -- it begins behind the beginning of the run, so behind its end
    rw [List.append_eq_append_iff] at same
    rcases same with ⟨more, rfl, rfl⟩ | ⟨more, within, same⟩
    · exact ⟨front ++ run' ++ more, late, by simp⟩
    · cases other with
      | nil => exact List.nil_infix
      | cons first other =>
          cases more with
          | nil => exact ⟨front ++ run', late, by rw [← List.nil_append back, ← same, List.append_assoc]⟩
          | cons second more =>
              obtain ⟨rfl, -⟩ := List.cons.inj same
              exact absurd (by simp [within]) (apart first List.mem_cons_self)

theorem idsAll_sublist {ps ps' : List Planted} (sub : ps.Sublist ps') : (idsAll ps).Sublist (idsAll ps') := by
  induction sub with
  | slnil => exact .slnil
  | cons p _ ih => exact ih.trans (List.sublist_append_right p.ids _)
  | cons_cons p _ ih => exact ih.append_left p.ids

namespace Dressing

theorem plantsAll_single (g : Dressing) : plantsAll [g] = g.plants := List.append_nil _

theorem plantsAll_sublist (sub : hs.Sublist gs) : (plantsAll hs).Sublist (plantsAll gs) := by
  induction sub with
  | slnil => exact .slnil
  | cons g _ ih => exact ih.trans (List.sublist_append_right g.plants _)
  | cons_cons g _ ih => exact ih.append_left g.plants

theorem fitsAll_of_sublist {parent : Option String} (sub : hs.Sublist gs) (fits : FitsAll parent gs) :
    FitsAll parent hs := by
  induction sub with
  | slnil => trivial
  | cons _ _ ih => exact ih fits.2
  | cons_cons _ _ ih => exact ⟨fits.1, ih fits.2⟩

/-- A tree with what is behind it is a piece of the row of all. -/
theorem infix_of_mem (mem : g ∈ gs) : g.plants.map Planted.root <:+: (plantsAll gs).map Planted.root := by
  obtain ⟨pre, post, rfl⟩ := List.append_of_mem mem
  rw [plantsAll_append, plantsAll, List.map_append, List.map_append, ← List.append_assoc]
  exact List.infix_append _ _ _

end Dressing

open Dressing in
/-- Dressings stand in a document: each with what is behind it in one piece, among the children of its seat. -/
structure Strewn (seat : NodeId → NodeId) (d : Document) (gs : List Dressing) : Prop where
  wellFormed : WellFormed d
  stand : StandAll d (plantsAll gs)
  nodup : (idsAll (plantsAll gs)).Nodup
  fits : FitsAll none gs
  seated : ∀ g ∈ gs, g.plants.map Planted.root <:+: d.children (seat g.root)

namespace Strewn

open Dressing

theorem sub (strewn : Strewn seat d gs) (sub : hs.Sublist gs) : Strewn seat d hs where
  wellFormed := strewn.wellFormed
  stand := standAll_iff.mpr fun p mem => standAll_iff.mp strewn.stand p ((plantsAll_sublist sub).subset mem)
  nodup := strewn.nodup.sublist (idsAll_sublist (plantsAll_sublist sub))
  fits := fitsAll_of_sublist sub strewn.fits
  seated := fun g mem => strewn.seated g (sub.subset mem)

theorem root_mem (strewn : Strewn seat d gs) (mem : g ∈ gs) : g.root ∈ d.children (seat g.root) := by
  refine (strewn.seated g mem).subset ?_
  rw [map_root_plants]
  exact List.mem_cons_self

/-- The node that a tree is put into is of none of the trees. -/
theorem outside (strewn : Strewn seat d gs) (mem : g ∈ gs) : seat g.root ∉ idsAll (plantsAll gs) := by
  have root : g.root ∈ (plantsAll gs).map Planted.root := by
    refine (infix_of_mem mem).subset ?_
    rw [map_root_plants]
    exact List.mem_cons_self
  exact fun inside => not_child_of_root strewn.wellFormed strewn.stand strewn.nodup root inside (strewn.root_mem mem)

theorem origin (strewn : Strewn seat d gs) (mem : g ∈ gs) : Origin d (seat g.root) [g] := by
  have own := strewn.sub (List.singleton_sublist.mpr mem)
  refine ⟨own.wellFormed, own.stand, fun x here => (own.seated g List.mem_cons_self).subset ?_⟩
  rwa [plantsAll_single] at here

section Split

variable (strewn : Strewn seat d (pre ++ g :: post))
include strewn

theorem place (unclaimed : ∀ x ∈ idsAll (plantsAll [g]), x ∉ claims) :
    ∃ front back, InPlace d claims (seat g.root) front back none [g] := by
  have mem : g ∈ pre ++ g :: post := by simp
  obtain ⟨front, back, kids⟩ := strewn.seated g mem
  rw [← plantsAll_single] at kids
  have own : Strewn seat d [g] := strewn.sub (List.singleton_sublist.mpr mem)
  exact ⟨front, back, strewn.wellFormed, strewn.wellFormed.contains_parent (strewn.root_mem mem), kids.symm, own.stand,
    apart_of_kids strewn.wellFormed kids.symm own.stand, own.fits, nofun, unclaimed⟩

/-- The other trees are apart from one and from where that stands. -/
theorem apart : ∀ x ∈ idsAll (plantsAll (pre ++ post)), x ∉ seat g.root :: idsAll (plantsAll [g]) := by
  have outside := strewn.outside (g := g) (by simp)
  have nodup := strewn.nodup
  simp only [plantsAll_append, plantsAll, idsAll_append, List.nodup_append, List.mem_append, List.append_nil,
    List.mem_cons, not_or] at outside nodup ⊢
  obtain ⟨-, ⟨-, -, behind⟩, front⟩ := nodup
  intro x mem
  rcases mem with early | late
  · exact ⟨fun same => outside.1 (same ▸ early), fun here => front x early x (.inl here) rfl⟩
  · exact ⟨fun same => outside.2.2 (same ▸ late), fun here => behind x here x late rfl⟩

section Redressed

variable {w : ValueOf Empty} {h : Dressing} (place : InPlace d claims (seat g.root) front back none [g])
  (redressed : Redressed d d' claims claims' (seat g.root) front back none w [g] hs)
include redressed

omit strewn in
/-- What one of the trees became stands where that stood. -/
theorem seated_new (mem : h ∈ hs) : h.plants.map Planted.root <:+: d'.children (seat h.root) := by
  have roots := congrArg (List.map Planted.root) redressed.basis
  rw [map_root_basisAll, map_root_basisAll, List.map_singleton] at roots
  have root : h.root = g.root := List.mem_singleton.mp (roots ▸ List.mem_map_of_mem mem)
  rw [root, redressed.kids]
  exact (infix_of_mem mem).trans (List.infix_append _ _ _)

include place

/-- The other trees stand where they stood. -/
theorem seated_other (mem : h ∈ pre ++ post) : h.plants.map Planted.root <:+: d'.children (seat h.root) := by
  have here : h ∈ pre ++ g :: post := by
    simp only [List.mem_append, List.mem_cons] at mem ⊢
    tauto
  have seated := strewn.seated h here
  by_cases same : seat h.root = seat g.root
  · rw [same] at seated ⊢
    rw [redressed.kids]
    have some : (plantsAll [g]).map Planted.root ≠ [] := by simp [plantsAll_single, map_root_plants]
    refine infix_of_replaced some (fun x inside own => ?_) (place.kids ▸ seated)
    have other := (map_root_sublist _).subset ((infix_of_mem mem).subset inside)
    exact strewn.apart x other (List.mem_cons_of_mem _ ((map_root_sublist _).subset own))
  · rw [redressed.spares.children _ (strewn.wellFormed.contains_parent (strewn.root_mem here)) fun touched => ?_]
    · exact seated
    · rcases List.mem_cons.mp touched with again | inside
      · exact same again
      · refine strewn.outside here ?_
        exact (idsAll_sublist (plantsAll_sublist (List.singleton_sublist.mpr (by simp)))).subset inside

/-- One of the trees is dressed anew. -/
theorem replace : Strewn seat d' (pre ++ hs ++ post) := by
  have apart := strewn.apart
  have others : Strewn seat d (pre ++ post) := strewn.sub (by simp)
  have wf := redressed.spares.wellFormed
  have held : Held d (seat g.root) none := nofun
  constructor
  case wellFormed => exact wf
  case stand =>
    have still := redressed.spares.stand others.stand
      (fun x mem written => apart x mem (Redressed.written_subset held written)) apart
    rw [plantsAll_append, standAll_append] at still
    rw [plantsAll_append, plantsAll_append]
    exact standAll_append.mpr ⟨standAll_append.mpr ⟨still.1, redressed.stand⟩, still.2⟩
  case nodup =>
    have perm : (idsAll (plantsAll (pre ++ hs ++ post))).Perm
        (idsAll (plantsAll hs) ++ idsAll (plantsAll (pre ++ post))) := by
      simp only [plantsAll_append, idsAll_append, ← List.append_assoc]
      exact List.perm_append_comm.append_right _
    have own := (List.nodup_cons.mp (apart_of_kids wf redressed.kids redressed.stand)).2
    refine perm.nodup_iff.mpr (List.nodup_append.mpr ⟨own, others.nodup, ?_⟩)
    rintro x here y there rfl
    rcases redressed.origin x here with before | dead
    · exact apart x there (List.mem_cons_of_mem _ before)
    · rw [others.stand.contains x there] at dead
      cases dead
  case fits =>
    have early := fitsAll_of_sublist (List.sublist_append_left pre post) others.fits
    exact fitsAll_append (fitsAll_append early redressed.fits)
      (fitsAll_of_sublist (List.sublist_append_right pre post) others.fits)
  case seated =>
    intro h mem
    by_cases new : h ∈ hs
    · exact seated_new redressed new
    · refine strewn.seated_other place redressed ?_
      simp only [List.mem_append] at mem ⊢
      tauto

end Redressed

end Split

/-- Tree by tree a context is written, and told only of what did not hold it. -/
theorem write (w : ValueOf Empty) : ∀ (todo : List Dressing) {done : List Dressing} {d : Document} {claims : Claims},
    Strewn seat d (done ++ todo) → Strewn seat base todo → (∀ x ∈ idsAll (plantsAll todo), x ∉ claims) →
    (Dressing.slotsAll none todo).Pairwise (Clear True) →
    ∃ d' claims' hs, Slot.writeAll w.plain (Dressing.slotsAll none todo) ⟨d, claims⟩ =
        ((none, Dressing.slotsAll none hs), ⟨d', claims'⟩) ∧ basisAll hs = basisAll todo ∧ Strewn seat d' (done ++ hs) ∧
      Rewritten base w.plain d d' (Dressing.slotsAll none todo) (Dressing.slotsAll none hs)
        (idsAll (plantsOf (entriesInAll todo)))
  | [], done, d, claims, strewn, _, _, _ => ⟨d, claims, [], rfl, rfl, strewn, .nil base w.plain d⟩
  | g :: rest, done, d, claims, strewn, start, unclaimed, clear => by
      have ids := idsAll_plantsAll_cons g rest
      rw [ids] at unclaimed
      obtain ⟨here, others⟩ := List.forall_mem_append.mp unclaimed
      obtain ⟨front, back, place⟩ := strewn.place here
      have held : Held d (seat g.root) none := nofun
      obtain ⟨d₁, claims₁, hs, wrote, first⟩ := redress_tree w g place held
      have outside : ∀ tag holder, (none : Option (String × NodeId)) = some (tag, holder) →
          holder ∉ idsAll (plantsAll (g :: rest)) := nofun
      obtain ⟨leaves, leaves'⟩ := leaves_of_siblings start.nodup outside clear
      obtain ⟨clear, clear', -⟩ := List.pairwise_append.mp clear
      have rewritten := rewritten_tree w g place held (start.origin List.mem_cons_self) clear wrote
      have strewn₁ := strewn.replace place first
      have unclaimed₁ : ∀ x ∈ idsAll (plantsAll rest), x ∉ claims₁ := by
        intro x mem there
        rcases first.claimed x there with old | new
        · exact others x mem old
        · have nodup := (strewn₁.sub ((List.sublist_append_right done hs).append_right rest)).nodup
          rw [plantsAll_append, idsAll_append] at nodup
          exact (List.nodup_append.mp nodup).2.2 x new x mem rfl
      obtain ⟨d', claims', hs', done', basis, strewn', rewritten'⟩ :=
        write w rest strewn₁ (start.sub (List.sublist_cons_self g rest)) unclaimed₁ clear'
      refine ⟨d', claims', hs ++ hs', ?_, ?_, ?_, ?_⟩
      · rw [Dressing.slotsAll, writeAll_append wrote, done', slotsAll_append]
      · rw [basisAll_append, first.basis, basis]
        rfl
      · rwa [List.append_assoc] at strewn'
      · rw [entriesInAll, plantsOf_append, idsAll_append, slotsAll_append]
        exact rewritten.append rewritten' leaves leaves'

end Strewn

/-! ## Instances that nobody else works on -/

/-- Others worked on a document and left the nodes of an instance alone; where they put one of its top-level
nodes, what is behind it came along. -/
structure Untouched (inst : Instance) (d d' : Document) : Prop where
  wellFormed : WellFormed d'
  content : ∀ x, inst.Owns d x → d'.content? x = d.content? x
  children : ∀ x, inst.Owns d x → d'.children x = d.children x
  placed : ∀ y ∈ inst.tops, ∃ q, y :: inst.behind y <:+: d'.children q

/-- An instance of a prototype in a document: contexts without templates were written to it, each with new
claims, and others left it alone. -/
inductive Lasting (prototype : Prototype) : Instance → Document → Prop
  | made {inst : Instance} {d d' : Document} {claims claims' : Claims} : WellFormed d →
      Instance.ofPrototype prototype ⟨d, claims⟩ = .ok inst ⟨d', claims'⟩ → Lasting prototype inst d'
  | updated {inst inst' : Instance} {d d' : Document} {claims : Claims} {fault : Option Fault}
      (context : ValueOf Empty) : Lasting prototype inst d →
      inst.update context.plain ⟨d, []⟩ = ((fault, inst'), ⟨d', claims⟩) → Lasting prototype inst' d'
  | elsewhere {inst : Instance} {d d' : Document} : Lasting prototype inst d → Untouched inst d d' →
      Lasting prototype inst d'

/-- The instance is a dressing of its prototype, and the trees of that stand. -/
structure Lodged (rs : List Planted) (inst : Instance) (d : Document) (gs : List Dressing) (seat : NodeId → NodeId) :
    Prop where
  outfit : Outfit rs inst gs
  strewn : Strewn seat d gs

namespace Lodged

variable (lodged : Lodged rs inst d gs seat)
include lodged

theorem owns_iff : inst.Owns d x ↔ x ∈ idsAll (Dressing.plantsAll gs) :=
  lodged.outfit.owns_iff lodged.strewn.nodup lodged.strewn.wellFormed lodged.strewn.stand

/-- Others leave it standing, wherever they put its trees. -/
theorem untouched (untouched : Untouched inst d d') : ∃ seat', Lodged rs inst d' gs seat' := by
  have : Nonempty NodeId := ⟨d.body⟩
  choose! seat' placed using untouched.placed
  refine ⟨seat', lodged.outfit, untouched.wellFormed, ?_, lodged.strewn.nodup, lodged.strewn.fits, fun g mem => ?_⟩
  · exact lodged.strewn.stand.congr fun x mem =>
      ⟨untouched.content x (lodged.owns_iff.mpr mem), untouched.children x (lodged.owns_iff.mpr mem)⟩
  · have top : g.root ∈ inst.tops := by
      rw [lodged.outfit.tops, ← lodged.outfit.basis, Dressing.map_root_basisAll]
      exact List.mem_map_of_mem mem
    have remembers := (lodged.outfit.remembers lodged.strewn.nodup).of_mem g mem
    rw [Dressing.map_root_plants, ← remembers.root]
    exact placed g.root top

/-- No two slots write to one cell. -/
theorem clear {source : String} {selection : Option String} (content : trees rs = Library.ofSource source selection)
    (tidy : TidyAll (Library.ofSource source selection))
    (single : oneValueAll (Library.ofSource source selection) = true) :
    (Dressing.slotsAll none gs).Pairwise (Clear True) := by
  have nodup := lodged.outfit.basis ▸ Outfit.nodup_basis lodged.strewn.nodup
  have clear : (slotsAll .blank none rs).Pairwise (Clear True) := by
    refine clear_slotsAll nodup nofun (content ▸ tidy) fun _ => ?_
    rw [content]
    exact ⟨slim_ofSource source selection, single, nofun⟩
  have kept := clear.filter fun slot => slot.written?.isSome
  rw [← lodged.outfit.basis, ← filter_slotsAll _ (fun _ _ => rfl), List.pairwise_filter] at kept
  refine kept.imp fun {s t} clear cell own shared => ?_
  -- an anchor has no cells
  have plain : ∀ {slot : Slot}, cell ∈ slot.cells → slot.written?.isSome = true := fun {slot} inside => by
    cases slot with
    | anchor path a => cases inside
    | _ => rfl
  exact clear (plain own) (plain shared) cell own shared

/-- A context is written to the instance. -/
theorem update (clear : (Dressing.slotsAll none gs).Pairwise (Clear True)) (context : ValueOf Empty) :
    ∃ inst' d' claims hs, inst.update context.plain ⟨d, []⟩ = ((none, inst'), ⟨d', claims⟩) ∧
      Lodged rs inst' d' hs seat ∧
      Rewritten d context.plain d d' inst.slots inst'.slots (idsAll (plantsOf (Dressing.entriesInAll gs))) := by
  have strewn : Strewn seat d ([] ++ gs) := lodged.strewn
  obtain ⟨d', claims, hs, done, basis, strewn', rewritten⟩ :=
    strewn.write context gs lodged.strewn (fun _ _ => List.not_mem_nil) clear
  refine ⟨{ inst with slots := Dressing.slotsAll none hs }, d', claims, hs, ?_,
    ⟨⟨?_, lodged.outfit.tops, rfl⟩, strewn'⟩, ?_⟩
  · rw [Instance.update, lodged.outfit.slots, done]
  · exact basis.trans lodged.outfit.basis
  · rwa [lodged.outfit.slots]

end Lodged

/-! ## New instances in a document -/

section Mounting

variable {d₀ : Document} (potted : Potted d₀ d inst.fragment (clearedPlants rs)) (old : d₀.contains q = true)
include potted old

end Mounting

section Lives

variable {name source : String} {template : Template} {selection : Option String} {prototype : Prototype}
  (compiled : Template.compile name source = .ok template) (known : template.prototype? selection = some prototype)
include compiled known

variable (single : oneValueAll (Library.ofSource source selection) = true)
include single

end Lives

namespace Note

/-- A textarea with a bound value beside a bound attribute, a text and two anchors. -/
def source : String :=
  "<p title=\"${off}\">Hi ${t}</p><textarea name=\"${t}\">${body}</textarea><!--${u}--><!--${v}-->"

def earlier : ValueOf Empty :=
  .map [("t", .bool false), ("body", .string "1"), ("u", .string "<b>1</b>"), ("v", .list [.string "<b>1</b>"])]

def later : ValueOf Empty :=
  .map [("off", .bool true), ("t", .bool false), ("body", .string "2"), ("u", .string "<b>1</b>"), ("v", .null)]

end Note

end Inlay.Render
