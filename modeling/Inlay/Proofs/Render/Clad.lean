/-
# Proofs.Render.Clad — what the instance of a tenant looks like

Whatever was written to an instance, the parts of its prototype wear what is not
bound and stand in their order (`Tenant.Clad`): what moves or frees nodes leaves the
copy of a prototype alone, its top apart, and a slot changes what is bound.
A plot says a context when its slot has been written with it (`Plot.Says`); what is
written after that does not undo it.
-/
import Inlay.Proofs.Render.Lodgers
import Inlay.Proofs.Render.Parts
import Inlay.Proofs.Render.Turns

namespace Inlay.Render

set_option autoImplicit false

open Inlay.Document Inlay.Document.Planted Inlay.Markup
open Inlay.Template hiding root

variable {base d d' : Document} {claims claims' : Claims} {t s : Tenant} {ts : List Tenant} {p q : Plot}
  {x fragment : NodeId} {rs : List Planted} {context : Value} {part : Part}

/-! ## The copy of a prototype -/

def Tenant.parts (t : Tenant) : List Part := partsAll none t.source

/-- The parts wear what is not bound, and what stood in them at first does so in its order. -/
structure Tenant.Clad (d : Document) (t : Tenant) : Prop where
  wears : ∀ part ∈ t.parts, part.Wears d
  kids : ∀ part ∈ t.parts, part.kids.Sublist (d.children part.node)

namespace Tenant

theorem node_ground (mem : part ∈ t.parts) : part.node ∈ t.grounds := node_mem mem

theorem kid_ground (mem : part ∈ t.parts) (kid : x ∈ part.kids) : x ∈ t.grounds :=
  kid_of_partsAll t.source none part mem kid

theorem grounds_nodup (nodup : t.estate.Nodup) : t.grounds.Nodup :=
  (List.nodup_append.mp (List.nodup_cons.mp nodup).2).1

theorem kid_not_top (nodup : t.estate.Nodup) (mem : part ∈ t.parts) (kid : x ∈ part.kids) : x ∉ t.tops :=
  kid_inner (grounds_nodup nodup) mem kid

/-- Nothing is written to a new instance yet. -/
theorem clad_sown (tidy : TidyAll (trees rs)) (potted : Potted d d' fragment (clearedPlants rs)) :
    (sown fragment rs).Clad d' :=
  ⟨fun part mem => (wears_of_standAll tidy potted.stand part mem).1,
    fun part mem => (wears_of_standAll tidy potted.stand part mem).2⟩

namespace Clad

variable (clad : t.Clad d)
include clad

/-- What moves no ground below the top leaves what a tenant looks like. -/
theorem change {moved : NodeId → Prop} {target : Option NodeId} (change : Change moved target d d')
    (nodup : t.estate.Nodup) (live : ∀ x ∈ t.grounds, d.contains x = true) (live' : ∀ x ∈ t.grounds, d'.contains x = true)
    (stays : ∀ x ∈ t.grounds, x ∉ t.tops → ¬ moved x) : t.Clad d' where
  wears := fun part mem => (clad.wears part mem).congr
    (change.content _ (live _ (node_ground mem)) (live' _ (node_ground mem)))
  kids := fun part mem => by
    have order := change.order (fun x => decide (x ∈ part.kids))
      (fun x kid => by
        have kid : x ∈ part.kids := by simpa using kid
        have ground := kid_ground mem kid
        exact ⟨live x ground, live' x ground, stays x ground (kid_not_top nodup mem kid)⟩) part.node
    have all : part.kids.filter (fun x => decide (x ∈ part.kids)) = part.kids :=
      List.filter_eq_self.mpr fun x kid => by simpa using kid
    have sub := (clad.kids part mem).filter fun x => decide (x ∈ part.kids)
    rw [all, ← order] at sub
    exact sub.trans List.filter_sublist

theorem suits (mem : p ∈ t.plots) (form : t.plots.map (·.slot.unwritten) = slotsAll .blank none t.source) :
    p.slot.Suits d := by
  have inside : p.slot.unwritten ∈ slotsAll .blank none t.source := form ▸ List.mem_map_of_mem mem
  have suits := suits_of_wears clad.wears inside
  cases slot : p.slot with
  | anchor path a => trivial
  | _ => rwa [slot] at suits

end Clad

end Tenant

/-- What nobody wrote to looks as before. -/
theorem Tenant.Clad.congr (clad : t.Clad d) (content : ∀ x ∈ t.grounds, d'.content? x = d.content? x)
    (children : d'.children = d.children) : t.Clad d' where
  wears := fun part mem => (clad.wears part mem).congr (content _ (Tenant.node_ground mem))
  kids := fun part mem => by
    rw [children]
    exact clad.kids part mem

/-- Writing a slot of the tenant leaves what is not bound. -/
theorem Tenant.Clad.redo {slot : Slot} {old new : Content} (clad : t.Clad d) (nodup : t.estate.Nodup)
    (tidy : TidyAll (trees t.source)) (inside : slot ∈ slotsAll .blank none t.source)
    (found : d.content? slot.node = some old) (redoes : slot.Redoes context old new)
    (becomes : Becomes d d' (putContent slot.node new d.content?) d.children) : t.Clad d' where
  wears := fun part mem =>
    (clad.wears part mem).redo (grounds_nodup nodup) tidy mem inside found redoes becomes
  kids := fun part mem => by
    rw [becomes.children]
    exact clad.kids part mem

/-! ## What plots say -/

theorem Slot.fact_node {slot : Slot} {f : Fact} (mem : f ∈ slot.facts context) : f.node = slot.node := by
  cases slot with
  | text node content => rw [List.mem_singleton.mp mem]; rfl
  | textareaValue holder content =>
      simp only [facts, List.mem_cons, List.not_mem_nil, or_false] at mem
      rcases mem with rfl | rfl <;> rfl
  | anchor path a => cases mem
  | «attribute» holder name content property =>
      simp only [facts, List.mem_cons, List.mem_flatMap, Option.mem_toList, List.not_mem_nil, or_false] at mem
      rcases mem with rfl | ⟨p, -, rfl | rfl⟩ <;> rfl

/-- The slot was written with the context: its facts hold, live properties aside, and its
anchor shows the items of its value. -/
structure Plot.Says (d : Document) (context : Value) (p : Plot) : Prop where
  facts : ∀ f ∈ p.slot.facts context, f.isLive = false → f.Holds d
  shows : ∀ path a, p.slot = .anchor path a → ∃ pieces : List (List NodeId ⊕ Entry),
    List.Forall₂ Shown (itemsOf (valueAt context path)) pieces ∧ a.current = pieces.flatMap (pieceNodes id) ∧
      p.entries = entriesOf pieces

namespace Plot.Says

theorem congr (told : p.Says d context) (same : d'.content? p.slot.node = d.content? p.slot.node) : p.Says d' context where
  facts := fun f mem dull => (told.facts f mem dull).congr (by rw [Slot.fact_node mem, same])
  shows := told.shows

/-- What is written to other cells undoes nothing. -/
theorem wrote (told : p.Says d context) (wrote : Wrote d d' (q.slot.facts context)) (clear : Clear False p.slot q.slot) :
    p.Says d' context where
  facts := fun f mem dull => by
    refine wrote.keeps f (told.facts f mem dull) fun cell about inside => ?_
    rw [Slot.filterMap_cell?_facts] at inside
    have own : cell ∈ p.slot.cells := by
      rw [← Slot.filterMap_cell?_facts context]
      exact List.mem_filterMap.mpr ⟨f, mem, about⟩
    obtain ⟨-, name, property⟩ := clear cell own inside
    cases f with
    | property holder other value => cases dull
    | _ => cases about <;> cases property
  shows := told.shows

theorem of_wrote (plain : p.slot.anchored? = none) (wrote : Wrote d d' (p.slot.facts context)) : p.Says d' context where
  facts := fun f mem _ => wrote.tells f mem
  shows := fun path a isAnchor => by
    rw [isAnchor] at plain
    cases plain

end Plot.Says

/-- The copies of the prototypes of the tenants have the content they had. -/
def Steadfast (d d' : Document) (ts : List Tenant) : Prop := ∀ s ∈ ts, ∀ x ∈ s.grounds, d'.content? x = d.content? x

namespace Steadfast

variable {d'' : Document} {ts' : List Tenant}

theorem refl (d : Document) (ts : List Tenant) : Steadfast d d ts := fun _ _ _ _ => rfl

theorem trans (first : Steadfast d d' ts) (second : Steadfast d' d'' ts') (grows : ∀ s ∈ ts, s ∈ ts') : Steadfast d d'' ts :=
  fun s mem x ground => (second s (grows s mem) x ground).trans (first s mem x ground)

theorem of_change {moved : NodeId → Prop} {target : Option NodeId} (change : Change moved target d d')
    (live : ∀ s ∈ ts, ∀ x ∈ s.grounds, d.contains x = true) (live' : ∀ s ∈ ts, ∀ x ∈ s.grounds, d'.contains x = true) :
    Steadfast d d' ts :=
  fun s mem x ground => change.content x (live s mem x ground) (live' s mem x ground)

end Steadfast

/-- The nodes of a used tenant are those of trees, when its plots say a value in which
other such nodes and trees stand for templates. -/
inductive Voiced (d : Document) (used : List Tenant) : List NodeId → List Tree → Prop
  | of_told {s : Tenant} {value : ValueOf (List NodeId × List Tree)} : s ∈ used →
      (∀ p ∈ s.plots, p.Says d (value.relabel Prod.fst)) → (∀ pair ∈ leaves value, Voiced d used pair.1 pair.2) →
      Voiced d used s.inst.nodes (expanded (value.relabel Prod.snd) none (trees s.source))

/-- What was said stays so while tenants are added and those that said it are left alone. -/
theorem Voiced.mono {used used' : List Tenant} {nodes : List NodeId} {shown : List Tree} (voiced : Voiced d used nodes shown)
    (grows : ∀ s ∈ used, s ∈ used') (stays : Steadfast d d' used)
    (grounds : ∀ s ∈ used, ∀ p ∈ s.plots, p.slot.node ∈ s.grounds) : Voiced d' used' nodes shown := by
  induction voiced with
  | of_told mem told _ ih =>
      exact .of_told (grows _ mem) (fun p memP => (told p memP).congr (stays _ mem _ (grounds _ mem p memP))) ih

end Inlay.Render
