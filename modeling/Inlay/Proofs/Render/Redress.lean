/-
# Proofs.Render.Redress — an instance that is updated again

Writing a context without templates to the slots of a dressing that stands in a
document makes it show that context, whatever it showed before
(`redress_trees`). Slots are written in document order: those in front have been
written, those behind show what they showed. What an anchor places stands among
its own siblings right behind its comment, so no neighbour gains or loses a
node; besides the children of the container, only nodes of the dressing change.
-/
import Inlay.Proofs.Render.Retouch
import Inlay.Proofs.Render.Steady

namespace Inlay.Render

set_option autoImplicit false

open Relation Inlay.Document Inlay.Document.Planted Inlay.Markup
open Inlay.Template hiding root

variable {d d' d'' : Document} {claims claims' claims'' : Claims} {id q x : NodeId}
  {front back : List NodeId}

/-! ## Before and after -/

/-- The value of the element was written last with a text. -/
def ShowsValue (d : Document) (node : NodeId) (text : String) : Prop :=
  ∃ e, d.content? node = some (.element e) ∧ e.properties.get? "value" = some (.text text)

theorem ShowsValue.property? {text : String} (shows : ShowsValue d x text) :
    d.property? x "value" = some (.text text) := by
  obtain ⟨e, found, value⟩ := shows
  simp only [Document.property?, element?, found, Option.bind_some, value]

open Dressing in
/-- A dressing that stands in a document among the children of a node. -/
structure InPlace (d : Document) (claims : Claims) (q : NodeId) (front back : List NodeId)
    (parent : Option String) (gs : List Dressing) : Prop where
  wellFormed : WellFormed d
  live : d.contains q = true
  kids : d.children q = front ++ (plantsAll gs).map Planted.root ++ back
  stand : StandAll d (plantsAll gs)
  apart : (q :: idsAll (plantsAll gs)).Nodup
  fits : FitsAll parent gs
  single : parent = some "textarea" → gs.length ≤ 1
  unclaimed : ∀ x ∈ idsAll (plantsAll gs), x ∉ claims

open Dressing in
/-- A dressing that shows a context in place of what it showed. -/
structure Redressed (d d' : Document) (claims claims' : Claims) (q : NodeId) (front back : List NodeId)
    (parent : Option (String × NodeId)) (w : ValueOf Empty) (gs hs : List Dressing) : Prop where
  spares : Spares (writtenBy (Dressing.slotsAll parent gs) ++ idsAll (plantsOf (entriesInAll gs)))
    (q :: idsAll (plantsAll gs)) d d'
  holder : (d'.content? q).map bare = (d.content? q).map bare
  basis : basisAll hs = basisAll gs
  fits : FitsAll (parent.map Prod.fst) hs
  stand : StandAll d' (plantsAll hs)
  kids : d'.children q = front ++ (plantsAll hs).map Planted.root ++ back
  origin : ∀ x ∈ idsAll (plantsAll hs), x ∈ idsAll (plantsAll gs) ∨ d.contains x = false
  alike : AlikeAll (trees (plantsAll hs)) (expanded w.plain (parent.map Prod.fst) (trees (basisAll gs)))
  claimed : ∀ x ∈ claims', x ∈ claims ∨ x ∈ idsAll (plantsAll hs)
  values : ∀ node content, Slot.textareaValue node content ∈ Dressing.slotsAll parent gs →
    ShowsValue d' node (content.render w)
  regions : ∀ path a, Slot.anchor path a ∈ Dressing.slotsAll parent hs →
    ∃ entries, a = .ofEntries a.comment entries ∧ trees (plantsOf entries) = shown (valueAt w.plain path) ∧
      ∀ d, StandAll d (plantsAll hs) → StandAll d (plantsOf entries)
  own : Bounded d' → ∀ path a, Slot.anchor path a ∈ Dressing.slotsAll parent hs →
    ∃ old, Slot.anchor path old ∈ Dressing.slotsAll parent gs ∧ old.comment = a.comment ∧
      ∀ x ∈ a.current, x ∈ old.current ∨ d.contains x = false

/-! ## The nodes of a dressing -/

section Ids

open Dressing

variable {body tag : String} {source attributes : List Attribute} {path : Path} {entries : List Entry}
  {parent : Option (String × NodeId)}

@[simp] theorem slotsAll_single (g : Dressing) : Dressing.slotsAll parent [g] = g.slots parent := by
  rw [Dressing.slotsAll, Dressing.slotsAll, List.append_nil]

theorem idsAll_plantsAll_cons (g : Dressing) (rest : List Dressing) :
    idsAll (plantsAll (g :: rest)) = idsAll (plantsAll [g]) ++ idsAll (plantsAll rest) := by
  rw [← idsAll_append, ← plantsAll_append, List.singleton_append]

theorem plantsAll_anchor :
    plantsAll [.anchor id body path entries] = .comment id "" :: plantsOf entries := by
  rw [plantsAll, plants, plantsAll, List.append_nil]

theorem idsAll_anchor :
    idsAll (plantsAll [.anchor id body path entries]) = id :: idsAll (plantsOf entries) := by
  rw [plantsAll_anchor, idsAll, ids, List.singleton_append]

theorem idsAll_element (children : List Dressing) :
    idsAll (plantsAll [.element id tag source attributes children]) =
      id :: idsAll (plantsAll children) := by
  simp only [plantsAll, plants, List.append_nil, idsAll, ids]

end Ids

namespace InPlace

open Dressing

variable {parent : Option String} {g : Dressing} {gs rest : List Dressing}

theorem alive (place : InPlace d claims q front back parent gs) :
    ∀ x ∈ q :: idsAll (plantsAll gs), d.contains x = true := by
  intro x mem
  rcases List.mem_cons.mp mem with rfl | mem
  · exact place.live
  · exact place.stand.contains x mem

theorem head (place : InPlace d claims q front back parent (g :: rest)) :
    InPlace d claims q front ((plantsAll rest).map Planted.root ++ back) parent [g] where
  wellFormed := place.wellFormed
  live := place.live
  kids := by
    rw [place.kids]
    simp [plantsAll]
  stand := standAll_append.mpr ⟨(standAll_append.mp place.stand).1, trivial⟩
  apart := by
    refine place.apart.sublist (.cons_cons _ ?_)
    simp [plantsAll]
  fits := ⟨place.fits.1, trivial⟩
  single := fun _ => Nat.le_refl 1
  unclaimed := fun x mem => place.unclaimed x (by
    simp only [plantsAll, List.append_nil] at mem
    simp [plantsAll, mem])

/-- The first tree is apart from the others. -/
theorem apart_tail (place : InPlace d claims q front back parent (g :: rest)) :
    ∀ x ∈ idsAll (plantsAll rest), x ∉ q :: idsAll (plantsAll [g]) := by
  have apart := place.apart
  simp only [plantsAll, idsAll_append, List.nodup_cons, List.nodup_append, List.mem_append, not_or,
    List.append_nil] at apart ⊢
  intro x mem there
  rcases List.mem_cons.mp there with rfl | there
  · exact apart.1.2 mem
  · exact apart.2.2.2 x there x mem rfl

end InPlace

namespace Redressed

open Dressing

variable {parent : Option (String × NodeId)} {w : ValueOf Empty} {g : Dressing}
  {gs hs rest hs' : List Dressing}

/-- What is written and what dies is of the dressing, or the element around it. -/
theorem written_subset (held : Held d q parent) :
    writtenBy (Dressing.slotsAll parent gs) ++ idsAll (plantsOf (entriesInAll gs)) ⊆
      q :: idsAll (plantsAll gs) := by
  intro x mem
  rw [List.mem_cons, mem_ids_plantsAll]
  rcases List.mem_append.mp mem with written | made
  · rcases mem_writtenBy written with basis | area
    · exact .inr (.inl basis)
    · exact .inl (held _ _ area).1
  · exact .inr (.inr made)

/-- The trees behind the first one once that is redressed. -/
theorem tail (place : InPlace d claims q front back (parent.map Prod.fst) (g :: rest))
    (first : Redressed d d' claims claims' q front ((plantsAll rest).map Planted.root ++ back) parent w
      [g] hs) (held : Held d q parent) :
    InPlace d' claims' q (front ++ (plantsAll hs).map Planted.root) back (parent.map Prod.fst) rest where
  wellFormed := first.spares.wellFormed
  live := by
    have holder := first.holder
    obtain ⟨c, found⟩ := contains_iff_content?.mp place.live
    rw [found] at holder
    obtain ⟨c', found', -⟩ := Option.map_eq_some_iff.mp holder
    exact contains_iff_content?.mpr ⟨c', found'⟩
  kids := by
    rw [first.kids]
    simp
  stand := by
    have away := place.apart_tail
    refine first.spares.stand (standAll_append.mp place.stand).2 (fun x mem written => ?_) away
    exact away x mem (written_subset held written)
  apart := by
    refine place.apart.sublist (.cons_cons _ ?_)
    simp [plantsAll]
  fits := place.fits.2
  single := fun area => by
    have short := place.single area
    rw [List.length_cons] at short
    omega
  unclaimed := by
    intro x mem there
    have inside : x ∈ idsAll (plantsAll (g :: rest)) := by simp [plantsAll, mem]
    rcases first.claimed x there with old | new
    · exact place.unclaimed x inside old
    · rcases first.origin x new with before | dead
      · exact place.apart_tail x mem (List.mem_cons_of_mem _ before)
      · rw [place.alive x (List.mem_cons_of_mem _ inside)] at dead
        cases dead

/-- What an anchor shows is alive. -/
theorem contains_current (redressed : Redressed d d' claims claims' q front back parent w gs hs)
    {path : Path} {a : Anchor} (mem : Slot.anchor path a ∈ Dressing.slotsAll parent hs)
    (there : x ∈ a.current) : d'.contains x = true := by
  obtain ⟨-, entries, same, stands⟩ := anchor_mem_all (d := d') mem
  rw [same] at there
  exact (stands redressed.stand).contains x ((map_root_sublist _).subset there)

/-! Trees in front, then those behind. -/

section Append

variable (place : InPlace d claims q front back (parent.map Prod.fst) (g :: rest))
  (held : Held d q parent)
  (first : Redressed d d' claims claims' q front ((plantsAll rest).map Planted.root ++ back) parent w
    [g] hs)
  (second : Redressed d' d'' claims' claims'' q (front ++ (plantsAll hs).map Planted.root) back parent w
    rest hs')
include place first

/-- What the first tree became is touched by nothing later. -/
theorem away : ∀ x ∈ idsAll (plantsAll hs), x ∉ q :: idsAll (plantsAll rest) := by
  intro x mem touched
  have ids := idsAll_plantsAll_cons g rest
  rcases first.origin x mem with old | dead
  · rcases List.mem_cons.mp touched with rfl | later
    · refine (List.nodup_cons.mp place.apart).1 ?_
      rw [ids]
      exact List.mem_append_left _ old
    · exact place.apart_tail x later (List.mem_cons_of_mem _ old)
  · have live : d.contains x = true := by
      refine place.alive x ?_
      rw [ids, List.mem_cons, List.mem_append]
      exact (List.mem_cons.mp touched).imp_right .inr
    rw [live] at dead
    cases dead

include held

omit place in
theorem held_after : Held d' q parent := fun tag holder same =>
  ⟨(held tag holder same).1, element_of_bare first.holder (held tag holder same).2⟩

/-- A node that died under the first tree was of that tree. -/
theorem dead_before (dead : d'.contains x = false) :
    x ∈ idsAll (plantsAll [g]) ∨ d.contains x = false := by
  by_cases mine : x ∈ q :: idsAll (plantsAll [g])
  · rcases List.mem_cons.mp mine with rfl | mine
    · rw [(first.tail place held).live] at dead
      cases dead
    · exact .inl mine
  · right
    by_contra live
    have live : d.contains x = true := by simpa using live
    rw [first.spares.alive live fun written => mine (written_subset held written)] at dead
    cases dead

include second

omit place in
theorem spares_append : Spares (writtenBy (Dressing.slotsAll parent (g :: rest)) ++
    idsAll (plantsOf (entriesInAll (g :: rest)))) (q :: idsAll (plantsAll (g :: rest))) d d'' := by
  have ids := idsAll_plantsAll_cons g rest
  refine (first.spares.mono ?_ ?_).trans (second.spares.mono ?_ ?_) (written_subset held)
  · intro x
    simp only [Dressing.slotsAll, entriesInAll, List.append_nil, writtenBy_append, plantsOf_append,
      idsAll_append, List.mem_append]
    tauto
  · rw [ids]
    exact List.cons_subset_cons _ (List.subset_append_left _ _)
  · intro x
    simp only [Dressing.slotsAll, entriesInAll, writtenBy_append, plantsOf_append, idsAll_append,
      List.mem_append]
    tauto
  · rw [ids]
    exact List.cons_subset_cons _ (List.subset_append_right _ _)

theorem stand_append : StandAll d'' (plantsAll (hs ++ hs')) := by
  have away := away place first
  rw [plantsAll_append]
  refine standAll_append.mpr ⟨second.spares.stand first.stand (fun x mem written => ?_) away, second.stand⟩
  exact away x mem (written_subset (held_after held first) written)

theorem origin_append : ∀ x ∈ idsAll (plantsAll (hs ++ hs')),
    x ∈ idsAll (plantsAll (g :: rest)) ∨ d.contains x = false := by
  intro x mem
  rw [idsAll_plantsAll_cons, List.mem_append]
  rw [plantsAll_append, idsAll_append, List.mem_append] at mem
  rcases mem with early | late
  · exact (first.origin x early).imp_left .inl
  · rcases second.origin x late with old | dead
    · exact .inl (.inr old)
    · exact (dead_before place held first dead).imp_left .inl

theorem values_append : ∀ node content,
    Slot.textareaValue node content ∈ Dressing.slotsAll parent (g :: rest) →
    ShowsValue d'' node (content.render w) := by
  intro node content mem
  rw [Dressing.slotsAll, List.mem_append] at mem
  rcases mem with early | late
  · obtain ⟨e, found, value⟩ := first.values node content (by rwa [slotsAll_single])
    have live : d'.contains node = true := contains_iff_content?.mpr ⟨_, found⟩
    refine ⟨e, ?_, value⟩
    rw [second.spares.content node live fun written => ?_, found]
    rcases written_mem early rfl with mine | area
    · -- the node is of the first tree
      have here : node ∈ idsAll (plantsAll [g]) :=
        mem_ids_plantsAll.mpr (.inl (by simpa [basisAll, idsAll] using mine))
      rcases List.mem_cons.mp (written_subset (held_after held first) written) with same | later
      · refine (List.nodup_cons.mp place.apart).1 ?_
        rw [idsAll_plantsAll_cons, ← same]
        exact List.mem_append_left _ here
      · exact place.apart_tail node later (List.mem_cons_of_mem _ here)
    · -- the node is the element around, which holds nothing else
      subst area
      have short := place.single rfl
      have none : rest = [] := by
        rw [List.length_cons] at short
        exact List.length_eq_zero_iff.mp (by omega)
      subst none
      simp [Dressing.slotsAll, writtenBy, entriesInAll, plantsOf, idsAll] at written
  · exact second.values node content late

omit place held in
theorem regions_append : ∀ path a, Slot.anchor path a ∈ Dressing.slotsAll parent (hs ++ hs') →
    ∃ entries, a = .ofEntries a.comment entries ∧ trees (plantsOf entries) = shown (valueAt w.plain path) ∧
      ∀ d, StandAll d (plantsAll (hs ++ hs')) → StandAll d (plantsOf entries) := by
  intro path a mem
  rw [slotsAll_append, List.mem_append] at mem
  simp only [plantsAll_append, standAll_append]
  rcases mem with early | late
  · obtain ⟨entries, same, shows, stands⟩ := first.regions path a early
    exact ⟨entries, same, shows, fun d both => stands d both.1⟩
  · obtain ⟨entries, same, shows, stands⟩ := second.regions path a late
    exact ⟨entries, same, shows, fun d both => stands d both.2⟩

omit place held in
theorem own_append (aged : Aged d d') (aged' : Aged d' d'') (bounded : Bounded d'') :
    ∀ path a, Slot.anchor path a ∈ Dressing.slotsAll parent (hs ++ hs') →
      ∃ old, Slot.anchor path old ∈ Dressing.slotsAll parent (g :: rest) ∧ old.comment = a.comment ∧
        ∀ x ∈ a.current, x ∈ old.current ∨ d.contains x = false := by
  intro path a mem
  rw [slotsAll_append, List.mem_append] at mem
  rw [Dressing.slotsAll]
  rcases mem with early | late
  · obtain ⟨old, there, same, from_⟩ := first.own (bounded.of_aged aged') path a early
    exact ⟨old, List.mem_append_left _ (by rwa [slotsAll_single] at there), same, from_⟩
  · obtain ⟨old, there, same, from_⟩ := second.own bounded path a late
    refine ⟨old, List.mem_append_right _ there, same, fun x mem => (from_ x mem).imp_right fun dead => ?_⟩
    -- a node that died in between does not come back
    by_contra live
    rcases aged.live (bounded.of_aged aged') x (by simpa using live) with still | gone
    · rw [still] at dead
      cases dead
    · have alive := second.contains_current late mem
      rw [(aged'.gone bounded x gone).contains] at alive
      cases alive

theorem append (aged : Aged d d') (aged' : Aged d' d'') :
    Redressed d d'' claims claims'' q front back parent w (g :: rest) (hs ++ hs') where
  spares := spares_append held first second
  holder := second.holder.trans first.holder
  basis := by
    rw [basisAll_append, first.basis, second.basis]
    rfl
  fits := fitsAll_append first.fits second.fits
  stand := stand_append place held first second
  kids := by
    rw [second.kids, plantsAll_append]
    simp
  origin := origin_append place held first second
  alike := by
    rw [plantsAll_append, trees_append]
    have both := first.alike.append second.alike
    simpa [basisAll, trees, expanded] using both
  claimed := by
    intro x mem
    rw [plantsAll_append, idsAll_append, List.mem_append]
    rcases second.claimed x mem with early | late
    · exact (first.claimed x early).imp_right .inl
    · exact .inr (.inr late)
  values := values_append place held first second
  regions := regions_append first second
  own := own_append first second aged aged'

end Append

end Redressed

/-! ## One tree -/

section Nodes

open Dressing

variable {parent : Option (String × NodeId)} {w : ValueOf Empty} {g : Dressing}
  {raw content content' body tag : String} {source attributes : List Attribute} {path : Path}
  {entries : List Entry}

/-- A tree without slots is left as it is. -/
theorem redressed_of_unwritten (place : InPlace d claims q front back (parent.map Prod.fst) [g])
    (none : g.slots parent = [])
    (alike : AlikeAll (trees g.plants) (expandedTree w.plain (parent.map Prod.fst) g.basis.tree)) :
    Redressed d d claims claims q front back parent w [g] [g] where
  spares := .refl place.wellFormed
  holder := rfl
  basis := rfl
  fits := place.fits
  stand := place.stand
  kids := place.kids
  origin := fun _ mem => .inl mem
  alike := by simpa [plantsAll, basisAll, trees, expanded] using alike
  claimed := fun _ mem => .inl mem
  values := by simp [Dressing.slotsAll, none]
  regions := by simp [Dressing.slotsAll, none]
  own := by simp [Dressing.slotsAll, none]

/-- A text whose slot writes to one node. -/
theorem redressed_of_putContent {new : Content} {written : NodeId}
    (place : InPlace d claims q front back (parent.map Prod.fst) [.text id raw content])
    (becomes : Becomes d d' (putContent written new d.content?) d.children)
    (there : written ∈ writtenBy (textSlots parent id raw))
    (holder : (d'.content? q).map bare = (d.content? q).map bare)
    (stands : d'.content? id = some (.text content'))
    (fits : Fits (parent.map Prod.fst) (.text id raw content'))
    (alike : AlikeAll [.text content'] (expandedTree w.plain (parent.map Prod.fst) (.text raw)))
    (values : ∀ node pattern, Slot.textareaValue node pattern ∈ textSlots parent id raw →
      ShowsValue d' node (pattern.render w)) :
    Redressed d d' claims claims q front back parent w [.text id raw content]
      [.text id raw content'] where
  spares := by
    refine ⟨becomes.wellFormed, fun x _ away => ?_, fun x _ _ => by rw [becomes.children]⟩
    rw [becomes.content, putContent, if_neg]
    rintro rfl
    exact away (List.mem_append_left _ (by simpa [Dressing.slotsAll, Dressing.slots] using there))
  holder := holder
  basis := rfl
  fits := ⟨fits, trivial⟩
  stand := ⟨stands, trivial⟩
  kids := by
    rw [becomes.children, place.kids]
    rfl
  origin := fun _ mem => .inl mem
  alike := by simpa [plantsAll, plants, basisAll, basis, trees, tree, expanded] using alike
  claimed := fun _ mem => .inl mem
  values := fun node pattern mem =>
    values node pattern (by simpa [Dressing.slotsAll, Dressing.slots] using mem)
  regions := fun path a mem => by
    rw [Dressing.slotsAll, Dressing.slotsAll, List.append_nil] at mem
    exact absurd mem anchor_not_mem_text
  own := fun _ path a mem => by
    rw [Dressing.slotsAll, Dressing.slotsAll, List.append_nil] at mem
    exact absurd mem anchor_not_mem_text

section Text

variable {pattern : Pattern} (w : ValueOf Empty)
  (place : InPlace d claims q front back (parent.map Prod.fst) [.text id raw content])
include place

/-- A text without placeholders shows itself. -/
theorem redressed_of_plain (read : Pattern.read? raw = .ok none) (same : content = raw) :
    Redressed d d claims claims q front back parent w [.text id raw content] [.text id raw content] := by
  subst same
  refine redressed_of_unwritten place ?_ ?_
  · simp [Dressing.slots, textSlots, read]
  · have no := hasPlaceholder_of_plain read
    have shows : expandedTree w.plain (parent.map Prod.fst) (.text content) = [.text content] := by
      simp [expandedTree, no, expandedText, read]
    simpa [plants, basis, trees, tree, shows] using AlikeAll.refl [.text content]

/-- A bound text in a textarea is written as the value of that element. -/
theorem redress_textarea (held : Held d q parent) (read : Pattern.read? raw = .ok (some pattern))
    (area : parent.map Prod.fst = some "textarea") :
    ∃ d', Slot.writeAll w.plain (textSlots parent id raw) ⟨d, claims⟩ =
        ((none, textSlots parent id raw), ⟨d', claims⟩) ∧
      Redressed d d' claims claims q front back parent w [.text id raw content]
        [.text id raw content] := by
  have has := hasPlaceholder_of_pattern read
  have empty : content = "" := by
    obtain ⟨_, _, fits⟩ := place.fits.1
    exact (fits (.inr area)).trans (if_pos has)
  obtain ⟨⟨tag, holder⟩, rfl, rfl⟩ := Option.map_eq_some_iff.mp area
  obtain ⟨rfl, e, element⟩ := held _ _ rfl
  have apart : id ≠ holder := by
    rintro rfl
    exact (List.nodup_cons.mp place.apart).1 List.mem_cons_self
  have slots : textSlots (some ("textarea", holder)) id raw = [.textareaValue holder pattern] := by
    simp [textSlots, read]
  obtain ⟨changed, d', done, becomes⟩ := setProperty_becomes place.wellFormed element "value"
    (.text (pattern.render (w.plain : Value)))
  have wrote : (Slot.textareaValue holder pattern).write w.plain ⟨d, claims⟩ =
      .ok (.textareaValue holder pattern) ⟨d', claims⟩ := by
    rw [Slot.write, bind_ok (Act.edit_ok done)]
    rfl
  have written := congrFun becomes.content holder
  simp only [if_true] at written
  refine ⟨d', ?_, redressed_of_putContent place becomes ?_ ?_ ?_ place.fits.1 ?_ ?_⟩
  · rw [slots]
    exact writeAll_single wrote
  · simp [slots, writtenBy, Slot.written?]
  · simp [written, element, bare]
  · rw [becomes.content]
    exact (if_neg apart).trans place.stand.1
  · have shows : expandedTree (w.plain : ValueOf (List Tree)) (some "textarea") (.text raw) =
        [.text ""] := by
      simp [expandedTree, has]
    simpa [empty, shows] using AlikeAll.refl [.text ""]
  · intro node other mem
    rw [slots, List.mem_singleton] at mem
    cases mem
    refine ⟨_, written, ?_⟩
    rw [Fields.get?_put, if_pos rfl, ValueOf.plain, Pattern.render_relabel]

/-- A bound text elsewhere is written itself. -/
theorem redress_bound (read : Pattern.read? raw = .ok (some pattern))
    (area : parent.map Prod.fst ≠ some "textarea") :
    ∃ d', Slot.writeAll w.plain (textSlots parent id raw) ⟨d, claims⟩ =
        ((none, textSlots parent id raw), ⟨d', claims⟩) ∧
      Redressed d d' claims claims q front back parent w [.text id raw content]
        [.text id raw (pattern.render w)] := by
  have apart : q ≠ id := by
    rintro rfl
    exact (List.nodup_cons.mp place.apart).1 List.mem_cons_self
  have slots : textSlots parent id raw = [.text id pattern] := by
    cases parent with
    | none => simp [textSlots, read]
    | some pair =>
        have other : pair.1 ≠ "textarea" := by simpa using area
        simp [textSlots, read, other]
  obtain ⟨d', wrote, becomes⟩ := write_text place.wellFormed place.stand.1 claims w.plain pattern
  refine ⟨d', ?_, redressed_of_putContent place becomes ?_ ?_ ?_ ?_ ?_ ?_⟩
  · rw [slots]
    exact writeAll_single wrote
  · simp [slots, writtenBy, Slot.written?]
  · rw [becomes.content, putContent, if_neg apart]
  · rw [becomes.content, putContent, if_pos rfl, ValueOf.plain, Pattern.render_relabel]
  · refine ⟨some pattern, read, ?_⟩
    rintro (bound | inside)
    · cases bound
    · exact absurd inside area
  · have shows : expandedTree w.plain (parent.map Prod.fst) (.text raw) = [.text (pattern.render w)] := by
      simp [expandedTree, area, expandedText, read, ValueOf.plain]
    simpa [shows] using AlikeAll.refl [.text (pattern.render w)]
  · simp [slots]

theorem redress_text (held : Held d q parent) :
    ∃ d' content', Slot.writeAll w.plain (textSlots parent id raw) ⟨d, claims⟩ =
        ((none, textSlots parent id raw), ⟨d', claims⟩) ∧
      Redressed d d' claims claims q front back parent w [.text id raw content]
        [.text id raw content'] := by
  obtain ⟨pattern, read, fits⟩ := place.fits.1
  cases pattern with
  | none =>
      have same : content = raw := (fits (.inl rfl)).trans (clearText_of_plain read)
      exact ⟨d, content, by simp [textSlots, read, writeAll_nil], redressed_of_plain w place read same⟩
  | some pattern =>
      by_cases area : parent.map Prod.fst = some "textarea"
      · obtain ⟨d', done, redressed⟩ := redress_textarea w place held read area
        exact ⟨d', content, done, redressed⟩
      · obtain ⟨d', done, redressed⟩ := redress_bound w place read area
        exact ⟨d', pattern.render w, done, redressed⟩

end Text

section Anchor

variable {new : List Entry}
  (place : InPlace d claims q front back (parent.map Prod.fst) [.anchor id body path entries])
include place

theorem anchor_stand : d.content? id = some (.comment "") ∧ StandAll d (plantsOf entries) := by
  have stand := place.stand
  rwa [plantsAll_anchor] at stand

theorem anchor_apart : (q :: id :: idsAll (plantsOf entries)).Nodup := by
  have apart := place.apart
  rwa [idsAll_anchor] at apart

/-- An anchor shows a context once its entries are those of the value on its path. -/
theorem redressed_of_refilled (refilled : Refilled d d' q id front back entries new)
    (shows : ∀ entry ∈ new, entry.Shows)
    (same : trees (plantsOf new) = shown (valueAt (w.plain : ValueOf (List Tree)) path))
    (claimed : ∀ x, x ∈ claims' ↔ x ∈ claims ∨ x ∈ (plantsOf new).map Planted.root) :
    Redressed d d' claims claims' q front back parent w [.anchor id body path entries]
      [.anchor id body path new] where
  spares := by
    refine refilled.spares.mono ?_ ?_
    · simp [Dressing.slots, writtenBy, Slot.written?, entriesInAll, entriesIn]
    · rw [idsAll_anchor]
      exact List.cons_subset_cons _ (List.subset_cons_self _ _)
  holder := by
    have outer := (List.nodup_cons.mp (anchor_apart place)).1
    rw [refilled.spares.content q place.live fun mem => outer (List.mem_cons_of_mem _ mem)]
  basis := rfl
  fits := ⟨⟨place.fits.1.1, shows⟩, trivial⟩
  stand := by
    have found := (anchor_stand place).1
    have inner := (List.nodup_cons.mp (List.nodup_cons.mp (anchor_apart place)).2).1
    rw [plantsAll_anchor]
    exact ⟨(refilled.spares.content id (contains_iff_content?.mpr ⟨_, found⟩) inner).trans found,
      refilled.stand⟩
  kids := by
    rw [plantsAll_anchor]
    exact refilled.kids
  origin := by
    intro x mem
    rw [idsAll_anchor, List.mem_cons] at mem ⊢
    rcases mem with rfl | mem
    · exact .inl (.inl rfl)
    · exact (refilled.origin x mem).imp_left .inr
  alike := by
    have shown : trees (plantsAll [.anchor id body path new]) =
        expanded w.plain (parent.map Prod.fst) (trees (basisAll [.anchor id body path new])) := by
      simp [plantsAll_anchor, basisAll, basis, trees, tree, expanded, expandedTree, place.fits.1.1, same]
    rw [shown]
    exact .refl _
  claimed := by
    intro x mem
    refine ((claimed x).mp mem).imp_right fun there => ?_
    rw [idsAll_anchor]
    exact List.mem_cons_of_mem _ ((map_root_sublist _).subset there)
  values := by simp [Dressing.slots]
  regions := by
    intro path' a mem
    rw [slotsAll_single, Dressing.slots, List.mem_singleton] at mem
    cases mem
    refine ⟨new, rfl, same, fun d stand => ?_⟩
    rw [plantsAll_anchor] at stand
    exact stand.2
  own := by
    intro _ path' a mem
    rw [slotsAll_single, Dressing.slots, List.mem_singleton] at mem
    cases mem
    exact ⟨.ofEntries id entries, by simp [Dressing.slots], rfl, refilled.roots⟩

theorem anchor_kids : d.children q = front ++ id :: (plantsOf entries).map Planted.root ++ back := by
  have kids := place.kids
  rwa [plantsAll_anchor, List.map_cons] at kids

theorem anchor_unclaimed : ∀ x ∈ (plantsOf entries).map Planted.root, x ∉ claims := by
  intro x mem
  refine place.unclaimed x ?_
  rw [idsAll_anchor]
  exact List.mem_cons_of_mem _ ((map_root_sublist _).subset mem)

theorem redress_anchor (w : ValueOf Empty) :
    ∃ d' claims' entries', Slot.writeAll w.plain [.anchor path (.ofEntries id entries)] ⟨d, claims⟩ =
        ((none, [.anchor path (.ofEntries id entries')]), ⟨d', claims'⟩) ∧
      Redressed d d' claims claims' q front back parent w [.anchor id body path entries]
        [.anchor id body path entries'] := by
  obtain ⟨d', claims', entries', updated, shows, same, refilled, claimed⟩ :=
    update_again place.wellFormed claims (anchor_kids place) (anchor_stand place).2 place.fits.1.2
      (anchor_apart place) (anchor_unclaimed place) (w.find? path.segments)
  have wrote : (Slot.anchor path (.ofEntries id entries)).write w.plain ⟨d, claims⟩ =
      .ok (.anchor path (.ofEntries id entries')) ⟨d', claims'⟩ := by
    rw [Slot.write, ValueOf.plain, ValueOf.find?_relabel]
    exact bind_ok updated
  refine ⟨d', claims', entries', writeAll_single wrote,
    redressed_of_refilled place refilled shows ?_ claimed⟩
  rw [same, ValueOf.plain, ValueOf.plain, valueAt_relabel]
  rfl

end Anchor

/-- The slots of attributes write to their element. -/
theorem writtenBy_attributes (id : NodeId) (tag : String) (source : List Attribute) :
    writtenBy (source.flatMap (attributeSlots id tag)) ⊆ [id] := by
  intro x mem
  obtain ⟨slot, there, writes⟩ := List.mem_filterMap.mp mem
  obtain ⟨a, -, here⟩ := List.mem_flatMap.mp there
  unfold attributeSlots at here
  split at here
  · rw [List.mem_singleton.mp here] at writes
    cases writes
    exact List.mem_singleton_self _
  · cases here

/-- The anchors of an element are those of its children. -/
theorem anchor_below {a : Anchor} {children : List Dressing}
    (mem : Slot.anchor path a ∈ Dressing.slotsAll parent [.element id tag source attributes children]) :
    Slot.anchor path a ∈ Dressing.slotsAll (some (tag, id)) children := by
  simp only [Dressing.slotsAll, Dressing.slots, List.append_nil, List.mem_append] at mem
  rcases mem with own | below
  · exact absurd own anchor_not_mem_attributes
  · exact below

section Element

variable {d₁ d₂ : Document} {e : Element} {children children' : List Dressing}
  (place : InPlace d claims q front back (parent.map Prod.fst) [.element id tag source attributes children])
  (first : Spares (writtenBy (source.flatMap (attributeSlots id tag))) [] d d₁)
  (found₁ : d₁.content? id = some (.element e))
  (second : Redressed d₁ d₂ claims claims' id [] [] (some (tag, id)) w children children')

section Place

include place

theorem element_apart : (q :: id :: idsAll (plantsAll children)).Nodup := by
  have apart := place.apart
  rwa [idsAll_element] at apart

include first found₁

/-- The children of an element whose attributes are written. -/
theorem InPlace.inside : InPlace d₁ claims id [] [] (some tag) children where
  wellFormed := first.wellFormed
  live := contains_iff_content?.mpr ⟨_, found₁⟩
  kids := by
    obtain ⟨⟨e', found, -, -⟩, kids, -⟩ := place.stand.1
    rw [first.children id (contains_iff_content?.mpr ⟨_, found⟩) List.not_mem_nil, kids]
    simp
  stand := by
    have inner := (List.nodup_cons.mp (List.nodup_cons.mp (element_apart place)).2).1
    refine first.stand place.stand.1.2.2 (fun x mem written => ?_) fun x _ => List.not_mem_nil
    rw [List.mem_singleton.mp (writtenBy_attributes id tag source written)] at mem
    exact inner mem
  apart := (List.nodup_cons.mp (element_apart place)).2
  fits := place.fits.1.2.2.2.2
  single := fun area => place.fits.1.2.2.2.1 (Option.some.inj area)
  unclaimed := fun x mem => place.unclaimed x (by
    rw [idsAll_element]
    exact List.mem_cons_of_mem _ mem)

end Place

section Written

include first found₁

/-- What is dead once the attributes are written was dead before. -/
theorem dead_before_attributes (dead : d₁.contains x = false) : d.contains x = false := by
  have other : x ≠ id := by
    rintro rfl
    rw [contains_iff_content?.mpr ⟨_, found₁⟩] at dead
    cases dead
  by_contra live
  rw [first.alive (by simpa using live) fun written =>
    other (List.mem_singleton.mp (writtenBy_attributes id tag source written))] at dead
  cases dead

include second

/-- Writing an element and its children spares all but those. -/
theorem spares_element : Spares (writtenBy (source.flatMap (attributeSlots id tag)) ++
    (writtenBy (Dressing.slotsAll (some (tag, id)) children) ++ idsAll (plantsOf (entriesInAll children))))
    (id :: idsAll (plantsAll children)) d d₂ ∧
    writtenBy (source.flatMap (attributeSlots id tag)) ++
      (writtenBy (Dressing.slotsAll (some (tag, id)) children) ++ idsAll (plantsOf (entriesInAll children))) ⊆
      id :: idsAll (plantsAll children) := by
  have held : Held d₁ id (some (tag, id)) := by
    rintro _ _ ⟨⟩
    exact ⟨rfl, e, found₁⟩
  have within : writtenBy (source.flatMap (attributeSlots id tag)) ++
      (writtenBy (Dressing.slotsAll (some (tag, id)) children) ++ idsAll (plantsOf (entriesInAll children))) ⊆
      id :: idsAll (plantsAll children) := by
    refine List.append_subset.mpr ⟨fun x mem => ?_, Redressed.written_subset held⟩
    rw [List.mem_singleton.mp (writtenBy_attributes id tag source mem)]
    exact List.mem_cons_self
  exact ⟨(first.mono (List.subset_append_left _ _) (List.nil_subset _)).trans
    (second.spares.mono (List.subset_append_right _ _) (List.Subset.refl _)) within, within⟩

include place

/-- The attributes of an element, then its children. -/
theorem redressed_element (tag_eq : e.tag = tag) (worn : Worn source e.attributes)
    (perm : e.attributes.Perm (source.filterMap (expandedAttribute w))) :
    Redressed d d₂ claims claims' q front back parent w [.element id tag source attributes children]
      [.element id tag source e.attributes children'] := by
  have outer := (List.nodup_cons.mp (element_apart place)).1
  obtain ⟨all, within⟩ := spares_element first found₁ second
  constructor
  case spares =>
    rw [idsAll_element]
    refine all.mono (fun x => ?_) fun x => List.mem_cons_of_mem _
    simp only [slotsAll_single, Dressing.slots, entriesInAll, entriesIn, List.append_nil,
      writtenBy_append, List.mem_append]
    tauto
  case holder => rw [all.content q place.live fun mem => outer (within mem)]
  case basis => simp only [basisAll, basis, second.basis]
  case fits =>
    obtain ⟨names, readable, -, short, -⟩ := place.fits.1
    refine ⟨⟨names, readable, worn, fun area => ?_, second.fits⟩, trivial⟩
    have lengths := congrArg (fun rs => (rs.map Planted.root).length) second.basis
    simp only [map_root_basisAll, List.length_map] at lengths
    rw [lengths]
    exact short area
  case stand =>
    refine ⟨stands_element.mpr ⟨?_, by simpa using second.kids, second.stand⟩, trivial⟩
    rw [second.holder, found₁]
    simp [bare, Element.plain, tag_eq]
  case kids =>
    rw [all.children q place.live outer]
    exact place.kids
  case origin =>
    intro x mem
    rw [idsAll_element, List.mem_cons] at mem ⊢
    rcases mem with rfl | below
    · exact .inl (.inl rfl)
    · exact (second.origin x below).imp .inr (dead_before_attributes first found₁)
  case alike =>
    have attributes_eq : source.filterMap (expandedAttribute (w.plain : ValueOf (List Tree))) =
        source.filterMap (expandedAttribute w) :=
      List.filterMap_congr fun a _ => expandedAttribute_relabel Empty.elim w a
    have same : AlikeAll [.element tag e.attributes (trees (plantsAll children'))]
        [.element tag (source.filterMap (expandedAttribute w)) (expanded w.plain (some tag)
          (trees (basisAll children)))] :=
      .cons (.element perm second.alike) .nil
    simpa [plantsAll, plants, basisAll, basis, trees, tree, expanded, expandedTree, attributes_eq] using same
  case claimed =>
    intro x mem
    rw [idsAll_element]
    exact (second.claimed x mem).imp_right (List.mem_cons_of_mem _)
  case values =>
    intro node content mem
    rw [slotsAll_single, Dressing.slots, List.mem_append] at mem
    rcases mem with own | below
    · obtain ⟨a, -, here⟩ := List.mem_flatMap.mp own
      unfold attributeSlots at here
      split at here
      · cases List.mem_singleton.mp here
      · cases here
    · exact second.values node content below
  case regions =>
    intro path a mem
    obtain ⟨entries, same, shows, stands⟩ := second.regions path a (anchor_below mem)
    exact ⟨entries, same, shows, fun d stand => stands d stand.1.2.2⟩
  case own =>
    intro bounded path a mem
    obtain ⟨old, there, same, from_⟩ := second.own bounded path a (anchor_below mem)
    refine ⟨old, by simp [Dressing.slots, there], same, fun x here => ?_⟩
    exact (from_ x here).imp_right (dead_before_attributes first found₁)

end Written

end Element

end Nodes

/-! ## All trees -/

theorem aged_of_writeAll {context : Value} {slots written : List Slot} {fault : Option Fault}
    (wf : WellFormed d)
    (wrote : Slot.writeAll context slots ⟨d, claims⟩ = ((fault, written), ⟨d', claims'⟩)) : Aged d d' := by
  have sequel : Sequel d (Slot.writeAll context slots ⟨d, claims⟩).2.document :=
    @Slot.sequel_writeAll context slots ⟨d, claims⟩ wf
  rw [wrote] at sequel
  exact sequel.aged

open Dressing in
mutual

theorem redress_tree (w : ValueOf Empty) : ∀ (g : Dressing) {d : Document} {claims : Claims} {q : NodeId}
    {front back : List NodeId} {parent : Option (String × NodeId)},
    InPlace d claims q front back (parent.map Prod.fst) [g] → Held d q parent →
    ∃ d' claims' hs, Slot.writeAll w.plain (g.slots parent) ⟨d, claims⟩ =
        ((none, Dressing.slotsAll parent hs), ⟨d', claims'⟩) ∧
      Redressed d d' claims claims' q front back parent w [g] hs
  | .text id source content, d, claims, q, front, back, parent, place, held => by
      obtain ⟨d', content', done, redressed⟩ := redress_text w place held
      refine ⟨d', claims, [.text id source content'], ?_, redressed⟩
      simpa [Dressing.slotsAll, Dressing.slots] using done
  | .comment id body, d, claims, q, front, back, parent, place, held => by
      have path : anchorPath? body = none := place.fits.1
      refine ⟨d, claims, [.comment id body], rfl, redressed_of_unwritten place rfl ?_⟩
      have shows : expandedTree w.plain (parent.map Prod.fst) (.comment body) = [.comment body] := by
        simp [expandedTree, path]
      simpa [plants, basis, trees, tree, shows] using AlikeAll.refl [.comment body]
  | .anchor id body path entries, d, claims, q, front, back, parent, place, held => by
      obtain ⟨d', claims', entries', done, redressed⟩ := redress_anchor place w
      refine ⟨d', claims', [.anchor id body path entries'], ?_, redressed⟩
      simpa [Dressing.slotsAll, Dressing.slots] using done
  | .element id tag source attributes children, d, claims, q, front, back, parent, place, held => by
      obtain ⟨⟨e, found, tag_eq, attributes_eq⟩, -, -⟩ := place.stand.1
      obtain ⟨names, readable, worn, -, -⟩ := place.fits.1
      obtain ⟨d₁, e₁, wrote, found₁, tag₁, worn₁, perm, -, first⟩ :=
        spares_attributes claims w.plain place.wellFormed found attributes_eq tag names readable worn
      have inside : InPlace d₁ claims id [] [] ((some (tag, id)).map Prod.fst) children :=
        place.inside first found₁
      have held₁ : Held d₁ id (some (tag, id)) := by
        rintro _ _ ⟨⟩
        exact ⟨rfl, e₁, found₁⟩
      obtain ⟨d₂, claims₂, hs, done, second⟩ := redress_trees w children inside held₁
      refine ⟨d₂, claims₂, [.element id tag source e₁.attributes hs], ?_,
        redressed_element place first found₁ second (tag₁.trans tag_eq) worn₁ ?_⟩
      · rw [Dressing.slots, writeAll_append wrote, done]
        simp [Dressing.slotsAll, Dressing.slots]
      · have same : expandedAttribute (w.plain : Value) = expandedAttribute w :=
          funext fun a => expandedAttribute_relabel Empty.elim w a
        rwa [same] at perm

theorem redress_trees (w : ValueOf Empty) : ∀ (gs : List Dressing) {d : Document} {claims : Claims}
    {q : NodeId} {front back : List NodeId} {parent : Option (String × NodeId)},
    InPlace d claims q front back (parent.map Prod.fst) gs → Held d q parent →
    ∃ d' claims' hs, Slot.writeAll w.plain (Dressing.slotsAll parent gs) ⟨d, claims⟩ =
        ((none, Dressing.slotsAll parent hs), ⟨d', claims'⟩) ∧
      Redressed d d' claims claims' q front back parent w gs hs
  | [], d, claims, q, front, back, parent, place, held =>
      ⟨d, claims, [], rfl, .refl place.wellFormed, rfl, rfl, trivial, trivial, place.kids, nofun, .nil,
        fun _ mem => .inl mem, nofun, nofun, nofun⟩
  | g :: rest, d, claims, q, front, back, parent, place, held => by
      obtain ⟨d₁, claims₁, hs, wrote, first⟩ := redress_tree w g place.head held
      obtain ⟨d₂, claims₂, hs', done, second⟩ :=
        redress_trees w rest (first.tail place held) (first.held_after held)
      have aged := aged_of_writeAll place.wellFormed wrote
      have aged' := aged_of_writeAll first.spares.wellFormed done
      refine ⟨d₂, claims₂, hs ++ hs', ?_, first.append place held second aged aged'⟩
      rw [Dressing.slotsAll, writeAll_append wrote, done, slotsAll_append]

end

end Inlay.Render
