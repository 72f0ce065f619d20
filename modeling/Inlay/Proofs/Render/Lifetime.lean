/-
# Proofs.Render.Lifetime — an instance from one update to the next

An instance lives on while contexts are written to it and others work on the
document around it (`Lived`); they may move its top-level nodes, as a run. At
every time it is a dressing of the prototype it was made from (`Standing`).
Writing a context without templates makes it show that context, whatever it
showed before, and leaves all other nodes as they are (`update_of_lived`).
-/
import Inlay.Proofs.Render.Behind
import Inlay.Proofs.Render.FirstPass

namespace Inlay.Render

set_option autoImplicit false

open Relation Inlay.Document Inlay.Document.Planted Inlay.Markup
open Inlay.Template hiding root

/-! ## Instances that live on -/

namespace Instance

/-- The nodes that the instance shows behind a comment. -/
def behind (inst : Instance) (x : NodeId) : List NodeId := behindIn inst.slots x

/-- The node is at or below one of those the instance stands for. -/
def Owns (inst : Instance) (d : Document) (x : NodeId) : Prop := ∃ y ∈ inst.nodes, Below d x y

theorem nodes_eq_behind (inst : Instance) : inst.nodes = inst.tops.flatMap fun y => y :: inst.behind y := by
  rw [nodes]
  refine List.flatMap_congr fun y _ => ?_
  rw [behind, behindIn]
  cases inst.slots.findSome? (Slot.anchorAt? y) <;> rfl

end Instance

/-- Others worked on a document and left an instance alone; they may have moved
its top-level nodes together. -/
structure Undisturbed (inst : Instance) (d d' : Document) : Prop where
  wellFormed : WellFormed d'
  content : ∀ x, inst.Owns d x → d'.content? x = d.content? x
  children : ∀ x, inst.Owns d x → d'.children x = d.children x
  placed : ∃ q front back, d'.contains q = true ∧ d'.children q = front ++ inst.nodes ++ back

/-- What becomes of an instance and its document once it is made, by contexts
without templates written to it, each with new claims, and by others. -/
inductive Lived (prototype : Prototype) (born : Document) (first : Instance) : Instance → Document → Prop
  | made {d : Document} {claims claims' : Claims} : WellFormed d →
      Instance.ofPrototype prototype ⟨d, claims⟩ = .ok first ⟨born, claims'⟩ →
      Lived prototype born first first born
  | updated {inst inst' : Instance} {d d' : Document} {claims : Claims} {fault : Option Fault}
      (context : ValueOf Empty) : Lived prototype born first inst d →
      inst.update context.plain ⟨d, []⟩ = ((fault, inst'), ⟨d', claims⟩) →
      Lived prototype born first inst' d'
  | elsewhere {inst : Instance} {d d' : Document} : Lived prototype born first inst d →
      Undisturbed inst d d' → Lived prototype born first inst d'

/-- An instance shows a context in a document. It was made as `first` in `born`. -/
structure Showing (content : List Tree) (born : Document) (first inst : Instance) (context : ValueOf Empty)
    (d : Document) : Prop where
  /-- The nodes read back as the expansion, up to the order of attributes. -/
  trees : ∃ ts, inst.nodes.map d.tree? = ts.map some ∧ AlikeAll ts (expanded context.plain none content)
  /-- At the top level every node of the prototype is followed by what is behind it. -/
  nodes : inst.nodes = first.tops.flatMap fun y => y :: inst.behind y
  /-- Below a node of the prototype so is every child of it. -/
  children : ∀ x, first.Owns born x → d.children x = (born.children x).flatMap fun y => y :: inst.behind y
  unbound : ∀ x, first.Owns born x → x ∉ writtenBy first.slots → d.content? x = born.content? x
  /-- What is behind the comment of an anchor is what its value shows. -/
  regions : ∀ path a, Slot.anchor path a ∈ first.slots →
    (inst.behind a.comment).map d.tree? = (shown (valueAt context.plain path)).map some
  values : ∀ element pattern, Slot.textareaValue element pattern ∈ first.slots →
    d.property? element "value" = some (.text (pattern.render context))

/-- What an update of an instance does to the nodes around it. -/
structure Confined (inst inst' : Instance) (d d' : Document) : Prop where
  content : ∀ x, d.contains x = true → ¬ inst.Owns d x → d'.content? x = d.content? x
  place : ∃ q front back, d.children q = front ++ inst.nodes ++ back ∧
    d'.children q = front ++ inst'.nodes ++ back ∧
    ∀ x, d.contains x = true → ¬ inst.Owns d x → x ≠ q → d'.children x = d.children x
  /-- No anchor gains a node of another one, unless generations came back. -/
  apart : Bounded d' → ∀ y z, y ≠ z → ∀ x ∈ inst.behind y, x ∉ inst'.behind z

/-! ## The dressing of an instance -/

variable {d d' born : Document} {x q : NodeId} {front back : List NodeId} {content : List Tree}
  {rs ps : List Planted} {gs hs : List Dressing} {first inst inst' : Instance} {claims : Claims}
  {context : ValueOf Empty}

/-- The trees an instance was made of. -/
structure Birth (content : List Tree) (rs : List Planted) (born : Document) (first : Instance) : Prop where
  trees : trees rs = content
  wellFormed : WellFormed born
  stand : StandAll born (clearedPlants rs)
  nodup : (idsAll rs).Nodup
  tops : first.tops = rs.map root
  slots : first.slots = slotsAll .blank none rs

/-- The instance is a dressing of its prototype. -/
structure Outfit (rs : List Planted) (inst : Instance) (gs : List Dressing) : Prop where
  basis : Dressing.basisAll gs = rs
  tops : inst.tops = rs.map root
  slots : inst.slots = Dressing.slotsAll none gs

/-- The instance is a dressing of its prototype and stands as a run of siblings. -/
structure Standing (rs : List Planted) (born : Document) (first inst : Instance) (d : Document)
    (gs : List Dressing) (q : NodeId) (front back : List NodeId) : Prop where
  basis : Dressing.basisAll gs = rs
  tops : inst.tops = rs.map root
  slots : inst.slots = Dressing.slotsAll none gs
  place : InPlace d [] q front back none gs
  unbound : ∀ x ∈ idsAll rs, x ∉ writtenBy first.slots → d.content? x = born.content? x

/-- Siblings and what is below them are apart from the node above. -/
theorem apart_of_kids (wf : WellFormed d) (kids : d.children q = front ++ ps.map root ++ back)
    (stand : StandAll d ps) : (q :: idsAll ps).Nodup := by
  have apart : Apart d (ps.map root) := by
    have all := Apart.children wf.linked wf.acyclic (List.pairwise_singleton _ q)
    rw [List.append_nil, kids] at all
    exact all.sublist ((List.sublist_append_right _ _).trans (List.sublist_append_left _ _))
  refine List.nodup_cons.mpr ⟨fun mem => ?_, stand.nodup wf apart⟩
  obtain ⟨p, there, below⟩ := (stand.mem_idsAll wf q).mp mem
  refine wf.acyclic.not_below (wf.parent_iff.mpr ?_) below
  rw [kids]
  simp only [List.mem_append]
  exact .inl (.inr (List.mem_map_of_mem there))

namespace Outfit

variable (outfit : Outfit rs inst gs) (nodup : (idsAll (Dressing.plantsAll gs)).Nodup)
include outfit nodup

omit outfit in
theorem nodup_basis : (idsAll (Dressing.basisAll gs)).Nodup :=
  (List.nodup_append.mp ((Dressing.idsAll_plantsAll_perm gs).nodup_iff.mp nodup)).1

theorem remembers : RemembersAll inst.behind gs := by
  have same : inst.behind = behindIn (Dressing.slotsAll none gs) := by
    funext x
    rw [Instance.behind, outfit.slots]
  rw [same]
  exact remembersAll_of_slots none (nodup_basis nodup) fun _ _ => rfl

theorem nodes : inst.nodes = (Dressing.plantsAll gs).map root := by
  rw [map_root_of_remembers (outfit.remembers nodup), Instance.nodes_eq_behind, outfit.tops, ← outfit.basis,
    Dressing.map_root_basisAll]

theorem owns_iff (wf : WellFormed d) (stand : StandAll d (Dressing.plantsAll gs)) :
    inst.Owns d x ↔ x ∈ idsAll (Dressing.plantsAll gs) := by
  rw [stand.mem_idsAll wf, Instance.Owns, outfit.nodes nodup]
  simp only [List.mem_map, exists_exists_and_eq_and]

end Outfit

namespace Standing

theorem outfit (standing : Standing rs born first inst d gs q front back) : Outfit rs inst gs :=
  ⟨standing.basis, standing.tops, standing.slots⟩

theorem nodup (standing : Standing rs born first inst d gs q front back) :
    (idsAll (Dressing.plantsAll gs)).Nodup := (List.nodup_cons.mp standing.place.apart).2

theorem remembers (standing : Standing rs born first inst d gs q front back) :
    RemembersAll inst.behind gs := standing.outfit.remembers standing.nodup

theorem nodes (standing : Standing rs born first inst d gs q front back) :
    inst.nodes = (Dressing.plantsAll gs).map root := standing.outfit.nodes standing.nodup

theorem owns_iff (standing : Standing rs born first inst d gs q front back) :
    inst.Owns d x ↔ x ∈ idsAll (Dressing.plantsAll gs) :=
  standing.outfit.owns_iff standing.nodup standing.place.wellFormed standing.place.stand

theorem mem_behind (standing : Standing rs born first inst d gs q front back) {y : NodeId}
    (mem : x ∈ inst.behind y) : ∃ path a, Slot.anchor path a ∈ Dressing.slotsAll none gs ∧
      a.comment = y ∧ x ∈ a.current := by
  rw [Instance.behind, standing.slots] at mem
  exact mem_behindIn mem

/-- What is behind the comment of an anchor is what the anchor shows. -/
theorem behind_anchor (standing : Standing rs born first inst d gs q front back) {path : Path} {a : Anchor}
    (mem : Slot.anchor path a ∈ Dressing.slotsAll none gs) : inst.behind a.comment = a.current := by
  rw [Instance.behind, standing.slots]
  exact behindIn_anchor ((Outfit.nodup_basis standing.nodup).sublist (comments_slotsAll gs none)) mem

/-- Others leave it standing. -/
theorem undisturbed (standing : Standing rs born first inst d gs q front back)
    (undisturbed : Undisturbed inst d d') :
    ∃ q front back, Standing rs born first inst d' gs q front back := by
  obtain ⟨q', front', back', live, kids⟩ := undisturbed.placed
  have stand : StandAll d' (Dressing.plantsAll gs) := standing.place.stand.congr fun x mem =>
    ⟨undisturbed.content x (standing.owns_iff.mpr mem), undisturbed.children x (standing.owns_iff.mpr mem)⟩
  rw [standing.nodes] at kids
  refine ⟨q', front', back', standing.basis, standing.tops, standing.slots, ?_, fun x mem free => ?_⟩
  · exact
      { wellFormed := undisturbed.wellFormed
        live := live
        kids := kids
        stand := stand
        apart := apart_of_kids undisturbed.wellFormed kids stand
        fits := standing.place.fits
        single := nofun
        unclaimed := fun _ _ => List.not_mem_nil }
  · have owned : inst.Owns d x := by
      rw [standing.owns_iff, Dressing.mem_ids_plantsAll, standing.basis]
      exact .inl mem
    rw [undisturbed.content x owned, standing.unbound x mem free]

end Standing

/-! ## New instances -/

theorem exists_birth {d₀ : Document} {claims' : Claims} {prototype : Prototype}
    (compiled : CompiledFrom prototype content) (wf : WellFormed d₀)
    (made : Instance.ofPrototype prototype ⟨d₀, claims⟩ = .ok first ⟨born, claims'⟩) :
    ∃ rs, Birth content rs born first ∧ Potted d₀ born first.fragment (clearedPlants rs) := by
  obtain ⟨fragment, rs, d', done, source, potted⟩ := ofPrototype_ok wf claims compiled
  rw [done] at made
  cases made
  refine ⟨rs, ⟨source, potted.wellFormed, potted.stand, ?_, rfl, rfl⟩, potted⟩
  exact (List.nodup_cons.mp (by simpa using potted.nodup)).2

theorem Birth.standing {d₀ : Document} (birth : Birth content rs born first)
    (potted : Potted d₀ born first.fragment (clearedPlants rs)) (legible : LegibleAll content)
    (tidy : TidyAll content) (slim : EverywhereAll Slim content) :
    Standing rs born first first born (Dressing.ofPlantedAll rs) first.fragment [] [] := by
  obtain ⟨source, wf, stand, nodup, tops, slots⟩ := birth
  subst source
  have plants := Dressing.plantsAll_ofPlantedAll legible
  have kids : born.children first.fragment = [] ++ (clearedPlants rs).map root ++ [] := by
    rw [potted.kids, List.nil_append, List.append_nil]
  refine ⟨Dressing.basisAll_ofPlantedAll rs, tops, ?_, ?_, fun _ _ _ => rfl⟩
  · rw [slots, Dressing.slotsAll_ofPlantedAll]
  · exact
      { wellFormed := wf
        live := contains_iff_content?.mpr ⟨_, potted.isFragment⟩
        kids := by rw [plants, kids]
        stand := by rwa [plants]
        apart := by
          rw [plants]
          exact apart_of_kids wf kids stand
        fits := Dressing.fitsAll_ofPlantedAll legible tidy slim
        single := nofun
        unclaimed := fun _ _ => List.not_mem_nil }

theorem Birth.owns_iff (birth : Birth content rs born first) : first.Owns born x ↔ x ∈ idsAll rs := by
  obtain ⟨source, wf, stand, nodup, tops, slots⟩ := birth
  have nodes : first.nodes = (clearedPlants rs).map root := by
    obtain ⟨fragment, tops', slots'⟩ := first
    subst tops slots
    rw [nodes_eq fun _ _ => rfl, map_root_clearedPlants]
    exact List.map_eq_flatMap.symm
  rw [Instance.Owns, nodes, ← idsAll_clearedPlants, stand.mem_idsAll wf]
  simp only [List.mem_map, exists_exists_and_eq_and]

/-! ## Updates -/

/-- A context is written to an instance that stands. -/
theorem Standing.update (birth : Birth content rs born first)
    (standing : Standing rs born first inst d gs q front back) (context : ValueOf Empty) :
    ∃ inst' d' claims hs, inst.update context.plain ⟨d, []⟩ = ((none, inst'), ⟨d', claims⟩) ∧
      Redressed d d' [] claims q front back none context gs hs ∧
      Standing rs born first inst' d' hs q front back := by
  have held : Held d q none := fun _ _ same => by cases same
  obtain ⟨d', claims, hs, done, redressed⟩ := redress_trees context gs standing.place held
  have apart := standing.place.apart
  have wf := redressed.spares.wellFormed
  have written : writtenBy (Dressing.slotsAll none gs) = writtenBy first.slots := by
    have same : Dressing.basisAll gs = Dressing.basisAll (Dressing.ofPlantedAll rs) := by
      rw [standing.basis, Dressing.basisAll_ofPlantedAll]
    rw [writtenBy_slotsAll same, Dressing.slotsAll_ofPlantedAll, birth.slots]
  refine ⟨{ inst with slots := Dressing.slotsAll none hs }, d', claims, hs, ?_, redressed, ?_⟩
  · rw [Instance.update, standing.slots, done]
  · refine ⟨redressed.basis.trans standing.basis, standing.tops, rfl, ?_, fun x mem free => ?_⟩
    · exact
        { wellFormed := wf
          live := by
            have holder := redressed.holder
            obtain ⟨c, found⟩ := contains_iff_content?.mp standing.place.live
            rw [found] at holder
            obtain ⟨c', found', -⟩ := Option.map_eq_some_iff.mp holder
            exact contains_iff_content?.mpr ⟨c', found'⟩
          kids := redressed.kids
          stand := redressed.stand
          apart := apart_of_kids wf redressed.kids redressed.stand
          fits := redressed.fits
          single := fun area => by cases area
          unclaimed := fun _ _ => List.not_mem_nil }
    · have inside : x ∈ idsAll (Dressing.plantsAll gs) := by
        rw [Dressing.mem_ids_plantsAll, standing.basis]
        exact .inl mem
      have off : x ∉ writtenBy (Dressing.slotsAll none gs) ++ idsAll (plantsOf (Dressing.entriesInAll gs)) := by
        rw [written, List.mem_append, not_or]
        refine ⟨free, fun entry => ?_⟩
        have nodup := (Dressing.idsAll_plantsAll_perm gs).nodup_iff.mp (List.nodup_cons.mp apart).2
        rw [standing.basis] at nodup
        exact (List.nodup_append.mp nodup).2.2 x mem x entry rfl
      rw [redressed.spares.content x (standing.place.stand.contains x inside) off,
        standing.unbound x mem free]

/-- What stands reads back as its trees. -/
theorem map_tree?_of_stand (wf : WellFormed d) (stand : StandAll d ps) :
    (ps.map root).map d.tree? = (trees ps).map some := by
  induction ps with
  | nil => rfl
  | cons p rest ih => simp only [List.map_cons, trees, stand.1.tree?_eq wf, ih stand.2]

/-! ## All updates -/

section Lives

variable {name source : String} {template : Template} {selection : Option String} {prototype : Prototype}

/-- An instance that lives is a dressing of what it was made of. -/
theorem exists_standing (compiled : Template.compile name source = .ok template)
    (known : template.prototype? selection = some prototype)
    (lived : Lived prototype born first inst d) :
    ∃ rs, Birth (Library.ofSource source selection) rs born first ∧
      ∃ gs q front back, Standing rs born first inst d gs q front back := by
  have compiled := compiled_of_compile compiled
  have from_ := compiled.of_selection known
  induction lived with
  | made wf done =>
      obtain ⟨rs, birth, potted⟩ := exists_birth from_ wf done
      exact ⟨rs, birth, _, _, _, _, birth.standing potted (legible_of_bindings from_.bound)
        (compiled.tidy selection) (slim_ofSource source selection)⟩
  | updated context _ done ih =>
      obtain ⟨rs, birth, gs, q, front, back, standing⟩ := ih
      obtain ⟨inst', d', claims, hs, done', -, standing'⟩ := standing.update birth context
      rw [done'] at done
      cases done
      exact ⟨rs, birth, hs, q, front, back, standing'⟩
  | elsewhere _ undisturbed ih =>
      obtain ⟨rs, birth, gs, q, front, back, standing⟩ := ih
      obtain ⟨q', front', back', standing'⟩ := standing.undisturbed undisturbed
      exact ⟨rs, birth, gs, q', front', back', standing'⟩

/-- What is dressed with a context shows it. -/
theorem Standing.showing (birth : Birth content rs born first)
    (standing : Standing rs born first inst d gs q front back)
    (redressed : Redressed d d' [] claims q front back none context gs hs)
    (standing' : Standing rs born first inst' d' hs q front back) :
    Showing content born first inst' context d' := by
  have wf := redressed.spares.wellFormed
  constructor
  · refine ⟨trees (Dressing.plantsAll hs), ?_, ?_⟩
    · rw [standing'.nodes, map_tree?_of_stand wf redressed.stand]
    · have alike := redressed.alike
      rwa [standing.basis, birth.trees] at alike
  · rw [Instance.nodes_eq_behind, standing'.tops, birth.tops]
  · intro x owned
    rw [birth.owns_iff] at owned
    have stand := birth.stand
    rw [← standing'.basis] at stand owned
    exact children_of_remembers wf birth.wellFormed standing'.remembers redressed.stand stand x owned
  · intro x owned free
    exact standing'.unbound x (birth.owns_iff.mp owned) free
  · intro path a mem
    -- the anchor is still there, and found by its comment
    have places := places_slotsAll none redressed.fits
    rw [standing'.basis, ← birth.slots] at places
    have here : (path, a.comment) ∈
        (anchorsOf first.slots).map fun pair => (pair.1, pair.2.comment) :=
      List.mem_map.mpr ⟨(path, a), mem_anchorsOf.mpr mem, rfl⟩
    rw [← places] at here
    obtain ⟨⟨path', b⟩, there, same⟩ := List.mem_map.mp here
    simp only [Prod.mk.injEq] at same
    obtain ⟨rfl, comment⟩ := same
    rw [mem_anchorsOf] at there
    obtain ⟨entries, b_eq, shows, stands⟩ := redressed.regions path' b there
    have current : b.current = (plantsOf entries).map root := by
      rw [b_eq]
      rfl
    rw [← comment, standing'.behind_anchor there, current, map_tree?_of_stand wf (stands d' redressed.stand),
      shows]
  · intro element pattern mem
    have same : Dressing.basisAll (Dressing.ofPlantedAll rs) = Dressing.basisAll gs := by
      rw [standing.basis, Dressing.basisAll_ofPlantedAll]
    rw [birth.slots, ← Dressing.slotsAll_ofPlantedAll] at mem
    exact (redressed.values element pattern (textareaValue_mem same mem)).property?

/-- What is dressed leaves the nodes around it. -/
theorem Standing.confined (standing : Standing rs born first inst d gs q front back)
    (redressed : Redressed d d' [] claims q front back none context gs hs)
    (standing' : Standing rs born first inst' d' hs q front back) : Confined inst inst' d d' := by
  have kids := standing.place.kids
  have kids' := redressed.kids
  rw [← standing.nodes] at kids
  rw [← standing'.nodes] at kids'
  constructor
  · intro x live foreign
    refine redressed.spares.content x live fun mem => foreign ?_
    rw [standing.owns_iff, Dressing.mem_ids_plantsAll]
    rcases List.mem_append.mp mem with written | entry
    · rcases mem_writtenBy written with basis | area
      · exact .inl basis
      · cases area
    · exact .inr entry
  · refine ⟨q, front, back, kids, kids', fun x live foreign ne => ?_⟩
    refine redressed.spares.children x live fun mem => ?_
    rcases List.mem_cons.mp mem with same | inside
    · exact ne same
    · exact foreign (standing.owns_iff.mpr inside)
  · intro bounded y z ne x here there
    obtain ⟨path, a, mem, rfl, shown⟩ := standing.mem_behind here
    obtain ⟨path', b, mem', rfl, shown'⟩ := standing'.mem_behind there
    obtain ⟨old, before, same, from_⟩ := redressed.own bounded path' b mem'
    rcases from_ x shown' with old_ | dead
    · exact disjoint_current standing.nodup mem before (fun comment => ne (comment.trans same)) shown old_
    · obtain ⟨-, entries, a_eq, stands⟩ := Dressing.anchor_mem_all (d := d) mem
      rw [a_eq] at shown
      rw [(stands standing.place.stand).contains x ((map_root_sublist _).subset shown)] at dead
      cases dead

/-- Whatever was written to an instance before, a context without templates that
is written to it is shown, and nothing else changes. -/
theorem update_of_lived (compiled : Template.compile name source = .ok template)
    (known : template.prototype? selection = some prototype)
    (lived : Lived prototype born first inst d) (context : ValueOf Empty) :
    ∃ inst' d' claims, inst.update context.plain ⟨d, []⟩ = ((none, inst'), ⟨d', claims⟩) ∧
      Showing (Library.ofSource source selection) born first inst' context d' ∧ Confined inst inst' d d' := by
  obtain ⟨rs, birth, gs, q, front, back, standing⟩ := exists_standing compiled known lived
  obtain ⟨inst', d', claims, hs, done, redressed, standing'⟩ := standing.update birth context
  exact ⟨inst', d', claims, done, standing.showing birth redressed standing',
    standing.confined redressed standing'⟩

end Lives

namespace Neighbours

/-- Two anchors side by side. -/
def source : String := "<p title=\"${off}\">Hi ${t}</p><!--${u}--><!--${v}--><i></i>"

def earlier : ValueOf Empty :=
  .map [("t", .bool false), ("u", .string "<b>1</b>"), ("v", .list [.string "<b>1</b>", .bool true])]

def later : ValueOf Empty :=
  .map [("off", .bool true), ("t", .string "T"), ("u", .list [.string "<b>1</b>", .string "1 < 2"]), ("v", .null)]

end Neighbours

theorem update_of_lived_neighbours : ∃ (template : Template) (prototype : Prototype) (born d : Document)
    (first inst inst' : Instance) (d' : Document) (claims : Claims) (ts : List Tree),
    Template.compile "page" Neighbours.source = .ok template ∧ template.prototype? none = some prototype ∧
      Lived prototype born first inst d ∧
      inst.update Neighbours.later.plain ⟨d, []⟩ = ((none, inst'), ⟨d', claims⟩) ∧
      inst'.nodes.map d'.tree? = ts.map some ∧
      AlikeAll ts (expanded Neighbours.later.plain none (Library.ofSource Neighbours.source none)) ∧
      Tree.writeAll true none (expanded Neighbours.later.plain none (Library.ofSource Neighbours.source none)) =
        "<p title=\"\">Hi T</p><!----><b>1</b>1 &lt; 2<!----><i></i>" := by
  have compiles : (Template.compile "page" Neighbours.source).toOption.isSome = true := by decide +kernel
  cases compiled : Template.compile "page" Neighbours.source with
  | error fault =>
      rw [compiled] at compiles
      cases compiles
  | ok template =>
      have known : template.prototype? none = some template.root := rfl
      obtain ⟨fragment, rs, born, made, -, -⟩ :=
        ofPrototype_ok wellFormed_new [] ((compiled_of_compile compiled).of_selection known)
      have start : Lived template.root born _ _ born := .made wellFormed_new made
      obtain ⟨inst, d, claims, done, -, -⟩ := update_of_lived compiled known start Neighbours.earlier
      have lived : Lived template.root born _ inst d := .updated Neighbours.earlier start done
      obtain ⟨inst', d', claims', done', showing, -⟩ :=
        update_of_lived compiled known lived Neighbours.later
      obtain ⟨ts, reads, alike⟩ := showing.trees
      refine ⟨template, template.root, born, d, _, inst, inst', d', claims', ts, rfl, known, lived, done',
        reads, alike, ?_⟩
      decide +kernel

end Inlay.Render
