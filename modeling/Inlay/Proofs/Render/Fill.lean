/-
# Proofs.Render.Fill — an anchor filled for the first time

An anchor that remembers nothing takes the trees of its items out of their pots
and puts them, with those it makes, right behind its comment (`update_new`).
Nothing else of what was alive changes.
-/
import Inlay.Proofs.Render.Pot
import Mathlib.Data.List.Flatten

namespace Inlay.Render

set_option autoImplicit false

open Relation Inlay.Document Inlay.Document.Planted Inlay.Markup

variable {d d' : Document} {claims : Claims} {id q x : NodeId} {front back : List NodeId}

/-! ## The trees of pieces -/

/-- The planted trees of a piece. -/
def piecePlants : Pot ⊕ Entry → List Planted
  | .inl pot => pot.plants
  | .inr entry => entry.plants

variable {pieces : List (Pot ⊕ Entry)} {items : List (ItemOf Pot)}

theorem flatMap_pieceNodes (pieces : List (Pot ⊕ Entry)) :
    pieces.flatMap (pieceNodes Pot.roots) = (pieces.flatMap piecePlants).map root := by
  rw [List.map_flatMap]
  refine List.flatMap_congr fun piece _ => ?_
  cases piece <;> rfl

/-- The pieces show what the items say. -/
theorem trees_pieces (shown : List.Forall₂ Shown items pieces) :
    trees (pieces.flatMap piecePlants) = (items.map (ItemOf.map Pot.trees)).flatMap itemTrees := by
  induction shown with
  | nil => rfl
  | @cons item piece items pieces here _ ih =>
      rw [List.flatMap_cons, trees_append, ih, List.map_cons, List.flatMap_cons]
      congr 1
      cases here with
      | nodes pot => rfl
      | made entry shows =>
          obtain ⟨key, plants⟩ := entry
          cases key <;> exact shows

theorem idsAll_pieces : ∀ pieces : List (Pot ⊕ Entry),
    (idsAll (pieces.flatMap piecePlants)).Perm
      ((templatesOf pieces).flatMap (fun pot => idsAll pot.plants) ++
        idsAll ((entriesOf pieces).flatMap (·.plants)))
  | [] => .refl _
  | .inl pot :: rest => by
      have ih := idsAll_pieces rest
      rw [List.flatMap_cons, idsAll_append]
      show (idsAll pot.plants ++ _).Perm ((idsAll pot.plants ++ _) ++ _)
      rw [List.append_assoc]
      exact ih.append_left _
  | .inr entry :: rest => by
      have ih := idsAll_pieces rest
      rw [List.flatMap_cons, idsAll_append]
      show (idsAll entry.plants ++ _).Perm (_ ++ idsAll (entry.plants ++ _))
      rw [idsAll_append]
      exact (ih.append_left _).trans (List.perm_append_comm_assoc _ _ _)

theorem standAll_pieces (standing : ∀ pot ∈ templatesOf pieces, StandAll d pot.plants)
    (made : StandAll d ((entriesOf pieces).flatMap (·.plants))) :
    StandAll d (pieces.flatMap piecePlants) := by
  refine standAll_iff.mpr fun p mem => ?_
  obtain ⟨piece, there, here⟩ := List.mem_flatMap.mp mem
  cases piece with
  | inl pot =>
      exact standAll_iff.mp (standing pot (List.mem_filterMap.mpr ⟨_, there, rfl⟩)) p here
  | inr entry =>
      refine standAll_iff.mp made p (List.mem_flatMap.mpr ⟨entry, ?_, here⟩)
      exact List.mem_filterMap.mpr ⟨_, there, rfl⟩

/-! ## Gathering -/

/-- The trees of items, in their pots or detached. -/
structure Gathered (d d' : Document) (pots : List Pot) (plants : List Planted) : Prop where
  keeps : Keeps [] d d'
  body : d'.body = d.body
  stand : StandAll d' plants
  nodup : (idsAll plants).Nodup
  origin : ∀ x ∈ idsAll plants, (∃ pot ∈ pots, x ∈ idsAll pot.plants) ∨ d.contains x = false
  parents : ∀ x ∈ plants.map root, ∀ p, x ∈ d'.children p → ∃ pot ∈ pots, p = pot.fragment

theorem idsAll_flatMap_plants (entries : List Entry) :
    idsAll (entries.flatMap (·.plants)) = entries.flatMap fun entry => idsAll entry.plants := by
  induction entries with
  | nil => rfl
  | cons entry rest ih => rw [List.flatMap_cons, idsAll_append, ih, List.flatMap_cons]

theorem layOut_new (wf : WellFormed d) (claims : Claims) (value : ValueOf Pot) {pots : List Pot}
    (listed_eq : listed value = pots) (standing : ∀ pot ∈ pots, pot.Stands d)
    (apart : (pots.flatMap Pot.ids).Nodup) :
    ∃ d' made plants, Anchor.layOut (itemsOf (value.relabel Pot.roots)) [] ⟨d, claims⟩ =
        .ok ⟨plants.map root, made, []⟩ ⟨d', claims⟩ ∧
      trees plants = shown (value.relabel Pot.trees) ∧ Gathered d d' pots plants := by
  obtain ⟨pieces, taken, fresh, rest, d₁, laid, shows, sprouted, used, left⟩ :=
    layOut_ok Pot.roots claims (itemsOf value) [] wf (by simp)
  obtain ⟨rfl, rfl⟩ : taken = [] ∧ rest = [] := List.append_eq_nil_iff.mp left.eq_nil
  rw [List.nil_append] at used
  have templates : templatesOf pieces = pots := by
    rw [templatesOf_eq shows, filterMap_itemsOf, listed_eq]
  have keeps : Keeps [] d d₁ := .of_sprouted sprouted
  have standing₁ : ∀ pot ∈ pots, pot.Stands d₁ :=
    fun pot mem => (standing pot mem).keeps keeps (by simp)
  have made : (idsAll ((entriesOf pieces).flatMap (·.plants))).Perm (idsAll (fresh.flatMap (·.plants))) := by
    rw [idsAll_flatMap_plants, idsAll_flatMap_plants]
    exact used.symm.flatMap_right _
  have ids := (templates ▸ idsAll_pieces pieces).trans (made.append_left _)
  have origin : ∀ x ∈ idsAll (pieces.flatMap piecePlants),
      (∃ pot ∈ pots, x ∈ idsAll pot.plants) ∨ x ∈ idsAll (fresh.flatMap (·.plants)) := by
    intro x mem
    rcases List.mem_append.mp (ids.mem_iff.mp mem) with mem | mem
    · exact .inl (List.mem_flatMap.mp mem)
    · exact .inr mem
  refine ⟨d₁, (entriesOf pieces).map Entry.remembered, pieces.flatMap piecePlants, ?_, ?_, keeps,
    sprouted.body, ?_, ?_, ?_, ?_⟩
  · rw [itemsOf_relabel, ← flatMap_pieceNodes]
    exact laid
  · rw [trees_pieces shows, ← itemsOf_relabel, flatMap_itemTrees]
  · refine standAll_pieces (fun pot mem => ?_) ?_
    · rw [templates] at mem
      exact (standing₁ pot mem).stand
    · refine standAll_iff.mpr fun p mem => standAll_iff.mp sprouted.stand p ?_
      obtain ⟨entry, there, here⟩ := List.mem_flatMap.mp mem
      exact List.mem_flatMap.mpr ⟨entry, used.mem_iff.mpr there, here⟩
  · refine ids.nodup_iff.mpr (List.nodup_append.mpr ⟨?_, sprouted.nodup, ?_⟩)
    · refine apart.sublist (List.Sublist.flatMap_right pots fun pot _ => ?_)
      exact List.sublist_cons_self _ _
    · rintro x mem y new rfl
      obtain ⟨pot, there, here⟩ := List.mem_flatMap.mp mem
      have live := (standing pot there).stand.contains x here
      rw [sprouted.fresh x new] at live
      cases live
  · exact fun x mem => (origin x mem).imp_right (sprouted.fresh x)
  · intro x mem p child
    rw [← flatMap_pieceNodes] at mem
    obtain ⟨piece, there, here⟩ := List.mem_flatMap.mp mem
    cases piece with
    | inl pot =>
        have mine : pot ∈ pots := templates ▸ List.mem_filterMap.mpr ⟨_, there, rfl⟩
        refine ⟨pot, mine, keeps.wellFormed.linked.parent_unique child ?_⟩
        rw [(standing₁ pot mine).kids]
        exact here
    | inr entry =>
        have mine : entry ∈ fresh := used.mem_iff.mpr (List.mem_filterMap.mpr ⟨_, there, rfl⟩)
        have isRoot : x ∈ (fresh.flatMap (·.plants)).map root := by
          rw [List.map_flatMap]
          exact List.mem_flatMap.mpr ⟨entry, mine, here⟩
        have loose := parent?_of_sprouted wf sprouted isRoot
        rw [keeps.wellFormed.parent_iff.mpr child] at loose
        cases loose

/-! ## Filling -/

/-- What stands behind the comment once a new anchor is filled. -/
structure Filled (d d' : Document) (q id : NodeId) (front back : List NodeId) (pots : List Pot)
    (plants : List Planted) : Prop where
  keeps : Keeps (q :: pots.flatMap Pot.ids) d d'
  content : ∀ x, d.contains x = true → d'.content? x = d.content? x
  stand : StandAll d' plants
  kids : d'.children q = front ++ id :: plants.map root ++ back
  origin : ∀ x ∈ idsAll plants, x ∈ pots.flatMap Pot.ids ∨ d.contains x = false

/-- Trees that a node does not stand in can be moved into that node. -/
theorem movable_roots (wf : WellFormed d) {plants : List Planted} (stand : StandAll d plants)
    (outer : q ∉ idsAll plants) (inner : d.body ∉ plants.map root) :
    ∀ x ∈ plants.map root, Movable d q x := by
  intro x mem
  obtain ⟨p, there, rfl⟩ := List.mem_map.mp mem
  have stands := standAll_iff.mp stand p there
  refine ⟨stands.contains _ root_mem_ids, stands.solid, ?_, fun below => ?_⟩
  · rintro same
    exact inner (same ▸ mem)
  · exact outer (mem_idsAll.mpr ⟨p, there, (stands.mem_ids wf q).mpr below⟩)

/-- Moving detached or potted trees behind a comment. -/
theorem reconcile_new (wf : WellFormed d) (claims : Claims) {plants : List Planted}
    (kids : d.children q = front ++ id :: back) (stand : StandAll d plants)
    (nodup : (idsAll plants).Nodup) (outer : q ∉ idsAll plants)
    (parents : ∀ x ∈ plants.map root, ∀ p, x ∈ d.children p → p ∉ q :: idsAll plants)
    (inner : d.body ∉ plants.map root) (apart : id ∉ idsAll plants) :
    ∃ d' claims', reconcile (.behind id) [] (plants.map root) ⟨d, claims⟩ = .ok () ⟨d', claims'⟩ ∧
      d'.content? = d.content? ∧ WellFormed d' ∧
      d'.children q = front ++ id :: plants.map root ++ back ∧
      ∀ p, p ≠ q → d'.children p = without (plants.map root) d.children p := by
  have leave : leaving d claims (plants.map root) [] = plants.map root := by
    simp [leaving, dropped]
  have up : d.parent? id = some q := wf.parent_iff.mpr (by simp [kids])
  obtain ⟨d', claims', done, becomes, -⟩ := reconcile_behind wf claims up
    (by rw [leave]; exact fun mem => apart ((map_root_sublist _).subset mem)) List.not_mem_nil
    (movable_roots wf stand outer inner)
  rw [leave] at becomes
  refine ⟨d', claims', done, becomes.content, becomes.wellFormed, ?_, fun p ne => ?_⟩
  · rw [becomes.children]
    have stays : without (plants.map root) d.children q = front ++ id :: back := by
      rw [without, kids]
      refine List.filter_eq_self.mpr fun x mem => ?_
      simp only [decide_eq_true_eq]
      exact fun isRoot => parents x isRoot q (kids ▸ mem) List.mem_cons_self
    have once := wf.nodup q
    rw [kids] at once
    have roots : (plants.map root).dedup = plants.map root :=
      List.dedup_eq_self.mpr (nodup.sublist (map_root_sublist _))
    simp only [if_true]
    rw [stays, insertBehind_split _ once, roots]
  · rw [becomes.children]
    exact if_neg ne

theorem update_new (wf : WellFormed d) (claims : Claims) (kids : d.children q = front ++ id :: back)
    (value : Option (ValueOf Pot)) {pots : List Pot} (listed_eq : listed (value.getD .null) = pots)
    (standing : ∀ pot ∈ pots, pot.Stands d) (apart : (q :: id :: pots.flatMap Pot.ids).Nodup) :
    ∃ d' claims' made plants,
      (Anchor.new id).update (value.map (ValueOf.relabel Pot.roots)) ⟨d, claims⟩ =
        .ok ⟨id, plants.map root, made⟩ ⟨d', claims'⟩ ∧
      trees plants = shown ((value.getD .null).relabel Pot.trees) ∧
      Filled d d' q id front back pots plants := by
  obtain ⟨outer, apart⟩ := List.nodup_cons.mp apart
  obtain ⟨aside, apart⟩ := List.nodup_cons.mp apart
  simp only [List.mem_cons, not_or] at outer
  have live : d.contains id = true := wf.contains_child (p := q) (by simp [kids])
  have liveQ : d.contains q = true := wf.contains_parent (c := id) (by simp [kids])
  have fragments : ∀ pot ∈ pots, pot.fragment ∈ pots.flatMap Pot.ids := fun pot mem =>
    List.mem_flatMap.mpr ⟨pot, mem, List.mem_cons_self⟩
  obtain ⟨d₁, made, plants, laid, shows, gathered⟩ := layOut_new wf claims _ listed_eq standing apart
  have wf₁ := gathered.keeps.wellFormed
  have kids₁ : d₁.children q = front ++ id :: back := by
    rw [gathered.keeps.children q liveQ (by simp), kids]
  have origin : ∀ x ∈ idsAll plants, x ∈ pots.flatMap Pot.ids ∨ d.contains x = false := by
    intro x mem
    rcases gathered.origin x mem with ⟨pot, there, here⟩ | new
    · exact .inl (List.mem_flatMap.mpr ⟨pot, there, List.mem_cons_of_mem _ here⟩)
    · exact .inr new
  have elsewhere : ∀ x, d.contains x = true → x ∉ pots.flatMap Pot.ids → x ∉ idsAll plants := by
    intro x alive away mem
    rcases origin x mem with old | new
    · exact away old
    · rw [alive] at new
      cases new
  -- the fragments do not stand among the trees
  have fragment_out : ∀ pot ∈ pots, pot.fragment ∉ idsAll plants := by
    intro pot there mem
    refine not_fragment_of_standAll gathered.stand _ mem ?_
    exact ((standing pot there).keeps gathered.keeps (by simp)).isFragment
  have inner : d₁.body ∉ plants.map root := by
    intro mem
    rw [gathered.body] at mem
    rcases gathered.origin _ ((map_root_sublist _).subset mem) with ⟨pot, there, here⟩ | new
    · exact (standing pot there).body_not_mem wf here
    · rw [wf.body_contains] at new
      cases new
  obtain ⟨d₂, claims₂, placed, content, wf₂, kids₂, others⟩ := reconcile_new wf₁ claims kids₁
    gathered.stand gathered.nodup (elsewhere q liveQ outer.2)
    (fun x isRoot p child => by
      obtain ⟨pot, there, rfl⟩ := gathered.parents x isRoot p child
      rw [List.mem_cons, not_or]
      exact ⟨fun same => outer.2 (same ▸ fragments pot there), fragment_out pot there⟩)
    inner (elsewhere id live aside)
  -- only the fragments lose children
  have untouched : ∀ p, p ≠ q → (∀ pot ∈ pots, p ≠ pot.fragment) → d₂.children p = d₁.children p := by
    intro p ne away
    rw [others p ne]
    refine List.filter_eq_self.mpr fun x child => ?_
    simp only [decide_eq_true_eq]
    intro isRoot
    obtain ⟨pot, there, same⟩ := gathered.parents x isRoot p child
    exact away pot there same
  have contents : ∀ x, d.contains x = true → d₂.content? x = d.content? x := fun x alive => by
    rw [content, gathered.keeps.content x alive (by simp)]
  refine ⟨d₂, claims₂, made, plants, ?_, shows, ⟨wf₂, ?_, ?_, ?_⟩, contents, ?_, kids₂, origin⟩
  · have same : (value.map (ValueOf.relabel Pot.roots)).getD .null =
        (value.getD .null).relabel Pot.roots := by
      cases value <;> rfl
    rw [Anchor.update, same]
    exact (bind_ok laid).trans (bind_ok placed)
  · intro x alive
    exact (contains_congr content x).trans (gathered.keeps.alive x alive)
  · exact fun x alive _ => contents x alive
  · intro x alive away
    simp only [List.mem_cons, not_or] at away
    rw [untouched x away.1 fun pot there same => away.2 (same ▸ fragments pot there)]
    exact gathered.keeps.children x alive (by simp)
  · refine gathered.stand.congr fun x mem => ⟨congrFun content x, untouched x ?_ ?_⟩
    · rintro rfl
      exact elsewhere x liveQ outer.2 mem
    · rintro pot there rfl
      exact fragment_out pot there mem

end Inlay.Render
