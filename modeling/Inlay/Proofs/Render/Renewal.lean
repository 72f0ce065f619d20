/-
# Proofs.Render.Renewal — an update that is not refused

An anchor is updated unless one of the nodes it was given is above its comment
(`Upkeepable.resettled`). Everything else that an edit could object to is settled by
the account: what an anchor moves lives and is no fragment, and what it made itself
has no comment of a prototype below it. The lists of children are then known but for
what was freed (`Resettled.children`).
-/
import Inlay.Proofs.Render.Service

namespace Inlay.Render

set_option autoImplicit false

open Relation Inlay.Document Inlay.Document.Planted

variable {base d d' e : Document} {claims claims' : Claims} {t s : Tenant} {others ts : List Tenant}
  {plot : Plot} {a a' : Anchor} {x y m : NodeId} {value : Value} {pieces : List (List NodeId ⊕ Entry)}
  {taken fresh rest : List Entry} {d₁ d₂ d₃ : Document}

/-! ## Before the nodes are moved -/

theorem contains_above (wf : WellFormed d) (live : d.contains y = true) (below : Below d y x) :
    d.contains x = true := by
  rcases below.cases_child with same | ⟨c, up, -⟩
  · exact same ▸ live
  · exact wf.contains_parent (wf.parent_iff.mp up)

namespace Midway

variable (midway : Midway d d₁ taken fresh rest)
include midway

/-- The way up from what was there before is the way up of before. -/
theorem below (wf : WellFormed d) (live : d.contains y = true) (below : Below d₁ y x) : Below d y x := by
  induction below with
  | refl => exact .refl
  | @tail b c _ step ih =>
      have old := contains_above wf live ih
      have same := (midway.change (fun _ => False) none).parent_eq old ((midway.alive b).mpr (.inl old)) id
      exact ih.tail (same.symm.trans step)

/-- Nothing that was dead was given a name that an anchor remembers. -/
theorem leaving_eq {next previous : List NodeId} (stale : ∀ x ∈ previous, d.contains x = false → d₁.contains x = false) :
    leaving d₁ claims next previous = leaving d claims next previous := by
  have same : dropped d₁ claims next previous = dropped d claims next previous := by
    refine List.filter_congr fun x mem => ?_
    have alive : d₁.contains x = d.contains x := by
      cases live : d.contains x with
      | false => exact stale x mem live
      | true => exact (midway.alive x).mpr (.inl live)
    rw [alive]
  rw [leaving, same, leaving]

end Midway

namespace Upkeepable

variable (able : Upkeepable base d e t others plot a value claims)
include able

/-- What is to be placed can be, where the comment stands. -/
theorem movable (midway : Midway d d₁ taken fresh rest) (body : d₁.body = d.body)
    (used : (taken ++ fresh).Perm (entriesOf pieces)) (left : (taken ++ rest).Perm plot.entries)
    (shown : List.Forall₂ Shown (itemsOf value) pieces) (up : d.parent? a.comment = some m)
    (clear : ∀ nodes ∈ listed value, ∀ x ∈ nodes, ¬ Below d m x) (mem : x ∈ pieces.flatMap (pieceNodes id)) :
    Movable d₁ m x := by
  have wf := able.household.wellFormed
  have liveM : d.contains m = true := wf.contains_parent (wf.parent_iff.mp up)
  obtain ⟨live₁, may, solid, -⟩ := able.next_movable midway used left shown mem
  refine ⟨live₁, solid, ?_, fun below₁ => ?_⟩
  · rintro rfl
    rw [body] at may
    have liveB : d.contains d.body = true := wf.body_contains
    rcases may with root | new | ⟨⟨s, memS, head⟩, -⟩
    · exact able.household.ne_body List.mem_cons_self (Tenant.mem_estate_of_plot able.mem (plot.roots_subset root)) rfl
    · rw [midway.unborn _ (entryRoots_subset _ new)] at liveB
      cases liveB
    · exact able.household.ne_body memS ((able.household.housed s memS).head_mem head) rfl
  · have below := midway.below wf liveM below₁
    have live := contains_above wf liveM below
    rcases mem_pieceNodes.mp mem with own | ⟨nodes, given, here⟩
    · have mine := (entryRoots_perm used).mem_iff.mpr own
      rw [entryRoots_append, List.mem_append] at mine
      rcases mine with old | new
      · have root : x ∈ plot.roots := (entryRoots_perm left).mem_iff.mp (by
          rw [entryRoots_append]
          exact List.mem_append_left _ old)
        obtain ⟨r, there, rfl⟩ := List.mem_map.mp root
        exact able.parent_not_made List.mem_cons_self able.mem up
          ((able.kept.stand.mem_idsAll wf m).mpr ⟨r, there, below⟩)
      · rw [midway.unborn x (entryRoots_subset _ new)] at live
        cases live
    · rw [templatesOf_eq shown, filterMap_itemsOf] at given
      exact clear nodes given x here below

/-- What is not used again stands below nothing that stays. -/
theorem rest_leaves (midway : Midway d d₁ taken fresh rest) (used : (taken ++ fresh).Perm (entriesOf pieces))
    (left : (taken ++ rest).Perm plot.entries) (shown : List.Forall₂ Shown (itemsOf value) pieces)
    (wf₁ : WellFormed d₁) (out : m ∉ entryIds rest) (child : x ∈ d₁.children m) (gone : x ∈ entryIds rest) :
    x ∈ leaving d claims (pieces.flatMap (pieceNodes id)) a.current ∧ x ∉ pieces.flatMap (pieceNodes id) := by
  have stand : StandAll d₁ (rest.flatMap (·.plants)) := standAll_iff.mpr fun r mem =>
    standAll_iff.mp midway.stand r (by
      rw [List.flatMap_append]
      exact List.mem_append_right _ mem)
  have root : x ∈ entryRoots rest := by
    by_contra inner
    obtain ⟨p, there, up⟩ := parent_of_stand wf₁ stand gone inner
    cases (wf₁.parent_iff.mpr child).symm.trans up
    exact out there
  have inPlot : x ∈ plot.roots := (entryRoots_perm left).mem_iff.mp (by
    rw [entryRoots_append]
    exact List.mem_append_right _ root)
  have inT := Tenant.mem_estate_of_plot able.mem (plot.roots_subset inPlot)
  have absent : x ∉ pieces.flatMap (pieceNodes id) := fun new =>
    (able.next_movable midway used left shown new).2.2.2 gone
  refine ⟨List.mem_append_left _ (List.mem_filter.mpr ⟨(able.kept.made a able.isAnchor).2 inPlot, ?_⟩), absent⟩
  have free : x ∉ claims := fun claim => able.unclaimed x claim (plot.roots_subset inPlot)
  simp only [decide_eq_true_eq]
  exact ⟨absent, free, able.household.live List.mem_cons_self inT⟩

end Upkeepable

/-! ## An update -/

/-- The lists of children when some nodes leave their places and others are put
behind a comment that stands in `up`. -/
def regrouped (comment : NodeId) (up : Option NodeId) (new out : List NodeId) (kids : NodeId → List NodeId)
    (p : NodeId) : List NodeId :=
  if up = some p then insertBehind comment new (without out kids p) else without out kids p

theorem mem_insertBehind {comment : NodeId} {new list : List NodeId} (mem : x ∈ insertBehind comment new list) :
    x ∈ list ∨ x ∈ new := by
  obtain ⟨y, inList, here⟩ := List.mem_flatMap.mp mem
  split at here
  · rcases List.mem_cons.mp here with rfl | inNew
    · exact .inl inList
    · exact .inr inNew
  · cases List.mem_singleton.mp here
    exact .inl inList

theorem mem_regrouped {comment : NodeId} {up : Option NodeId} {new out : List NodeId} {kids : NodeId → List NodeId}
    (mem : x ∈ regrouped comment up new out kids m) : x ∈ kids m ∧ x ∉ out ∨ x ∈ new := by
  have stood : ∀ {x}, x ∈ without out kids m → x ∈ kids m ∧ x ∉ out := fun here => by
    obtain ⟨before, keeps⟩ := List.mem_filter.mp here
    exact ⟨before, by simpa using keeps⟩
  rw [regrouped] at mem
  split at mem
  · exact (mem_insertBehind mem).imp_left stood
  · exact .inl (stood mem)

/-- The claims and the lists of children after an update. -/
structure Resettled (a a' : Anchor) (d d' : Document) (claims claims' : Claims) : Prop where
  claimed : ∀ x, x ∈ claims' ↔ x ∈ claims ∨ x ∈ a'.current
  children : ∀ p, d.contains p = true → d'.contains p = true → d'.children p =
    regrouped a.comment (d.parent? a.comment) a'.current.dedup (leaving d claims a'.current a.current) d.children p

namespace Upkeepable

variable (able : Upkeepable base d e t others plot a value claims)
include able

/-- Once its nodes are laid out, an anchor puts them in place. -/
theorem reconciles (midway : Midway d d₁ taken fresh rest) (sprouted : Sprouted d d₁ none (fresh.flatMap (·.plants)))
    (used : (taken ++ fresh).Perm (entriesOf pieces)) (left : (taken ++ rest).Perm plot.entries)
    (shown : List.Forall₂ Shown (itemsOf value) pieces)
    (stale : ∀ x ∈ a.current, d.contains x = false → d₁.contains x = false)
    (clear : ∀ m, d.parent? a.comment = some m → ∀ nodes ∈ listed value, ∀ x ∈ nodes, ¬ Below d m x) :
    ∃ d₂ claims₂,
      reconcile (.behind a.comment) a.current (pieces.flatMap (pieceNodes id)) ⟨d₁, claims⟩ = .ok () ⟨d₂, claims₂⟩ ∧
      Becomes d₁ d₂ d₁.content? (regrouped a.comment (d.parent? a.comment) (pieces.flatMap (pieceNodes id)).dedup
        (leaving d₁ claims (pieces.flatMap (pieceNodes id)) a.current) d₁.children) ∧
      ∀ x, x ∈ claims₂ ↔ x ∈ claims ∨ x ∈ pieces.flatMap (pieceNodes id) := by
  have wf := able.household.wellFormed
  have wf₁ := sprouted.wellFormed
  have inner : d₁.body ∉ a.current := fun mem => by
    have live : d.contains d.body = true := wf.body_contains
    rw [sprouted.body] at mem
    rcases able.held _ mem live with root | ⟨⟨s, memS, head⟩, -⟩
    · exact able.household.ne_body List.mem_cons_self (Tenant.mem_estate_of_plot able.mem (plot.roots_subset root)) rfl
    · exact able.household.ne_body memS ((able.household.housed s memS).head_mem head) rfl
  cases up : d.parent? a.comment with
  | none =>
      obtain ⟨d₂, claims₂, placed, becomes, claimed⟩ :=
        reconcile_nowhere wf₁ claims ((able.parent_midway midway).trans up) inner
      exact ⟨d₂, claims₂, placed, becomes, claimed⟩
  | some m =>
      have apart : a.comment ∉ leaving d₁ claims (pieces.flatMap (pieceNodes id)) a.current := fun mem => by
        have liveC₁ : d₁.contains a.comment = true := (midway.alive _).mpr (.inl
          (able.household.live List.mem_cons_self (Tenant.mem_estate_of_ground able.ground)))
        refine able.comment_stays midway.unborn (able.may_move midway used left shown stale ?_ liveC₁)
        exact (List.mem_append.mp mem).elim (fun old => List.mem_append_left _ (List.mem_filter.mp old).1)
          (List.mem_append_right _)
      obtain ⟨d₂, claims₂, placed, becomes, claimed⟩ :=
        reconcile_behind wf₁ claims ((able.parent_midway midway).trans up) apart inner
          fun x mem => able.movable midway sprouted.body used left shown up (clear m up) mem
      refine ⟨d₂, claims₂, placed, ?_, claimed⟩
      have same : regrouped a.comment (some m) (pieces.flatMap (pieceNodes id)).dedup
          (leaving d₁ claims (pieces.flatMap (pieceNodes id)) a.current) d₁.children = fun p =>
          if p = m then insertBehind a.comment (pieces.flatMap (pieceNodes id)).dedup
            (without (leaving d₁ claims (pieces.flatMap (pieceNodes id)) a.current) d₁.children p)
          else without (leaving d₁ claims (pieces.flatMap (pieceNodes id)) a.current) d₁.children p := by
        funext p
        simp only [regrouped, Option.some.injEq, eq_comm]
      rw [same]
      exact becomes

omit able in
/-- An anchor is updated, if nothing it was given is above its comment. -/
theorem resettled {value? : Option Value} (able : Upkeepable base d e t others plot a (value?.getD .null) claims)
    (clear : ∀ m, d.parent? a.comment = some m → ∀ nodes ∈ listed (value?.getD .null), ∀ x ∈ nodes, ¬ Below d m x)
    (later : Sequel (left (a.update value?) ⟨d, claims⟩).document e) :
    ∃ a' d' claims', a.update value? ⟨d, claims⟩ = .ok a' ⟨d', claims'⟩ ∧ Resettled a a' d d' claims claims' := by
  have wf := able.household.wellFormed
  obtain ⟨pieces, taken, fresh, rest, d₁, laid, shown, sprouted, used, left_⟩ :=
    layOut_ok (id : List NodeId → List NodeId) claims (itemsOf (value?.getD .null)) plot.entries wf able.kept.shows
  have same : (itemsOf (value?.getD .null)).map (ItemOf.map id) = itemsOf (value?.getD .null) := by
    refine (List.map_congr_left fun item _ => ?_).trans (List.map_id _)
    cases item <;> rfl
  rw [same, ← (able.kept.made a able.isAnchor).1] at laid
  have unused : (rest.map Entry.remembered).flatMap (·.nodes) = entryRoots rest := by
    rw [entryRoots, List.flatMap_map, List.map_flatMap]
    rfl
  have mid := midway wf sprouted left_ able.kept.stand (Tenant.ids_nodup able.nodup able.mem)
  have wf₁ := sprouted.wellFormed
  rw [Anchor.update, left_bind laid] at later
  have between : Sequel d₁ e := by
    refine Sequel.trans ?_ later
    exact Steady.bind (steady_reconcile _ _ _) (fun _ => .bind (Anchor.steady_discardUnclaimed _) fun _ => .pure _)
      ⟨d₁, claims⟩ wf₁
  have stale : ∀ x ∈ a.current, d.contains x = false → d₁.contains x = false :=
    able.unrevived d d₁ (.refl wf) mid.sequel between
  obtain ⟨d₂, claims₂, placed, becomes, claimed⟩ := able.reconciles mid sprouted used left_ shown stale clear
  obtain ⟨_, _, both, moved, -, -, -⟩ := reconcile_shuffled (Movables (t :: others) t plot fresh) wf₁ placed
    (fun x mem live₁ => able.may_move mid used left_ shown stale mem live₁)
    (fun x mem => (able.next_movable mid used left_ shown mem).2.2.1)
    (by rintro c ⟨⟩; exact able.comment_stays mid.unborn)
  cases both
  rw [show Position.parent? (.behind a.comment) d₁ = d.parent? a.comment from able.parent_midway mid] at moved
  obtain ⟨d₃, freed, culled, alive₃⟩ := able.frees mid used left_ shown becomes.wellFormed
    (moved.body.trans sprouted.body) (able.stand_moved mid wf₁ left_ moved) claimed
  rw [← unused] at freed
  refine ⟨{ a with current := pieces.flatMap (pieceNodes id), made := (entriesOf pieces).map Entry.remembered },
    d₃, claims₂, ?_, claimed, fun p live live₃ => ?_⟩
  · rw [Anchor.update, bind_ok laid, bind_ok placed, bind_ok freed]
    rfl
  · have oldP : p ∉ entryIds fresh := fun new => by
      rw [mid.unborn p new] at live
      cases live
    have kids : d₁.children p = d.children p := by
      rw [sprouted.children p oldP]
      simp
    -- what is freed had left its place before
    have stays : d₃.children p = d₂.children p := by
      refine culled.children_eq fun y child => ⟨List.not_mem_nil, ?_⟩
      refine (alive₃ y).mpr ⟨becomes.wellFormed.contains_child child, fun gone => ?_⟩
      rw [becomes.children] at child
      rcases mem_regrouped child with ⟨old, keeps⟩ | new
      · rw [mid.leaving_eq stale] at keeps
        exact keeps (able.rest_leaves mid used left_ shown wf₁ ((alive₃ p).mp live₃).2 old gone).1
      · exact (able.next_movable mid used left_ shown (List.mem_dedup.mp new)).2.2.2 gone
    rw [stays, becomes.children]
    simp only [regrouped, without, kids, mid.leaving_eq stale]

end Upkeepable

end Inlay.Render
