/-
# Proofs.Render.Lodgers — which nodes stand in the estates of others

Heads of an estate may stand in other estates, as lodgers: behind the anchor that
shows them, or, in the middle of a pass, where an anchor showed them in the pass
before. `Lodgers` bounds what may stand in an estate. For a tenant that was used in
the pass that is nodes of used tenants only; so nothing below them has the comment
of an anchor that is still to be updated, and no update puts a node below itself
(`Quartering.clear`).

A head of a used tenant is still to be placed, or an anchor has claimed it
(`Quartered.heads`). So when the pass is over, what stands in an estate and does not
belong there is shown there by an anchor (`Quartered.settled`).
-/
import Inlay.Proofs.Render.Closing
import Inlay.Proofs.Render.Lease
import Inlay.Proofs.Render.Renewal

namespace Inlay.Render

set_option autoImplicit false

open Relation Inlay.Document Inlay.Document.Planted

variable {base d d' e : Document} {claims claims' : Claims} {t s : Tenant} {idle used idle' used' ts ts' : List Tenant}
  {done rest before after plots plots' : List Plot} {plot p : Plot} {a a' : Anchor} {x y m : NodeId} {path : Path}
  {old : NodeId → Prop} {context value : Value} {pending under : List (List NodeId)} {placed nodes : List NodeId}
  {pieces : List (List NodeId ⊕ Entry)} {taken fresh left : List Entry}

/-! ## What stands in an estate -/

/-- What stands in the estate of a tenant belongs to it or to some others, or one of
the plots shows it. -/
def Lodgers (d : Document) (ts : List Tenant) (t : Tenant) (plots : List Plot) : Prop :=
  ∀ m ∈ t.estate, ∀ x ∈ d.children m, x ∈ t.estate ∨ (∃ s ∈ ts, x ∈ s.estate) ∨
    ∃ p ∈ plots, ∃ a, p.slot.anchored? = some a ∧ x ∈ a.current

theorem Lodgers.mono (lodgers : Lodgers d ts t plots) (more : ∀ s ∈ ts, s ∈ ts') (shows : ∀ p ∈ plots, p ∈ plots') :
    Lodgers d ts' t plots' := fun m mem x child =>
  (lodgers m mem x child).imp_right fun others =>
    others.imp (.imp fun s both => ⟨more s both.1, both.2⟩) (.imp fun p both => ⟨shows p both.1, both.2⟩)

/-- What stands below the estates of tenants whose lodgers are theirs is theirs. -/
theorem below_estates (closed : ∀ s ∈ ts, Lodgers d ts s []) (wf : WellFormed d) (here : ∃ s ∈ ts, x ∈ s.estate)
    (below : Below d y x) : ∃ s ∈ ts, y ∈ s.estate := by
  induction below using ReflTransGen.head_induction_on with
  | refl => exact here
  | @head b c step _ ih =>
      obtain ⟨s, mem, inS⟩ := ih
      rcases closed s mem c inS b (wf.parent_iff.mp step) with own | other | ⟨p, none_, -⟩
      · exact ⟨s, mem, own⟩
      · exact other
      · cases none_

/-- The node stands beside a comment below the top, and the anchor of the comment
shows it. -/
def Rests (d : Document) (ts : List Tenant) (x : NodeId) : Prop :=
  ∃ s ∈ ts, ∃ p ∈ s.plots, ∃ a, p.slot.anchored? = some a ∧ a.comment ∉ s.tops ∧ x ∈ a.current ∧
    d.parent? x = d.parent? a.comment

theorem Rests.mono (rests : Rests d ts x) (more : ∀ s ∈ ts, s ∈ ts') : Rests d ts' x :=
  rests.imp fun s both => ⟨more s both.1, both.2⟩

/-- One of the plots shows the node: behind a comment at the top, or beside one below it. -/
def ShownAt (d : Document) (t : Tenant) (plots : List Plot) (x : NodeId) : Prop :=
  ∃ p ∈ plots, ∃ a, p.slot.anchored? = some a ∧ x ∈ a.current ∧
    (a.comment ∈ t.tops ∨ d.parent? x = d.parent? a.comment)

/-- The node is in one of the lists. -/
def Awaits (pending : List (List NodeId)) (x : NodeId) : Prop := ∃ nodes ∈ pending, x ∈ nodes

theorem Awaits.mono {more : List (List NodeId)} (awaits : Awaits pending x) (sub : pending ⊆ more) : Awaits more x :=
  awaits.imp fun _ both => ⟨sub both.1, both.2⟩

/-- Where the nodes of tenants stand between the turns of a pass. -/
structure Quartered (d : Document) (idle used : List Tenant) (pending : List (List NodeId)) (claims : Claims) : Prop where
  idles : ∀ s ∈ idle, Lodgers d used s s.plots
  closed : ∀ s ∈ used, Lodgers d used s []
  heads : ∀ s ∈ used, ∀ x, s.Head x → Awaits pending x ∨ x ∈ claims ∧ Rests d used x

/-- Where they stand while a tenant is at work: of its plots, `rest` is to be done. -/
structure Quartering (d : Document) (idle used : List Tenant) (t : Tenant) (done rest : List Plot) (context : Value)
    (under : List (List NodeId)) (claims : Claims) : Prop where
  idles : ∀ s ∈ idle, Lodgers d (t :: used) s s.plots
  closed : ∀ s ∈ used, Lodgers d used s []
  own : Lodgers d used t rest
  heads : ∀ s ∈ used, ∀ x, s.Head x → Awaits (rest.flatMap (Plot.wanted context) ++ under) x ∨
    x ∈ claims ∧ (Rests d used x ∨ ShownAt d t done x)

/-! ## What an update leaves in its place -/

section Update

variable (able : Upkeepable base d e t ts plot a value claims)
  (upkept : Upkept (t :: ts) t plot a a' value pieces taken fresh left d d' claims claims')
  (resettled : Resettled a a' d d' claims claims')

section

include able

/-- Grounds are moved only at the top of other tenants. -/
theorem Upkeepable.ground_stays (unborn : ∀ x ∈ entryIds fresh, d.contains x = false) (mem : s ∈ t :: ts)
    (ground : m ∈ s.grounds) (inner : s = t ∨ m ∉ s.tops) : ¬ Movables (t :: ts) t plot fresh m := by
  have house := able.household
  have here := Tenant.mem_estate_of_ground ground
  have nodup := house.estate_nodup mem
  rintro (root | new | ⟨⟨s', mem', head⟩, out⟩)
  · cases house.unique mem List.mem_cons_self here (Tenant.mem_estate_of_plot able.mem (plot.roots_subset root))
    exact Tenant.not_ground_of_plot nodup able.mem (plot.roots_subset root) ground
  · have live := house.live mem here
    rw [unborn m (entryRoots_subset _ new)] at live
    cases live
  · cases house.unique mem mem' here ((house.housed s' mem').head_mem head)
    rcases inner with rfl | below
    · exact out here
    · exact Tenant.not_head_of_ground nodup ground below head

include upkept

theorem Upkept.ground_parent (mem : s ∈ t :: ts) (ground : m ∈ s.grounds) (inner : s = t ∨ m ∉ s.tops)
    (live' : d'.contains m = true) : d'.parent? m = d.parent? m :=
  upkept.change.parent_eq (able.household.live mem (Tenant.mem_estate_of_ground ground)) live'
    (able.ground_stays upkept.unborn mem ground inner)

include resettled

/-- What somebody has claimed keeps its place, unless the anchor shows it. -/
theorem Upkept.claimed_parent (claim : x ∈ claims) (away : x ∉ a'.current) (live : d.contains x = true) :
    d'.parent? x = d.parent? x := by
  have wf := able.household.wellFormed
  have wf' := upkept.change.wellFormed
  have outPlot := able.unclaimed x claim
  cases up' : d'.parent? x with
  | some p =>
      have child := wf'.parent_iff.mp up'
      have oldP : d.contains p = true := by
        by_contra dead
        have live' := wf'.contains_parent child
        have new := (((upkept.alive p).mp live').1).resolve_left dead
        have made : p ∈ entryIds (entriesOf pieces) := (entryIds_perm upkept.used).mem_iff.mp (by
          rw [entryIds_append]
          exact List.mem_append_right _ new)
        have inside := Change.children_subset_of_stand wf' upkept.stand made child
        have mine : x ∈ entryIds (taken ++ fresh) := (entryIds_perm upkept.used).mem_iff.mpr inside
        rw [entryIds_append, List.mem_append] at mine
        rcases mine with kept | fresh_
        · exact outPlot (upkept.mem_ids.mpr (.inl kept))
        · rw [upkept.unborn x fresh_] at live
          cases live
      exact ((upkept.stood x p oldP up').resolve_right away).symm
  | none =>
      cases up : d.parent? x with
      | none => rfl
      | some p =>
          have child := wf.parent_iff.mp up
          have liveP := wf.contains_parent child
          have stays : x ∉ leaving d claims a'.current a.current := fun leaves => by
            rcases List.mem_append.mp leaves with drops | placed
            · have := (List.mem_filter.mp drops).2
              simp [claim] at this
            · exact away placed
          have kept : x ∈ without (leaving d claims a'.current a.current) d.children p :=
            List.mem_filter.mpr ⟨child, by simpa using stays⟩
          cases live' : d'.contains p with
          | true =>
              have here : x ∈ d'.children p := by
                rw [resettled.children p liveP live', regrouped]
                split
                · refine List.mem_flatMap.mpr ⟨x, kept, ?_⟩
                  split
                  · exact List.mem_cons_self
                  · exact List.mem_singleton_self x
                · exact kept
              rw [wf'.parent_iff.mpr here] at up'
              cases up'
          | false =>
              exfalso
              have gone : p ∈ entryIds left := by
                by_contra stays
                rw [(upkept.alive p).mpr ⟨.inl liveP, stays⟩] at live'
                cases live'
              exact outPlot (Change.children_subset_of_stand wf able.kept.stand
                (upkept.mem_ids.mpr (.inr gone)) child)

omit upkept in
/-- What the anchor showed before stays where it is only if it shows it now, or somebody
else has claimed it. -/
theorem Resettled.of_current (shown : x ∈ a.current) (live : d.contains m = true) (live' : d'.contains m = true)
    (child : x ∈ d'.children m) : x ∈ a'.current ∨ x ∈ claims := by
  rw [resettled.children m live live'] at child
  rcases mem_regrouped child with ⟨before, stays⟩ | new
  · by_contra neither
    rw [not_or] at neither
    refine stays (List.mem_append_left _ (List.mem_filter.mpr ⟨shown, ?_⟩))
    simpa [neither] using able.household.wellFormed.contains_child before
  · exact .inl (List.mem_dedup.mp new)

end

include upkept in
/-- What belongs to the tenant and is not freed still belongs to it. -/
theorem Upkept.mem_replant (split : t.plots = before ++ plot :: after) (path : Path) (here : x ∈ t.estate)
    (live' : d'.contains x = true) : x ∈ (t.replant before ⟨.anchor path a', entriesOf pieces⟩ after).estate := by
  have kept := ((upkept.estate_perm split path).mem_iff (a := x)).mpr (List.mem_append_left _ here)
  exact (List.mem_append.mp kept).resolve_right ((upkept.alive x).mp live').2

end Update

/-! ## An anchor of the tenant at work -/

namespace Quartering

variable (quartering : Quartering d idle used t done (p :: rest) context under claims)
  (work : AtWork old base d idle used t done (p :: rest) context under placed claims)
include quartering work

/-- Nothing that is to be placed is above the comment of the anchor. -/
theorem clear (isAnchor : p.slot = .anchor path a) (up : d.parent? a.comment = some m)
    (wanted : nodes ∈ listed (valueAt context path)) (mem : x ∈ nodes) : ¬ Below d m x := by
  intro below
  have house := work.roll.household
  have ground : a.comment ∈ t.grounds := by
    have := work.kept.node
    rwa [isAnchor] at this
  have given : nodes ∈ p.wanted context := by
    rw [Plot.wanted, isAnchor]
    exact wanted
  obtain ⟨s, memS, head⟩ := work.roll.pending nodes (List.mem_append_left _ (List.mem_append_left _ given)) x mem
  have inS := (house.housed s (work.roll.used_mem s memS)).head_mem head
  obtain ⟨s', memS', here⟩ := below_estates quartering.closed house.wellFormed ⟨s, memS, inS⟩ (below.head up)
  exact house.other (List.mem_append_right _ memS') here (Tenant.mem_estate_of_ground ground)

/-- After the update of an anchor the nodes of tenants stand where they may. -/
theorem anchor (isAnchor : p.slot = .anchor path a) (unrevived : Unrevived old d e)
    (upkept : Upkept (t :: (idle ++ used)) t p a a' (valueAt context path) pieces taken fresh left d d' claims claims')
    (resettled : Resettled a a' d d' claims claims') (back : ∀ x, old x → d'.contains x = true → d.contains x = true) :
    Quartering d' idle used (t.replant done ⟨.anchor path a', entriesOf pieces⟩ rest)
      (done ++ [⟨.anchor path a', entriesOf pieces⟩]) rest context under claims' := by
  have able := work.able unrevived isAnchor
  have work' := work.anchor isAnchor unrevived upkept back
  have house := work.roll.household
  have house' := work'.roll.household
  have wf := house.wellFormed
  have wf' := house'.wellFormed
  have memUsed : ∀ s ∈ used, s ∈ t :: (idle ++ used) := work.roll.used_mem
  have wanted : p.wanted context = listed (valueAt context path) := by rw [Plot.wanted, isAnchor]
  have mine : (⟨.anchor path a', entriesOf pieces⟩ : Plot) ∈
      (t.replant done ⟨.anchor path a', entriesOf pieces⟩ rest).plots :=
    List.mem_append_right _ List.mem_cons_self
  -- what the anchor shows now
  have shows : ∀ x ∈ a'.current, x ∈ (t.replant done ⟨.anchor path a', entriesOf pieces⟩ rest).estate ∨
      ∃ s ∈ used, x ∈ s.estate := fun x mem => by
    rcases (work'.settled _ (List.mem_append_right _ (List.mem_singleton_self _)) a' rfl x mem) with own | ⟨head, -⟩
    · exact .inl (Tenant.mem_estate_of_plot mine (Plot.roots_subset _ own))
    · obtain ⟨s, memS, head⟩ := head
      exact .inr ⟨s, memS, (house.housed s (memUsed s memS)).head_mem head⟩
  have children : ∀ {m x}, d.contains m = true → x ∈ d'.children m → x ∈ d.children m ∨ x ∈ a'.current ∧
      d.parent? a.comment = some m := fun live child => upkept.mem_children wf live child
  refine ⟨fun s mem m inS x child => ?_, fun s mem m inS x child => ?_, fun m inT x child => ?_, fun s mem x head => ?_⟩
  · have memS : s ∈ t :: (idle ++ used) := work.roll.idle_mem s mem
    rcases children (house.live memS inS) child with before | ⟨new, -⟩
    · rcases quartering.idles s mem m inS x before with own | ⟨s', mem', there⟩ | shown
      · exact .inl own
      · rcases List.mem_cons.mp mem' with rfl | other
        · exact .inr (.inl ⟨_, List.mem_cons_self, upkept.mem_replant work.split path there (wf'.contains_child child)⟩)
        · exact .inr (.inl ⟨s', List.mem_cons_of_mem _ other, there⟩)
      · exact .inr (.inr shown)
    · rcases shows x new with own | ⟨s', mem', there⟩
      · exact .inr (.inl ⟨_, List.mem_cons_self, own⟩)
      · exact .inr (.inl ⟨s', List.mem_cons_of_mem _ mem', there⟩)
  · rcases children (house.live (memUsed s mem) inS) child with before | ⟨-, up⟩
    · exact quartering.closed s mem m inS x before
    · exfalso
      obtain ⟨s', mem', there⟩ := below_estates quartering.closed wf ⟨s, mem, inS⟩ (ReflTransGen.single up)
      exact house.other (List.mem_append_right _ mem') there (Tenant.mem_estate_of_ground able.ground)
  · rcases upkept.mem_estate work.split path inT with oldM | new
    · have live := house.live List.mem_cons_self oldM
      rcases children live child with before | ⟨new, -⟩
      · rcases quartering.own m oldM x before with own | used_ | ⟨q, memQ, b, isB, shown⟩
        · exact .inl (upkept.mem_replant work.split path own (wf'.contains_child child))
        · exact .inr (.inl used_)
        · rcases List.mem_cons.mp memQ with rfl | later
          · rw [isAnchor] at isB
            cases isB
            rcases resettled.of_current able shown live (wf'.contains_parent child) child with now | claim
            · exact (shows x now).imp_right .inl
            · rcases work.claimed x claim with used_ | ⟨q, memQ, inQ⟩
              · exact .inr (.inl used_)
              · exact .inl (Tenant.mem_estate_of_plot (List.mem_append_left _ memQ) inQ)
          · exact .inr (.inr ⟨q, later, b, isB, shown⟩)
      · exact (shows x new).imp_right .inl
    · have made : m ∈ entryIds (entriesOf pieces) := (entryIds_perm upkept.used).mem_iff.mp (by
        rw [entryIds_append]
        exact List.mem_append_right _ new)
      exact .inl (Tenant.mem_estate_of_plot mine (Change.children_subset_of_stand wf' upkept.stand made child))
  · have live := house.live (memUsed s mem) ((house.housed s (memUsed s mem)).head_mem head)
    by_cases now : x ∈ a'.current
    · have liveC := house'.live List.mem_cons_self (Tenant.mem_estate_of_ground able.ground)
      have comment : a'.comment = a.comment := by rw [upkept.anchor]
      refine .inr ⟨(resettled.claimed x).mpr (.inr now), .inr ⟨_, List.mem_append_right _ (List.mem_singleton_self _),
        a', rfl, now, .inr ?_⟩⟩
      rw [upkept.parents x now, comment, upkept.ground_parent able List.mem_cons_self able.ground (.inl rfl) liveC]
    · rcases quartering.heads s mem x head with ⟨nodes, waits, here⟩ | ⟨claim, where_⟩
      · rw [List.flatMap_cons, List.append_assoc, wanted] at waits
        rcases List.mem_append.mp waits with given | later
        · exact absurd (upkept.given_subset given here) now
        · exact .inl ⟨nodes, later, here⟩
      · have stays := upkept.claimed_parent able resettled claim now live
        refine .inr ⟨(resettled.claimed x).mpr (.inl claim), where_.imp ?_ ?_⟩
        · rintro ⟨s', mem', q, memQ, b, isB, inner, shown, beside⟩
          have ground : b.comment ∈ s'.grounds :=
            Slot.node_of_anchored? isB ▸ ((house.housed s' (memUsed s' mem')).plots q memQ).node
          refine ⟨s', mem', q, memQ, b, isB, inner, shown, ?_⟩
          rw [stays, beside, upkept.ground_parent able (memUsed s' mem') ground (.inr inner)
            (house'.live (List.mem_cons_of_mem _ (List.mem_append_right _ mem')) (Tenant.mem_estate_of_ground ground))]
        · rintro ⟨q, memQ, b, isB, shown, place⟩
          have memT : q ∈ t.plots := by
            rw [work.split]
            exact List.mem_append_left _ memQ
          have ground : b.comment ∈ t.grounds :=
            Slot.node_of_anchored? isB ▸ ((house.housed t List.mem_cons_self).plots q memT).node
          refine ⟨q, List.mem_append_left _ memQ, b, isB, shown, place.imp_right fun beside => ?_⟩
          rw [stays, beside, upkept.ground_parent able List.mem_cons_self ground (.inl rfl)
            (house'.live List.mem_cons_self (Tenant.mem_estate_of_ground ground))]

/-- Writing another slot moves nothing. -/
theorem touched (plain : p.slot.anchored? = none) (touched : Touched p.slot.node d d') :
    Quartering d' idle used t (done ++ [p]) rest context under claims := by
  have up := touched.parent? work.roll.household.wellFormed
  have none_ : p.wanted context = [] := by
    unfold Plot.wanted
    cases slot : p.slot <;> first | rfl | (rw [slot] at plain; cases plain)
  have kids : ∀ {ts s plots}, Lodgers d ts s plots → Lodgers d' ts s plots := fun lodgers m mem x child =>
    lodgers m mem x (by rwa [touched.children] at child)
  refine ⟨fun s mem => kids (quartering.idles s mem), fun s mem => kids (quartering.closed s mem), fun m mem x child => ?_,
    fun s mem x head => ?_⟩
  · refine (kids quartering.own m mem x child).imp_right fun others => others.imp_right ?_
    rintro ⟨q, memQ, b, isB, shown⟩
    rcases List.mem_cons.mp memQ with rfl | later
    · rw [plain] at isB
      cases isB
    · exact ⟨q, later, b, isB, shown⟩
  · refine (quartering.heads s mem x head).imp (fun awaits => ?_) fun ⟨claim, where_⟩ => ⟨claim, where_.imp ?_ ?_⟩
    · rwa [List.flatMap_cons, none_, List.nil_append] at awaits
    · rintro ⟨s', mem', q, memQ, b, isB, inner, shown, beside⟩
      exact ⟨s', mem', q, memQ, b, isB, inner, shown, by rw [up, up, beside]⟩
    · rintro ⟨q, memQ, b, isB, shown, place⟩
      exact ⟨q, List.mem_append_left _ memQ, b, isB, shown, place.imp_right fun beside => by rw [up, up, beside]⟩

end Quartering

/-! ## Between the turns -/

/-- What stands in a new instance is its own. -/
theorem lodgers_sown {fragment : NodeId} {rs : List Planted} (potted : Potted d d' fragment (clearedPlants rs)) :
    Lodgers d' ts (.sown fragment rs) plots := by
  intro m inS x child
  rw [Tenant.estate_sown, ← idsAll_clearedPlants rs] at inS
  have inside := Change.children_subset_of_potted potted inS child
  rw [idsAll_clearedPlants, ← Tenant.estate_sown] at inside
  exact .inl inside

namespace Quartered

variable (quartered : Quartered d idle used pending claims)
include quartered

theorem perm (idles : ∀ s ∈ idle', s ∈ idle) (useds : ∀ s, s ∈ used ↔ s ∈ used') :
    Quartered d idle' used' pending claims where
  idles := fun s mem => (quartered.idles s (idles s mem)).mono (fun s' => (useds s').mp) fun _ => id
  closed := fun s mem => (quartered.closed s ((useds s).mpr mem)).mono (fun s' => (useds s').mp) fun _ => id
  heads := fun s mem x head => (quartered.heads s ((useds s).mpr mem) x head).imp_right fun both =>
    ⟨both.1, both.2.mono fun s' => (useds s').mp⟩

/-- A new instance leaves everything where it stands. -/
theorem sow {fragment : NodeId} {rs : List Planted} (house : Household base d ts) (idle_mem : ∀ s ∈ idle, s ∈ ts)
    (used_mem : ∀ s ∈ used, s ∈ ts) (potted : Potted d d' fragment (clearedPlants rs)) :
    Quartered d' idle used pending claims := by
  have wf := house.wellFormed
  have kids : ∀ {s plots}, s ∈ ts → Lodgers d used s plots → Lodgers d' used s plots :=
    fun memS lodgers m inS x child => by
      refine lodgers m inS x ?_
      rwa [potted.children m fun new => ?_] at child
      have live := house.live memS inS
      rw [potted.fresh m new] at live
      cases live
  have up : ∀ {s x}, s ∈ ts → x ∈ s.estate → d'.parent? x = d.parent? x := fun memS inS => by
    have live := house.live memS inS
    exact ((Change.of_potted wf potted : Change (fun _ => False) none d d').parent_eq live
      (((house.sow potted).alive _).mpr (.inr ⟨_, List.mem_cons_of_mem _ memS, inS⟩)) id)
  refine ⟨fun s mem => kids (idle_mem s mem) (quartered.idles s mem),
    fun s mem => kids (used_mem s mem) (quartered.closed s mem), fun s mem x head => ?_⟩
  refine (quartered.heads s mem x head).imp_right fun ⟨claim, s', mem', p, memP, a, isA, inner, shown, beside⟩ =>
    ⟨claim, s', mem', p, memP, a, isA, inner, shown, ?_⟩
  have ground : a.comment ∈ s'.grounds :=
    Slot.node_of_anchored? isA ▸ ((house.housed s' (used_mem s' mem')).plots p memP).node
  rw [up (used_mem s mem) ((house.housed s (used_mem s mem)).head_mem head), beside,
    up (used_mem s' mem') (Tenant.mem_estate_of_ground ground)]

end Quartered

namespace Quartering

/-- A tenant begins with its first plot. -/
theorem start (quartered : Quartered d idle used (under ++ leaves context) claims) (own : Lodgers d used t t.plots)
    (reaches : leaves context ⊆ t.plots.flatMap (Plot.wanted context)) :
    Quartering d idle used t [] t.plots context under claims where
  idles := fun s mem => (quartered.idles s mem).mono (fun _ => List.mem_cons_of_mem _) fun _ => id
  closed := quartered.closed
  own := own
  heads := fun s mem x head => (quartered.heads s mem x head).imp
    (fun awaits => awaits.mono fun _ mem => (List.mem_append.mp mem).elim (List.mem_append_right _)
      fun leaf => List.mem_append_left _ (reaches leaf))
    fun both => ⟨both.1, .inl both.2⟩

/-- A tenant with no plot left is a used one, and its nodes are to be placed. -/
theorem finish (quartering : Quartering d idle used t done [] context under claims)
    (work : AtWork old base d idle used t done [] context under placed claims) :
    Quartered d idle (used ++ [t]) (under ++ [t.inst.nodes]) claims := by
  have housed := work.roll.household.housed t List.mem_cons_self
  have split : t.plots = done := by rw [work.split, List.append_nil]
  have itself : t ∈ used ++ [t] := List.mem_append_right _ (List.mem_singleton_self t)
  have grows : ∀ s ∈ used, s ∈ used ++ [t] := fun s => List.mem_append_left _
  have waits : ∀ {x}, x ∈ t.inst.nodes → Awaits (under ++ [t.inst.nodes]) x := fun here =>
    ⟨_, List.mem_append_right _ (List.mem_singleton_self _), here⟩
  refine ⟨fun s mem => (quartering.idles s mem).mono (fun s' mem' => ?_) fun _ => id, fun s mem => ?_,
    fun s mem x head => ?_⟩
  · exact (List.mem_cons.mp mem').elim (fun same => same ▸ itself) (grows s')
  · rcases List.mem_append.mp mem with before | last
    · exact (quartering.closed s before).mono grows fun _ => id
    · cases List.mem_singleton.mp last
      exact quartering.own.mono grows fun _ => id
  · rcases List.mem_append.mp mem with before | last
    · rcases quartering.heads s before x head with awaits | ⟨claim, rests | ⟨p, memP, a, isA, shown, place⟩⟩
      · exact .inl (awaits.mono fun _ mem => List.mem_append_left _ mem)
      · exact .inr ⟨claim, rests.mono grows⟩
      · by_cases top : a.comment ∈ t.tops
        · exact .inl (waits (housed.mem_nodes.mpr (.inr ⟨p, split ▸ memP, a, isA, top, shown⟩)))
        · exact .inr ⟨claim, t, itself, p, split ▸ memP, a, isA, top, shown, place.resolve_left top⟩
    · cases List.mem_singleton.mp last
      exact .inl (waits (housed.head_mem_nodes head))

end Quartering

/-! ## After the pass -/

/-- Once the nodes of the root stand where nobody owns anything, and nothing else has
been put anywhere, what stands in an estate belongs there or is shown there. -/
theorem Quartered.settled (quartered : Quartered d idle used [nodes] claims) (house : Household base d ts)
    (used_mem : ∀ s ∈ used, s ∈ ts) (house' : Household base d' used) (shrinks : ∀ s ∈ used, ∀ m ∈ s.estate, d'.children m ⊆ d.children m)
    (placed : ∀ x ∈ nodes, ∀ s ∈ used, ∀ m ∈ s.estate, x ∉ d'.children m) : ∀ s ∈ used, Lodgers d' [] s s.plots := by
  intro s mem m inS x child'
  have child := shrinks s mem m inS child'
  have owner : ∃ s' ∈ used, x ∈ s'.estate := by
    rcases quartered.closed s mem m inS x child with own | other | ⟨p, none_, -⟩
    · exact ⟨s, mem, own⟩
    · exact other
    · cases none_
  obtain ⟨s', mem', inS'⟩ := owner
  have wf := house.wellFormed
  have up := wf.parent_iff.mpr child
  have housed := house.housed s' (used_mem s' mem')
  have there : ∀ {s'}, s' ∈ used → m ∈ s'.estate → s' = s := fun mem' inM =>
    house'.unique mem' mem inM inS
  have other : x ≠ s'.fragment := by
    rintro rfl
    rw [wf.linked.placeable _ housed.isFragment] at up
    cases up
  by_cases head : s'.Head x
  · rcases quartered.heads s' mem' x head with ⟨list, waits, here⟩ | ⟨-, s₂, mem₂, p, memP, a, isA, inner, shown, beside⟩
    · cases List.mem_singleton.mp waits
      exact absurd child' (placed x here s mem m inS)
    · have ground : a.comment ∈ s₂.grounds :=
        Slot.node_of_anchored? isA ▸ ((house.housed s₂ (used_mem s₂ mem₂)).plots p memP).node
      obtain ⟨n, inN, above⟩ := (house.housed s₂ (used_mem s₂ mem₂)).under a.comment ground inner
      rw [up, above] at beside
      cases beside
      cases there mem₂ (Tenant.mem_estate_of_ground inN)
      exact .inr (.inr ⟨p, memP, a, isA, shown⟩)
  · obtain ⟨n, inN, -, above⟩ := housed.up wf (house.estate_nodup (used_mem s' mem')) inS' other head
    rw [up] at above
    cases above
    cases there mem' inN
    exact .inl inS'

end Inlay.Render
