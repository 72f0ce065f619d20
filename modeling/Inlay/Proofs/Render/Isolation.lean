/-
# Proofs.Render.Isolation — two renderers on one document

Two new renderers show data in hosts of their own, call by call in any order. What
is seen of the calls of one, whether they succeed and what the markup of its host is,
is what is seen of them when the other is not there; and they change nothing below
the host of the other (`isolated`).

The run of both is compared with the run of one along a bond, and what the other
owns with itself (`Parted`). A call of either changes only what it owns and its host
(`Widened.outside`), and what is new to it is no node of the past, hence none that
anybody remembers; so the calls of one leave the other's bond as it is
(`Bonded.frame`).
-/
import Inlay.Proofs.Render.Expand
import Inlay.Proofs.Render.MirrorPass
import Inlay.Proofs.Document.Planted

namespace Inlay.Render

set_option autoImplicit false

open Inlay.Document Inlay.Markup Relation Relator Realm

variable {o : Outset} {r r' : Bond} {d d' e : Document} {x y p q : NodeId} {own own' : NodeId → Prop} {host host' : NodeId}

/-! ## The markup of bonded hosts -/

theorem filterMap_paired {α : Type} {f g : NodeId → Option α} {xs ys : List NodeId} (bonds : List.Forall₂ r xs ys)
    (same : ∀ x y, r x y → f x = g y) : xs.filterMap f = ys.filterMap g := by
  induction bonds with
  | nil => rfl
  | cons bond _ ih => rw [List.filterMap_cons, List.filterMap_cons, same _ _ bond, ih]

namespace Bonded

theorem treeWithin (bonded : Bonded o r d e) : ∀ (fuel : Nat) {x y : NodeId}, r.withHost o.host x y →
    d.treeWithin fuel x = e.treeWithin fuel y
  | 0, _, _, _ => rfl
  | fuel + 1, x, y, bond => by
      have kids : (d.children x).filterMap (d.treeWithin fuel) = (e.children y).filterMap (e.treeWithin fuel) :=
        filterMap_paired (bonded.children x y bond) fun _ _ bond => bonded.treeWithin fuel (.inl bond)
      have looks := bonded.content bond
      unfold Document.content? at looks
      unfold Document.treeWithin
      cases found : d.get? x with
      | none =>
          cases found' : e.get? y with
          | none => rfl
          | some m =>
              rw [found, found'] at looks
              cases looks
      | some n =>
          cases found' : e.get? y with
          | none =>
              rw [found, found'] at looks
              cases looks
          | some m =>
              obtain ⟨c, _, _, _, _, _⟩ := n
              obtain ⟨c', _, _, _, _, _⟩ := m
              rw [found, found'] at looks
              cases looks with
              | some looks =>
                  cases looks with
                  | element tag attributes => simp only [tag, attributes, kids]
                  | text data => rfl
                  | comment data => rfl
                  | fragment => rfl

theorem tree? (bonded : Bonded o r d e) (bond : r.withHost o.host x y) : d.tree? x = e.tree? y := by
  rw [← treeWithin_of_le bonded.left.wellFormed (Nat.le_add_right d.slots.size e.slots.size),
    ← treeWithin_of_le bonded.right.wellFormed (Nat.le_add_left e.slots.size d.slots.size)]
  exact bonded.treeWithin _ bond

theorem tag? (bonded : Bonded o r d e) (bond : r.withHost o.host x y) : d.tag? x = e.tag? y := by
  have looks := bonded.content bond
  unfold Document.tag? Document.element?
  generalize d.content? x = c at looks ⊢
  generalize e.content? y = c' at looks ⊢
  cases looks with
  | none => rfl
  | some looks =>
      cases looks with
      | element tag _ => exact congrArg some tag
      | text _ => rfl
      | comment _ => rfl
      | fragment => rfl

/-- The host has the same markup inside in both documents. -/
theorem innerMarkup (bonded : Bonded o r d e) : d.innerMarkup o.host = e.innerMarkup o.host := by
  have bond : r.withHost o.host o.host o.host := .inr ⟨rfl, rfl⟩
  have forests : d.forest o.host = e.forest o.host :=
    filterMap_paired (bonded.children o.host o.host bond) fun _ _ bond => bonded.tree? (.inl bond)
  rw [Document.innerMarkup, Document.innerMarkup, childMarkup, childMarkup, forests, bonded.tag? bond]

/-! ## What somebody else does -/

/-- Whatever is below the host is owned, and so are the children of what is owned. -/
theorem has_child (bonded : Bonded o r d e) (above : r.Has p ∨ p = o.host) (mem : x ∈ d.children p) : r.Has x := by
  obtain ⟨q, bond⟩ := withHost_of_has above
  obtain ⟨y, -, bond'⟩ := exists_of_paired (bonded.children p q bond) mem
  exact ⟨y, bond'⟩

theorem has_of_below (bonded : Bonded o r d e) (below : Below d x o.host) : r.Has x ∨ x = o.host := by
  induction below using ReflTransGen.head_induction_on with
  | refl => exact .inr rfl
  | head up _ ih => exact .inl (bonded.has_child ih (bonded.left.wellFormed.parent_iff.mp up))

/-- Documents stay bonded when somebody else changes what is not bonded. -/
theorem frame (bonded : Bonded o r d e) (outside : Outside host own d d') (wf : WellFormed d')
    (apart : ∀ x, r.Has x ∨ x = o.host → ¬ own x ∧ x ≠ host)
    (closed : ∀ x p, own p ∨ p = host → x ∈ d'.children p → own x) : Bonded o r d' e where
  left :=
    { wellFormed := wf
      aged := bonded.left.aged.trans outside.aged
      once := fun x has => (bonded.left.once x has).later outside.aged
      inner := fun x has => outside.body ▸ bonded.left.inner x has
      known := bonded.left.known.later outside.aged
      apart := bonded.left.apart
      above := fun x p has mem => by
        by_cases theirs : own p ∨ p = host
        · exact absurd (closed x p theirs mem) (apart x (.inl has)).1
        · rw [not_or] at theirs
          rw [outside.children p theirs.1 theirs.2] at mem
          exact bonded.left.above x p has mem }
  right := bonded.right
  unique := bonded.unique
  look := fun x y bond => by
    have out := apart x (bond.imp (fun bond => ⟨y, bond⟩) And.left)
    rw [look?, outside.content x out.1 out.2]
    exact bonded.look x y bond
  children := fun p q bond => by
    have out := apart p (bond.imp (fun bond => ⟨q, bond⟩) And.left)
    rw [outside.children p out.1 out.2]
    exact bonded.children p q bond

end Bonded

/-! ## One document bonded with itself -/

/-- The bond of nodes with themselves. -/
def Bond.on (own : NodeId → Prop) : Bond := fun x y => x = y ∧ own x

theorem Bond.has_on : (Bond.on own).Has = own :=
  funext fun x => propext ⟨fun ⟨_, _, owned⟩ => owned, fun owned => ⟨x, rfl, owned⟩⟩

theorem Bond.has_on_flip : (Bond.on own).flip.Has = own :=
  funext fun x => propext ⟨fun ⟨_, same, owned⟩ => same ▸ owned, fun owned => ⟨x, rfl, owned⟩⟩

theorem Bonded.itself (bonded : Bonded o r d e) : Bonded ⟨o.first, o.first, o.host⟩ (Bond.on r.Has) d d where
  left := by
    rw [Bond.has_on]
    exact bonded.left
  right := by
    rw [Bond.has_on_flip]
    exact bonded.left
  unique := ⟨fun _ _ _ one two => one.1.trans two.1.symm, fun _ _ _ one two => one.1.symm.trans two.1⟩
  look := by
    rintro x y (⟨rfl, -⟩ | ⟨rfl, rfl⟩) <;> rfl
  children := by
    have all : ∀ p, r.Has p ∨ p = o.host → List.Forall₂ (Bond.on r.Has) (d.children p) (d.children p) := fun p above =>
      List.forall₂_same.mpr fun x mem => ⟨rfl, bonded.has_child above mem⟩
    rintro p q (⟨rfl, has⟩ | ⟨rfl, rfl⟩)
    · exact all p (.inl has)
    · exact all _ (.inr rfl)

section Itself

/-- What is paired with something is bonded with itself. -/
theorem list_itself {α β : Type} {rel : α → β → Prop} {self : α → α → Prop} {as : List α} {bs : List β}
    (both : List.Forall₂ rel as bs) (each : ∀ a b, rel a b → self a a) : List.Forall₂ self as as := by
  induction both with
  | nil => exact .nil
  | cons pair _ ih => exact .cons (each _ _ pair) ih

theorem nodes_itself {xs ys : List NodeId} (bonds : List.Forall₂ r xs ys) : List.Forall₂ (Bond.on r.Has) xs xs :=
  list_itself bonds fun _ y bond => ⟨rfl, y, bond⟩

theorem PairedMade.itself {m n : Made} (paired : PairedMade r m n) : PairedMade (Bond.on r.Has) m m :=
  ⟨rfl, nodes_itself paired.nodes⟩

theorem PairedAnchor.itself {a b : Anchor} (paired : PairedAnchor r a b) : PairedAnchor (Bond.on r.Has) a a :=
  ⟨⟨rfl, _, paired.comment⟩, nodes_itself paired.current, list_itself paired.made fun _ _ => PairedMade.itself⟩

theorem PairedSlot.itself {a b : Slot} (paired : PairedSlot host r a b) : PairedSlot host (Bond.on r.Has) a a := by
  cases paired with
  | text bond content => exact .text ⟨rfl, _, bond⟩ content
  | textareaValue bond content => exact .textareaValue (bond.imp (fun bond => ⟨rfl, _, bond⟩) fun same => ⟨same.1, same.1⟩) content
  | attributed bond name content property => exact .attributed ⟨rfl, _, bond⟩ name content property
  | anchor path anchors => exact .anchor path anchors.itself

theorem PairedInstance.itself {i j : Instance} (paired : PairedInstance host r i j) :
    PairedInstance host (Bond.on r.Has) i i :=
  ⟨⟨rfl, _, paired.fragment⟩, nodes_itself paired.tops, list_itself paired.slots fun _ _ => PairedSlot.itself⟩

theorem PairedRenderer.itself {a b : Renderer} (paired : PairedRenderer host r a b) :
    PairedRenderer host (Bond.on r.Has) a a where
  template := rfl
  pools := list_itself paired.pools fun _ _ pair => ⟨rfl, list_itself pair.2 fun _ _ => PairedInstance.itself⟩
  placed := nodes_itself paired.placed

end Itself

/-! ## Calls -/

/-- A call of a renderer that shows its data in one host. -/
inductive HostCall where
  | renderInto (root : Datum)
  | clear

namespace HostCall

def act (host : NodeId) : HostCall → Rendering Unit
  | renderInto root => Renderer.renderInto host root
  | clear => Renderer.clear

/-- The site a call leaves, whether it succeeds or not. -/
def leaves (host : NodeId) (call : HostCall) (site : Site) : Site := left (call.act host) site

/-- The fault of a call that fails. -/
def fault? (host : NodeId) (call : HostCall) (site : Site) : Option Fault :=
  match call.act host site with
  | .ok _ _ => none
  | .error fault _ => some fault

theorem steady (host : NodeId) : ∀ call : HostCall, Renderer.Steady (call.act host)
  | renderInto root => Renderer.steady_renderInto host root
  | clear => Renderer.steady_clear

theorem mirrors : ∀ call : HostCall, (renderings o.host).Mirrors o r any (call.act o.host) (call.act o.host)
  | renderInto root => Renderer.mirrors_renderInto root
  | clear => .of_echoes Renderer.echoes_clear

theorem leaves_bonded (call : HostCall) {s t : Site} (bonded : Bonded o r s.document t.document)
    (alike : PairedRenderer o.host r s.renderer t.renderer) (unrepeated : Unrepeated o.first (call.leaves o.host s).document)
    (unrepeated' : Unrepeated o.second (call.leaves o.host t).document) :
    (call.fault? o.host s).map Fault.nameless = (call.fault? o.host t).map Fault.nameless ∧
    ∃ r', Widened o r r' s.document (call.leaves o.host s).document ∧
      Bonded o r' (call.leaves o.host s).document (call.leaves o.host t).document ∧
      PairedRenderer o.host r' (call.leaves o.host s).renderer (call.leaves o.host t).renderer := by
  have met := call.mirrors s t bonded alike unrepeated unrepeated'
  unfold leaves fault? left
  generalize call.act o.host s = x at met
  generalize call.act o.host t = y at met
  cases met with
  | ok grown bonded' alike' _ => exact ⟨rfl, _, grown, bonded', alike'⟩
  | error grown bonded' alike' blame => exact ⟨congrArg some blame, _, grown, bonded', alike'⟩

end HostCall

/-- What is seen of a call: its fault, if it fails, without the ids that it names, and
the markup inside the host afterwards. -/
structure View where
  fault : Option Fault
  markup : String
  deriving DecidableEq

def HostCall.view (host : NodeId) (call : HostCall) (site : Site) : View :=
  ⟨(call.fault? host site).map Fault.nameless, (call.leaves host site).document.innerMarkup host⟩

/-! ## Two renderers -/

/-- Two renderers, and the document that both work in. -/
structure Shared where
  first : Renderer
  second : Renderer
  document : Document

/-- A call of one of two renderers. -/
inductive SharedCall where
  | first (call : HostCall)
  | second (call : HostCall)

namespace Shared

/-- Two renderers that have shown nothing. -/
def new (template template' : Template) (d : Document) : Shared := ⟨.new template, .new template', d⟩

/-- The place of work of the first renderer. -/
def firstSite (shared : Shared) : Site := ⟨shared.first, shared.document⟩

/-- The place of work of the second renderer. -/
def secondSite (shared : Shared) : Site := ⟨shared.second, shared.document⟩

/-- One of the renderers is called; each of them has its host. -/
def turn (host host' : NodeId) (shared : Shared) : SharedCall → Shared
  | .first call =>
    let site := call.leaves host shared.firstSite
    ⟨site.renderer, shared.second, site.document⟩
  | .second call =>
    let site := call.leaves host' shared.secondSite
    ⟨shared.first, site.renderer, site.document⟩

/-- The renderers are called in turns. -/
def run (host host' : NodeId) (turns : List SharedCall) (shared : Shared) : Shared :=
  turns.foldl (turn host host') shared

end Shared

/-- The call, if it is one of the first renderer. -/
def SharedCall.own? : SharedCall → Option HostCall
  | first call => some call
  | second _ => none

/-- One renderer is called. -/
def HostCall.runAll (host : NodeId) (calls : List HostCall) (site : Site) : Site :=
  calls.foldl (fun site call => call.leaves host site) site

theorem Shared.sequel_turn (host host' : NodeId) {shared : Shared} (wf : WellFormed shared.document) :
    ∀ turn : SharedCall, Sequel shared.document (shared.turn host host' turn).document
  | .first call => call.steady host shared.firstSite wf
  | .second call => call.steady host' shared.secondSite wf

theorem Shared.sequel_run (host host' : NodeId) (turns : List SharedCall) {shared : Shared} (wf : WellFormed shared.document) :
    Sequel shared.document (shared.run host host' turns).document := by
  induction turns generalizing shared with
  | nil => exact .refl wf
  | cons turn rest ih =>
      have step := sequel_turn host host' wf turn
      exact step.trans (ih step.wellFormed)

theorem HostCall.sequel_runAll (host : NodeId) (calls : List HostCall) {site : Site} (wf : WellFormed site.document) :
    Sequel site.document (HostCall.runAll host calls site).document := by
  induction calls generalizing site with
  | nil => exact .refl wf
  | cons call rest ih =>
      have step := call.steady host site wf
      exact step.trans (ih step.wellFormed)

theorem Shared.run_append (host host' : NodeId) (front back : List SharedCall) (turn : SharedCall) (shared : Shared) :
    shared.run host host' (front ++ turn :: back) =
      ((shared.run host host' front).turn host host' turn).run host host' back := by
  simp only [run, List.foldl_append, List.foldl_cons]

theorem HostCall.runAll_append (host : NodeId) (front back : List SharedCall) (call : HostCall) (site : Site) :
    HostCall.runAll host ((front ++ .first call :: back).filterMap SharedCall.own?) site =
      HostCall.runAll host (back.filterMap SharedCall.own?)
        (call.leaves host (HostCall.runAll host (front.filterMap SharedCall.own?) site)) := by
  simp only [runAll, List.filterMap_append, List.filterMap_cons, SharedCall.own?, List.foldl_append, List.foldl_cons]

/-! ## What belongs to whom -/

/-- What two renderers own has no node in common, neither with the host of the other;
what the first owns is paired with what it owns when it is alone. -/
structure Parted (start : Document) (host host' : NodeId) (r : Bond) (theirs : NodeId → Prop) (shared : Shared)
    (alone : Site) : Prop where
  bonded : Bonded ⟨start, start, host⟩ r shared.document alone.document
  alike : PairedRenderer host r shared.first alone.renderer
  other : Bonded ⟨start, start, host'⟩ (Bond.on theirs) shared.document shared.document
  second : PairedRenderer host' (Bond.on theirs) shared.second shared.second
  apart : ∀ x, r.Has x ∨ x = host → ¬ (theirs x ∨ x = host')

/-- New nodes are nobody else's. -/
theorem Widened.apart {theirs : NodeId → Prop} (grown : Widened o r r' d d') (past : ∀ x, theirs x → Once o.first d x)
    (apart : ∀ x, r.Has x ∨ x = o.host → ¬ theirs x) : ∀ x, r'.Has x ∨ x = o.host → ¬ theirs x := by
  rintro x (has | host) other
  · rcases grown.fresh x has with old | new
    · exact apart x (.inl old) other
    · exact new (past x other)
  · exact apart x (.inr host) other

/-- A node and everything below it is as before. -/
structure SameBelow (x : NodeId) (d d' : Document) : Prop where
  below : ∀ y, Below d' y x ↔ Below d y x
  content : ∀ y, Below d y x → d'.content? y = d.content? y
  children : ∀ y, Below d y x → d'.children y = d.children y

theorem SameBelow.of_outside (wf : WellFormed d) (outside : Outside host own d d') (wf' : WellFormed d')
    (out : ∀ y, Below d y x → ¬ (own y ∨ y = host)) : SameBelow x d d' := by
  have apart : ∀ y, Below d y x → ¬ own y ∧ y ≠ host := fun y below => not_or.mp (out y below)
  have children : ∀ y, Below d y x → d'.children y = d.children y := fun y below =>
    outside.children y (apart y below).1 (apart y below).2
  refine ⟨fun y => ⟨fun below => ?_, fun below => ?_⟩, fun y below => outside.content y (apart y below).1 (apart y below).2,
    children⟩
  · induction below using ReflTransGen.head_induction_on with
    | refl => exact .refl
    | @head y z up _ ih =>
        have mem := wf'.parent_iff.mp up
        rw [children z ih] at mem
        exact .head (wf.parent_iff.mpr mem) ih
  · induction below using ReflTransGen.head_induction_on with
    | refl => exact .refl
    | @head y z up above ih =>
        have mem := wf.parent_iff.mp up
        rw [← children z above] at mem
        exact .head (wf'.parent_iff.mpr mem) ih

namespace Parted

variable {start : Document} {theirs : NodeId → Prop} {shared : Shared} {alone : Site} {call : HostCall}

theorem past (parted : Parted start host host' r theirs shared alone) (x : NodeId) (other : theirs x ∨ x = host') :
    Once start shared.document x := by
  rcases other with other | rfl
  · exact parted.other.left.once x (Bond.has_on ▸ other)
  · exact parted.other.left.known

/-- A call of the first renderer looks the same when it is alone, and nothing changes
below the host of the second. -/
theorem first (parted : Parted start host host' r theirs shared alone)
    (unrepeated : Unrepeated start (call.leaves host shared.firstSite).document)
    (unrepeated' : Unrepeated start (call.leaves host alone).document) :
    (∃ r', Parted start host host' r' theirs (shared.turn host host' (.first call)) (call.leaves host alone)) ∧
    call.view host shared.firstSite = call.view host alone ∧
    SameBelow host' shared.document (call.leaves host shared.firstSite).document := by
  obtain ⟨blame, r', grown, bonded, alike⟩ :=
    call.leaves_bonded (o := ⟨start, start, host⟩) (s := shared.firstSite) parted.bonded parted.alike unrepeated unrepeated'
  have apart := grown.apart parted.past parted.apart
  have out : ∀ x, theirs x ∨ x = host' → ¬ r'.Has x ∧ x ≠ host := fun x other =>
    not_or.mp fun ours => apart x ours other
  have wf := bonded.left.wellFormed
  have closed : ∀ x p, r'.Has p ∨ p = host → x ∈ (call.leaves host shared.firstSite).document.children p → r'.Has x :=
    fun _ _ => bonded.has_child
  have once := parted.other.frame grown.outside wf (Bond.has_on ▸ out) closed
  have other := (once.swap.frame grown.outside wf (by
    rw [Bond.has_on_flip]
    exact out) closed).swap
  refine ⟨⟨r', bonded, alike, other, parted.second, apart⟩, ?_, ?_⟩
  · rw [HostCall.view, HostCall.view, blame]
    exact congrArg (View.mk _) bonded.innerMarkup
  · refine .of_outside parted.bonded.left.wellFormed grown.outside wf fun y below ours => apart y ours ?_
    have owned := parted.other.has_of_below below
    rwa [Bond.has_on] at owned

/-- A call of the second renderer leaves the first one's bond as it is. -/
theorem turn_second (parted : Parted start host host' r theirs shared alone)
    (unrepeated : Unrepeated start (call.leaves host' shared.secondSite).document) :
    ∃ theirs', Parted start host host' r theirs' (shared.turn host host' (.second call)) alone := by
  obtain ⟨-, r', grown, bonded, alike⟩ := call.leaves_bonded (o := ⟨start, start, host'⟩) (s := shared.secondSite)
    (t := shared.secondSite) parted.other parted.second unrepeated unrepeated
  have past : ∀ x, r.Has x ∨ x = host → Once start shared.document x := by
    rintro x (ours | rfl)
    · exact parted.bonded.left.once x ours
    · exact parted.bonded.left.known
  have apart : ∀ x, r'.Has x ∨ x = host' → ¬ (r.Has x ∨ x = host) := grown.apart past fun x other ours => by
    rw [Bond.has_on] at other
    exact parted.apart x ours other
  have ours := parted.bonded.frame grown.outside bonded.left.wellFormed (fun x ours =>
    not_or.mp fun other => apart x other ours) fun _ _ => bonded.has_child
  exact ⟨r'.Has, ours, parted.alike, bonded.itself, alike.itself, fun x ours other => apart x other ours⟩

/-- Calls in any order. -/
theorem run (turns : List SharedCall) (parted : Parted start host host' r theirs shared alone)
    (unrepeated : Unrepeated start (shared.run host host' turns).document)
    (unrepeated' : Unrepeated start (HostCall.runAll host (turns.filterMap SharedCall.own?) alone).document) :
    ∃ r' theirs', Parted start host host' r' theirs' (shared.run host host' turns)
      (HostCall.runAll host (turns.filterMap SharedCall.own?) alone) := by
  induction turns generalizing r theirs shared alone with
  | nil => exact ⟨r, theirs, parted⟩
  | cons turn rest ih =>
      have step := Shared.sequel_turn host host' parted.bonded.left.wellFormed turn
      have early := unrepeated.first (parted.bonded.left.aged.trans step.aged)
        (Shared.sequel_run host host' rest step.wellFormed).aged
      cases turn with
      | first call =>
          have step' := call.steady host alone parted.bonded.right.wellFormed
          have early' := unrepeated'.first (parted.bonded.right.aged.trans step'.aged)
            (HostCall.sequel_runAll host (rest.filterMap SharedCall.own?) step'.wellFormed).aged
          obtain ⟨⟨r', later⟩, -⟩ := parted.first early early'
          obtain ⟨r'', theirs', kept⟩ := ih later unrepeated unrepeated'
          exact ⟨r'', theirs', kept⟩
      | second call =>
          obtain ⟨theirs', later⟩ := parted.turn_second early
          obtain ⟨r', theirs'', kept⟩ := ih later unrepeated unrepeated'
          exact ⟨r', theirs'', kept⟩

end Parted

/-! ## Isolation -/

/-- A live element without children. -/
structure EmptyHost (d : Document) (host : NodeId) : Prop where
  element : ∃ e, d.content? host = some (.element e)
  empty : d.children host = []

/-- Nothing is owned yet. -/
theorem EmptyHost.holding (emptyHost : EmptyHost d host) (wf : WellFormed d) (none : ∀ x, ¬ own x) : Holding d host own d where
  wellFormed := wf
  aged := .refl d
  once := fun x owned => absurd owned (none x)
  inner := fun x owned => absurd owned (none x)
  known := by
    obtain ⟨e, element⟩ := emptyHost.element
    exact ⟨d, .refl d, .refl d, contains_iff_content?.mpr ⟨_, element⟩⟩
  apart := none host
  above := fun x _ owned => absurd owned (none x)

theorem EmptyHost.bonded (emptyHost : EmptyHost d host) (wf : WellFormed d) (none : ∀ x y, ¬ r x y) :
    Bonded ⟨d, d, host⟩ r d d where
  left := emptyHost.holding wf fun x ⟨y, bond⟩ => none x y bond
  right := emptyHost.holding wf fun y ⟨x, bond⟩ => none x y bond
  unique := ⟨fun _ _ _ bond => absurd bond (none _ _), fun _ _ _ bond => absurd bond (none _ _)⟩
  look := by
    rintro x y (bond | ⟨rfl, rfl⟩)
    · exact absurd bond (none x y)
    · rfl
  children := by
    rintro x y (bond | ⟨rfl, rfl⟩)
    · exact absurd bond (none x y)
    · rw [emptyHost.empty]
      exact .nil

theorem Parted.new (template template' : Template) (wf : WellFormed d) (emptyHost : EmptyHost d host)
    (emptyHost' : EmptyHost d host') (ne : host ≠ host') : Parted d host host' (fun _ _ => False) (fun _ => False)
      (Shared.new template template' d) ⟨.new template, d⟩ where
  bonded := emptyHost.bonded wf fun _ _ => id
  alike := ⟨rfl, .nil, .nil⟩
  other := emptyHost'.bonded wf fun _ _ => And.right
  second := ⟨rfl, .nil, .nil⟩
  apart := by
    rintro x (⟨_, owned⟩ | rfl) (owned' | host)
    · exact owned
    · exact owned
    · exact owned'
    · exact ne host

/-- Two new renderers do not know of each other: whatever calls are made of both, in
whatever order, a call of the first ends as it ends when only the calls of the first
are made, with the same markup in its host, and changes nothing below the host of the
second. -/
theorem isolated (template template' : Template) (wf : WellFormed d) (emptyHost : EmptyHost d host)
    (emptyHost' : EmptyHost d host') (apart : ¬ Below d host host' ∧ ¬ Below d host' host) (turns : List SharedCall)
    (unrepeated : Unrepeated d ((Shared.new template template' d).run host host' turns).document)
    (unrepeated' : Unrepeated d (HostCall.runAll host (turns.filterMap SharedCall.own?) ⟨.new template, d⟩).document)
    (front back : List SharedCall) (call : HostCall) (split : turns = front ++ .first call :: back) :
    call.view host ((Shared.new template template' d).run host host' front).firstSite =
      call.view host (HostCall.runAll host (front.filterMap SharedCall.own?) ⟨.new template, d⟩) ∧
    SameBelow host' ((Shared.new template template' d).run host host' front).document
      ((Shared.new template template' d).run host host' (front ++ [.first call])).document := by
  have ne : host ≠ host' := by
    rintro rfl
    exact apart.1 .refl
  have begun := Parted.new template template' wf emptyHost emptyHost' ne
  -- what holds of all the turns holds of the turns in front and the call
  subst split
  rw [Shared.run_append] at unrepeated
  rw [HostCall.runAll_append] at unrepeated'
  have started : WellFormed (Shared.new template template' d).document := wf
  have before := Shared.sequel_run host host' front started
  have step := Shared.sequel_turn host host' before.wellFormed (.first call)
  have rest := Shared.sequel_run host host' back step.wellFormed
  have started' : WellFormed (Site.mk (.new template) d).document := wf
  have before' := HostCall.sequel_runAll host (front.filterMap SharedCall.own?) started'
  have step' := call.steady host _ before'.wellFormed
  have rest' := HostCall.sequel_runAll host (back.filterMap SharedCall.own?) step'.wellFormed
  obtain ⟨r, theirs, parted⟩ := begun.run front (unrepeated.first before.aged (step.trans rest).aged)
    (unrepeated'.first before'.aged (step'.trans rest').aged)
  obtain ⟨-, view, below⟩ := parted.first (unrepeated.first (before.trans step).aged rest.aged)
    (unrepeated'.first (before'.trans step').aged rest'.aged)
  rw [Shared.run_append]
  exact ⟨view, below⟩

namespace Sample

/-- The id of a second empty element. -/
def aside : NodeId := (create (.element (.plain "aside" [])) Sample.document).1

/-- A document with two empty elements. -/
def hosts : Document := (create (.element (.plain "aside" [])) Sample.document).2

/-- One row, and markup. -/
def brief : Fields Datum :=
  [("on", .bool true), ("rows", .list [.text "<i>x</i>", .template "r" [("t", .text "c")]]), ("t", .text "U")]

/-- The second renderer takes the slots that the first one frees, and the other way
round; one call is refused. -/
def turns : List SharedCall :=
  [.first (.renderInto (.record fields)), .second (.renderInto (.record brief)), .first .clear,
   .second (.renderInto (.record fields)), .second .clear, .first (.renderInto .null),
   .second (.renderInto (.record brief))]

/-- A call of the first renderer behind these turns. -/
def last : HostCall := .renderInto (.record brief)

/-- Neither run uses an id again, and what is seen of the first renderer alone. -/
def standsAlone (template : Template) : Bool :=
  decide (Unrepeated hosts ((Shared.new template template hosts).run Sample.host aside (turns ++ [SharedCall.first last])).document) &&
  decide (Unrepeated hosts (HostCall.runAll Sample.host ((turns ++ [SharedCall.first last]).filterMap SharedCall.own?)
    ⟨.new template, hosts⟩).document) &&
  decide (last.view Sample.host (HostCall.runAll Sample.host (turns.filterMap SharedCall.own?) ⟨.new template, hosts⟩) =
    ⟨none, "<p open=\"\">Hi U</p><!----><i>x</i><li>c</li>"⟩)

end Sample

theorem isolated_page : ∃ template, Template.compile "page" Sample.source = .ok template ∧
    Sample.last.view Sample.host
      ((Shared.new template template Sample.hosts).run Sample.host Sample.aside Sample.turns).firstSite =
        ⟨none, "<p open=\"\">Hi U</p><!----><i>x</i><li>c</li>"⟩ ∧
    SameBelow Sample.aside ((Shared.new template template Sample.hosts).run Sample.host Sample.aside Sample.turns).document
      ((Shared.new template template Sample.hosts).run Sample.host Sample.aside
        (Sample.turns ++ [.first Sample.last])).document := by
  have goes : (Template.compile "page" Sample.source).map Sample.standsAlone = .ok true := by decide +kernel
  cases compiled : Template.compile "page" Sample.source with
  | error fault => rw [compiled] at goes; cases goes
  | ok template =>
      simp only [compiled, Except.map, Except.ok.injEq, Sample.standsAlone, Bool.and_eq_true, decide_eq_true_eq] at goes
      obtain ⟨⟨unrepeated, unrepeated'⟩, alone⟩ := goes
      have wf : WellFormed Sample.hosts := (create_becomes (create_becomes wellFormed_new _).2.wellFormed _).2.wellFormed
      have emptyHost : EmptyHost Sample.hosts Sample.host := ⟨⟨_, rfl⟩, rfl⟩
      have emptyHost' : EmptyHost Sample.hosts Sample.aside := ⟨⟨_, rfl⟩, rfl⟩
      have apart : ¬ Below Sample.hosts Sample.host Sample.aside ∧ ¬ Below Sample.hosts Sample.aside Sample.host := by
        rw [← wf.isInclusiveAncestor_iff, ← wf.isInclusiveAncestor_iff]
        decide +kernel
      obtain ⟨view, below⟩ := isolated template template wf emptyHost emptyHost' apart _ unrepeated unrepeated'
        Sample.turns [] Sample.last rfl
      exact ⟨template, rfl, view.trans alone, below⟩

end Inlay.Render
