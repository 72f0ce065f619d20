/-
# Proofs.Document.Told — how records tell of the connected tree

Records are `Told` of the way from one document to another when every connected node
whose list of children, data or attributes changed is the target of one of its kind,
their targets are connected, and nothing that is seen of the connected tree changed
when there are none (`Unchanged`). The connected tree is what counts at both ends:
nodes that come or go are told of at the place where they are put in or taken out.

Moves, removals and everything that makes nodes keep contents, and one after the other
they are told together (`Rearranged.trans`, `Chronicle`); a fragment is inserted by
moving its children one by one (`insertNodes_chronicle`).
-/
import Inlay.Proofs.Document.Account
import Inlay.Proofs.Document.Change
import Inlay.Proofs.Document.Connected

namespace Inlay

set_option autoImplicit false

/-- A content apart from properties that were written. -/
def Content.shape : Content → Content
  | .element e => .element { e with properties := [] }
  | content => content

namespace Document

open Relation Inlay.Markup

variable {d d' d'' : Document} {news more : List Record} {x id node parent : NodeId}
  {reference : Option NodeId} {α β : Type}

/-- The attributes of an element, in their order. -/
def attributes? (d : Document) (id : NodeId) : Option (List Attribute) := (d.element? id).map (·.attributes)

/-! ## What is told -/

/-- The connected tree is the same: its nodes in their order, their kinds, texts and
attributes, and every property. -/
structure Unchanged (d d' : Document) : Prop where
  body : d'.body = d.body
  connected : ∀ x, Connected d' x ↔ Connected d x
  children : ∀ x, Connected d x → d'.children x = d.children x
  shape : ∀ x, Connected d x → (d'.content? x).map Content.shape = (d.content? x).map Content.shape
  property : ∀ x name, Connected d x → d'.property? x name = d.property? x name

/-- The records tell how the connected tree changed. -/
structure Told (d d' : Document) (news : List Record) : Prop where
  children : ∀ x, Connected d x → Connected d' x → d'.children x ≠ d.children x →
    ∃ added removed, .childList x added removed ∈ news
  data : ∀ x, Connected d x → Connected d' x → d'.data? x ≠ d.data? x → .characterData x ∈ news
  attributes : ∀ x, Connected d x → Connected d' x → d'.attributes? x ≠ d.attributes? x →
    ∃ name, .attribute x name ∈ news
  targets : ∀ record ∈ news, Connected d record.target ∧ Connected d' record.target
  silent : news = [] → Unchanged d d'

/-- The connected tree was rearranged as the records tell; contents are the same. -/
structure Rearranged (d d' : Document) (news : List Record) : Prop where
  body : d'.body = d.body
  content : ∀ x, Connected d x → Connected d' x → d'.content? x = d.content? x
  children : ∀ x, Connected d x → Connected d' x → d'.children x ≠ d.children x →
    ∃ added removed, .childList x added removed ∈ news
  targets : ∀ record ∈ news, Connected d record.target ∧ Connected d' record.target
  silent : news = [] → ∀ x, Connected d' x ↔ Connected d x

namespace Rearranged

theorem refl (d : Document) : Rearranged d d [] where
  body := rfl
  content := fun _ _ _ => rfl
  children := fun _ _ _ differ => absurd rfl differ
  targets := fun _ mem => absurd mem List.not_mem_nil
  silent := fun _ _ => Iff.rfl

/-- One after the other, as long as the first change disconnects nothing and the second
one tells of nodes that were connected before both. -/
theorem trans (first : Rearranged d d' news) (second : Rearranged d' d'' more)
    (stay : ∀ x, Connected d x → Connected d' x) (onward : ∀ x, Connected d' x → Connected d'' x)
    (back : ∀ record ∈ more, Connected d record.target) : Rearranged d d'' (news ++ more) where
  body := second.body.trans first.body
  content := fun x here there => (second.content x (stay x here) there).trans (first.content x here (stay x here))
  children := by
    intro x here there differ
    by_cases same : d'.children x = d.children x
    · obtain ⟨added, removed, mem⟩ := second.children x (stay x here) there (same ▸ differ)
      exact ⟨added, removed, List.mem_append_right _ mem⟩
    · obtain ⟨added, removed, mem⟩ := first.children x here (stay x here) same
      exact ⟨added, removed, List.mem_append_left _ mem⟩
  targets := by
    intro record mem
    rcases List.mem_append.mp mem with early | late
    · obtain ⟨before, after⟩ := first.targets record early
      exact ⟨before, onward _ after⟩
    · exact ⟨back record late, (second.targets record late).2⟩
  silent := by
    intro none x
    obtain ⟨none₁, none₂⟩ := List.append_eq_nil_iff.mp none
    rw [second.silent none₂, first.silent none₁]

theorem told (wf : WellFormed d) (wf' : WellFormed d') (rearranged : Rearranged d d' news) : Told d d' news where
  children := rearranged.children
  data := fun x here there differ => absurd (by simp only [data?, rearranged.content x here there]) differ
  attributes := fun x here there differ =>
    absurd (by simp only [attributes?, element?, rearranged.content x here there]) differ
  targets := rearranged.targets
  silent := by
    intro none
    have connected := rearranged.silent none
    have children : ∀ x, Connected d x → d'.children x = d.children x := by
      intro x here
      by_contra differ
      obtain ⟨_, _, mem⟩ := rearranged.children x here ((connected x).mpr here) differ
      rw [none] at mem
      cases mem
    have content : ∀ x, Connected d x → d'.content? x = d.content? x :=
      fun x here => rearranged.content x here ((connected x).mpr here)
    exact {
      body := rearranged.body
      connected := connected
      children := children
      shape := fun x here => by rw [content x here]
      property := fun x name here =>
        property?_congr wf wf' (here.contains wf) (((connected x).mpr here).contains wf')
          (fun z below => children z (here.below below)) (fun z below => content z (here.below below)) name }

end Rearranged

/-- The way from one document to another, counted and told by the records. -/
structure Chronicle (d d' : Document) (news : List Record) : Prop where
  wellFormed : WellFormed d'
  account : Account d d' news
  rearranged : Rearranged d d' news

namespace Chronicle

theorem refl (wf : WellFormed d) : Chronicle d d [] := ⟨wf, .refl d, .refl d⟩

/-- A way on which nothing is told goes on with another one. -/
theorem trans_silent (first : Chronicle d d' []) (second : Chronicle d' d'' []) : Chronicle d d'' [] where
  wellFormed := second.wellFormed
  account := first.account.trans second.account
  rearranged := first.rearranged.trans second.rearranged (fun x => (first.rearranged.silent rfl x).mpr)
    (fun x => (second.rearranged.silent rfl x).mpr) fun _ mem => absurd mem List.not_mem_nil

end Chronicle

/-! ## Moving one node -/

theorem mem_moved (wf : WellFormed d) (admitted : Admitted d parent reference) {p : NodeId} :
    x ∈ moved d.children parent node reference p ↔ if x = node then p = parent else x ∈ d.children p := by
  unfold moved
  by_cases self : reference = some node
  · have home := admitted.mem node self
    rw [if_pos self]
    split
    · next here =>
      rw [here]
      exact ⟨fun mem => wf.linked.parent_unique mem home, fun same => same ▸ home⟩
    · exact Iff.rfl
  · rw [if_neg self]
    by_cases place : p = parent
    · rw [if_pos place, mem_placeBefore]
      by_cases here : x = node
      · simp [here, place]
      · simp [here, List.mem_erase_of_ne here]
    · rw [if_neg place]
      by_cases here : x = node
      · simp [here, place, (wf.nodup p).not_mem_erase]
      · simp [here, List.mem_erase_of_ne here]

/-- A move of a node, by what it does to the way up. -/
structure Rehung (d d' : Document) (parent node : NodeId) : Prop where
  wellFormed : WellFormed d
  wellFormed' : WellFormed d'
  body : d'.body = d.body
  inner : node ≠ d.body
  outside : ¬ Below d parent node
  up : ∀ x, d'.parent? x = if x = node then some parent else d.parent? x

theorem rehung_of_moved (wf : WellFormed d) (admitted : Admitted d parent reference) (movable : Movable d parent node)
    (becomes : Becomes d d' d.content? (moved d.children parent node reference)) : Rehung d d' parent node where
  wellFormed := wf
  wellFormed' := becomes.wellFormed
  body := becomes.body
  inner := movable.inner
  outside := movable.outside
  up := by
    intro x
    refine Option.ext fun p => ?_
    rw [becomes.wellFormed.parent_iff, becomes.children, mem_moved wf admitted]
    split
    · rw [Option.some.injEq, eq_comm]
    · rw [wf.parent_iff]

namespace Rehung

/-- The ways up from nodes that are not below the moved one are the same. -/
theorem forth (rehung : Rehung d d' parent node) (apart : ¬ Below d x node) {a : NodeId} (below : Below d x a) :
    Below d' x a := by
  refine below.of_agree fun z p above up => ?_
  have other : z ≠ node := fun same => apart (same ▸ above)
  rwa [Up, rehung.up, if_neg other]

theorem up_node (rehung : Rehung d d' parent node) : d'.Up node parent := by
  rw [Up, rehung.up, if_pos rfl]

theorem outside' (rehung : Rehung d d' parent node) : ¬ Below d' parent node :=
  rehung.wellFormed'.acyclic.not_below rehung.up_node

theorem back (rehung : Rehung d d' parent node) (apart : ¬ Below d' x node) {a : NodeId} (below : Below d' x a) :
    Below d x a := by
  refine below.of_agree fun z p above up => ?_
  have other : z ≠ node := fun same => apart (same ▸ above)
  rwa [Up, rehung.up, if_neg other] at up

theorem connected_iff (rehung : Rehung d d' parent node) (apart : ¬ Below d x node) (apart' : ¬ Below d' x node) :
    Connected d' x ↔ Connected d x := by
  unfold Connected
  rw [rehung.body]
  exact ⟨rehung.back apart', rehung.forth apart⟩

theorem connected_parent (rehung : Rehung d d' parent node) : Connected d' parent ↔ Connected d parent :=
  rehung.connected_iff rehung.outside rehung.outside'

/-- A node that leaves no connected parent takes no connected node with it. -/
theorem stays (rehung : Rehung d d' parent node) (loose : ¬ Connected d node) (connected : Connected d x) :
    Connected d' x := by
  refine connected.of_agree rehung.body fun z p here up => ?_
  have other : z ≠ node := fun same => loose (same ▸ here)
  rwa [Up, rehung.up, if_neg other]

/-- A node that comes into no connected parent brings no connected node with it. -/
theorem came (rehung : Rehung d d' parent node) (loose : ¬ Connected d' node) (connected : Connected d' x) :
    Connected d x := by
  refine connected.of_agree rehung.body.symm fun z p here up => ?_
  have other : z ≠ node := fun same => loose (same ▸ here)
  rwa [Up, rehung.up, if_neg other] at up

end Rehung

/-- A node is told to have left its parent exactly if that is connected. -/
theorem mem_withdrawal (wf : WellFormed d) {record : Record} :
    record ∈ withdrawal d node ↔ ∃ p, d.Up node p ∧ Connected d p ∧ record = .childList p [] [node] := by
  unfold withdrawal
  cases up : d.parent? node with
  | none => simp [Up, up]
  | some p =>
      have connected := wf.isConnected_iff (x := p)
      by_cases here : d.isConnected p = true
      · simp [Up, up, here, connected.mp here]
      · simp [Up, up, here, mt connected.mpr here]

theorem mem_arrival (wf : WellFormed d) {record : Record} :
    record ∈ arrival d parent node ↔ Connected d parent ∧ record = .childList parent [node] [] := by
  unfold arrival
  have connected := wf.isConnected_iff (x := parent)
  by_cases here : d.isConnected parent = true
  · simp [here, connected.mp here]
  · simp [here, mt connected.mpr here]

/-- A moved node is told to have left its old parent and come into the new one. -/
theorem rearranged_of_moved (wf : WellFormed d) (admitted : Admitted d parent reference) (movable : Movable d parent node)
    (becomes : Becomes d d' d.content? (moved d.children parent node reference)) :
    Rearranged d d' (withdrawal d node ++ arrival d' parent node) := by
  have rehung := rehung_of_moved wf admitted movable becomes
  have wf' := becomes.wellFormed
  refine ⟨becomes.body, fun x _ _ => by rw [becomes.content], fun x here there differ => ?_, fun record mem => ?_,
    fun none x => ?_⟩
  · rw [becomes.children] at differ
    by_cases place : x = parent
    · subst place
      exact ⟨[node], [], List.mem_append_right _ ((mem_arrival wf').mpr ⟨there, rfl⟩)⟩
    · have left : node ∈ d.children x := by
        by_contra absent
        apply differ
        unfold moved
        split
        · rfl
        · exact List.erase_of_not_mem absent
      have told := (mem_withdrawal wf).mpr ⟨x, wf.parent_iff.mpr left, here, rfl⟩
      exact ⟨[], [node], List.mem_append_left _ told⟩
  · rcases List.mem_append.mp mem with left | came
    · obtain ⟨p, up, connected, rfl⟩ := (mem_withdrawal wf).mp left
      refine ⟨connected, ?_⟩
      have apart : ¬ Below d p node := wf.acyclic.not_below up
      unfold Connected
      rw [becomes.body]
      exact rehung.forth apart connected
    · obtain ⟨connected, rfl⟩ := (mem_arrival wf').mp came
      exact ⟨rehung.connected_parent.mp connected, connected⟩
  · obtain ⟨noLeave, noCome⟩ := List.append_eq_nil_iff.mp none
    have loose : ¬ Connected d node := by
      intro connected
      obtain ⟨p, up, above⟩ := connected.parent movable.inner
      have told := (mem_withdrawal wf).mpr ⟨p, up, above, rfl⟩
      rw [noLeave] at told
      cases told
    have loose' : ¬ Connected d' node := by
      intro connected
      obtain ⟨p, up, above⟩ := connected.parent (becomes.body ▸ movable.inner)
      cases up_unique up rehung.up_node
      have told : .childList parent [node] [] ∈ arrival d' parent node := (mem_arrival wf').mpr ⟨above, rfl⟩
      rw [noCome] at told
      cases told
    exact ⟨rehung.came loose', rehung.stays loose⟩

/-- Moving a node is chronicled by what is told of it. -/
theorem insertNode_chronicle (wf : WellFormed d) (solid : d.content? node ≠ some .fragment)
    (done : insertNode parent node reference d = .ok () d') :
    Rehung d d' parent node ∧ d'.content? = d.content? ∧
      Chronicle d d' (withdrawal d node ++ arrival d' parent node) := by
  obtain ⟨_, d₀, check, -⟩ := Edit.of_bind_ok done
  obtain ⟨ok, -⟩ := Edit.of_require_ok check
  obtain ⟨admitted, movable⟩ := allowed_of_check wf solid ok
  obtain ⟨d₁, done', becomes⟩ := insertNode_becomes wf admitted movable
  cases done.symm.trans done'
  exact ⟨rehung_of_moved wf admitted movable becomes, becomes.content, becomes.wellFormed, account_insertNode done,
    rearranged_of_moved wf admitted movable becomes⟩

/-! ## Inserting -/

/-- Nodes come out of a detached fragment one by one: nothing is disconnected, and all
is told of the parent. -/
theorem insertNodes_chronicle {fragment : NodeId} (parent : NodeId) (reference : Option NodeId) :
    ∀ (nodes : List NodeId) {d : Document}, WellFormed d → d.content? fragment = some .fragment →
      nodes.Nodup → (∀ n ∈ nodes, d.Up n fragment) →
      ∃ news, Chronicle d ((insertNodes parent reference nodes).after d) news ∧
        (∀ x, Connected d x → Connected ((insertNodes parent reference nodes).after d) x) ∧
        ∀ record ∈ news, record.target = parent
  | [], d, wf, _, _, _ => ⟨[], .refl wf, fun _ connected => connected, fun _ mem => absurd mem List.not_mem_nil⟩
  | node :: rest, d, wf, isFragment, nodup, inside => by
      obtain ⟨absent, nodup⟩ := List.nodup_cons.mp nodup
      obtain ⟨here, others⟩ := List.forall_mem_cons.mp inside
      have solid : d.content? node ≠ some .fragment := by
        intro same
        have loose := wf.linked.placeable node same
        rw [Up, loose] at here
        cases here
      rcases insertNode_cases wf parent reference solid with ⟨fault, refused⟩ | ⟨d', done, -⟩
      · rw [insertNodes, Edit.after_error (Edit.bind_error refused)]
        exact ⟨[], .refl wf, fun _ connected => connected, fun _ mem => absurd mem List.not_mem_nil⟩
      · obtain ⟨rehung, content, chronicle⟩ := insertNode_chronicle wf solid done
        -- the fragment has no parent, so it is not connected, nor is what it holds
        have detached : ¬ Connected d node := by
          intro connected
          obtain ⟨p, up, above⟩ := connected.parent rehung.inner
          cases up_unique up here
          obtain ⟨e, body⟩ := wf.body_element
          have outer : fragment ≠ d.body := by
            rintro rfl
            rw [isFragment] at body
            cases body
          obtain ⟨q, up, -⟩ := above.parent outer
          rw [Up, wf.linked.placeable fragment isFragment] at up
          cases up
        have none : withdrawal d node = [] := by
          refine List.eq_nil_iff_forall_not_mem.mpr fun record mem => ?_
          obtain ⟨p, up, above, -⟩ := (mem_withdrawal wf).mp mem
          exact detached (above.below (ReflTransGen.single up))
        rw [none, List.nil_append] at chronicle
        have inside' : ∀ n ∈ rest, d'.Up n fragment := by
          intro n mem
          have other : n ≠ node := fun same => absent (same ▸ mem)
          rw [Up, rehung.up, if_neg other]
          exact others n mem
        obtain ⟨more, later, stay, targets⟩ := insertNodes_chronicle parent reference rest chronicle.wellFormed
          (content ▸ isFragment) nodup inside'
        rw [insertNodes, Edit.after, Edit.bind_ok done]
        refine ⟨_, ⟨later.wellFormed, chronicle.account.trans later.account,
          chronicle.rearranged.trans later.rearranged (fun x => rehung.stays detached) stay fun record mem => ?_⟩,
          fun x connected => stay x (rehung.stays detached connected), fun record mem => ?_⟩
        · rw [targets record mem]
          have there := (later.rearranged.targets record mem).1
          rw [targets record mem] at there
          exact rehung.connected_parent.mp there
        · rcases List.mem_append.mp mem with first | second
          · obtain ⟨-, rfl⟩ := (mem_arrival chronicle.wellFormed).mp first
            rfl
          · exact targets record second

/-- An insertion is chronicled, whether it is refused, stops in between or succeeds: by
what the parent of the node, or the new one, is told of. -/
theorem insertBefore_chronicle (wf : WellFormed d) (parent node : NodeId) (reference : Option NodeId) :
    ∃ news, Chronicle d ((insertBefore parent node reference).after d) news ∧
      ∀ record ∈ news, record.target = parent ∨ d.Up node record.target := by
  rcases insertBefore_split parent node reference d with ⟨fault, refused⟩ | same
  · rw [Edit.after_error refused]
    exact ⟨[], .refl wf, fun _ mem => absurd mem List.not_mem_nil⟩
  rw [Edit.after, same]
  unfold carried
  by_cases isFragment : d.isFragment node = true
  · rw [if_pos isFragment]
    have content : d.content? node = some .fragment := by
      unfold Document.isFragment at isFragment
      split at isFragment
      · next found => exact found
      · cases isFragment
    obtain ⟨news, chronicle, -, targets⟩ := insertNodes_chronicle parent reference (d.children node) wf content
      (wf.nodup node) fun n mem => wf.parent_iff.mpr mem
    exact ⟨news, chronicle, fun record mem => .inl (targets record mem)⟩
  · rw [if_neg isFragment]
    have solid : d.content? node ≠ some .fragment := by
      intro content
      rw [Document.isFragment, content] at isFragment
      exact isFragment rfl
    rcases insertNode_cases wf parent reference solid with ⟨fault, refused⟩ | ⟨d', done, -⟩
    · rw [insertNodes, Edit.bind_error refused]
      exact ⟨[], .refl wf, fun _ mem => absurd mem List.not_mem_nil⟩
    · obtain ⟨-, -, chronicle⟩ := insertNode_chronicle wf solid done
      rw [insertNodes, Edit.bind_ok done]
      refine ⟨_, chronicle, fun record mem => ?_⟩
      rcases List.mem_append.mp mem with left | came
      · obtain ⟨p, up, -, rfl⟩ := (mem_withdrawal wf).mp left
        exact .inr up
      · obtain ⟨-, rfl⟩ := (mem_arrival chronicle.wellFormed).mp came
        exact .inl rfl

/-! ## Removing -/

/-- A node was taken out of its tree, and lives on or not. -/
structure Severed (d d' : Document) (node : NodeId) : Prop where
  wellFormed : WellFormed d
  wellFormed' : WellFormed d'
  body : d'.body = d.body
  inner : node ≠ d.body
  out : ∀ x, Below d x node → ¬ Connected d' x
  up : ∀ x, ¬ Below d x node → d'.parent? x = d.parent? x
  content : ∀ x, ¬ Below d x node → d'.content? x = d.content? x
  children : ∀ x, ¬ Below d x node → d'.children x = (d.children x).erase node

theorem Severed.stays (severed : Severed d d' node) (apart : ¬ Below d x node) (connected : Connected d x) :
    Connected d' x := by
  unfold Connected at connected ⊢
  rw [severed.body]
  refine connected.of_agree fun z p above up => ?_
  have apartZ : ¬ Below d z node := fun below => apart (ReflTransGen.trans above below)
  rwa [Up, severed.up z apartZ]

theorem Severed.back (severed : Severed d d' node) (connected : Connected d' x) : Connected d x := by
  refine connected.of_agree severed.body.symm fun z p here up => ?_
  have apart : ¬ Below d z node := fun below => severed.out z below here
  rwa [Up, severed.up z apart] at up

theorem Severed.rearranged (severed : Severed d d' node) : Rearranged d d' (withdrawal d node) := by
  have wf := severed.wellFormed
  have apart : ∀ {x}, Connected d' x → ¬ Below d x node := fun connected below => severed.out _ below connected
  refine ⟨severed.body, fun x _ there => severed.content x (apart there), fun x here there differ => ?_,
    fun record mem => ?_, fun none x => ?_⟩
  · rw [severed.children x (apart there)] at differ
    have left : node ∈ d.children x := by
      by_contra absent
      exact differ (List.erase_of_not_mem absent)
    exact ⟨[], [node], (mem_withdrawal wf).mpr ⟨x, wf.parent_iff.mpr left, here, rfl⟩⟩
  · obtain ⟨p, up, connected, rfl⟩ := (mem_withdrawal wf).mp mem
    exact ⟨connected, severed.stays (wf.acyclic.not_below up) connected⟩
  · refine ⟨severed.back, fun connected => severed.stays (fun below => ?_) connected⟩
    -- a connected node below it would make it connected, and its parent be told
    have above : Connected d node := by
      rcases below.total connected with up | down
      · exact up
      · rcases ReflTransGen.cases_head down with same | ⟨p, up, -⟩
        · exact absurd same.symm severed.inner
        · rw [Up, wf.body_loose] at up
          cases up
    obtain ⟨p, up, connected⟩ := above.parent severed.inner
    have told := (mem_withdrawal wf).mpr ⟨p, up, connected, rfl⟩
    rw [none] at told
    cases told

theorem remove_chronicle (wf : WellFormed d) (node : NodeId) :
    ∃ news, Chronicle d ((remove node).after d) news ∧ ∀ record ∈ news, d.Up node record.target := by
  rcases remove_cases wf node with ⟨fault, refused⟩ | ⟨d₁, -, live, inner⟩
  · rw [Edit.after_error refused]
    exact ⟨[], .refl wf, fun _ mem => absurd mem List.not_mem_nil⟩
  obtain ⟨d', done, becomes⟩ := remove_becomes wf live inner
  rw [Edit.after_ok done]
  have wf' := becomes.wellFormed
  have up : ∀ x, x ≠ node → d'.parent? x = d.parent? x := by
    intro x other
    refine parent?_congr wf wf' fun p => ?_
    rw [becomes.children, List.mem_erase_of_ne other]
  have loose : d'.parent? node = none := by
    refine wf'.parent?_eq_none fun p mem => ?_
    rw [becomes.children] at mem
    exact (wf.nodup p).not_mem_erase mem
  have severed : Severed d d' node := {
    wellFormed := wf
    wellFormed' := wf'
    body := becomes.body
    inner := inner
    out := by
      intro x below connected
      -- the way up to the node is the same, and ends there
      have reached : Connected d' node := by
        induction below using ReflTransGen.head_induction_on with
        | refl => exact connected
        | @head y z step rest ih =>
            by_cases same : y = node
            · exact same ▸ connected
            · have step' : d'.Up y z := by rwa [Up, up y same]
              have lower : y ≠ d'.body := by
                rintro rfl
                rw [Up, wf'.body_loose] at step'
                cases step'
              obtain ⟨p, first, above⟩ := connected.parent lower
              exact ih (up_unique first step' ▸ above)
      obtain ⟨p, first, -⟩ := reached.parent (becomes.body ▸ inner)
      rw [Up, loose] at first
      cases first
    up := fun x apart => up x fun same => apart (same ▸ ReflTransGen.refl)
    content := fun x _ => by rw [becomes.content]
    children := fun x _ => by rw [becomes.children] }
  refine ⟨_, ⟨wf', account_remove done, severed.rearranged⟩, fun record mem => ?_⟩
  obtain ⟨p, above, -, rfl⟩ := (mem_withdrawal wf).mp mem
  exact above

theorem discard_chronicle (wf : WellFormed d) (node : NodeId) :
    ∃ news, Chronicle d ((discard node).after d) news ∧ ∀ record ∈ news, d.Up node record.target := by
  rcases remove_cases wf node with ⟨fault, refused⟩ | ⟨d₁, -, live, inner⟩
  · rw [discard, Edit.after_error (Edit.bind_error refused)]
    exact ⟨[], .refl wf, fun _ mem => absurd mem List.not_mem_nil⟩
  obtain ⟨d', done, becomes⟩ := discard_becomes wf live inner
  rw [Edit.after_ok done]
  have wf' := becomes.wellFormed
  have gone : ∀ x, x ∈ d.descendants node ↔ Below d x node := by
    intro x
    simp [wf.mem_descendants, live]
  have severed : Severed d d' node := {
    wellFormed := wf
    wellFormed' := wf'
    body := becomes.body
    inner := inner
    out := by
      intro x below connected
      obtain ⟨content, found⟩ := contains_iff_content?.mp (connected.contains wf')
      simp only [becomes.content, if_pos ((gone x).mpr below)] at found
      cases found
    up := by
      intro x apart
      have other : x ≠ node := fun same => apart (same ▸ ReflTransGen.refl)
      refine parent?_congr wf wf' fun p => ?_
      simp only [becomes.children]
      split
      · next inside =>
        refine iff_of_false List.not_mem_nil fun mem => apart ?_
        exact ReflTransGen.head (wf.parent_iff.mpr mem) ((gone p).mp inside)
      · exact List.mem_erase_of_ne other
    content := fun x apart => by simp only [becomes.content, if_neg (mt (gone x).mp apart)]
    children := fun x apart => by simp only [becomes.children, if_neg (mt (gone x).mp apart)] }
  refine ⟨_, ⟨wf', account_discard done, severed.rearranged⟩, fun record mem => ?_⟩
  obtain ⟨p, up, -, rfl⟩ := (mem_withdrawal wf).mp mem
  exact up

/-! ## Making nodes -/

/-- New nodes that stand in no list of before change nothing. -/
theorem rearranged_of_fresh {fresh : List NodeId} (wf : WellFormed d) (wf' : WellFormed d') (body : d'.body = d.body)
    (new : ∀ x ∈ fresh, d.contains x = false) (content : ∀ x, x ∉ fresh → d'.content? x = d.content? x)
    (children : ∀ x, x ∉ fresh → d'.children x = d.children x)
    (inside : ∀ p ∈ fresh, d'.children p ⊆ fresh) : Rearranged d d' [] := by
  have old : ∀ {x}, Connected d x → x ∉ fresh := by
    intro x connected mem
    have live := connected.contains wf
    rw [new x mem] at live
    cases live
  -- above a new node there are new nodes only, and the body is none
  have above : ∀ {x p}, x ∈ fresh → d'.Up x p → p ∈ fresh := by
    intro x p mem up
    by_contra outside
    have child := wf'.parent_iff.mp up
    rw [children p outside] at child
    have live := wf.contains_child child
    rw [new x mem] at live
    cases live
  have aloft : ∀ {x a}, Below d' x a → x ∈ fresh → a ∈ fresh := by
    intro x a below mem
    induction below with
    | refl => exact mem
    | tail first step ih => exact above ih step
  have old' : ∀ {x}, Connected d' x → x ∉ fresh := by
    intro x connected mem
    have live := wf.body_contains
    rw [← body, new _ (aloft connected mem)] at live
    cases live
  have up : ∀ {x}, x ∉ fresh → d'.parent? x = d.parent? x := by
    intro x outside
    refine parent?_congr wf wf' fun p => ?_
    by_cases mem : p ∈ fresh
    · rw [wf.children_eq_nil (new p mem)]
      exact iff_of_false (fun child => outside (inside p mem child)) List.not_mem_nil
    · rw [children p mem]
  refine ⟨body, fun x here _ => content x (old here), fun x here _ differ => absurd (children x (old here)) differ,
    fun _ mem => absurd mem List.not_mem_nil, fun _ x => ⟨fun connected => ?_, fun connected => ?_⟩⟩
  · refine connected.of_agree body.symm fun z p here step => ?_
    rwa [Up, up (old' here)] at step
  · refine connected.of_agree body fun z p here step => ?_
    rwa [Up, up (old here)]

theorem create_chronicle (wf : WellFormed d) (content : Content) : Chronicle d (create content d).2 [] := by
  obtain ⟨fresh, becomes⟩ := create_becomes wf content
  refine ⟨becomes.wellFormed, .create content d, ?_⟩
  have new : ∀ x ∈ [(create content d).1], d.contains x = false := by simpa using fresh
  refine rearranged_of_fresh wf becomes.wellFormed becomes.body new (fun x other => ?_) (fun x _ => ?_) fun p mem => ?_
  · simp only [becomes.content, if_neg (mt List.mem_singleton.mpr other)]
  · rw [becomes.children]
  · rw [becomes.children, wf.children_eq_nil (new p mem)]
    exact List.nil_subset _

theorem plantLikeness_chronicle (wf : WellFormed d) (likeness : List Tree ⊕ Tree) :
    Chronicle d ((plantLikeness likeness).after d) [] := by
  have account := mute.plantLikeness likeness d
  cases likeness with
  | inl trees =>
      obtain ⟨fragment, ps, d', done, -, potted⟩ := plantFragment_potted trees wf
      have done : plantLikeness (.inl trees) d = .ok fragment d' := done
      rw [Edit.after_ok done] at account ⊢
      exact ⟨potted.wellFormed, account, rearranged_of_fresh wf potted.wellFormed potted.body potted.fresh
        potted.content potted.children fun _ mem => Change.children_subset_of_potted potted mem⟩
  | inr tree =>
      obtain ⟨p, d', done, -, sprouted⟩ := plant_sprouts tree wf (nofun : Takes d none)
      have done : plantLikeness (.inr tree) d = .ok p.root d' := done
      rw [Edit.after_ok done] at account ⊢
      exact ⟨sprouted.wellFormed, account, rearranged_of_fresh wf sprouted.wellFormed sprouted.body sprouted.fresh
        sprouted.content (fun x out => by simpa using sprouted.children x out)
        fun _ mem => Change.children_subset_of_stand sprouted.wellFormed sprouted.stand mem⟩

end Document

end Inlay
