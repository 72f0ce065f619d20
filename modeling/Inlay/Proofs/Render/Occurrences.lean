/-
# Proofs.Render.Occurrences — nodes stay with the items they were made for

An anchor makes nodes for what has a key, markup or a text, and remembers them in
order. When a value comes without nodes of its own, the j-th time that a key occurs in
it is shown by the nodes that showed it the j-th time before, or by new ones when it
did not occur so often; what occurs less often than before loses its last nodes
(`Renewed`). Finding the first entry of a key each time is what makes it so: of every
key the entries used are a prefix of those there were (`Dealt`).

Nodes of an anchor are `Tended` as long as nobody else discards them or puts anything
into them. However often the anchor was updated, with whatever nodes in its values and
whoever claimed them, and whatever others did elsewhere, its nodes are tended
(`tended_of_followed`).
-/
import Inlay.Proofs.Render.Calm
import Inlay.Proofs.Render.Holdings
import Inlay.Proofs.Render.Lift
import Inlay.Proofs.Render.Refill

namespace Inlay.Render

set_option autoImplicit false

open Relation Inlay.Document Inlay.Document.Planted

variable {d d' d'' : Document} {claims claims' : Claims} {comment x : NodeId} {nodes more : List NodeId}
  {ps : List Planted}

/-! ## Keys -/

section Keys

variable {α : Type}

mutual

/-- The keys of a value, lists of any depth flattened: a string is markup, a flag or a number its text. -/
def keys : ValueOf α → List Key
  | .null => []
  | .bool flag => [.text (ValueOf.text (.bool flag : ValueOf α))]
  | .number x => [.text (ValueOf.text (.number x : ValueOf α))]
  | .string source => [.markup source]
  | .list values => keysAll values
  | .map _ => []
  | .nodes _ => []

def keysAll : List (ValueOf α) → List Key
  | [] => []
  | value :: rest => keys value ++ keysAll rest

end

/-- What an item is made for. -/
def ItemOf.key? : ItemOf α → Option Key
  | .nodes _ => none
  | .made key => some key

mutual

theorem filterMap_key?_itemsOf : ∀ value : ValueOf α, (itemsOf value).filterMap ItemOf.key? = keys value
  | .null => rfl
  | .bool _ => rfl
  | .number _ => rfl
  | .string _ => rfl
  | .list values => filterMap_key?_itemsOfAll values
  | .map _ => rfl
  | .nodes _ => rfl

theorem filterMap_key?_itemsOfAll : ∀ values : List (ValueOf α),
    (itemsOfAll values).filterMap ItemOf.key? = keysAll values
  | [] => rfl
  | value :: rest => by
      rw [itemsOfAll, List.filterMap_append, filterMap_key?_itemsOf value, filterMap_key?_itemsOfAll rest, keysAll]

end

end Keys

/-! ## Dealing out -/

/-- The entries of a key. -/
def ofKey (key : Key) (entries : List Made) : List Made := entries.filter (·.key = key)

@[simp] theorem ofKey_append (key : Key) (first second : List Made) :
    ofKey key (first ++ second) = ofKey key first ++ ofKey key second := List.filter_append ..

theorem ofKey_cons (key : Key) (entry : Made) (rest : List Made) :
    ofKey key (entry :: rest) = if entry.key = key then entry :: ofKey key rest else ofKey key rest := by
  simp [ofKey, List.filter_cons]

theorem ofKey_eq_nil {key : Key} {entries : List Made} (absent : ∀ entry ∈ entries, entry.key ≠ key) :
    ofKey key entries = [] := List.filter_eq_nil_iff.mpr fun entry mem => by simpa using absent entry mem

/-- All nodes of entries. -/
def madeNodes (entries : List Made) : List NodeId := entries.flatMap (·.nodes)

/-- Taking an entry out finds the first one of its key. -/
theorem takeMade_spec (key : Key) : ∀ entries : List Made,
    (Anchor.takeMade key entries = none ∧ ∀ entry ∈ entries, entry.key ≠ key) ∨
      ∃ front nodes back, entries = front ++ ⟨key, nodes⟩ :: back ∧ (∀ entry ∈ front, entry.key ≠ key) ∧
        Anchor.takeMade key entries = some (nodes, front ++ back)
  | [] => .inl ⟨rfl, nofun⟩
  | ⟨other, nodes⟩ :: rest => by
      by_cases here : other = key
      · subst here
        exact .inr ⟨[], nodes, rest, rfl, nofun, by simp [Anchor.takeMade]⟩
      · rcases takeMade_spec key rest with ⟨none, absent⟩ | ⟨front, found, back, rfl, absent, taken⟩
        · exact .inl ⟨by simp [Anchor.takeMade, here, none], List.forall_mem_cons.mpr ⟨here, absent⟩⟩
        · exact .inr ⟨⟨other, nodes⟩ :: front, found, back, rfl, List.forall_mem_cons.mpr ⟨here, absent⟩,
            by simp [Anchor.takeMade, here, taken]⟩

/-- Entries were dealt out: of every key the first ones, as many as were asked for, and then new ones. -/
structure Dealt (old made unused fresh : List Made) : Prop where
  perm : (made ++ unused).Perm (old ++ fresh)
  taken : ∀ key, ofKey key made = (ofKey key old).take (ofKey key made).length ++ ofKey key fresh
  left : ∀ key, ofKey key unused = (ofKey key old).drop (ofKey key made).length

namespace Dealt

variable {old made unused fresh : List Made} {key : Key}

theorem nil (old : List Made) : Dealt old [] old [] := ⟨by simp, fun _ => rfl, fun _ => rfl⟩

/-- One entry of before is used, the first of its key. -/
theorem reuse {front back : List Made} (absent : ∀ entry ∈ front, entry.key ≠ key)
    (dealt : Dealt (front ++ back) made unused fresh) :
    Dealt (front ++ ⟨key, nodes⟩ :: back) (⟨key, nodes⟩ :: made) unused fresh where
  perm := by
    have others : (made ++ unused).Perm (front ++ (back ++ fresh)) := by simpa using dealt.perm
    simpa using (others.cons ⟨key, nodes⟩).trans List.perm_middle.symm
  taken := fun k => by
    have taken := dealt.taken k
    by_cases here : key = k
    · subst here
      simp only [ofKey_append, ofKey_cons, ofKey_eq_nil absent, if_true, List.nil_append, List.length_cons,
        List.take_succ_cons, List.cons_append] at taken ⊢
      rw [← taken]
    · simpa only [ofKey_append, ofKey_cons, if_neg here] using taken
  left := fun k => by
    have left := dealt.left k
    by_cases here : key = k
    · subst here
      simpa only [ofKey_append, ofKey_cons, ofKey_eq_nil absent, if_true, List.nil_append, List.length_cons,
        List.drop_succ_cons] using left
    · simpa only [ofKey_append, ofKey_cons, if_neg here] using left

/-- A new entry is made, as no one of its key is left. -/
theorem create (absent : ∀ entry ∈ old, entry.key ≠ key) (dealt : Dealt old made unused fresh) :
    Dealt old (⟨key, nodes⟩ :: made) unused (⟨key, nodes⟩ :: fresh) where
  perm := (dealt.perm.cons _).trans List.perm_middle.symm
  taken := fun k => by
    have taken := dealt.taken k
    by_cases here : key = k
    · subst here
      simp only [ofKey_cons, ofKey_eq_nil absent, if_true, List.take_nil, List.nil_append] at taken ⊢
      rw [← taken]
    · simpa only [ofKey_cons, if_neg here] using taken
  left := fun k => by
    have left := dealt.left k
    by_cases here : key = k
    · subst here
      simpa only [ofKey_cons, ofKey_eq_nil absent, if_true, List.drop_nil] using left
    · simpa only [ofKey_cons, if_neg here] using left

end Dealt

/-- Laying out deals the entries out to the keys of the items, in their order. -/
theorem layOut_dealt (claims : Claims) : ∀ (items : List Item) (old : List Made) {d : Document}, WellFormed d →
    ∃ (layout : Anchor.Layout) (fresh : List Entry) (d' : Document),
      Anchor.layOut items old ⟨d, claims⟩ = .ok layout ⟨d', claims⟩ ∧
      Dealt old layout.made layout.unused (fresh.map Entry.remembered) ∧
      layout.made.map (·.key) = items.filterMap ItemOf.key? ∧ madeNodes layout.made ⊆ layout.nodes ∧
      (items.filterMap ItemOf.template? = [] → layout.nodes = madeNodes layout.made) ∧
      Sprouted d d' none (plantsOf fresh)
  | [], old, d, wf => ⟨⟨[], [], old⟩, [], d, rfl, .nil old, rfl, List.Subset.refl _, fun _ => rfl, .nil wf⟩
  | .nodes ids :: rest, old, d, wf => by
      obtain ⟨layout, fresh, d', laid, dealt, named, within, -, sprouted⟩ := layOut_dealt claims rest old wf
      refine ⟨{ layout with nodes := ids ++ layout.nodes }, fresh, d', ?_, dealt, named, ?_, nofun, sprouted⟩
      · rw [Anchor.layOut, bind_ok laid]
        rfl
      · exact List.subset_append_of_subset_right _ within
  | .made key :: rest, old, d, wf => by
      have all : ∀ {found : List NodeId} {layout : Anchor.Layout}, madeNodes layout.made ⊆ layout.nodes →
          madeNodes (⟨key, found⟩ :: layout.made) ⊆ found ++ layout.nodes := fun within =>
        List.append_subset.mpr ⟨List.subset_append_left _ _, List.subset_append_of_subset_right _ within⟩
      rcases takeMade_spec key old with ⟨none, absent⟩ | ⟨front, found, back, rfl, absent, taken⟩
      · obtain ⟨entry, d₁, made, rfl, -, first⟩ := make_ok wf claims key
        obtain ⟨layout, fresh, d', laid, dealt, named, within, exactly, sprouted⟩ :=
          layOut_dealt claims rest old first.wellFormed
        refine ⟨⟨entry.remembered.nodes ++ layout.nodes, entry.remembered :: layout.made, layout.unused⟩,
          entry :: fresh, d', ?_, dealt.create absent, congrArg (entry.key :: ·) named, all within,
          fun plain => ?_, ?_⟩
        · rw [Anchor.layOut]
          simp only [none, pure_bind]
          rw [bind_ok made, bind_ok laid]
          rfl
        · exact congrArg (entry.remembered.nodes ++ ·) (exactly plain)
        · exact first.append (by simp) sprouted
      · obtain ⟨layout, fresh, d', laid, dealt, named, within, exactly, sprouted⟩ :=
          layOut_dealt claims rest (front ++ back) wf
        refine ⟨⟨found ++ layout.nodes, ⟨key, found⟩ :: layout.made, layout.unused⟩, fresh, d', ?_,
          dealt.reuse absent, congrArg (key :: ·) named, all within, fun plain => ?_, sprouted⟩
        · rw [Anchor.layOut]
          simp only [taken, pure_bind]
          rw [bind_ok laid]
          rfl
        · exact congrArg (found ++ ·) (exactly plain)

/-! ## Tending -/

/-- Nodes to show behind a comment: alive, apart from each other, and the comment is not among what is below them. -/
structure Tended (d : Document) (comment : NodeId) (nodes : List NodeId) : Prop where
  wellFormed : WellFormed d
  alive : d.contains comment = true
  nodup : nodes.Nodup
  live : ∀ x ∈ nodes, d.contains x = true
  solid : ∀ x ∈ nodes, d.content? x ≠ some .fragment
  inner : d.body ∉ nodes
  apart : ∀ x ∈ nodes, ∀ u ∈ nodes, Below d x u → x = u
  outside : ∀ u ∈ nodes, ¬ Below d comment u

theorem above_live (wf : WellFormed d) (live : d.contains x = true) {a : NodeId} (below : Below d x a) :
    d.contains a = true := by
  rcases below.cases_child with rfl | ⟨c, up, -⟩
  · exact live
  · exact wf.contains_parent (wf.parent_iff.mp up)

/-- What was alive is below nothing new when trees are planted. -/
theorem below_of_sprouted (wf : WellFormed d) (sprouted : Sprouted d d' none ps) (live : d.contains x = true)
    {a : NodeId} (below : Below d' x a) : Below d x a := by
  induction below with
  | refl => exact ReflTransGen.refl
  | @tail b c _ step ih =>
      have alive := above_live wf live ih
      have mem := sprouted.wellFormed.parent_iff.mp step
      have outside : c ∉ idsAll ps := by
        intro inside
        have child := Change.children_subset_of_stand sprouted.wellFormed sprouted.stand inside mem
        rw [sprouted.fresh b child] at alive
        cases alive
      rw [sprouted.children c outside, if_neg nofun] at mem
      exact ih.tail (wf.parent_iff.mpr mem)

namespace Tended

theorem nil (wf : WellFormed d) (live : d.contains comment = true) : Tended d comment [] :=
  ⟨wf, live, List.nodup_nil, nofun, nofun, List.not_mem_nil, nofun, nofun⟩

theorem subperm (tended : Tended d comment nodes) (sub : more.Subperm nodes) : Tended d comment more := by
  obtain ⟨same, perm, sublist⟩ := sub
  have inside : ∀ x ∈ more, x ∈ nodes := fun x mem => sublist.subset (perm.mem_iff.mpr mem)
  exact
    { wellFormed := tended.wellFormed
      alive := tended.alive
      nodup := perm.nodup_iff.mp (tended.nodup.sublist sublist)
      live := fun x mem => tended.live x (inside x mem)
      solid := fun x mem => tended.solid x (inside x mem)
      inner := fun mem => tended.inner (inside _ mem)
      apart := fun x mem u other => tended.apart x (inside x mem) u (inside u other)
      outside := fun u mem => tended.outside u (inside u mem) }

theorem sprouted (tended : Tended d comment nodes) (sprouted : Sprouted d d' none ps) :
    Tended d' comment (nodes ++ ps.map root) := by
  have wf := tended.wellFormed
  have fresh : ∀ x ∈ ps.map root, d.contains x = false := fun x mem =>
    sprouted.fresh x ((map_root_sublist ps).subset mem)
  -- the way up from what was alive is the old one, and new roots have none
  have old : ∀ {x u}, d.contains x = true → Below d' x u → Below d x u ∧ d.contains u = true := fun live below =>
    have below := below_of_sprouted wf sprouted live below
    ⟨below, above_live wf live below⟩
  have loose : ∀ {x u}, x ∈ ps.map root → Below d' x u → x = u := by
    intro x u mem below
    rcases ReflTransGen.cases_head below with same | ⟨p, up, -⟩
    · exact same
    · rw [Up, parent?_of_sprouted wf sprouted mem] at up
      cases up
  have new : ∀ {u}, d.contains u = true → u ∈ ps.map root → False := fun live mem => by
    rw [fresh _ mem] at live
    cases live
  refine
    { wellFormed := sprouted.wellFormed
      alive := sprouted.contains tended.alive
      nodup := List.nodup_append.mpr ⟨tended.nodup, sprouted.nodup.sublist (map_root_sublist ps),
        fun x mem u other same => new (tended.live x mem) (same ▸ other)⟩
      live := List.forall_mem_append.mpr ⟨fun x mem => sprouted.contains (tended.live x mem),
        fun x mem => sprouted.stand.contains x ((map_root_sublist ps).subset mem)⟩
      solid := List.forall_mem_append.mpr ⟨fun x mem => ?_, fun x mem => ?_⟩
      inner := fun mem => ?_
      apart := fun x mem u other below => ?_
      outside := fun u mem below => ?_ }
  · have outside : x ∉ idsAll ps := fun inside => by
      have live := tended.live x mem
      rw [sprouted.fresh x inside] at live
      cases live
    rw [sprouted.content x outside]
    exact tended.solid x mem
  · obtain ⟨p, there, rfl⟩ := List.mem_map.mp mem
    exact (standAll_iff.mp sprouted.stand p there).solid
  · rw [sprouted.body] at mem
    exact (List.mem_append.mp mem).elim tended.inner (new wf.body_contains)
  · rcases List.mem_append.mp mem with here | here
    · obtain ⟨below, live⟩ := old (tended.live x here) below
      exact tended.apart x here u ((List.mem_append.mp other).resolve_right (new live)) below
    · exact loose here below
  · obtain ⟨below, live⟩ := old tended.alive below
    exact tended.outside u ((List.mem_append.mp mem).resolve_right (new live)) below

theorem lifted (tended : Tended d comment nodes) (lifted : Lifted comment d d') : Tended d' comment nodes where
  wellFormed := lifted.wellFormed
  alive := (lifted.contains comment).trans tended.alive
  nodup := tended.nodup
  live := fun x mem => (lifted.contains x).trans (tended.live x mem)
  solid := fun x mem => by
    rw [lifted.content]
    exact tended.solid x mem
  inner := lifted.body ▸ tended.inner
  apart := fun x mem u other below =>
    (lifted.below x u below).elim (tended.apart x mem u other) fun above => absurd above (tended.outside u other)
  outside := fun u mem below => (lifted.below comment u below).elim (tended.outside u mem) (tended.outside u mem)

end Tended

/-! ## Freeing -/

/-- Some nodes were freed with all that was below them, and nothing else. -/
structure Thinned (gone : NodeId → Prop) (d d' : Document) : Prop where
  wellFormed : WellFormed d'
  body : d'.body = d.body
  content : ∀ y, (∀ u, gone u → ¬ Below d y u) → d'.content? y = d.content? y
  dead : ∀ u, gone u → d'.contains u = false
  below : ∀ y a, Below d' y a → Below d y a
  stays_dead : ∀ y, d.contains y = false → d'.contains y = false

theorem discardUnclaimed_thinned (claims : Claims) : ∀ (nodes : List NodeId) {d : Document}, WellFormed d →
    d.body ∉ nodes → ∃ d', Anchor.discardUnclaimed nodes ⟨d, claims⟩ = .ok () ⟨d', claims⟩ ∧
      Thinned (fun u => u ∈ nodes ∧ u ∉ claims) d d'
  | [], d, wf, _ => ⟨d, rfl, wf, rfl, fun _ _ => rfl, nofun, fun _ _ below => below, fun _ dead => dead⟩
  | node :: rest, d, wf, inner => by
      simp only [List.mem_cons, not_or] at inner
      rw [Anchor.discardUnclaimed, Act.bind_isClaimed, Act.bind_ask]
      by_cases goes : d.contains node = true ∧ node ∉ claims
      · obtain ⟨d₁, freed, becomes⟩ := discard_becomes wf goes.1 (Ne.symm inner.1)
        have gone : ∀ y, y ∈ d.descendants node ↔ Below d y node := fun y => by simp [wf.mem_descendants, goes.1]
        have below : ∀ y a, Below d₁ y a → Below d y a := fun y a =>
          Below.of_children_subset wf becomes.wellFormed fun p => by
            rw [becomes.children]
            dsimp only
            split
            · exact List.nil_subset _
            · exact List.erase_subset
        have content : ∀ y, ¬ Below d y node → d₁.content? y = d.content? y := fun y away => by
          rw [becomes.content]
          exact if_neg (mt (gone y).mp away)
        have dead : d₁.contains node = false := by
          rw [← Bool.not_eq_true, contains_iff_content?, becomes.content]
          rintro ⟨c, found⟩
          dsimp only at found
          rw [if_pos ((gone node).mpr ReflTransGen.refl)] at found
          cases found
        have less : ∀ y, d.contains y = false → d₁.contains y = false := fun y none => by
          rw [← Bool.not_eq_true, contains_iff_content?] at none ⊢
          rintro ⟨c, found⟩
          rw [becomes.content] at found
          dsimp only at found
          split at found
          · cases found
          · exact none ⟨c, found⟩
        obtain ⟨d₂, others, thinned⟩ := discardUnclaimed_thinned claims rest becomes.wellFormed
          (by rw [becomes.body]; exact inner.2)
        refine ⟨d₂, ?_, thinned.wellFormed, thinned.body.trans becomes.body, fun y away => ?_, ?_,
          fun y a under => below y a (thinned.below y a under), fun y dead => thinned.stays_dead y (less y dead)⟩
        · rw [if_pos (by simpa using goes), bind_ok (Act.edit_ok freed)]
          exact others
        · rw [thinned.content y fun u both under => away u ⟨List.mem_cons_of_mem _ both.1, both.2⟩ (below y u under),
            content y (away node ⟨List.mem_cons_self, goes.2⟩)]
        · rintro u ⟨mem, free⟩
          rcases List.mem_cons.mp mem with rfl | later
          · exact thinned.stays_dead u dead
          · exact thinned.dead u ⟨later, free⟩
      · obtain ⟨d₂, others, thinned⟩ := discardUnclaimed_thinned claims rest wf inner.2
        refine ⟨d₂, ?_, { thinned with
          content := fun y away => thinned.content y fun u both => away u ⟨List.mem_cons_of_mem _ both.1, both.2⟩
          dead := ?_ }⟩
        · rw [if_neg (by simpa using goes)]
          exact others
        · rintro u ⟨mem, free⟩
          rcases List.mem_cons.mp mem with rfl | later
          · refine thinned.stays_dead u ?_
            simpa [free] using goes
          · exact thinned.dead u ⟨later, free⟩

/-- What is tended is not below what is freed beside it. -/
theorem Tended.thinned (tended : Tended d comment (nodes ++ more)) (thinned : Thinned (fun u => u ∈ more ∧ u ∉ claims) d d') :
    Tended d' comment nodes ∧ ∀ x ∈ nodes, ∀ u ∈ more, ¬ Below d x u := by
  obtain ⟨nodup, -, aside⟩ := List.nodup_append.mp tended.nodup
  have clear : ∀ x ∈ nodes, ∀ u ∈ more, ¬ Below d x u := fun x mem u other below =>
    aside x mem u other (tended.apart x (List.mem_append_left _ mem) u (List.mem_append_right _ other) below)
  have content : ∀ x ∈ nodes, d'.content? x = d.content? x := fun x mem =>
    thinned.content x fun u both => clear x mem u both.1
  have alive : ∀ {x}, d'.content? x = d.content? x → d.contains x = true → d'.contains x = true := fun same live => by
    obtain ⟨c, found⟩ := contains_iff_content?.mp live
    exact contains_iff_content?.mpr ⟨c, same.trans found⟩
  refine ⟨⟨thinned.wellFormed, ?_, nodup, fun x mem => ?_, fun x mem => ?_, fun mem => ?_, fun x mem u other below => ?_,
    fun u mem below => ?_⟩, clear⟩
  · exact alive (thinned.content comment fun u both => tended.outside u (List.mem_append_right _ both.1)) tended.alive
  · exact alive (content x mem) (tended.live x (List.mem_append_left _ mem))
  · rw [content x mem]
    exact tended.solid x (List.mem_append_left _ mem)
  · rw [thinned.body] at mem
    exact tended.inner (List.mem_append_left _ mem)
  · exact tended.apart x (List.mem_append_left _ mem) u (List.mem_append_left _ other) (thinned.below x u below)
  · exact tended.outside u (List.mem_append_left _ mem) (thinned.below comment u below)

/-! ## Updating -/

section Update

variable {anchor anchor' : Anchor} {value : Option Value}

/-- The parts of an update: laying out is never refused, and what is not used again is freed at the end. -/
theorem update_begins (tended : Tended d comment (madeNodes anchor.made)) (claims : Claims) (value : Option Value) :
    ∃ (layout : Anchor.Layout) (fresh : List Entry) (d₁ : Document),
      Dealt anchor.made layout.made layout.unused (fresh.map Entry.remembered) ∧
      layout.made.map (·.key) = keys (value.getD .null) ∧ madeNodes layout.made ⊆ layout.nodes ∧
      (listed (value.getD .null) = [] → layout.nodes = madeNodes layout.made) ∧
      Sprouted d d₁ none (plantsOf fresh) ∧ Tended d₁ comment (madeNodes layout.made ++ madeNodes layout.unused) ∧
      anchor.update value ⟨d, claims⟩ = (do
        reconcile (.behind anchor.comment) anchor.current layout.nodes
        Anchor.discardUnclaimed (madeNodes layout.unused)
        return { anchor with current := layout.nodes, made := layout.made }) ⟨d₁, claims⟩ := by
  obtain ⟨layout, fresh, d₁, laid, dealt, named, within, exactly, sprouted⟩ :=
    layOut_dealt claims (itemsOf (value.getD .null)) anchor.made tended.wellFormed
  refine ⟨layout, fresh, d₁, dealt, named.trans (filterMap_key?_itemsOf _), within, fun none => exactly ?_, sprouted,
    ?_, ?_⟩
  · rw [filterMap_itemsOf, none]
  · have nodes : (madeNodes anchor.made ++ (plantsOf fresh).map root).Perm
        (madeNodes layout.made ++ madeNodes layout.unused) := by
      have perm := (dealt.perm.flatMap_right (·.nodes)).symm
      simpa only [madeNodes, plantsOf, List.flatMap_append, List.flatMap_map, List.map_flatMap,
        Entry.remembered] using perm
    exact (tended.sprouted sprouted).subperm nodes.symm.subperm
  · rw [Anchor.update, bind_ok laid]
    rfl

/-- An update that answers leaves the nodes of the anchor tended. -/
theorem Tended.update (tended : Tended d anchor.comment (madeNodes anchor.made))
    (done : anchor.update value ⟨d, claims⟩ = .ok anchor' ⟨d', claims'⟩) :
    anchor'.comment = anchor.comment ∧ anchor'.made.map (·.key) = keys (value.getD .null) ∧
      Tended d' anchor.comment (madeNodes anchor'.made) := by
  obtain ⟨layout, fresh, d₁, -, named, -, -, -, tended₁, parts⟩ := update_begins tended claims value
  rw [parts] at done
  obtain ⟨⟨⟩, stage₂, placed, others⟩ := of_bind_ok done
  obtain ⟨d₂, claims₂, rfl, lifted, -⟩ := reconcile_lifted tended₁.wellFormed placed
  have tended₂ := tended₁.lifted lifted
  obtain ⟨d₃, freed, thinned⟩ := discardUnclaimed_thinned claims₂ (madeNodes layout.unused) tended₂.wellFormed
    fun mem => tended₂.inner (List.mem_append_right _ mem)
  rw [bind_ok freed] at others
  cases others
  exact ⟨rfl, named, (tended₂.thinned thinned).1⟩

/-- An update that fails leaves a well-formed document, and the comment. -/
theorem Tended.spoil {fault : Fault} (tended : Tended d anchor.comment (madeNodes anchor.made))
    (refused : anchor.update value ⟨d, claims⟩ = .error fault ⟨d', claims'⟩) : Tended d' anchor.comment [] := by
  have sequel := Anchor.steady_update value anchor ⟨d, claims⟩ tended.wellFormed
  rw [left_error refused] at sequel
  refine .nil sequel.wellFormed ?_
  obtain ⟨layout, fresh, d₁, -, -, -, -, -, tended₁, parts⟩ := update_begins tended claims value
  have calm := calm_reconcile (.behind anchor.comment) anchor.current layout.nodes ⟨d₁, claims⟩
  rw [parts] at refused
  cases placed : reconcile (.behind anchor.comment) anchor.current layout.nodes ⟨d₁, claims⟩ with
  | error fault stage =>
      rw [bind_error placed] at refused
      cases refused
      rw [left_error placed] at calm
      exact (calm.contains _).trans tended₁.alive
  | ok answer stage =>
      -- what follows is never refused
      obtain ⟨d₂, claims₂, rfl, lifted, -⟩ := reconcile_lifted tended₁.wellFormed placed
      have tended₂ := tended₁.lifted lifted
      obtain ⟨d₃, freed, -⟩ := discardUnclaimed_thinned claims₂ (madeNodes layout.unused) tended₂.wellFormed
        fun mem => tended₂.inner (List.mem_append_right _ mem)
      rw [bind_ok placed, bind_ok freed] at refused
      cases refused

/-- Others who leave the nodes and all below them alone leave them tended. -/
theorem Tended.leftAlone (tended : Tended d comment nodes)
    (alone : LeftAlone (fun x => ∃ u ∈ nodes, Below d x u) d d') (live : d'.contains comment = true) :
    Tended d' comment nodes := by
  have wf := tended.wellFormed
  -- below a node of the anchor there is now what was below it
  have below : ∀ {x u}, u ∈ nodes → Below d' x u → Below d x u := by
    intro x u mem below
    induction below using ReflTransGen.head_induction_on with
    | refl => exact ReflTransGen.refl
    | @head y z step _ ih =>
        have child := alone.wellFormed.parent_iff.mp step
        rw [alone.children z ⟨u, mem, ih⟩ (wf.contains_of_below (tended.live u mem) ih)] at child
        exact ReflTransGen.head (wf.parent_iff.mpr child) ih
  have content : ∀ x ∈ nodes, d'.content? x = d.content? x := fun x mem =>
    alone.content x ⟨x, mem, ReflTransGen.refl⟩ (tended.live x mem)
  exact
    { wellFormed := alone.wellFormed
      alive := live
      nodup := tended.nodup
      live := fun x mem => by
        obtain ⟨c, found⟩ := contains_iff_content?.mp (tended.live x mem)
        exact contains_iff_content?.mpr ⟨c, (content x mem).trans found⟩
      solid := fun x mem => by
        rw [content x mem]
        exact tended.solid x mem
      inner := alone.body ▸ tended.inner
      apart := fun x mem u other under => tended.apart x mem u other (below other under)
      outside := fun u mem under => tended.outside u mem (below mem under) }

end Update

/-- An anchor was updated any number of times, with any values and claims; in between others did not touch its
nodes. The keys are those of the last value; after an update that failed the anchor remembers nothing. -/
inductive Followed : Document → Anchor → List Key → Prop where
  | new {d : Document} {comment : NodeId} : WellFormed d → d.contains comment = true →
      Followed d (Anchor.new comment) []
  | updated {d d' : Document} {anchor anchor' : Anchor} {claims claims' : Claims} {last : List Key}
      {value : Option Value} : Followed d anchor last →
      anchor.update value ⟨d, claims⟩ = .ok anchor' ⟨d', claims'⟩ → Followed d' anchor' (keys (value.getD .null))
  | failed {d d' : Document} {anchor : Anchor} {claims claims' : Claims} {last : List Key} {value : Option Value}
      {fault : Fault} : Followed d anchor last →
      anchor.update value ⟨d, claims⟩ = .error fault ⟨d', claims'⟩ → Followed d' anchor.spoiled []
  | others {d d' : Document} {anchor : Anchor} {last : List Key} : Followed d anchor last →
      LeftAlone (fun x => ∃ u ∈ madeNodes anchor.made, Below d x u) d d' → d'.contains anchor.comment = true →
      Followed d' anchor last

theorem tended_of_followed {anchor : Anchor} {last : List Key} (followed : Followed d anchor last) :
    Tended d anchor.comment (madeNodes anchor.made) ∧ anchor.made.map (·.key) = last := by
  induction followed with
  | new wf live => exact ⟨.nil wf live, rfl⟩
  | updated _ done ih =>
      obtain ⟨same, named, tended⟩ := ih.1.update done
      exact ⟨same ▸ tended, named⟩
  | failed _ refused ih => exact ⟨ih.1.spoil refused, rfl⟩
  | others _ alone live ih => exact ⟨ih.1.leftAlone alone live, ih.2⟩

/-! ## Whether an update is refused -/

theorem detachOld_refused {next : List NodeId} : ∀ (previous : List NodeId) {d : Document}, WellFormed d →
    d.body ∈ previous → d.body ∉ next → d.body ∉ claims →
    ∃ stage, detachOld next previous ⟨d, claims⟩ = .error (.document .bodyRemoval) stage
  | [], d, wf, mem, _, _ => absurd mem List.not_mem_nil
  | node :: rest, d, wf, mem, fresh, free => by
      rw [detachOld, Act.bind_isClaimed, Act.bind_ask]
      by_cases here : node = d.body
      · subst here
        have check : d.admitsRemoval d.body = .error .bodyRemoval := by simp [admitsRemoval]
        have refused : Document.remove d.body d = .error .bodyRemoval d := by
          rw [Document.remove, Document.Edit.bind_error (Document.Edit.require_error check)]
        have edited : Act.edit (Document.remove d.body) ⟨d, claims⟩ =
            .error (.document .bodyRemoval) ⟨d, claims⟩ := by simp [Act.edit, refused]
        exact ⟨_, by rw [if_pos (by simp [fresh, free, wf.body_contains]), bind_error edited]⟩
      · have later : d.body ∈ rest := (List.mem_cons.mp mem).resolve_left (Ne.symm here)
        split
        · next goes =>
            have live : d.contains node = true := by simp_all
            obtain ⟨d₁, removed, out⟩ := remove_becomes wf live here
            rw [bind_ok (Act.edit_ok removed)]
            exact detachOld_refused rest out.wellFormed (out.body ▸ later) (out.body ▸ fresh) (out.body ▸ free)
        · exact detachOld_refused rest wf later fresh free

/-- Reconciling nodes that are tended is refused only for the body among the nodes of before. -/
theorem reconcile_tended {previous : List NodeId} (tended : Tended d comment nodes) (claims : Claims)
    (spared : d.body ∉ previous) : ∃ stage, reconcile (.behind comment) previous nodes ⟨d, claims⟩ = .ok () stage := by
  obtain ⟨d₁, detached, out⟩ := detachOld_becomes claims nodes previous tended.wellFormed spared
  obtain ⟨d₂, same, lifted⟩ := detachOld_lifted previous tended.wellFormed detached
  cases same
  have tended₁ := tended.lifted lifted
  have wf₁ := out.wellFormed
  cases up : d₁.parent? comment with
  | none =>
      obtain ⟨d₃, claims₃, done, -, -⟩ := placeNowhere_becomes nodes claims wf₁
      refine ⟨⟨d₃, claims₃⟩, ?_⟩
      rw [reconcile, bind_ok detached, Act.bind_ask]
      simp only [Position.parent?, up]
      exact done
  | some parent =>
      obtain ⟨before, after, split⟩ := List.append_of_mem (wf₁.parent_iff.mp up)
      have movable : ∀ x ∈ nodes, Movable d₁ parent x := fun x mem =>
        { live := tended₁.live x mem
          solid := tended₁.solid x mem
          inner := fun same => tended₁.inner (same ▸ mem)
          outside := fun below => tended₁.outside x mem (ReflTransGen.head up below) }
      obtain ⟨d₃, claims₃, done, -, -⟩ := placeIn_becomes nodes claims wf₁
        (wf₁.linked.container parent (by simp [split])) (split.trans (List.append_cons _ _ _)) movable
      rw [List.getLast?_concat] at done
      refine ⟨⟨d₃, claims₃⟩, ?_⟩
      rw [reconcile, bind_ok detached, Act.bind_ask]
      simp only [Position.parent?, up, Position.cursor?]
      exact done

/-! ## Occurrences -/

/-- The nodes of one of the entries of a key. -/
def occurrence (key : Key) (j : Nat) (entries : List Made) : Option (List NodeId) := ((ofKey key entries)[j]?).map (·.nodes)

/-- A node of an entry of before that is beyond those of now. -/
def Surplus (old new : List Made) (x : NodeId) : Prop :=
  ∃ key j nodes, occurrence key j old = some nodes ∧ occurrence key j new = none ∧ x ∈ nodes

/-- What became of the nodes of an anchor. -/
structure Renewed (old new : List Made) (d d' : Document) : Prop where
  /-- An occurrence that goes on has the nodes it had. -/
  again : ∀ key j nodes, occurrence key j old = some nodes → occurrence key j new ≠ none →
    occurrence key j new = some nodes
  /-- Any other has new nodes. -/
  fresh : ∀ key j nodes, occurrence key j new = some nodes → occurrence key j old = none →
    ∀ x ∈ nodes, d.contains x = false
  alive : ∀ x ∈ madeNodes new, d'.contains x = true
  dead : ∀ x, Surplus old new x → d'.contains x = false
  /-- Nothing else that was there before is discarded, nor changed in content. -/
  spared : ∀ y, d.contains y = true → (∀ u, Surplus old new u → ¬ Below d y u) → d'.content? y = d.content? y

namespace Dealt

variable {old made unused fresh : List Made} (dealt : Dealt old made unused fresh)
include dealt

theorem occurrence_again {key : Key} {j : Nat} (before : occurrence key j old = some nodes)
    (now : occurrence key j made ≠ none) : occurrence key j made = some nodes := by
  obtain ⟨entry, found, rfl⟩ := Option.map_eq_some_iff.mp before
  have short : j < (ofKey key made).length := by
    by_contra long
    exact now (by simp [occurrence, List.getElem?_eq_none (Nat.le_of_not_lt long)])
  have inside := (List.getElem?_eq_some_iff.mp found).1
  have front : j < ((ofKey key old).take (ofKey key made).length).length := by
    rw [List.length_take]
    exact Nat.lt_min.mpr ⟨short, inside⟩
  rw [occurrence, dealt.taken key, List.getElem?_append_left front, List.getElem?_take_of_lt short, found]
  rfl

theorem occurrence_fresh {key : Key} {j : Nat} (before : occurrence key j old = none)
    (now : occurrence key j made = some nodes) : ∀ x ∈ nodes, x ∈ madeNodes fresh := by
  obtain ⟨entry, found, rfl⟩ := Option.map_eq_some_iff.mp now
  have beyond : (ofKey key old).length ≤ j := List.getElem?_eq_none_iff.mp (Option.map_eq_none_iff.mp before)
  have short : ((ofKey key old).take (ofKey key made).length).length ≤ j :=
    ((List.length_take_le' _ _).trans beyond)
  rw [dealt.taken key, List.getElem?_append_right short] at found
  have mem := List.mem_of_getElem? found
  exact fun x there => List.mem_flatMap.mpr ⟨entry, (List.mem_filter.mp mem).1, there⟩

/-- What is beyond the entries of now is left over. -/
theorem surplus_iff {x : NodeId} : Surplus old made x ↔ x ∈ madeNodes unused := by
  constructor
  · rintro ⟨key, j, nodes, before, now, mem⟩
    obtain ⟨entry, found, rfl⟩ := Option.map_eq_some_iff.mp before
    have beyond : (ofKey key made).length ≤ j := List.getElem?_eq_none_iff.mp (Option.map_eq_none_iff.mp now)
    have left : (ofKey key unused)[j - (ofKey key made).length]? = some entry := by
      rw [dealt.left key, List.getElem?_drop, Nat.add_sub_cancel' beyond]
      exact found
    exact List.mem_flatMap.mpr ⟨entry, (List.mem_filter.mp (List.mem_of_getElem? left)).1, mem⟩
  · intro mem
    obtain ⟨entry, there, here⟩ := List.mem_flatMap.mp mem
    have ofOwn : entry ∈ ofKey entry.key unused := List.mem_filter.mpr ⟨there, by simp⟩
    obtain ⟨i, found⟩ := List.getElem?_of_mem ofOwn
    rw [dealt.left entry.key, List.getElem?_drop] at found
    refine ⟨entry.key, _, entry.nodes, by rw [occurrence, found]; rfl, ?_, here⟩
    simp [occurrence]

end Dealt

/-- However an anchor came to show what it shows: a value without nodes to show is shown by the nodes of its keys'
earlier occurrences, and by new ones. The update is refused for one reason only, that the body was given as a node
to show before. -/
theorem update_keeps_occurrences {anchor : Anchor} {last : List Key} (followed : Followed d anchor last)
    (value : Option Value) (plain : listed (value.getD .null) = []) :
    anchor.made.map (·.key) = last ∧
      (d.body ∈ anchor.current → ∃ stage, anchor.update value ⟨d, []⟩ = .error (.document .bodyRemoval) stage) ∧
      (d.body ∉ anchor.current → ∃ anchor' d' claims', anchor.update value ⟨d, []⟩ = .ok anchor' ⟨d', claims'⟩ ∧
        anchor'.made.map (·.key) = keys (value.getD .null) ∧ anchor'.current = anchor'.made.flatMap (·.nodes) ∧
        anchor'.current.Nodup ∧ Renewed anchor.made anchor'.made d d') := by
  obtain ⟨tended, named⟩ := tended_of_followed followed
  obtain ⟨layout, fresh, d₁, dealt, named', -, exactly, sprouted, tended₁, begins⟩ := update_begins tended [] value
  have nodes := exactly plain
  refine ⟨named, fun given => ?_, fun spared => ?_⟩
  · have inner : d₁.body ∉ layout.nodes := nodes ▸ fun mem => tended₁.inner (List.mem_append_left _ mem)
    obtain ⟨stage, refused⟩ := detachOld_refused anchor.current tended₁.wellFormed
      (sprouted.body ▸ given) inner List.not_mem_nil
    have stopped : reconcile (.behind anchor.comment) anchor.current layout.nodes ⟨d₁, []⟩ =
        .error (.document .bodyRemoval) stage := bind_error refused
    exact ⟨stage, by rw [begins, bind_error stopped]⟩
  · have kept : Tended d₁ anchor.comment layout.nodes :=
      nodes ▸ tended₁.subperm (List.sublist_append_left _ _).subperm
    obtain ⟨stage₂, placed⟩ := reconcile_tended kept [] (sprouted.body ▸ spared)
    obtain ⟨d₂, claims₂, rfl, lifted, claimed⟩ := reconcile_lifted tended₁.wellFormed placed
    have tended₂ := tended₁.lifted lifted
    obtain ⟨d₃, freed, thinned⟩ := discardUnclaimed_thinned claims₂ (madeNodes layout.unused) tended₂.wellFormed
      fun mem => tended₂.inner (List.mem_append_right _ mem)
    have tended₃ := (tended₂.thinned thinned).1
    refine ⟨⟨anchor.comment, layout.nodes, layout.made⟩, d₃, claims₂, ?_, named', nodes, kept.nodup,
      { again := fun key j _ before now => dealt.occurrence_again before now
        fresh := fun key j _ now before x mem => ?_
        alive := tended₃.live
        dead := fun x surplus => ?_
        spared := fun y live away => ?_ }⟩
    · rw [begins, bind_ok placed, bind_ok freed]
      rfl
    · obtain ⟨_, there, here⟩ := List.mem_flatMap.mp (dealt.occurrence_fresh before now x mem)
      obtain ⟨entry, isNew, rfl⟩ := List.mem_map.mp there
      obtain ⟨p, planted, rfl⟩ := List.mem_map.mp here
      exact sprouted.fresh _ (root_mem_idsAll (List.mem_flatMap.mpr ⟨entry, isNew, planted⟩))
    · have unused := dealt.surplus_iff.mp surplus
      refine thinned.dead x ⟨unused, fun mem => ?_⟩
      have shown : x ∈ madeNodes layout.made := nodes ▸ ((claimed x).mp mem).resolve_left List.not_mem_nil
      exact (List.nodup_append.mp tended₁.nodup).2.2 x shown x unused rfl
    · have old : y ∉ idsAll (plantsOf fresh) := fun inside => by
        rw [sprouted.fresh y inside] at live
        cases live
      rw [thinned.content y fun u gone below => ?_, lifted.content, sprouted.content y old]
      rcases lifted.below y u below with here | above
      · exact away u (dealt.surplus_iff.mpr gone.1) (below_of_sprouted tended.wellFormed sprouted live here)
      · exact tended₁.outside u (List.mem_append_right _ gone.1) above

namespace Flags

/-- A comment in the body. -/
def document : Document := Document.new.performAll [.create (.comment "flags"), .append ⟨0, 0⟩ ⟨1, 0⟩]

/-- A flag on either side of markup. -/
def first : Value := .list [.bool true, .string "<i>x</i>", .bool true]

/-- The markup in front, and one flag less. -/
def second : Value := .list [.string "<i>x</i>", .list [.null, .bool true]]

/-- The nodes of the two values, one after the other behind the comment. -/
def shown : Option (List NodeId × List NodeId) :=
  match (Anchor.new ⟨1, 0⟩).update (some first) ⟨document, []⟩ with
  | .ok anchor stage =>
    match anchor.update (some second) { stage with claims := [] } with
    | .ok anchor' _ => if stage.document.body ∈ anchor.current then none else some (anchor.current, anchor'.current)
    | .error _ _ => none
  | .error _ _ => none

end Flags

theorem update_keeps_occurrences_flags : ∃ d anchor anchor' d' claims',
    Followed d anchor [.text "true", .markup "<i>x</i>", .text "true"] ∧
      anchor.update (some Flags.second) ⟨d, []⟩ = .ok anchor' ⟨d', claims'⟩ ∧
      anchor.current = [⟨2, 0⟩, ⟨4, 0⟩, ⟨3, 1⟩] ∧ anchor'.current = [⟨4, 0⟩, ⟨2, 0⟩] ∧
      Renewed anchor.made anchor'.made d d' := by
  have goes : Flags.shown = some ([⟨2, 0⟩, ⟨4, 0⟩, ⟨3, 1⟩], [⟨4, 0⟩, ⟨2, 0⟩]) := by decide +kernel
  have start : Followed Flags.document (Anchor.new ⟨1, 0⟩) [] :=
    .new (wellFormed_new.performAll _) (by decide +kernel)
  unfold Flags.shown at goes
  split at goes
  · next anchor stage one =>
      have followed : Followed stage.document anchor [.text "true", .markup "<i>x</i>", .text "true"] :=
        .updated start one
      split at goes
      · next anchor₂ stage₂ two =>
          split at goes
          · cases goes
          · next spared =>
              obtain ⟨-, -, answers⟩ := update_keeps_occurrences followed (some Flags.second) rfl
              obtain ⟨anchor', d', claims', done, -, -, -, renewed⟩ := answers spared
              cases two.symm.trans done
              simp only [Option.some.injEq, Prod.mk.injEq] at goes
              exact ⟨_, anchor, _, _, _, followed, done, goes.1, goes.2, renewed⟩
      · cases goes
  · cases goes

end Inlay.Render
