/-
# Proofs.Render.Layout — nodes for the items of a value

Nodes that are made for an item stand detached and show what the item says
(`Entry.Shows`); an anchor remembers them by their key. `layOut_ok` says what a
list of items gives: for every item a piece, in order, that is either what
stands for a template or an entry of the item's key, remembered or new. No
remembered entry is used twice, and those that are not used are given back.
-/
import Inlay.Proofs.Data.Relabel
import Inlay.Proofs.Document.Parsing
import Inlay.Proofs.Render.Reconcile

namespace Inlay.Render

set_option autoImplicit false

open Relation Inlay.Document Inlay.Document.Planted Inlay.Markup

variable {d d' d'' : Document} {claims : Claims} {fragment x : NodeId} {ps : List Planted}

/-! ## Detached nodes -/

theorem removeAll_becomes (claims : Claims) : ∀ (ids : List NodeId) {d : Document}, WellFormed d →
    (∀ x ∈ ids, d.contains x = true) → d.body ∉ ids →
    ∃ d', (ids.forM fun node => Act.edit (Document.remove node)) ⟨d, claims⟩ = .ok () ⟨d', claims⟩ ∧
      Becomes d d' d.content? (without ids d.children)
  | [], d, wf, _, _ => ⟨d, rfl, by simpa [without_nil] using Becomes.refl wf⟩
  | node :: rest, d, wf, lives, inner => by
      simp only [List.mem_cons, not_or] at inner
      obtain ⟨here, others⟩ := List.forall_mem_cons.mp lives
      obtain ⟨d₁, removed, out⟩ := remove_becomes wf here (Ne.symm inner.1)
      obtain ⟨d₂, done, becomes⟩ := removeAll_becomes claims rest out.wellFormed
        (fun x mem => (contains_congr out.content x).trans (others x mem)) (by
          rw [out.body]
          exact inner.2)
      refine ⟨d₂, ?_, ?_⟩
      · exact (bind_ok (Act.edit_ok removed)).trans done
      · have all := out.trans becomes
        rwa [out.content, out.children, erase_eq_without wf, without_without,
          List.singleton_append] at all

/-- A fragment without children is the only thing that is freed with it. -/
theorem discard_empty (wf : WellFormed d) (isFragment : d.content? fragment = some .fragment)
    (empty : d.children fragment = []) :
    ∃ d', Document.discard fragment d = .ok () d' ∧
      Becomes d d' (fun x => if x = fragment then none else d.content? x) d.children := by
  have live : d.contains fragment = true := contains_iff_content?.mpr ⟨_, isFragment⟩
  have inner : fragment ≠ d.body := by
    rintro rfl
    obtain ⟨e, found⟩ := wf.body_element
    rw [isFragment] at found
    cases found
  have alone : ∀ x, x ∈ d.descendants fragment ↔ x = fragment := by
    intro x
    rw [wf.mem_descendants]
    constructor
    · rintro ⟨-, below⟩
      rcases below.cases_child with same | ⟨c, up, -⟩
      · exact same
      · have mem := wf.parent_iff.mp up
        rw [empty] at mem
        cases mem
    · rintro rfl
      exact ⟨live, ReflTransGen.refl⟩
  obtain ⟨d', done, becomes⟩ := discard_becomes wf live inner
  refine ⟨d', done, ?_⟩
  have content : (fun x => if x ∈ d.descendants fragment then none else d.content? x) =
      fun x => if x = fragment then none else d.content? x := by
    funext x
    simp only [alone]
  have children : (fun p => if p ∈ d.descendants fragment then [] else (d.children p).erase fragment) =
      d.children := by
    funext p
    simp only [alone]
    split
    · next same => rw [same, empty]
    · refine List.erase_of_not_mem fun mem => ?_
      have up := wf.parent_iff.mpr mem
      rw [wf.linked.placeable fragment isFragment] at up
      cases up
  rwa [content, children] at becomes

/-- Taking a fragment's nodes out leaves them detached, and nothing else. -/
theorem unwrap_sprouts (wf : WellFormed d) (claims : Claims) (potted : Potted d d' fragment ps) :
    ∃ d'', Anchor.unwrap fragment ⟨d', claims⟩ = .ok (ps.map root) ⟨d'', claims⟩ ∧
      Sprouted d d'' none ps := by
  have wf' := potted.wellFormed
  have rootIn : ∀ x ∈ ps.map root, x ∈ idsAll ps := by
    intro x mem
    obtain ⟨p, there, rfl⟩ := List.mem_map.mp mem
    exact root_mem_idsAll there
  have fresh : ∀ x ∈ idsAll ps, d.contains x = false :=
    fun x mem => potted.fresh x (List.mem_cons_of_mem _ mem)
  have absent : ∀ {x p}, d.contains x = false → x ∉ d.children p := by
    intro x p dead mem
    rw [wf.contains_child mem] at dead
    cases dead
  have aside := (List.nodup_cons.mp potted.nodup).1
  have inner : d'.body ∉ ps.map root := by
    intro mem
    have dead := fresh _ (rootIn _ mem)
    rw [potted.body, wf.body_contains] at dead
    cases dead
  obtain ⟨d₁, removed, out⟩ := removeAll_becomes claims (ps.map root) wf'
    (fun x mem => potted.stand.contains x (rootIn x mem)) inner
  have empty : d₁.children fragment = [] := by
    rw [out.children, without, potted.kids]
    exact List.filter_eq_nil_iff.mpr fun x mem => by simpa using List.mem_map.mp mem
  obtain ⟨d₂, freed, becomes⟩ := discard_empty out.wellFormed
    (by rw [out.content]; exact potted.isFragment) empty
  refine ⟨d₂, ?_, becomes.wellFormed, fresh, (List.nodup_cons.mp potted.nodup).2, ?_, ?_, ?_,
    becomes.body.trans (out.body.trans potted.body), potted.aged.trans (out.aged.trans becomes.aged)⟩
  · rw [Anchor.unwrap, Act.bind_ask, potted.kids, bind_ok removed, bind_ok (Act.edit_ok freed)]
    rfl
  · refine potted.stand.congr fun x mem => ⟨?_, ?_⟩
    · rw [becomes.content, out.content]
      refine if_neg ?_
      rintro rfl
      exact aside mem
    · rw [becomes.children, out.children]
      refine List.filter_eq_self.mpr fun y there => ?_
      simp only [decide_eq_true_eq]
      intro isRoot
      rw [← potted.kids] at isRoot
      have same := wf'.linked.parent_unique there isRoot
      exact aside (same ▸ mem)
  · intro x old
    rw [becomes.content, out.content]
    simp only
    split
    · next same =>
        rw [same, content?_eq_none (potted.fresh fragment List.mem_cons_self)]
    · next ne => exact potted.content x (by simp [ne, old])
  · intro x old
    rw [becomes.children, out.children, without]
    simp only [reduceCtorEq, if_false]
    by_cases same : x = fragment
    · subst same
      rw [wf.children_eq_nil (potted.fresh x List.mem_cons_self), potted.kids]
      exact List.filter_eq_nil_iff.mpr fun x mem => by simpa using List.mem_map.mp mem
    · rw [potted.children x (by simp [same, old])]
      refine List.filter_eq_self.mpr fun y there => ?_
      simp only [decide_eq_true_eq]
      exact fun isRoot => absent (fresh y (rootIn y isRoot)) there

/-! ## Entries -/

/-- Nodes that were made for a key, and their trees. -/
structure Entry where
  key : Key
  plants : List Planted

namespace Entry

/-- What an anchor remembers of an entry. -/
def remembered (entry : Entry) : Made := ⟨entry.key, entry.plants.map root⟩

/-- The trees that are made for a key. -/
def keyTrees : Key → List Tree
  | .text content => [.text content]
  | .markup source => markupTrees source

/-- The entry shows its key. -/
def Shows (entry : Entry) : Prop := trees entry.plants = keyTrees entry.key

end Entry

theorem makeText_ok (wf : WellFormed d) (claims : Claims) (content : String) :
    ∃ ps d', Anchor.makeText content ⟨d, claims⟩ = .ok (ps.map root) ⟨d', claims⟩ ∧
      trees ps = [.text content] ∧ Sprouted d d' none ps := by
  obtain ⟨fresh, made⟩ := create_becomes wf (.text content)
  have sprouted : Sprouted d (create (.text content) d).2 none
      [.text (create (.text content) d).1 content] := by
    have stands : Stands (create (.text content) d).2 (.text (create (.text content) d).1 content) := by
      simp [Stands, made.content]
    exact sprouted_of_becomes fresh made rfl stands
  refine ⟨_, _, ?_, by simp [trees, tree], sprouted⟩
  have edited : Act.edit (Edit.always (create (.text content))) ⟨d, claims⟩ =
      .ok (create (.text content) d).1 ⟨(create (.text content) d).2, claims⟩ := Act.edit_ok rfl
  exact bind_ok edited

/-- Making the nodes of a key is never refused. -/
theorem make_ok (wf : WellFormed d) (claims : Claims) (key : Key) :
    ∃ (entry : Entry) (d' : Document), Anchor.make key ⟨d, claims⟩ =
        .ok entry.remembered.nodes ⟨d', claims⟩ ∧
      entry.key = key ∧ entry.Shows ∧ Sprouted d d' none entry.plants := by
  cases key with
  | text content =>
      obtain ⟨ps, d', done, same, sprouted⟩ := makeText_ok wf claims content
      exact ⟨⟨.text content, ps⟩, d', done, rfl, same, sprouted⟩
  | markup source =>
      cases read : forest? source with
      | ok forest =>
          obtain ⟨fragment, ps, d₁, parsed, same, potted⟩ := parse_ok wf read
          obtain ⟨d₂, unwrapped, sprouted⟩ := unwrap_sprouts wf claims potted
          refine ⟨⟨.markup source, ps⟩, d₂, ?_, rfl, ?_, sprouted⟩
          · rw [Anchor.make, bind_ok (Act.edit_ok parsed)]
            exact unwrapped
          · simp [Entry.Shows, Entry.keyTrees, markupTrees, read, same]
      | error fault =>
          obtain ⟨d₁, parsed, becomes⟩ := parse_error wf read
          obtain ⟨ps, d₂, done, same, sprouted⟩ := makeText_ok becomes.wellFormed claims source
          refine ⟨⟨.markup source, ps⟩, d₂, ?_, rfl, ?_, .of_becomes becomes sprouted⟩
          · rw [Anchor.make, bind_ok (Act.edit_ok parsed)]
            exact done
          · simp [Entry.Shows, Entry.keyTrees, markupTrees, read, same]

/-- Taking a remembered entry out: the first of its key, if there is one. -/
theorem takeMade_cases (key : Key) : ∀ entries : List Entry,
    (Anchor.takeMade key (entries.map Entry.remembered) = none ∧ ∀ entry ∈ entries, entry.key ≠ key) ∨
      ∃ entry rest, Anchor.takeMade key (entries.map Entry.remembered) =
          some (entry.remembered.nodes, rest.map Entry.remembered) ∧
        entry.key = key ∧ entries.Perm (entry :: rest)
  | [] => .inl ⟨rfl, by simp⟩
  | first :: others => by
      by_cases here : first.key = key
      · exact .inr ⟨first, others, by simp [Anchor.takeMade, Entry.remembered, here], here, .refl _⟩
      · rcases takeMade_cases key others with ⟨none, absent⟩ | ⟨entry, rest, found, same, perm⟩
        · refine .inl ⟨?_, List.forall_mem_cons.mpr ⟨here, absent⟩⟩
          simp only [List.map_cons, Anchor.takeMade, none]
          simp [Entry.remembered, here]
        · refine .inr ⟨entry, first :: rest, ?_, same, (perm.cons first).trans (.swap _ _ _)⟩
          simp only [List.map_cons, Anchor.takeMade, found]
          simp [Entry.remembered, here]

/-! ## Laying out -/

section LayOut

variable {α : Type} (roots : α → List NodeId)

/-- What an item is shown by. -/
inductive Shown : ItemOf α → α ⊕ Entry → Prop where
  | nodes (a : α) : Shown (.nodes a) (.inl a)
  | made (entry : Entry) : entry.Shows → Shown (.made entry.key) (.inr entry)

/-- The nodes of a piece. -/
def pieceNodes : α ⊕ Entry → List NodeId
  | .inl a => roots a
  | .inr entry => entry.plants.map root

/-- The entries among pieces. -/
def entriesOf (pieces : List (α ⊕ Entry)) : List Entry := pieces.filterMap Sum.getRight?

/-- The templates among pieces. -/
def templatesOf (pieces : List (α ⊕ Entry)) : List α := pieces.filterMap Sum.getLeft?

/-- The templates are those of the items. -/
theorem templatesOf_eq {items : List (ItemOf α)} {pieces : List (α ⊕ Entry)}
    (shown : List.Forall₂ Shown items pieces) :
    templatesOf pieces = items.filterMap ItemOf.template? := by
  induction shown with
  | nil => rfl
  | cons here _ ih =>
      cases here with
      | nodes a => exact congrArg (a :: ·) ih
      | made entry _ => exact ih

theorem shows_of_shown {items : List (ItemOf α)} {pieces : List (α ⊕ Entry)}
    (shown : List.Forall₂ Shown items pieces) : ∀ entry ∈ entriesOf pieces, entry.Shows := by
  induction shown with
  | nil => nofun
  | cons here _ ih =>
      cases here with
      | nodes a => exact ih
      | made entry shows => exact List.forall_mem_cons.mpr ⟨shows, ih⟩

theorem layOut_ok (claims : Claims) : ∀ (items : List (ItemOf α)) (unused : List Entry) {d : Document},
    WellFormed d → (∀ entry ∈ unused, entry.Shows) →
    ∃ (pieces : List (α ⊕ Entry)) (taken fresh rest : List Entry) (d' : Document),
      Anchor.layOut (items.map (ItemOf.map roots)) (unused.map Entry.remembered) ⟨d, claims⟩ =
        .ok ⟨pieces.flatMap (pieceNodes roots), (entriesOf pieces).map Entry.remembered,
          rest.map Entry.remembered⟩ ⟨d', claims⟩ ∧
      List.Forall₂ Shown items pieces ∧ Sprouted d d' none (fresh.flatMap (·.plants)) ∧
      (taken ++ fresh).Perm (entriesOf pieces) ∧ (taken ++ rest).Perm unused
  | [], unused, d, wf, _ =>
      ⟨[], [], [], unused, d, rfl, .nil, .nil wf, .refl _, .refl _⟩
  | .nodes a :: items, unused, d, wf, shows => by
      obtain ⟨pieces, taken, fresh, rest, d', done, shown, sprouted, used, left⟩ :=
        layOut_ok claims items unused wf shows
      refine ⟨.inl a :: pieces, taken, fresh, rest, d', ?_, .cons (.nodes a) shown, sprouted, used, left⟩
      rw [List.map_cons, ItemOf.map, Anchor.layOut, bind_ok done]
      rfl
  | .made key :: items, unused, d, wf, shows => by
      rcases takeMade_cases key unused with ⟨none, -⟩ | ⟨entry, others, found, rfl, perm⟩
      · obtain ⟨entry, d₁, made, rfl, shown₁, first⟩ := make_ok wf claims key
        obtain ⟨pieces, taken, fresh, rest, d', done, shown, sprouted, used, left⟩ :=
          layOut_ok claims items unused first.wellFormed shows
        refine ⟨.inr entry :: pieces, taken, entry :: fresh, rest, d', ?_,
          .cons (.made entry shown₁) shown, ?_, ?_, left⟩
        · rw [List.map_cons, ItemOf.map, Anchor.layOut]
          simp only [none, pure_bind]
          rw [bind_ok made, bind_ok done]
          rfl
        · rw [List.flatMap_cons]
          exact first.append (by simp) sprouted
        · have split : entriesOf (.inr entry :: pieces) = entry :: entriesOf pieces := rfl
          rw [split]
          exact List.perm_middle.trans (used.cons entry)
      · have shown₁ : entry.Shows := shows entry (perm.mem_iff.mpr List.mem_cons_self)
        obtain ⟨pieces, taken, fresh, rest, d', done, shown, sprouted, used, left⟩ :=
          layOut_ok claims items others wf fun e mem =>
            shows e (perm.mem_iff.mpr (List.mem_cons_of_mem _ mem))
        refine ⟨.inr entry :: pieces, entry :: taken, fresh, rest, d', ?_,
          .cons (.made entry shown₁) shown, sprouted, used.cons entry, (left.cons entry).trans perm.symm⟩
        rw [List.map_cons, ItemOf.map, Anchor.layOut]
        simp only [found, pure_bind]
        rw [bind_ok done]
        rfl

end LayOut

end Inlay.Render
