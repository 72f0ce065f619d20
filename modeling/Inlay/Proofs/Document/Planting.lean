/-
# Proofs.Document.Planting — making nodes of trees

Planting a tree at the end of a live container is never refused; it makes the
tree stand with ids that named nothing before (`Sprouted`), and changes nothing
but the list of the container.
-/
import Inlay.Proofs.Document.Planted

namespace Inlay.Document

set_option autoImplicit false

open Relation Inlay.Markup Planted

variable {d d' d'' : Document} {x : NodeId} {p : Planted} {ps qs : List Planted}
  {parent : Option NodeId}

/-- The planted trees are new, and stand at the end of a parent, if there is one. -/
structure Sprouted (d d' : Document) (parent : Option NodeId) (ps : List Planted) : Prop where
  wellFormed : WellFormed d'
  fresh : ∀ x ∈ idsAll ps, d.contains x = false
  nodup : (idsAll ps).Nodup
  stand : StandAll d' ps
  content : ∀ x, x ∉ idsAll ps → d'.content? x = d.content? x
  children : ∀ x, x ∉ idsAll ps →
    d'.children x = if parent = some x then d.children x ++ ps.map root else d.children x
  body : d'.body = d.body
  aged : Aged d d'

namespace Sprouted

theorem nil (wf : WellFormed d) : Sprouted d d parent [] where
  wellFormed := wf
  fresh := by simp [idsAll]
  nodup := List.nodup_nil
  stand := trivial
  content := fun _ _ => rfl
  children := by simp
  body := rfl
  aged := .refl d

/-- What was live stays so. -/
theorem contains (sprouted : Sprouted d d' parent ps) (live : d.contains x = true) :
    d'.contains x = true := by
  have old : x ∉ idsAll ps := by
    intro mem
    rw [sprouted.fresh x mem] at live
    cases live
  obtain ⟨c, found⟩ := contains_iff_content?.mp live
  exact contains_iff_content?.mpr ⟨c, (sprouted.content x old).trans found⟩

theorem append (first : Sprouted d d' parent ps)
    (live : ∀ q, parent = some q → d.contains q = true) (second : Sprouted d' d'' parent qs) :
    Sprouted d d'' parent (ps ++ qs) := by
  have old : ∀ x ∈ idsAll ps, parent ≠ some x := by
    intro x mem here
    have alive := live x here
    rw [first.fresh x mem] at alive
    cases alive
  have apart : ∀ x ∈ idsAll ps, x ∉ idsAll qs := by
    intro x here there
    have gone := second.fresh x there
    rw [first.stand.contains x here] at gone
    cases gone
  refine ⟨second.wellFormed, ?_, ?_, ?_, ?_, ?_, second.body.trans first.body,
    first.aged.trans second.aged⟩
  · intro x mem
    rw [idsAll_append, List.mem_append] at mem
    rcases mem with mem | mem
    · exact first.fresh x mem
    · by_contra live
      have := first.contains (x := x) (by simpa using live)
      rw [second.fresh x mem] at this
      cases this
  · rw [idsAll_append]
    refine List.nodup_append.mpr ⟨first.nodup, second.nodup, ?_⟩
    rintro x here y there rfl
    exact apart x here there
  · refine standAll_append.mpr ⟨first.stand.congr fun x mem => ?_, second.stand⟩
    refine ⟨second.content x (apart x mem), ?_⟩
    rw [second.children x (apart x mem), if_neg (old x mem)]
  · intro x absent
    rw [idsAll_append, List.mem_append, not_or] at absent
    rw [second.content x absent.2, first.content x absent.1]
  · intro x absent
    rw [idsAll_append, List.mem_append, not_or] at absent
    rw [second.children x absent.2, first.children x absent.1]
    split <;> simp

/-- What is planted after something that changed neither contents nor lists. -/
theorem of_becomes (first : Becomes d d' d.content? d.children) (second : Sprouted d' d'' parent ps) :
    Sprouted d d'' parent ps where
  wellFormed := second.wellFormed
  fresh := fun x mem => (contains_congr first.content x).symm.trans (second.fresh x mem)
  nodup := second.nodup
  stand := second.stand
  content := fun x absent => (second.content x absent).trans (congrFun first.content x)
  children := fun x absent => by rw [second.children x absent, first.children]
  body := second.body.trans first.body
  aged := first.aged.trans second.aged

end Sprouted

/-- The parent takes children, if there is one. -/
def Takes (d : Document) (parent : Option NodeId) : Prop :=
  ∀ q, parent = some q → ∃ c, d.content? q = some c ∧ c.isContainer = true

theorem Takes.contains (takes : Takes d parent) {q : NodeId} (here : parent = some q) :
    d.contains q = true := by
  obtain ⟨c, found, -⟩ := takes q here
  exact contains_iff_content?.mpr ⟨c, found⟩

theorem Takes.of_sprouted (takes : Takes d parent) {above : Option NodeId}
    (sprouted : Sprouted d d' above ps) : Takes d' parent := by
  intro q here
  obtain ⟨c, found, container⟩ := takes q here
  have old : q ∉ idsAll ps := by
    intro mem
    have live := takes.contains here
    rw [sprouted.fresh q mem] at live
    cases live
  exact ⟨c, (sprouted.content q old).trans found, container⟩

/-- What a single new node makes of a document. -/
theorem createIn_becomes (wf : WellFormed d) (takes : Takes d parent) (content : Content)
    (solid : content ≠ .fragment) :
    ∃ id d', createIn parent content d = .ok id d' ∧ d.contains id = false ∧
      Becomes d d' (fun x => if x = id then some content else d.content? x)
        (fun x => if parent = some x then d.children x ++ [id] else d.children x) := by
  obtain ⟨fresh, made⟩ := create_becomes wf content
  generalize created : create content d = made' at fresh made
  obtain ⟨id, d₁⟩ := made'
  simp only at fresh made
  cases parent with
  | none =>
      refine ⟨id, d₁, ?_, fresh, by simpa using made⟩
      simp only [createIn, Edit.bind_always, created]
      rfl
  | some q =>
      obtain ⟨c, found, container⟩ := takes q rfl
      have live := takes.contains rfl
      have ne : q ≠ id := by
        rintro rfl
        rw [fresh] at live
        cases live
      have contentId : d₁.content? id = some content := by simp [made.content]
      have loose : d₁.parent? id = none := by
        refine made.wellFormed.parent?_eq_none fun p mem => ?_
        rw [made.children] at mem
        have := wf.contains_child mem
        rw [fresh] at this
        cases this
      have inner : id ≠ d₁.body := by
        rw [made.body]
        rintro rfl
        rw [wf.body_contains] at fresh
        cases fresh
      have outside : ¬ Below d₁ q id := by
        intro below
        have alive : ∀ y, Below d₁ y id → y = id := by
          intro y below
          rcases below.cases_child with same | ⟨c, up, -⟩
          · exact same
          · have mem := made.wellFormed.parent_iff.mp up
            rw [made.children, wf.children_eq_nil fresh] at mem
            cases mem
        exact ne (alive q below)
      obtain ⟨d₂, done, placed⟩ := link_becomes made.wellFormed q id none
        (contains_iff_content?.mpr ⟨_, contentId⟩) loose (by simpa [contentId] using solid) inner
        ⟨c, by simp [made.content, ne, found], container⟩ outside (by simp)
      have all := made.trans placed
      rw [made.content, made.children] at all
      refine ⟨id, d₂, ?_, fresh, ?_⟩
      · simp only [createIn, Edit.bind_always, created]
        rw [Edit.bind_ok done]
        rfl
      · have lists : (fun p => if p = q then placeBefore id none (d.children p) else d.children p) =
            fun x => if some q = some x then d.children x ++ [id] else d.children x := by
          funext x
          by_cases same : x = q
          · simp [same, placeBefore]
          · simp [same, Ne.symm same]
        rwa [lists] at all

/-- A new node without children stands as a tree. -/
theorem sprouted_of_becomes {content : Content} (fresh : d.contains p.root = false)
    (made : Becomes d d' (fun x => if x = p.root then some content else d.content? x)
      (fun x => if parent = some x then d.children x ++ [p.root] else d.children x))
    (ids : p.ids = [p.root]) (stands : p.Stands d') : Sprouted d d' parent [p] where
  wellFormed := made.wellFormed
  fresh := by simpa [idsAll, ids] using fresh
  nodup := by simp [idsAll, ids]
  stand := ⟨stands, trivial⟩
  content := by
    intro x absent
    have ne : x ≠ p.root := by simpa [idsAll, ids] using absent
    simp [made.content, ne]
  children := by simp [made.children]
  body := made.body
  aged := made.aged

mutual

theorem plant_sprouts : ∀ (tree : Tree) {d : Document} {parent : Option NodeId}, WellFormed d →
    Takes d parent → ∃ p d', plant parent tree d = .ok p.root d' ∧ p.tree = tree ∧
      Sprouted d d' parent [p]
  | .text content, d, parent, wf, takes => by
      obtain ⟨id, d', done, fresh, made⟩ := createIn_becomes wf takes (.text content) nofun
      refine ⟨.text id content, d', done, rfl, sprouted_of_becomes fresh made rfl ?_⟩
      simp [Stands, made.content]
  | .comment body, d, parent, wf, takes => by
      obtain ⟨id, d', done, fresh, made⟩ := createIn_becomes wf takes (.comment body) nofun
      refine ⟨.comment id body, d', done, rfl, sprouted_of_becomes fresh made rfl ?_⟩
      simp [Stands, made.content]
  | .element tag attributes children, d, parent, wf, takes => by
      obtain ⟨id, d₁, done, fresh, made⟩ :=
        createIn_becomes wf takes (.element (.plain tag attributes)) nofun
      have found : d₁.content? id = some (.element (.plain tag attributes)) := by simp [made.content]
      have empty : d₁.children id = [] := by
        rw [made.children]
        simp only [wf.children_eq_nil fresh]
        split
        · next here =>
            have live := takes.contains here
            rw [fresh] at live
            cases live
        · rfl
      obtain ⟨ps, d₂, planted, same, inner⟩ := plantAll_sprouts children (d := d₁) (q := id)
        made.wellFormed (by
          rintro _ ⟨⟩
          exact ⟨_, found, rfl⟩)
      have here := inner.fresh
      have old : id ∉ idsAll ps := by
        intro mem
        have := contains_iff_content?.mpr ⟨_, found⟩
        rw [inner.fresh id mem] at this
        cases this
      refine ⟨.element id tag attributes ps, d₂, ?_, by simp [tree, same], ?_⟩
      · simp only [plant]
        rw [Edit.bind_ok done, Edit.bind_ok planted]
        rfl
      · have first := sprouted_of_becomes (p := .element id tag attributes []) fresh made rfl
          ⟨⟨_, found, rfl, rfl⟩, empty, trivial⟩
        refine ⟨inner.wellFormed, ?_, ?_, ?_, ?_, ?_, inner.body.trans made.body,
          made.aged.trans inner.aged⟩
        · intro x mem
          simp only [idsAll, ids, List.append_nil, List.mem_cons] at mem
          rcases mem with rfl | mem
          · exact fresh
          · by_contra live
            have := first.contains (x := x) (by simpa using live)
            rw [inner.fresh x mem] at this
            cases this
        · simpa [idsAll, ids] using ⟨old, inner.nodup⟩
        · refine ⟨⟨⟨_, (inner.content id old).trans found, rfl, rfl⟩, ?_, inner.stand⟩, trivial⟩
          simp [inner.children id old, empty]
        · intro x absent
          simp only [idsAll, ids, List.append_nil, List.mem_cons, not_or] at absent
          rw [inner.content x absent.2, made.content]
          simp [absent.1]
        · intro x absent
          simp only [idsAll, ids, List.append_nil, List.mem_cons, not_or] at absent
          rw [inner.children x absent.2, if_neg (by simpa using Ne.symm absent.1), made.children]
          rfl

theorem plantAll_sprouts : ∀ (trees : List Tree) {d : Document} {q : NodeId}, WellFormed d →
    Takes d (some q) → ∃ ps d', plantAll q trees d = .ok () d' ∧ Planted.trees ps = trees ∧
      Sprouted d d' (some q) ps
  | [], d, q, wf, _ => ⟨[], d, rfl, rfl, .nil wf⟩
  | tree :: rest, d, q, wf, takes => by
      obtain ⟨p, d₁, done, same, first⟩ := plant_sprouts tree wf takes
      obtain ⟨ps, d₂, others, sames, second⟩ :=
        plantAll_sprouts rest first.wellFormed (takes.of_sprouted first)
      refine ⟨p :: ps, d₂, ?_, by simp [trees, same, sames],
        first.append (fun _ here => takes.contains here) second⟩
      rw [plantAll, Edit.bind_ok done, others]

end

/-! ## Fragments -/

/-- A new fragment in which the planted trees stand. -/
structure Potted (d d' : Document) (fragment : NodeId) (ps : List Planted) : Prop where
  wellFormed : WellFormed d'
  fresh : ∀ x ∈ fragment :: idsAll ps, d.contains x = false
  nodup : (fragment :: idsAll ps).Nodup
  isFragment : d'.content? fragment = some .fragment
  kids : d'.children fragment = ps.map root
  stand : StandAll d' ps
  content : ∀ x, x ∉ fragment :: idsAll ps → d'.content? x = d.content? x
  children : ∀ x, x ∉ fragment :: idsAll ps → d'.children x = d.children x
  body : d'.body = d.body
  aged : Aged d d'

theorem create_fragment_potted (wf : WellFormed d) :
    Potted d (create .fragment d).2 (create .fragment d).1 [] := by
  obtain ⟨fresh, made⟩ := create_becomes wf .fragment
  refine ⟨made.wellFormed, by simpa [idsAll] using fresh, by simp [idsAll], by simp [made.content], ?_,
    trivial, ?_, by simp [made.children], made.body, made.aged⟩
  · rw [made.children, wf.children_eq_nil fresh]
    rfl
  · intro x absent
    simp only [idsAll, List.mem_singleton] at absent
    simp [made.content, absent]

theorem Potted.sprouts {fragment : NodeId} (potted : Potted d d' fragment ps)
    (sprouted : Sprouted d' d'' (some fragment) qs) : Potted d d'' fragment (ps ++ qs) := by
  have live : ∀ x ∈ fragment :: idsAll ps, d'.contains x = true := by
    intro x mem
    rcases List.mem_cons.mp mem with rfl | mem
    · exact contains_iff_content?.mpr ⟨_, potted.isFragment⟩
    · exact potted.stand.contains x mem
  have apart : ∀ x ∈ fragment :: idsAll ps, x ∉ idsAll qs := by
    intro x here there
    have gone := sprouted.fresh x there
    rw [live x here] at gone
    cases gone
  have here := apart fragment List.mem_cons_self
  refine ⟨sprouted.wellFormed, ?_, ?_, ?_, ?_, ?_, ?_, ?_, sprouted.body.trans potted.body,
    potted.aged.trans sprouted.aged⟩
  · intro x mem
    rw [idsAll_append, ← List.cons_append, List.mem_append] at mem
    rcases mem with mem | mem
    · exact potted.fresh x mem
    · by_cases new : x ∈ fragment :: idsAll ps
      · exact potted.fresh x new
      · have gone := content?_eq_none (sprouted.fresh x mem)
        rw [potted.content x new] at gone
        by_contra live
        obtain ⟨c, found⟩ := contains_iff_content?.mp (by simpa using live)
        rw [gone] at found
        cases found
  · rw [idsAll_append, ← List.cons_append]
    refine List.nodup_append.mpr ⟨potted.nodup, sprouted.nodup, ?_⟩
    rintro x mem y there rfl
    exact apart x mem there
  · rw [sprouted.content fragment here, potted.isFragment]
  · rw [sprouted.children fragment here, if_pos rfl, potted.kids, List.map_append]
  · refine standAll_append.mpr ⟨potted.stand.congr fun x mem => ?_, sprouted.stand⟩
    have away := apart x (List.mem_cons_of_mem _ mem)
    have ne : fragment ≠ x := by
      rintro rfl
      exact (List.nodup_cons.mp potted.nodup).1 mem
    refine ⟨sprouted.content x away, ?_⟩
    rw [sprouted.children x away, if_neg (by simpa using ne)]
  · intro x absent
    rw [idsAll_append, ← List.cons_append, List.mem_append, not_or] at absent
    rw [sprouted.content x absent.2, potted.content x absent.1]
  · intro x absent
    rw [idsAll_append, ← List.cons_append, List.mem_append, not_or] at absent
    have ne : fragment ≠ x := by
      rintro rfl
      exact absent.1 List.mem_cons_self
    rw [sprouted.children x absent.2, if_neg (by simpa using ne), potted.children x absent.1]

/-- Planting a fragment is never refused. -/
theorem plantFragment_potted (trees : List Tree) (wf : WellFormed d) :
    ∃ fragment ps d', plantFragment trees d = .ok fragment d' ∧ Planted.trees ps = trees ∧
      Potted d d' fragment ps := by
  have potted := create_fragment_potted wf
  generalize created : create .fragment d = made at potted
  obtain ⟨fragment, d₁⟩ := made
  obtain ⟨ps, d', done, same, sprouted⟩ := plantAll_sprouts trees potted.wellFormed (q := fragment) (by
    rintro _ ⟨⟩
    exact ⟨_, potted.isFragment, rfl⟩)
  refine ⟨fragment, ps, d', ?_, same, potted.sprouts sprouted⟩
  rw [plantFragment, Edit.bind_always, created, Edit.bind_ok done]
  rfl

end Inlay.Document
