/-
# Proofs.Document.Parsing — parsed markup is the forest of its source

`parse` builds nodes piece by piece while `forest?` builds trees from the same
pieces. The proof carries the two along side by side: the open elements and the
finished trees, with ids, are one `Sowing`, from which the state of either
builder is read off, and `Sown` says that it stands in the document. Every piece
keeps the two in step (`Raising.step`), so the fragment at the end holds the trees of
the source (`parse_ok`), and a source that is no markup leaves everything as it
was (`parse_error`).
-/
import Inlay.Proofs.Document.Planting
import Inlay.Document.Markup

namespace Inlay.Document

set_option autoImplicit false

open Relation Inlay.Markup Planted

/-! ## Trees under construction, with ids -/

/-- An open element, and its parent's children in front of it. -/
structure OpenPlanted where
  id : NodeId
  tag : String
  attributes : List Attribute
  before : List Planted

/-- The open elements, innermost first, and the children of the innermost. -/
structure Sowing where
  opened : List OpenPlanted
  children : List Planted

namespace Sowing

variable {d d' : Document} {fragment x : NodeId} {s : Sowing}

/-- The node that takes children now. -/
def innermost (fragment : NodeId) (s : Sowing) : NodeId :=
  match s.opened with
  | [] => fragment
  | f :: _ => f.id

def ids (s : Sowing) : List NodeId :=
  idsAll s.children ++ s.opened.flatMap fun f => f.id :: idsAll f.before

/-- The builder of trees in the same state. -/
def growth (gathered : String) (s : Sowing) : Growth where
  opened := s.opened.map fun f => ⟨f.tag, f.attributes, (trees f.before).reverse⟩
  children := (trees s.children).reverse
  gathered := gathered

/-- The builder of nodes in the same state. -/
def bed (fragment : NodeId) (gathered : String) (s : Sowing) : Seedbed where
  fragment := fragment
  opened := s.opened.map fun f => (f.id, f.tag)
  gathered := gathered

@[simp] theorem bed_gathered (gathered : String) : (s.bed fragment gathered).gathered = gathered := rfl

@[simp] theorem bed_innermost (gathered : String) :
    (s.bed fragment gathered).innermost = s.innermost fragment := by
  obtain ⟨opened, children⟩ := s
  cases opened <;> rfl

/-- One more child of the innermost element. -/
def add (p : Planted) (s : Sowing) : Sowing := { s with children := s.children ++ [p] }

/-- Ends the innermost element. -/
def close : (count : Nat) → Sowing → Sowing
  | 0, s => s
  | count + 1, s =>
    match s.opened with
    | [] => s
    | f :: outer =>
      close count ⟨outer, f.before ++ [.element f.id f.tag f.attributes s.children]⟩

end Sowing

/-- A container has the trees as its children, and then the nodes of `tail`; its
open ancestors likewise. -/
def SownAt (d : Document) (fragment : NodeId) : List OpenPlanted → List Planted → List NodeId → Prop
  | [], children, tail =>
    d.content? fragment = some .fragment ∧ d.children fragment = children.map root ++ tail ∧
      StandAll d children
  | f :: outer, children, tail =>
    (∃ e, d.content? f.id = some (.element e) ∧ e.tag = f.tag ∧ e.attributes = f.attributes) ∧
      d.children f.id = children.map root ++ tail ∧ StandAll d children ∧
      SownAt d fragment outer f.before [f.id]

/-- The trees under construction stand in the document. -/
def Sown (d : Document) (fragment : NodeId) (s : Sowing) : Prop :=
  SownAt d fragment s.opened s.children []

variable {d d' d₀ : Document} {fragment x : NodeId} {s : Sowing} {gathered : String}
  {opened : List OpenPlanted} {children : List Planted} {tail : List NodeId}

theorem SownAt.congr : ∀ {opened : List OpenPlanted} {children : List Planted} {tail : List NodeId},
    SownAt d fragment opened children tail →
    (∀ x ∈ fragment :: Sowing.ids ⟨opened, children⟩,
      d'.content? x = d.content? x ∧ d'.children x = d.children x) →
    SownAt d' fragment opened children tail
  | [], children, tail, ⟨found, kids, stand⟩, away => by
      have here := away fragment (by simp)
      refine ⟨here.1.trans found, here.2.trans kids, stand.congr fun x mem => away x ?_⟩
      simp [Sowing.ids, mem]
  | f :: outer, children, tail, ⟨⟨e, found, same⟩, kids, stand, rest⟩, away => by
      have here := away f.id (by simp [Sowing.ids])
      refine ⟨⟨e, here.1.trans found, same⟩, here.2.trans kids,
        stand.congr fun x mem => away x (by simp [Sowing.ids, mem]), rest.congr fun x mem => away x ?_⟩
      simp only [Sowing.ids, List.flatMap_cons, List.mem_cons, List.mem_append] at mem ⊢
      tauto

/-- Ending elements changes nothing in the document. -/
theorem Sown.close : ∀ (count : Nat) {s : Sowing}, Sown d fragment s → Sown d fragment (s.close count)
  | 0, _, sown => sown
  | count + 1, ⟨[], children⟩, sown => sown
  | count + 1, ⟨f :: outer, children⟩, ⟨open_, kids, stand, rest⟩ => by
      refine Sown.close count (?_ : Sown d fragment ⟨outer, f.before ++ [_]⟩)
      have inner : Stands d (.element f.id f.tag f.attributes children) :=
        ⟨open_, by simpa using kids, stand⟩
      cases outer with
      | nil =>
          obtain ⟨found, kids, stand⟩ := rest
          exact ⟨found, by simp [kids, root], standAll_append.mpr ⟨stand, inner, trivial⟩⟩
      | cons g outer =>
          obtain ⟨open_, kids, stand, rest⟩ := rest
          exact ⟨open_, by simp [kids, root], standAll_append.mpr ⟨stand, inner, trivial⟩, rest⟩

theorem Sowing.growth_close (gathered : String) : ∀ (count : Nat) (s : Sowing),
    (s.growth gathered).close count = (s.close count).growth gathered
  | 0, _ => rfl
  | count + 1, ⟨[], children⟩ => rfl
  | count + 1, ⟨f :: outer, children⟩ => by
      rw [Sowing.close, ← Sowing.growth_close gathered count]
      simp [Growth.close, Sowing.growth, trees, tree]

theorem Sowing.opened_close : ∀ (count : Nat) (s : Sowing), (s.close count).opened = s.opened.drop count
  | 0, _ => rfl
  | count + 1, ⟨[], children⟩ => rfl
  | count + 1, ⟨f :: outer, children⟩ => by
      rw [Sowing.close, Sowing.opened_close count]
      rfl

/-- Ending elements only rearranges the ids. -/
theorem Sowing.ids_close : ∀ (count : Nat) (s : Sowing), (s.close count).ids.Perm s.ids
  | 0, _ => .refl _
  | count + 1, ⟨[], children⟩ => .refl _
  | count + 1, ⟨f :: outer, children⟩ => by
      refine (Sowing.ids_close count _).trans ?_
      simp only [Sowing.ids, idsAll_append, idsAll, Planted.ids, List.append_nil, List.flatMap_cons]
      rw [← List.append_assoc (idsAll children)]
      refine List.Perm.append_right _ (List.perm_append_comm.trans ?_)
      exact List.perm_middle.symm

theorem Sowing.ids_add (p : Planted) (s : Sowing) : (s.add p).ids.Perm (p.ids ++ s.ids) := by
  simp only [Sowing.add, Sowing.ids, idsAll_append, idsAll, List.append_nil]
  rw [← List.append_assoc]
  exact List.perm_append_comm.append_right _

/-! ## The two builders side by side -/

/-- What a document has become of `d₀`: new nodes are under construction, and
those of `spare` are made but stand nowhere yet. -/
structure Raising (d₀ d : Document) (fragment : NodeId) (s : Sowing) (spare : List NodeId) : Prop where
  wellFormed : WellFormed d
  fresh : ∀ x ∈ spare ++ fragment :: s.ids, d₀.contains x = false
  nodup : (spare ++ fragment :: s.ids).Nodup
  sown : Sown d fragment s
  spare_live : ∀ x ∈ spare, d.contains x = true
  spare_loose : ∀ x ∈ spare, d.parent? x = none
  spare_empty : ∀ x ∈ spare, d.children x = []
  content : ∀ x, x ∉ spare ++ fragment :: s.ids → d.content? x = d₀.content? x
  children : ∀ x, x ∉ spare ++ fragment :: s.ids → d.children x = d₀.children x
  body : d.body = d₀.body
  aged : Aged d₀ d

namespace Raising

variable {spare : List NodeId} {id : NodeId} {p : Planted}

theorem innermost_mem (s : Sowing) : s.innermost fragment ∈ fragment :: s.ids := by
  obtain ⟨opened, children⟩ := s
  cases opened <;> simp [Sowing.innermost, Sowing.ids]

theorem innermost_takes (raising : Raising d₀ d fragment s spare) :
    ∃ c, d.content? (s.innermost fragment) = some c ∧ c.isContainer = true := by
  have sown := raising.sown
  obtain ⟨opened, children⟩ := s
  cases opened with
  | nil => exact ⟨_, sown.1, rfl⟩
  | cons f outer =>
      obtain ⟨⟨e, found, -⟩, -⟩ := sown
      exact ⟨_, found, rfl⟩

theorem contains (raising : Raising d₀ d fragment s spare) (live : d₀.contains x = true) :
    d.contains x = true := by
  have old : x ∉ spare ++ fragment :: s.ids := by
    intro mem
    rw [raising.fresh x mem] at live
    cases live
  obtain ⟨c, found⟩ := contains_iff_content?.mp live
  exact contains_iff_content?.mpr ⟨c, (raising.content x old).trans found⟩

theorem sown_live : ∀ {opened : List OpenPlanted} {children : List Planted} {tail : List NodeId},
    SownAt d fragment opened children tail → ∀ x ∈ fragment :: Sowing.ids ⟨opened, children⟩,
      d.contains x = true
  | [], children, tail, ⟨found, _, stand⟩, x, mem => by
      simp only [Sowing.ids, List.flatMap_nil, List.append_nil, List.mem_cons] at mem
      rcases mem with rfl | mem
      · exact contains_iff_content?.mpr ⟨_, found⟩
      · exact stand.contains x mem
  | f :: outer, children, tail, ⟨⟨e, found, _⟩, _, stand, rest⟩, x, mem => by
      have outside := sown_live rest x
      simp only [Sowing.ids, List.flatMap_cons, List.mem_cons, List.mem_append] at mem outside
      rcases mem with rfl | mem | (rfl | mem) | mem
      · exact outside (.inl rfl)
      · exact stand.contains x mem
      · exact contains_iff_content?.mpr ⟨_, found⟩
      · exact outside (.inr (.inl mem))
      · exact outside (.inr (.inr mem))

theorem live (raising : Raising d₀ d fragment s spare) : ∀ x ∈ spare ++ fragment :: s.ids,
    d.contains x = true := by
  intro x mem
  rcases List.mem_append.mp mem with mem | mem
  · exact raising.spare_live x mem
  · exact sown_live raising.sown x mem

/-- A new node that stands nowhere yet. -/
theorem make (raising : Raising d₀ d fragment s spare) (content : Content) :
    Raising d₀ (create content d).2 fragment s ((create content d).1 :: spare) ∧
      (create content d).2.content? = fun x =>
        if x = (create content d).1 then some content else d.content? x := by
  obtain ⟨fresh, made⟩ := create_becomes raising.wellFormed content
  generalize (create content d).1 = id at fresh made
  generalize (create content d).2 = d' at made
  have absent : id ∉ spare ++ fragment :: s.ids := by
    intro mem
    rw [raising.live id mem] at fresh
    cases fresh
  have ne : ∀ x ∈ spare ++ fragment :: s.ids, x ≠ id := fun x mem same => absent (same ▸ mem)
  have up : ∀ x, d.parent? x = none → d'.parent? x = none := by
    intro x loose
    refine made.wellFormed.parent?_eq_none fun q mem => ?_
    rw [made.children] at mem
    rw [raising.wellFormed.parent_iff.mpr mem] at loose
    cases loose
  refine ⟨⟨made.wellFormed, ?_, ?_, ?_, ?_, ?_, ?_, ?_, ?_, made.body.trans raising.body,
    raising.aged.trans made.aged⟩, made.content⟩
  · intro x mem
    rcases List.mem_cons.mp mem with rfl | mem
    · by_contra live
      rw [raising.contains (by simpa using live)] at fresh
      cases fresh
    · exact raising.fresh x mem
  · exact List.nodup_cons.mpr ⟨absent, raising.nodup⟩
  · refine raising.sown.congr fun x mem => ?_
    rw [made.content, made.children]
    exact ⟨if_neg (ne x (List.mem_append_right _ mem)), rfl⟩
  · intro x mem
    rw [contains_iff_content?, made.content]
    simp only
    split
    · exact ⟨_, rfl⟩
    · next other =>
        exact contains_iff_content?.mp (raising.spare_live x ((List.mem_cons.mp mem).resolve_left other))
  · intro x mem
    rcases List.mem_cons.mp mem with rfl | mem
    · refine made.wellFormed.parent?_eq_none fun q mem => ?_
      rw [made.children] at mem
      rw [raising.wellFormed.contains_child mem] at fresh
      cases fresh
    · exact up x (raising.spare_loose x mem)
  · intro x mem
    rw [made.children]
    rcases List.mem_cons.mp mem with rfl | mem
    · exact raising.wellFormed.children_eq_nil fresh
    · exact raising.spare_empty x mem
  · intro x away
    simp only [List.cons_append, List.mem_cons, not_or] at away
    rw [made.content]
    simp only [if_neg away.1]
    exact raising.content x (by simpa using away.2)
  · intro x away
    simp only [List.cons_append, List.mem_cons, not_or] at away
    rw [made.children]
    exact raising.children x (by simpa using away.2)

/-- A spare node becomes the last child of the innermost open element. -/
theorem place (raising : Raising d₀ d fragment s (id :: spare)) (wf₀ : WellFormed d₀)
    (isRoot : p.root = id) (single : p.ids = [id]) (stands : p.Stands d) :
    ∃ d', append (s.innermost fragment) id d = .ok () d' ∧
      Raising d₀ d' fragment (s.add p) spare ∧ d'.content? = d.content? := by
  have wf := raising.wellFormed
  have live := raising.spare_live id List.mem_cons_self
  have loose := raising.spare_loose id List.mem_cons_self
  have empty := raising.spare_empty id List.mem_cons_self
  obtain ⟨absent, nodup⟩ := List.nodup_cons.mp raising.nodup
  have apart : s.innermost fragment ≠ id := fun same =>
    absent (List.mem_append_right _ (same ▸ innermost_mem s))
  have inner : id ≠ d.body := by
    rw [raising.body]
    rintro rfl
    have := raising.fresh _ List.mem_cons_self
    rw [wf₀.body_contains] at this
    cases this
  have outside : ¬ Below d (s.innermost fragment) id := by
    intro below
    rcases below.cases_child with same | ⟨c, up, -⟩
    · exact apart same
    · have mem := wf.parent_iff.mp up
      rw [empty] at mem
      cases mem
  obtain ⟨d', done, becomes⟩ := insertBefore_becomes wf
    (⟨raising.innermost_takes, nofun⟩ : Admitted d _ none) ⟨live, isRoot ▸ stands.solid, inner, outside⟩
  have kids : d'.children = fun q =>
      if q = s.innermost fragment then d.children q ++ [id] else d.children q := by
    have gone : ∀ q, (d.children q).erase id = d.children q := by
      intro q
      refine List.erase_of_not_mem fun mem => ?_
      rw [wf.parent_iff.mpr mem] at loose
      cases loose
    rw [becomes.children]
    funext q
    simp only [moved, reduceCtorEq, if_false, gone, placeBefore]
  have elsewhere : ∀ q, q ≠ s.innermost fragment →
      d'.content? q = d.content? q ∧ d'.children q = d.children q := by
    intro q ne
    rw [becomes.content, kids]
    exact ⟨rfl, if_neg ne⟩
  have standsP : p.Stands d' := stands.congr fun x mem => by
    rw [single, List.mem_singleton] at mem
    exact elsewhere x (mem ▸ Ne.symm apart)
  have perm : (spare ++ fragment :: (s.add p).ids).Perm (id :: spare ++ fragment :: s.ids) := by
    have ids := s.ids_add p
    rw [single] at ids
    refine ((ids.cons fragment).append_left spare).trans ?_
    exact (List.Perm.swap _ _ _).append_left spare |>.trans List.perm_middle
  have loose' : ∀ x ∈ spare, d'.parent? x = none := by
    intro x mem
    refine becomes.wellFormed.parent?_eq_none fun q there => ?_
    have ne : x ≠ id := by
      rintro rfl
      exact absent (List.mem_append_left _ mem)
    have old : x ∈ d.children q := by
      rw [kids] at there
      simp only at there
      split at there
      · simpa [ne] using there
      · exact there
    have up := wf.parent_iff.mpr old
    rw [raising.spare_loose x (List.mem_cons_of_mem _ mem)] at up
    cases up
  refine ⟨d', done, ⟨becomes.wellFormed, ?_, ?_, ?_, ?_, loose', ?_, ?_, ?_,
    becomes.body.trans raising.body, raising.aged.trans becomes.aged⟩, becomes.content⟩
  · exact fun x mem => raising.fresh x (perm.mem_iff.mp mem)
  · exact perm.nodup_iff.mpr raising.nodup
  · have sown := raising.sown
    have distinct := (List.nodup_append.mp nodup).2.1
    obtain ⟨opened, children⟩ := s
    cases opened with
    | nil =>
        obtain ⟨found, list, stand⟩ := sown
        simp only [Sowing.ids, List.flatMap_nil, List.append_nil, List.nodup_cons] at distinct
        refine ⟨by rw [becomes.content]; exact found, ?_, standAll_append.mpr ⟨?_, standsP, trivial⟩⟩
        · simp [kids, Sowing.innermost, Sowing.add, list, isRoot]
        · refine stand.congr fun x mem => elsewhere x ?_
          rintro rfl
          exact distinct.1 mem
    | cons f outer =>
        obtain ⟨⟨e, found, same⟩, list, stand, rest⟩ := sown
        simp only [Sowing.ids, List.flatMap_cons] at distinct
        have split : (f.id :: (fragment :: (idsAll children ++
            (idsAll f.before ++ outer.flatMap fun f => f.id :: idsAll f.before)))).Nodup := by
          refine (List.Perm.nodup_iff ?_).mp distinct
          rw [List.cons_append, ← List.append_assoc]
          refine (List.Perm.cons fragment List.perm_middle).trans ?_
          rw [List.append_assoc]
          exact List.Perm.swap _ _ _
        have away := (List.nodup_cons.mp split).1
        refine ⟨⟨e, by rw [becomes.content]; exact found, same⟩, ?_,
          standAll_append.mpr ⟨?_, standsP, trivial⟩, ?_⟩
        · simp [kids, Sowing.innermost, Sowing.add, list, isRoot]
        · refine stand.congr fun x mem => elsewhere x ?_
          rintro rfl
          change f.id ∈ idsAll children at mem
          exact away (by simp [mem])
        · refine rest.congr fun x mem => elsewhere x ?_
          rintro rfl
          refine away ?_
          simp only [Sowing.innermost, Sowing.ids, List.mem_cons, List.mem_append] at mem ⊢
          tauto
  · intro x mem
    rw [contains_congr becomes.content]
    exact raising.spare_live x (List.mem_cons_of_mem _ mem)
  · intro x mem
    have ne : x ≠ s.innermost fragment := by
      rintro rfl
      exact (List.nodup_append.mp nodup).2.2 _ mem _ (innermost_mem s) rfl
    rw [(elsewhere x ne).2]
    exact raising.spare_empty x (List.mem_cons_of_mem _ mem)
  · intro x away
    rw [becomes.content]
    exact raising.content x fun mem => away (perm.mem_iff.mpr mem)
  · intro x away
    have ne : x ≠ s.innermost fragment := by
      rintro rfl
      exact away (perm.mem_iff.mpr (List.mem_append_right _ (innermost_mem s)))
    rw [(elsewhere x ne).2]
    exact raising.children x fun mem => away (perm.mem_iff.mpr mem)

/-! ## Single steps -/

theorem flush_text {bed : Seedbed} {d₁ d₂ : Document} (some_ : bed.gathered ≠ "")
    (created : create (.text bed.gathered) d = (id, d₁))
    (done : append bed.innermost id d₁ = .ok () d₂) :
    bed.flush d = .ok { bed with gathered := "" } d₂ := by
  rw [Seedbed.flush, if_neg some_, Edit.bind_always, created]
  exact Edit.bind_ok done

/-- Gathered text becomes the last child. -/
theorem flush (raising : Raising d₀ d fragment s spare) (wf₀ : WellFormed d₀) (gathered : String) :
    ∃ t d', (s.bed fragment gathered).flush d = .ok (t.bed fragment "") d' ∧
      Raising d₀ d' fragment t spare ∧ t.growth "" = (s.growth gathered).flush ∧
      ∀ x ∈ spare, d'.content? x = d.content? x := by
  by_cases nothing : gathered = ""
  · subst nothing
    exact ⟨s, d, rfl, raising, rfl, fun _ _ => rfl⟩
  · have ⟨made, content⟩ := raising.make (.text gathered)
    generalize created : create (.text gathered) d = result at made content
    obtain ⟨id, d₁⟩ := result
    have stands : (Planted.text id gathered).Stands d₁ := by
      show d₁.content? id = some (.text gathered)
      simp [content]
    obtain ⟨d₂, done, placed, same⟩ := made.place wf₀ rfl rfl stands
    refine ⟨s.add (.text id gathered), d₂, ?_, placed, ?_, ?_⟩
    · rw [← Sowing.bed_innermost gathered] at done
      exact flush_text nothing created done
    · simp [Sowing.growth, Sowing.add, Growth.flush, nothing, trees, tree]
    · intro x mem
      have ne : x ≠ id := by
        rintro rfl
        exact (List.nodup_cons.mp made.nodup).1 (List.mem_append_left _ mem)
      rw [same, content]
      exact if_neg ne

/-- A new node behind the gathered text: what is made of its id stands as the
last child. -/
theorem add (raising : Raising d₀ d fragment s []) (wf₀ : WellFormed d₀) (gathered : String)
    (content : Content) (planted : NodeId → Planted) (isRoot : ∀ id, (planted id).root = id)
    (single : ∀ id, (planted id).ids = [id])
    (stands : ∀ (d : Document) id, d.content? id = some content → d.children id = [] →
      (planted id).Stands d) :
    ∃ (t : Sowing) (id : NodeId) (d' : Document),
      (s.bed fragment gathered).add content d = .ok (id, t.bed fragment "") d' ∧
      Raising d₀ d' fragment (t.add (planted id)) [] ∧
      t.growth "" = (s.growth gathered).flush := by
  have ⟨made, contents⟩ := raising.make content
  generalize created : create content d = result at made contents
  obtain ⟨id, d₁⟩ := result
  obtain ⟨t, d₂, flushed, behind, growth, kept⟩ := made.flush wf₀ gathered
  have here : d₂.content? id = some content := by
    rw [kept id List.mem_cons_self, contents]
    simp
  obtain ⟨d₃, done, placed, -⟩ := behind.place wf₀ (isRoot id) (single id)
    (stands d₂ id here (behind.spare_empty id List.mem_cons_self))
  refine ⟨t, id, d₃, ?_, placed, growth⟩
  simp only [Seedbed.add, Edit.bind_always, created]
  rw [Edit.bind_ok flushed, Sowing.bed_innermost, Edit.bind_ok done]
  rfl

/-- The last child, an element without children, is opened. -/
theorem open_last {t : Sowing} {tag : String} {attributes : List Attribute}
    (raising : Raising d₀ d fragment (t.add (.element id tag attributes [])) []) :
    Raising d₀ d fragment ⟨⟨id, tag, attributes, t.children⟩ :: t.opened, []⟩ [] := by
  have perm : (Sowing.ids ⟨⟨id, tag, attributes, t.children⟩ :: t.opened, []⟩).Perm
      (t.add (.element id tag attributes [])).ids := by
    refine List.Perm.symm ((t.ids_add _).trans ?_)
    simp [Sowing.ids, idsAll, Planted.ids]
  have all := (perm.cons fragment).append_left []
  have sown : Sown d fragment ⟨⟨id, tag, attributes, t.children⟩ :: t.opened, []⟩ := by
    have sown := raising.sown
    obtain ⟨opened, children⟩ := t
    cases opened with
    | nil =>
        obtain ⟨found, kids, stand⟩ := sown
        obtain ⟨stand, ⟨open_, empty, -⟩, -⟩ := standAll_append.mp stand
        exact ⟨open_, by simpa using empty, trivial, found, by simpa [Sowing.add, root] using kids, stand⟩
    | cons f outer =>
        obtain ⟨element, kids, stand, rest⟩ := sown
        obtain ⟨stand, ⟨open_, empty, -⟩, -⟩ := standAll_append.mp stand
        exact ⟨open_, by simpa using empty, trivial, element, by simpa [Sowing.add, root] using kids,
          stand, rest⟩
  exact ⟨raising.wellFormed, fun x mem => raising.fresh x (all.mem_iff.mp mem),
    all.nodup_iff.mpr raising.nodup, sown, nofun, nofun, nofun,
    fun x away => raising.content x fun mem => away (all.mem_iff.mpr mem),
    fun x away => raising.children x fun mem => away (all.mem_iff.mpr mem), raising.body, raising.aged⟩

/-- Elements are ended. -/
theorem close (raising : Raising d₀ d fragment s []) (count : Nat) :
    Raising d₀ d fragment (s.close count) [] := by
  have all := ((s.ids_close count).cons fragment).append_left []
  exact ⟨raising.wellFormed, fun x mem => raising.fresh x (all.mem_iff.mp mem),
    all.nodup_iff.mpr raising.nodup, raising.sown.close count, nofun, nofun, nofun,
    fun x away => raising.content x fun mem => away (all.mem_iff.mpr mem),
    fun x away => raising.children x fun mem => away (all.mem_iff.mpr mem), raising.body, raising.aged⟩

/-! ## Pieces -/

theorem growth_add {t : Sowing} {growth : Growth} (same : t.growth "" = growth.flush) (p : Planted) :
    (t.add p).growth "" = growth.add p.tree := by
  simp only [Growth.add, ← same]
  simp [Sowing.growth, Sowing.add, trees]

/-- An element with one text, or none. -/
theorem addRaw (raising : Raising d₀ d fragment s []) (wf₀ : WellFormed d₀) (gathered tag : String)
    (attributes : List Attribute) (content : String) :
    ∃ (t : Sowing) (d' : Document),
      (s.bed fragment gathered).addRaw (.plain tag attributes) content d =
        .ok (t.bed fragment "") d' ∧ Raising d₀ d' fragment t [] ∧
      t.growth "" = (s.growth gathered).add (.element tag attributes (Growth.rawChildren content)) := by
  obtain ⟨t, id, d₁, added, raised, growth⟩ := raising.add wf₀ gathered
    (.element (.plain tag attributes)) (.element · tag attributes []) (fun _ => rfl) (fun _ => rfl)
    fun _ _ found empty => ⟨⟨_, found, rfl, rfl⟩, empty, trivial⟩
  by_cases nothing : content = ""
  · refine ⟨t.add (.element id tag attributes []), d₁, ?_, raised, ?_⟩
    · rw [Seedbed.addRaw, Edit.bind_ok added]
      simp only [if_pos nothing]
      rfl
    · simpa [Growth.rawChildren, nothing, tree, trees] using
        growth_add growth (.element id tag attributes [])
  · obtain ⟨made, contents⟩ := raised.open_last.make (.text content)
    generalize created : create (.text content) d₁ = result at made contents
    obtain ⟨text, d₂⟩ := result
    have stands : (Planted.text text content).Stands d₂ := by
      show d₂.content? text = some (.text content)
      simp [contents]
    obtain ⟨d₃, done, placed, -⟩ := made.place wf₀ rfl rfl stands
    refine ⟨_, d₃, ?_, placed.close 1, ?_⟩
    · rw [Seedbed.addRaw, Edit.bind_ok added]
      simp only [if_neg nothing, Edit.bind_always, created]
      exact Edit.bind_ok done
    · show (t.add (.element id tag attributes [.text text content])).growth "" = _
      rw [growth_add growth]
      simp [Growth.rawChildren, nothing, tree, trees]

/-- One piece keeps the two builders in step. -/
theorem step (raising : Raising d₀ d fragment s []) (wf₀ : WellFormed d₀) (gathered : String) :
    ∀ piece : Piece, ∃ (t : Sowing) (gathered' : String) (d' : Document),
      (s.bed fragment gathered).step piece d = .ok (t.bed fragment gathered') d' ∧
        Raising d₀ d' fragment t [] ∧ t.growth gathered' = (s.growth gathered).step piece
  | .text content => ⟨s, gathered ++ content, d, rfl, raising, rfl⟩
  | .comment body => by
      obtain ⟨t, id, d', added, raised, growth⟩ := raising.add wf₀ gathered (.comment body)
        (.comment · body) (fun _ => rfl) (fun _ => rfl) fun _ _ found _ => found
      refine ⟨t.add (.comment id body), "", d', ?_, raised, growth_add growth _⟩
      rw [Seedbed.step, Edit.bind_ok added]
      rfl
  | .empty tag attributes => by
      obtain ⟨t, id, d', added, raised, growth⟩ := raising.add wf₀ gathered
        (.element (.plain tag attributes)) (.element · tag attributes []) (fun _ => rfl)
        (fun _ => rfl) fun _ _ found empty => ⟨⟨_, found, rfl, rfl⟩, empty, trivial⟩
      refine ⟨t.add (.element id tag attributes []), "", d', ?_, raised, growth_add growth _⟩
      rw [Seedbed.step, Edit.bind_ok added]
      rfl
  | .raw tag attributes content => by
      obtain ⟨t, d', added, raised, growth⟩ := raising.addRaw wf₀ gathered tag attributes content
      exact ⟨t, "", d', added, raised, growth⟩
  | .opening tag attributes => by
      obtain ⟨t, id, d', added, raised, growth⟩ := raising.add wf₀ gathered
        (.element (.plain tag attributes)) (.element · tag attributes []) (fun _ => rfl)
        (fun _ => rfl) fun _ _ found empty => ⟨⟨_, found, rfl, rfl⟩, empty, trivial⟩
      refine ⟨_, "", d', ?_, raised.open_last, ?_⟩
      · rw [Seedbed.step, Edit.bind_ok added]
        rfl
      · simp only [Growth.step, ← growth]
        rfl
  | .closing tag => by
      obtain ⟨t, d', flushed, raised, growth, -⟩ := raising.flush wf₀ gathered
      have found : (t.bed fragment "").opened.findIdx? (·.2 = tag) =
          (t.growth "").opened.findIdx? (·.tag = tag) := by
        simp only [Sowing.bed, Sowing.growth, List.findIdx?_map]
        rfl
      cases inner : (t.growth "").opened.findIdx? (·.tag = tag) with
      | none =>
          rw [inner] at found
          refine ⟨t, "", d', ?_, raised, ?_⟩
          · rw [Seedbed.step, Edit.bind_ok flushed, found]
            rfl
          · rw [growth] at inner
            simp only [Growth.step, inner, growth]
      | some inner' =>
          rw [inner] at found
          refine ⟨t.close (inner' + 1), "", d', ?_, raised.close (inner' + 1), ?_⟩
          · rw [Seedbed.step, Edit.bind_ok flushed, found]
            simp only [Sowing.bed, Sowing.opened_close, List.map_drop]
            rfl
          · rw [← Sowing.growth_close, growth]
            rw [growth] at inner
            simp only [Growth.step, inner]

theorem steps (wf₀ : WellFormed d₀) : ∀ (pieces : List Piece) {d : Document} {s : Sowing}
    {gathered : String}, Raising d₀ d fragment s [] →
    ∃ (t : Sowing) (gathered' : String) (d' : Document),
      (s.bed fragment gathered).steps pieces d = .ok (t.bed fragment gathered') d' ∧
        Raising d₀ d' fragment t [] ∧
        t.growth gathered' = pieces.foldl Growth.step (s.growth gathered)
  | [], d, s, gathered, raising => ⟨s, gathered, d, rfl, raising, rfl⟩
  | piece :: rest, d, s, gathered, raising => by
      obtain ⟨t, gathered₁, d₁, first, raised, growth⟩ := raising.step wf₀ gathered piece
      obtain ⟨u, gathered₂, d₂, others, last, grown⟩ := steps wf₀ rest raised
      refine ⟨u, gathered₂, d₂, ?_, last, ?_⟩
      · rw [Seedbed.steps, Edit.bind_ok first, others]
      · rw [grown, growth]
        rfl

theorem start (wf₀ : WellFormed d₀) :
    Raising d₀ (create .fragment d₀).2 (create .fragment d₀).1 ⟨[], []⟩ [] := by
  have potted := create_fragment_potted wf₀
  exact ⟨potted.wellFormed, potted.fresh, potted.nodup,
    ⟨potted.isFragment, by simpa using potted.kids, trivial⟩, nofun, nofun, nofun, potted.content,
    potted.children, potted.body, potted.aged⟩

/-- With every element ended, the trees stand in the fragment. -/
theorem potted (raising : Raising d₀ d fragment s []) :
    ∃ ps, Potted d₀ d fragment ps ∧
      trees ps = ((s.growth "").close s.opened.length).children.reverse := by
  have raised := raising.close s.opened.length
  have ended : (s.close s.opened.length).opened = [] := by
    rw [Sowing.opened_close]
    exact List.drop_length
  have growth := s.growth_close "" s.opened.length
  rw [growth]
  generalize s.close s.opened.length = t at raised ended
  obtain ⟨opened, children⟩ := t
  simp only at ended
  subst ended
  obtain ⟨found, kids, stand⟩ := raised.sown
  refine ⟨children, ⟨raised.wellFormed, ?_, ?_, found, by simpa using kids, stand, ?_, ?_, raised.body,
    raised.aged⟩, by simp [Sowing.growth]⟩
  · simpa [Sowing.ids] using raised.fresh
  · simpa [Sowing.ids] using raised.nodup
  · simpa [Sowing.ids] using raised.content
  · simpa [Sowing.ids] using raised.children

end Raising

/-! ## Parsing -/

/-- Reading pieces is never refused, and gives their forest. -/
theorem readPieces_raises (wf : WellFormed d) (reading : Reading) :
    ∃ ps d', readPieces reading (create .fragment d).1 (create .fragment d).2 = .ok reading.fault d' ∧
      Potted d d' (create .fragment d).1 ps ∧
      (reading.fault = none → trees ps = forestOf reading.pieces) := by
  obtain ⟨t, gathered, d₁, done, raised, growth⟩ := Raising.steps wf reading.pieces (Raising.start wf)
  cases fault : reading.fault with
  | some found =>
      obtain ⟨ps, potted, -⟩ := raised.potted
      refine ⟨ps, d₁, ?_, potted, nofun⟩
      rw [readPieces]
      refine (Edit.bind_ok done).trans ?_
      simp only [fault]
      rfl
  | none =>
      obtain ⟨u, d₂, flushed, last, grown, -⟩ := raised.flush wf gathered
      obtain ⟨ps, potted, same⟩ := last.potted
      refine ⟨ps, d₂, ?_, potted, fun _ => ?_⟩
      · rw [readPieces]
        refine (Edit.bind_ok done).trans ?_
        simp only [fault]
        exact Edit.bind_ok flushed
      · have length : u.opened.length = (u.growth "").opened.length := by simp [Sowing.growth]
        rw [same, length, grown, growth]
        rfl

section Read

variable {source : String}

/-- Nothing is caught where nothing is refused. -/
theorem tryCatch_ok {α : Type} {e : Edit α} {a : α} (handler : Fault → Edit α) (done : e d = .ok a d') :
    tryCatch e handler d = .ok a d' := by
  simp [tryCatch, tryCatchThe, MonadExceptOf.tryCatch, EStateM.tryCatch, done]

theorem parse_of_read (read : readPieces (Reading.ofSource source) (create .fragment d).1
    (create .fragment d).2 = .ok none d') :
    parse source d = .ok (.ok (create .fragment d).1) d' := by
  rw [parse, Edit.bind_always]
  exact Edit.bind_ok (tryCatch_ok _ read)

theorem parse_of_fault {fault : Markup.Fault} {d'' : Document}
    (read : readPieces (Reading.ofSource source) (create .fragment d).1 (create .fragment d).2 =
      .ok (some fault) d') (freed : discard (create .fragment d).1 d' = .ok () d'') :
    parse source d = .ok (.error fault) d'' := by
  rw [parse, Edit.bind_always]
  refine (Edit.bind_ok (tryCatch_ok _ read)).trans ?_
  exact Edit.bind_ok freed

end Read

/-- A source that is markup gives a fragment with its forest. -/
theorem parse_ok (wf : WellFormed d) {source : String} {forest : List Tree}
    (read : forest? source = .ok forest) :
    ∃ fragment ps d', parse source d = .ok (.ok fragment) d' ∧ trees ps = forest ∧
      Potted d d' fragment ps := by
  obtain ⟨ps, d', done, potted, same⟩ := readPieces_raises wf (Reading.ofSource source)
  cases fault : (Reading.ofSource source).fault with
  | some found => simp [forest?, fault] at read
  | none =>
      simp only [forest?, fault, Except.ok.injEq] at read
      exact ⟨_, ps, d', parse_of_read (fault ▸ done), (same fault).trans read, potted⟩

/-- Freeing a new fragment takes everything back. -/
theorem Potted.discard (wf : WellFormed d) {ps : List Planted} (potted : Potted d d' fragment ps) :
    ∃ d'', discard fragment d' = .ok () d'' ∧ Becomes d d'' d.content? d.children := by
  have wf' := potted.wellFormed
  have live : d'.contains fragment = true := contains_iff_content?.mpr ⟨_, potted.isFragment⟩
  have inner : fragment ≠ d'.body := by
    rw [potted.body]
    rintro rfl
    have := potted.fresh _ List.mem_cons_self
    rw [wf.body_contains] at this
    cases this
  obtain ⟨d'', done, becomes⟩ := discard_becomes wf' live inner
  have all : ∀ x, x ∈ d'.descendants fragment ↔ x ∈ fragment :: idsAll ps := by
    intro x
    rw [descendants_eq wf' live potted.kids potted.stand]
  have content : (fun x => if x ∈ d'.descendants fragment then none else d'.content? x) = d.content? := by
    funext x
    by_cases new : x ∈ fragment :: idsAll ps
    · rw [if_pos ((all x).mpr new), content?_eq_none (potted.fresh x new)]
    · rw [if_neg fun mem => new ((all x).mp mem), potted.content x new]
  have children : (fun p => if p ∈ d'.descendants fragment then [] else (d'.children p).erase fragment) =
      d.children := by
    funext x
    by_cases new : x ∈ fragment :: idsAll ps
    · rw [if_pos ((all x).mpr new), wf.children_eq_nil (potted.fresh x new)]
    · rw [if_neg fun mem => new ((all x).mp mem), potted.children x new]
      refine List.erase_of_not_mem fun mem => ?_
      have live := wf.contains_child mem
      rw [potted.fresh _ List.mem_cons_self] at live
      cases live
  rw [content, children] at becomes
  exact ⟨d'', done, becomes.wellFormed, becomes.content, becomes.children,
    becomes.body.trans potted.body, potted.aged.trans becomes.aged⟩

/-- A source that is no markup changes nothing. -/
theorem parse_error (wf : WellFormed d) {source : String} {fault : Markup.Fault}
    (read : forest? source = .error fault) :
    ∃ d', parse source d = .ok (.error fault) d' ∧ Becomes d d' d.content? d.children := by
  obtain ⟨ps, d', done, potted, -⟩ := readPieces_raises wf (Reading.ofSource source)
  cases found : (Reading.ofSource source).fault with
  | none => simp [forest?, found] at read
  | some fault' =>
      simp only [forest?, found, Except.error.injEq] at read
      obtain ⟨d'', freed, becomes⟩ := potted.discard wf
      exact ⟨d'', parse_of_fault (read ▸ found ▸ done) freed, becomes⟩

end Inlay.Document
