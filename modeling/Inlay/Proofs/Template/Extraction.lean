/-
# Proofs.Template.Extraction — taking definitions out of standing trees

The definitions of siblings leave from the last to the first, one inside another
before it. When it is the turn of a definition, whatever stands behind it and
below it has been gone through already, and what stands in front of it is as it
was: so its neighbours in the document are those that `kept` looks at, in the
trees. No edit on the way is refused. What stays are the kept trees, every
definition has its content in a fragment of its own, and all else is untouched
(`Extracted`).

The induction is on the trees. One step takes the siblings behind a tree, the
next one the tree (`Extracted.trans`).
-/
import Inlay.Proofs.Render.Bond
import Inlay.Proofs.Template.Touring

namespace Inlay.Template

set_option autoImplicit false

open Inlay.Markup Inlay.Document Planted Relation

variable {d d' d'' : Document} {x q node fragment : NodeId} {front gone : List NodeId} {p : Planted}
  {ps ks inner : List Planted} {template : String}

/-! ## Freeing nodes without children -/

/-- The nodes, which have no children, are freed, and that is all. -/
def Frees (gone : List NodeId) (d d' : Document) : Prop :=
  Becomes d d' (fun x => if x ∈ gone then none else d.content? x) fun p => (d.children p).filter (· ∉ gone)

namespace Frees

theorem nil (wf : WellFormed d) : Frees [] d d := by simpa [Frees] using Becomes.refl wf

theorem trans {more : List NodeId} (first : Frees gone d d') (second : Frees more d' d'') :
    Frees (gone ++ more) d d'' := by
  have all := Becomes.trans first second
  have content : (fun x => if x ∈ more then none else d'.content? x) =
      fun x => if x ∈ gone ++ more then none else d.content? x := by
    funext x
    rw [first.content]
    by_cases here : x ∈ gone <;> by_cases there : x ∈ more <;> simp [here, there]
  have children : (fun p => (d'.children p).filter (· ∉ more)) = fun p => (d.children p).filter (· ∉ gone ++ more) := by
    funext p
    rw [first.children, List.filter_filter]
    refine List.filter_congr fun y _ => ?_
    by_cases here : y ∈ gone <;> by_cases there : y ∈ more <;> simp [here, there]
  rwa [content, children] at all

theorem content_of_not_mem (frees : Frees gone d d') (away : x ∉ gone) : d'.content? x = d.content? x := by
  rw [frees.content]
  exact if_neg away

theorem children_eq (frees : Frees gone d d') (p : NodeId) : d'.children p = (d.children p).filter (· ∉ gone) := by
  rw [frees.children]

end Frees

theorem discard_frees (wf : WellFormed d) (live : d.contains node = true) (inner : node ≠ d.body)
    (none_ : d.children node = []) : ∃ d', discard node d = .ok () d' ∧ Frees [node] d d' := by
  obtain ⟨d', done, becomes⟩ := discard_becomes wf live inner
  have only : ∀ x, x ∈ d.descendants node ↔ x ∈ [node] := by
    intro x
    rw [wf.mem_descendants, List.mem_singleton]
    constructor
    · rintro ⟨-, below⟩
      rcases below.cases_child with same | ⟨c, up, -⟩
      · exact same
      · have mem := wf.parent_iff.mp up
        rw [none_] at mem
        cases mem
    · rintro rfl
      exact ⟨live, .refl⟩
  simp only [only] at becomes
  have children : (fun p => if p ∈ [node] then [] else (d.children p).erase node) =
      fun p => (d.children p).filter (· ∉ [node]) := by
    funext p
    have erased : (d.children p).erase node = (d.children p).filter (· ∉ [node]) := by
      rw [(wf.nodup p).erase_eq_filter]
      refine List.filter_congr fun y _ => ?_
      by_cases same : y = node <;> simp [same]
    rw [← erased]
    split
    · next here => rw [List.mem_singleton.mp here, none_, List.erase_nil]
    · rfl
  rw [children] at becomes
  exact ⟨d', done, becomes⟩

/-- The neighbour of a definition, if it is a blank text. -/
def blanks (d : Document) (neighbour : Option NodeId) : List NodeId := neighbour.toList.filter (isBlankNode d)

theorem mem_blanks {neighbour : Option NodeId} :
    x ∈ blanks d neighbour ↔ neighbour = some x ∧ isBlankNode d x = true := by
  rw [blanks, List.mem_filter, Option.mem_toList]

theorem discardBlank_frees (wf : WellFormed d) (neighbour : Option NodeId)
    (child : ∀ x, neighbour = some x → x ∈ d.children q) :
    ∃ d', discardBlank neighbour d = .ok () d' ∧ Frees (blanks d neighbour) d d' := by
  cases neighbour with
  | none => exact ⟨d, rfl, .nil wf⟩
  | some x =>
      have mem := child x rfl
      rw [discardBlank, Work.bind_ask]
      cases blank : isBlankNode d x with
      | false =>
          refine ⟨d, rfl, ?_⟩
          have none_ : blanks d (some x) = [] := by simp [blanks, blank]
          rw [none_]
          exact .nil wf
      | true =>
          have leaf : d.children x = [] := by
            unfold isBlankNode at blank
            split at blank
            · next found => exact children_of_leaf wf found rfl
            · cases blank
          have inner : x ≠ d.body := fun same => wf.body_not_mem_children q (same ▸ mem)
          obtain ⟨d', done, frees⟩ := discard_frees wf (wf.contains_child mem) inner leaf
          have one : blanks d (some x) = [x] := by simp [blanks, blank]
          exact ⟨d', by simp [Work.edit, done], one ▸ frees⟩

/-! ## Gathering children -/

/-- Nodes that are not the parent of a child do not lose it. -/
theorem filter_ne_of_child (wf : WellFormed d) (child : x ∈ d.children node) {p : NodeId} (other : p ≠ node) :
    (d.children p).filter (· ≠ x) = d.children p := by
  refine List.filter_eq_self.mpr fun y mem => ?_
  have ne : y ≠ x := by
    rintro rfl
    exact other (wf.linked.parent_unique mem child)
  simpa using ne

/-- A child of a node is moved to the end of a fragment. -/
theorem append_becomes (wf : WellFormed d) (isFragment : d.content? fragment = some .fragment) (ne : fragment ≠ node)
    (child : x ∈ d.children node) : ∃ d', append fragment x d = .ok () d' ∧ Becomes d d' d.content? fun p =>
      if p = fragment then d.children fragment ++ [x] else (d.children p).filter (· ≠ x) := by
  have up := wf.parent_iff.mpr child
  have loose := wf.linked.placeable fragment isFragment
  have movable : Movable d fragment x := by
    refine ⟨wf.contains_child child, fun solid => ?_, ?_, fun below => ?_⟩
    · rw [wf.linked.placeable x solid] at up
      cases up
    · rintro rfl
      exact wf.body_not_mem_children node child
    · rcases ReflTransGen.cases_head below with same | ⟨p, step, -⟩
      · rw [← same, loose] at up
        cases up
      · rw [Up, loose] at step
        cases step
  have admitted : Admitted d fragment none := ⟨⟨_, isFragment, rfl⟩, by simp⟩
  obtain ⟨d', done, becomes⟩ := insertBefore_becomes wf admitted movable
  have split : d.children fragment = d.children fragment ++ [] := (List.append_nil _).symm
  have away : ([] : List NodeId).head? ≠ some x := by simp
  have lists := moved_of_split wf split away
  rw [filter_ne_of_child wf child ne] at lists
  exact ⟨d', done, cast (congrArg _ lists) becomes⟩

/-- The children of a node become those of a fragment, in order. -/
theorem gather_becomes : ∀ {list done : List NodeId} {d : Document}, WellFormed d →
    d.content? fragment = some .fragment → fragment ≠ node → d.children node = list → d.children fragment = done →
      ∃ d', gather fragment list d = .ok () d' ∧ Becomes d d' d.content? fun p =>
        if p = fragment then done ++ list else if p = node then [] else d.children p
  | [], done, d, wf, isFragment, ne, kids, before => by
      refine ⟨d, rfl, cast (congrArg _ (funext fun p => ?_)) (Becomes.refl wf)⟩
      by_cases first : p = fragment
      · simp [first, before]
      · by_cases second : p = node
        · simp [second, Ne.symm ne, kids]
        · simp [first, second]
  | c :: list, done, d, wf, isFragment, ne, kids, before => by
      have child : c ∈ d.children node := kids ▸ List.mem_cons_self
      obtain ⟨d₁, moved₁, becomes⟩ := append_becomes wf isFragment ne child
      have nodup := wf.nodup node
      rw [kids] at nodup
      have kids₁ : d₁.children node = list := by
        rw [becomes.children]
        simp only [if_neg (Ne.symm ne), kids]
        rw [List.filter_cons_of_neg (by simp)]
        refine List.filter_eq_self.mpr fun y mem => ?_
        simpa using fun same : y = c => (List.nodup_cons.mp nodup).1 (same ▸ mem)
      have before₁ : d₁.children fragment = done ++ [c] := by
        rw [becomes.children]
        simp only [if_true, before]
      obtain ⟨d', gathered, more⟩ := gather_becomes becomes.wellFormed
        (by rw [becomes.content, isFragment]) ne kids₁ before₁
      refine ⟨d', ?_, ?_⟩
      · rw [gather, Work.bind_edit moved₁]
        exact gathered
      · have all := becomes.trans more
        rw [becomes.content] at all
        refine cast (congrArg _ (funext fun p => ?_)) all
        by_cases first : p = fragment
        · simp [first]
        · by_cases second : p = node
          · simp [second, Ne.symm ne]
          · simp only [first, second, if_false]
            rw [becomes.children]
            simp only [if_neg first]
            exact filter_ne_of_child wf child second

/-! ## What has been taken out -/

/-- An entry for a definition: its name, and a fragment with its content, made of
nodes that are among the given ones or new. -/
structure Banked (d : Document) (ids : List NodeId) (d' : Document) (entry : String × NodeId)
    (pair : String × List Tree) : Prop where
  name_eq : entry.1 = pair.1
  isFragment : d'.content? entry.2 = some .fragment
  stands : ∃ ks, d'.children entry.2 = ks.map Planted.root ∧ StandAll d' ks ∧ trees ks = pair.2 ∧
    ∀ x ∈ entry.2 :: idsAll ks, x ∈ ids ∨ d.contains x = false

theorem Banked.holds {ids : List NodeId} {entry : String × NodeId} {pair : String × List Tree}
    (banked : Banked d ids d' entry pair) : Holds d' entry.2 pair.2 := by
  obtain ⟨ks, kids, stand, same, -⟩ := banked.stands
  exact ⟨banked.isFragment, ks, kids, stand, same⟩

theorem Banked.mono {ids ids' : List NodeId} {entry : String × NodeId} {pair : String × List Tree}
    (banked : Banked d ids d' entry pair) (sub : ∀ x ∈ ids, x ∈ ids') : Banked d ids' d' entry pair := by
  obtain ⟨ks, kids, stand, same, made⟩ := banked.stands
  exact ⟨banked.name_eq, banked.isFragment, ks, kids, stand, same, fun x mem => (made x mem).imp_left (sub x)⟩

/-- Definitions have been taken out among nodes of a parent. Of the children in
front of these some stay, and behind them stands what is left. -/
structure Extracted (d : Document) (q : NodeId) (front stays ids : List NodeId) (left : List Tree)
    (entries : List (String × NodeId)) (pairs : List (String × List Tree)) (d' : Document) : Prop where
  wellFormed : WellFormed d'
  remaining : ∃ ks, d'.children q = stays ++ ks.map Planted.root ∧ StandAll d' ks ∧ trees ks = left ∧
    ∀ x ∈ idsAll ks, x ∈ ids
  banked : List.Forall₂ (Banked d ids d') entries pairs
  distinct : (entries.map Prod.snd).Nodup
  frame : ∀ x, d.contains x = true → x ∉ ids → (x ∈ front → x ∈ stays) →
    d'.content? x = d.content? x ∧ (x ≠ q → d'.children x = d.children x)

/-- The children in front of a definition without a blank text at their end. -/
def unblanked (d : Document) (front : List NodeId) : List NodeId :=
  if front.getLast?.any (isBlankNode d) then front.dropLast else front

/-- The siblings behind a definition without a blank text in front. -/
def dropBlankPlanted : List Planted → List Planted
  | [] => []
  | p :: rest => if isBlankText p.tree then rest else p :: rest

theorem trees_dropBlankPlanted (ps : List Planted) : trees (dropBlankPlanted ps) = dropBlank (trees ps) := by
  cases ps with
  | nil => rfl
  | cons p rest =>
      rw [dropBlankPlanted, trees, dropBlank]
      split <;> rfl

theorem eq_text_of_isBlankText (blank : isBlankText p.tree = true) : ∃ id content, p = .text id content := by
  cases p with
  | element id tag attributes children => cases blank
  | text id content => exact ⟨id, content, rfl⟩
  | comment id body => cases blank

theorem isBlankNode_eq (stands : p.Stands d) : isBlankNode d p.root = isBlankText p.tree := by
  cases p with
  | element id tag attributes children =>
      obtain ⟨⟨e, found, -⟩, -⟩ := stands
      simp [isBlankNode, Planted.root, found, tree, isBlankText]
  | text id content =>
      have found : d.content? id = some (.text content) := stands
      simp [isBlankNode, Planted.root, found, tree, isBlankText]
  | comment id body =>
      have found : d.content? id = some (.comment body) := stands
      simp [isBlankNode, Planted.root, found, tree, isBlankText]

/-- What the front loses is the blank text at its end. -/
theorem filter_unblanked (nodup : front.Nodup) : front.filter (· ∉ blanks d front.getLast?) = unblanked d front := by
  rw [unblanked]
  rcases List.eq_nil_or_concat front with rfl | ⟨init, last, rfl⟩
  · rfl
  · rw [List.concat_eq_append] at nodup ⊢
    have absent : last ∉ init := fun mem => (List.nodup_append.mp nodup).2.2 last mem last List.mem_cons_self rfl
    rw [List.getLast?_append, List.getLast?_singleton, Option.some_or, List.dropLast_concat]
    cases blank : isBlankNode d last with
    | false => simp [blanks, blank]
    | true =>
        have one : blanks d (some last) = [last] := by simp [blanks, blank]
        rw [one, Option.any_some, blank, if_pos rfl, List.filter_append, List.filter_cons_of_neg (by simp),
          List.filter_nil, List.append_nil]
        refine List.filter_eq_self.mpr fun y mem => ?_
        simpa using fun same : y = last => absent (same ▸ mem)

/-- What the siblings behind lose is the blank text in front. -/
theorem filter_dropBlankPlanted (stand : StandAll d ks) (nodup : (ks.map Planted.root).Nodup) :
    (ks.map Planted.root).filter (· ∉ blanks d (ks.map Planted.root).head?) =
      (dropBlankPlanted ks).map Planted.root := by
  cases ks with
  | nil => rfl
  | cons p rest =>
      rw [List.map_cons] at nodup
      rw [dropBlankPlanted, List.map_cons, List.head?_cons, ← isBlankNode_eq stand.1]
      cases blank : isBlankNode d p.root with
      | false => simp [blanks, blank]
      | true =>
          have one : blanks d (some p.root) = [p.root] := by simp [blanks, blank]
          rw [one, List.filter_cons_of_neg (by simp), if_pos rfl]
          refine List.filter_eq_self.mpr fun y mem => ?_
          simpa using fun same : y = p.root => (List.nodup_cons.mp nodup).1 (same ▸ mem)

theorem standAll_dropBlankPlanted (stand : StandAll d ks) : StandAll d (dropBlankPlanted ks) := by
  cases ks with
  | nil => trivial
  | cons p rest =>
      rw [dropBlankPlanted]
      split
      · exact stand.2
      · exact stand

theorem mem_idsAll_dropBlankPlanted (mem : x ∈ idsAll (dropBlankPlanted ks)) : x ∈ idsAll ks := by
  cases ks with
  | nil => exact mem
  | cons p rest =>
      rw [dropBlankPlanted] at mem
      split at mem
      · exact List.mem_append_right _ mem
      · exact mem

/-! ## Taking one definition out -/

/-- What is freed with a node between its siblings: the neighbours that are blank texts, and the node. -/
def freed (d : Document) (front : List NodeId) (node : NodeId) (back : List NodeId) : List NodeId :=
  blanks d front.getLast? ++ blanks d back.head? ++ [node]

theorem mem_freed {back : List NodeId} :
    x ∈ freed d front node back ↔ x ∈ blanks d front.getLast? ∨ x ∈ blanks d back.head? ∨ x = node := by
  rw [freed, List.mem_append, List.mem_append, List.mem_singleton, or_assoc]

theorem freed_subset {back : List NodeId} : freed d front node back ⊆ front ++ node :: back := by
  intro x mem
  rcases mem_freed.mp mem with blank | blank | rfl
  · exact List.mem_append_left _ (List.mem_of_getLast? (mem_blanks.mp blank).1)
  · exact List.mem_append_right _ (List.mem_cons_of_mem _ (List.mem_of_head? (mem_blanks.mp blank).1))
  · exact List.mem_append_right _ List.mem_cons_self

theorem blanks_congr {neighbour : Option NodeId} (same : ∀ x, neighbour = some x → d'.content? x = d.content? x) :
    blanks d' neighbour = blanks d neighbour := by
  refine List.filter_congr fun x mem => ?_
  rw [isBlankNode, isBlankNode, same x (by simpa using mem)]

/-- A child without children is freed with its blank neighbours. -/
theorem discardAround_frees {back : List NodeId} (wf : WellFormed d) (around : d.children q = front ++ node :: back)
    (empty : d.children node = []) :
    ∃ d₁ d₂ d₃, discardBlank front.getLast? d = .ok () d₁ ∧ discardBlank back.head? d₁ = .ok () d₂ ∧
      discard node d₂ = .ok () d₃ ∧ Frees (freed d front node back) d d₃ := by
  have nodup := wf.nodup q
  rw [around] at nodup
  have before : ∀ x, front.getLast? = some x → x ∈ front := fun x here => List.mem_of_getLast? here
  have behind : ∀ x, back.head? = some x → x ∈ back := fun x here => List.mem_of_head? here
  have apart : ∀ x ∈ node :: back, x ∉ blanks d front.getLast? := fun x mem blank =>
    (List.nodup_append.mp nodup).2.2 x (before x (mem_blanks.mp blank).1) x mem rfl
  obtain ⟨d₁, freed₁, frees₁⟩ := discardBlank_frees wf (q := q) front.getLast? fun x here => by
    rw [around]
    exact List.mem_append_left _ (before x here)
  have still : ∀ {x}, x ∈ node :: back → x ∈ d₁.children q := by
    intro x mem
    rw [frees₁.children_eq, around]
    exact List.mem_filter.mpr ⟨List.mem_append_right _ mem, by simpa using apart x mem⟩
  obtain ⟨d₂, freed₂, frees₂⟩ := discardBlank_frees frees₁.wellFormed back.head? fun x here =>
    still (List.mem_cons_of_mem _ (behind x here))
  rw [blanks_congr fun x here => frees₁.content_of_not_mem (apart x (List.mem_cons_of_mem _ (behind x here)))] at frees₂
  have child : node ∈ d₂.children q := by
    rw [frees₂.children_eq]
    have away : node ∉ blanks d back.head? := fun blank =>
      (List.nodup_cons.mp (List.nodup_append.mp nodup).2.1).1 (behind node (mem_blanks.mp blank).1)
    exact List.mem_filter.mpr ⟨still List.mem_cons_self, by simpa using away⟩
  have empty₂ : d₂.children node = [] := by
    rw [frees₂.children_eq, frees₁.children_eq, empty, List.filter_nil, List.filter_nil]
  obtain ⟨d₃, freed₃, frees₃⟩ := discard_frees frees₂.wellFormed (frees₂.wellFormed.contains_child child)
    (fun same => frees₂.wellFormed.body_not_mem_children q (same ▸ child)) empty₂
  exact ⟨d₁, d₂, d₃, freed₁, freed₂, freed₃, (frees₁.trans frees₂).trans frees₃⟩

/-- A definition has been taken out from between its siblings: its children are those of a new fragment, and it
is freed with its blank neighbours. -/
structure TakenOut (d : Document) (front : List NodeId) (node : NodeId) (back : List NodeId) (fragment : NodeId)
    (d' : Document) : Prop where
  fresh : d.contains fragment = false
  becomes : Becomes d d'
    (fun x => if x ∈ freed d front node back then none else if x = fragment then some .fragment else d.content? x)
    (fun p => (if p = fragment then d.children node else if p = node then [] else d.children p).filter
      (· ∉ freed d front node back))

theorem takeOut_takes (wf : WellFormed d) {e : Element} {name : String} {back : List NodeId}
    (found : d.content? node = some (.element e))
    (given : nameOf template (Attribute.find? "id" e.attributes) = .ok name)
    (around : d.children q = front ++ node :: back) :
    ∃ fragment d', takeOut template node d = .ok (name, fragment) d' ∧ TakenOut d front node back fragment d' := by
  have live : d.contains node = true := contains_iff_content?.mpr ⟨_, found⟩
  have attribute_ : d.attribute? node "id" = Attribute.find? "id" e.attributes := by
    rw [attribute?, element?, found]
    rfl
  obtain ⟨fresh, made⟩ := create_becomes wf .fragment
  generalize created : create .fragment d = pair at fresh made
  obtain ⟨fragment, d₁⟩ := pair
  simp only at fresh made
  have old : ∀ {x}, d.contains x = true → x ≠ fragment := by
    rintro x here rfl
    rw [fresh] at here
    cases here
  have isFragment : d₁.content? fragment = some .fragment := by
    rw [made.content]
    exact if_pos rfl
  have bare : d₁.children fragment = [] := by rw [made.children, wf.children_eq_nil fresh]
  obtain ⟨d₂, gathered, moved_⟩ := gather_becomes made.wellFormed isFragment (Ne.symm (old live)) rfl bare
  rw [made.children, made.content] at moved_
  have nodeChild : node ∈ d.children q := by simp [around]
  have other : q ≠ node := by
    rintro rfl
    exact wf.acyclic.not_below (wf.parent_iff.mpr nodeChild) .refl
  have around₂ : d₂.children q = front ++ node :: back := by
    rw [moved_.children]
    simp [old (wf.contains_parent nodeChild), other, around]
  have empty₂ : d₂.children node = [] := by
    rw [moved_.children]
    simp [old live]
  obtain ⟨d₃, d₄, d₅, freed₃, freed₄, freed₅, frees⟩ := discardAround_frees moved_.wellFormed around₂ empty₂
  have content₂ : ∀ x ∈ d.children q, d₂.content? x = d.content? x := by
    intro x mem
    rw [moved_.content]
    exact if_neg (old (wf.contains_child mem))
  rw [freed, blanks_congr fun x here => content₂ x (by rw [around]; exact List.mem_append_left _ (List.mem_of_getLast? here)),
    blanks_congr fun x here => content₂ x (by
      rw [around]
      exact List.mem_append_right _ (List.mem_cons_of_mem _ (List.mem_of_head? here))), ← freed] at frees
  refine ⟨fragment, d₅, ?_, fresh, ?_⟩
  · obtain ⟨-, previous, next⟩ := moved_.wellFormed.linked.around q front node back around₂
    have create_ : Edit.always (create .fragment) d = .ok fragment d₁ := by rw [Edit.always, created]
    rw [takeOut, Work.bind_ask, attribute_, Work.bind_require given, Work.bind_edit create_, Work.bind_ask,
      Work.bind_ok gathered, Work.bind_ask, Work.bind_ask, previous, next, Work.bind_ok freed₃, Work.bind_ok freed₄,
      Work.bind_edit freed₅]
    rfl
  · have all := (made.trans moved_).trans frees
    rw [moved_.content, moved_.children] at all
    exact all

theorem not_mem_children_of_below (wf : WellFormed d) (child : node ∈ d.children q) (below : Below d x node)
    (ne : x ≠ node) : x ∉ d.children q := by
  intro mem
  rcases ReflTransGen.cases_head below with same | ⟨p, step, above⟩
  · exact ne same
  · cases up_unique step (wf.parent_iff.mpr mem)
    exact wf.acyclic.not_below (wf.parent_iff.mpr child) above

theorem ne_of_below (wf : WellFormed d) (child : node ∈ d.children q) (below : Below d x node) : x ≠ q := by
  rintro rfl
  exact wf.acyclic.not_below (wf.parent_iff.mpr child) below

/-- The trees that stand below children of a node are below it. -/
theorem exists_below (front : List NodeId) (wf : WellFormed d) (stand : StandAll d ps)
    (kids : d.children q = front ++ ps.map Planted.root) (mem : x ∈ idsAll ps) : ∃ r ∈ d.children q, Below d x r := by
  obtain ⟨p, here, below⟩ := (stand.mem_idsAll wf x).mp mem
  rw [kids]
  exact ⟨p.root, List.mem_append_right _ (List.mem_map_of_mem here), below⟩

theorem parent_not_mem (front : List NodeId) (wf : WellFormed d) (stand : StandAll d ps)
    (kids : d.children q = front ++ ps.map Planted.root) : q ∉ idsAll ps := fun mem => by
  obtain ⟨r, child, under⟩ := exists_below front wf stand kids mem
  exact ne_of_below wf child under rfl

theorem front_not_mem (wf : WellFormed d) (stand : StandAll d ps) (kids : d.children q = front ++ ps.map Planted.root)
    (mem : x ∈ front) : x ∉ idsAll ps := fun there => by
  have nodup := wf.nodup q
  rw [kids] at nodup
  obtain ⟨p, here, below⟩ := (stand.mem_idsAll wf x).mp there
  have root_ : p.root ∈ ps.map Planted.root := List.mem_map_of_mem here
  have ne : x ≠ p.root := fun same => (List.nodup_append.mp nodup).2.2 x mem p.root root_ same
  exact not_mem_children_of_below wf (kids ▸ List.mem_append_right _ root_) below ne (by simp [kids, mem])

/-- What is left of the list around a node that is freed with its blank neighbours. -/
theorem filter_freed (stand : StandAll d ks) (nodup : (front ++ node :: ks.map Planted.root).Nodup) :
    (front ++ node :: ks.map Planted.root).filter (· ∉ freed d front node (ks.map Planted.root)) =
      unblanked d front ++ (dropBlankPlanted ks).map Planted.root := by
  obtain ⟨nodupFront, nodupBack, apart⟩ := List.nodup_append.mp nodup
  obtain ⟨absent, nodupBack⟩ := List.nodup_cons.mp nodupBack
  rw [← filter_unblanked nodupFront, ← filter_dropBlankPlanted stand nodupBack, List.filter_append,
    List.filter_cons_of_neg (by simp [mem_freed])]
  congr 1
  · refine List.filter_congr fun x mem => ?_
    have notNode : x ≠ node := fun same => apart x mem node List.mem_cons_self same
    have notHead : x ∉ blanks d (ks.map Planted.root).head? := fun blank =>
      apart x mem x (List.mem_cons_of_mem _ (List.mem_of_head? (mem_blanks.mp blank).1)) rfl
    simp [mem_freed, notNode, notHead, -List.head?_map]
  · refine List.filter_congr fun x mem => ?_
    have notNode : x ≠ node := fun same => absent (same ▸ mem)
    have notLast : x ∉ blanks d front.getLast? := fun blank =>
      apart x (List.mem_of_getLast? (mem_blanks.mp blank).1) x (List.mem_cons_of_mem _ mem) rfl
    simp [mem_freed, notNode, notLast]

/-- Only children of the parent are freed. -/
theorem filter_freed_of_ne {back : List NodeId} (wf : WellFormed d) (around : d.children q = front ++ node :: back)
    (other : x ≠ q) : (d.children x).filter (· ∉ freed d front node back) = d.children x := by
  refine List.filter_eq_self.mpr fun y mem => ?_
  have stays : y ∉ freed d front node back := fun lost =>
    other (wf.linked.parent_unique mem (around ▸ freed_subset lost))
  simpa using stays

namespace TakenOut

variable {back : List NodeId} (wf : WellFormed d) (around : d.children q = front ++ node :: back)
  (taken : TakenOut d front node back fragment d')
include taken

theorem ne_fragment (live : d.contains x = true) : x ≠ fragment := by
  rintro rfl
  rw [taken.fresh] at live
  cases live

include wf around

theorem children_parent : d'.children q = (front ++ node :: back).filter (· ∉ freed d front node back) := by
  have child : node ∈ d.children q := by simp [around]
  have away : q ≠ node := (ne_of_below wf child .refl).symm
  rw [taken.becomes.children]
  simp only [if_neg (taken.ne_fragment (wf.contains_parent child)), if_neg away, around]

/-- What is not freed is as it was, the list of the parent aside. -/
theorem frame (live : d.contains x = true) (stays : x ∉ freed d front node back) :
    d'.content? x = d.content? x ∧ (x ≠ q → d'.children x = d.children x) := by
  have old := taken.ne_fragment live
  have ne : x ≠ node := fun same => stays (mem_freed.mpr (.inr (.inr same)))
  refine ⟨?_, fun other => ?_⟩
  · rw [taken.becomes.content]
    simp only [if_neg stays, if_neg old]
  · rw [taken.becomes.children]
    simp only [if_neg old, if_neg ne]
    exact filter_freed_of_ne wf around other

/-- The fragment has the children. -/
theorem fragment_eq : d'.content? fragment = some .fragment ∧ d'.children fragment = d.children node := by
  have child : node ∈ d.children q := by simp [around]
  have away : node ≠ q := ne_of_below wf child .refl
  have stays : fragment ∉ freed d front node back := fun lost =>
    taken.ne_fragment (wf.contains_child (around ▸ freed_subset lost)) rfl
  rw [taken.becomes.content, taken.becomes.children]
  simp only [if_neg stays, if_true, true_and]
  exact filter_freed_of_ne wf around away

/-- A node below a child is not freed, unless it is the child. -/
theorem standing {r : NodeId} (child : r ∈ d.children q) (below : Below d x r)
    (stays : x = r → r ∉ freed d front node back) : d'.content? x = d.content? x ∧ d'.children x = d.children x := by
  have live := wf.contains_of_below (wf.contains_child child) below
  have stays : x ∉ freed d front node back := fun lost => by
    by_cases same : x = r
    · exact stays same (same ▸ lost)
    · exact not_mem_children_of_below wf child below same (around ▸ freed_subset lost)
  have same := taken.frame wf around live stays
  exact ⟨same.1, same.2 (ne_of_below wf child below)⟩

end TakenOut

/-- Taking one definition out, around and below which no others are left. -/
theorem takeOut_extracted (wf : WellFormed d) {e : Element} {name : String}
    (found : d.content? node = some (.element e))
    (given : nameOf template (Attribute.find? "id" e.attributes) = .ok name)
    (below : d.children node = inner.map Planted.root) (standInner : StandAll d inner)
    (around : d.children q = front ++ node :: ks.map Planted.root) (stand : StandAll d ks) :
    ∃ fragment d', takeOut template node d = .ok (name, fragment) d' ∧
      Extracted d q front (unblanked d front) (node :: idsAll inner ++ idsAll ks) (dropBlank (trees ks))
        [(name, fragment)] [(name, trees inner)] d' := by
  obtain ⟨fragment, d', done, taken⟩ := takeOut_takes wf found given around
  have nodup := wf.nodup q
  rw [around] at nodup
  have left := filter_freed stand nodup
  have nodeChild : node ∈ d.children q := by simp [around]
  have siblings : d'.children q = unblanked d front ++ (dropBlankPlanted ks).map Planted.root :=
    (taken.children_parent wf around).trans left
  have standInner' : StandAll d' inner := standInner.congr fun x mem => by
    obtain ⟨r, child, under⟩ := exists_below [] wf standInner below mem
    have under := under.tail (wf.parent_iff.mpr child)
    exact taken.standing wf around nodeChild under fun same => absurd mem (same ▸ parent_not_mem [] wf standInner below)
  have standLeft : StandAll d' (dropBlankPlanted ks) := (standAll_dropBlankPlanted stand).congr fun x mem => by
    obtain ⟨p, here, under⟩ := ((standAll_dropBlankPlanted stand).mem_idsAll wf x).mp mem
    have still : p.root ∈ (front ++ node :: ks.map Planted.root).filter (· ∉ freed d front node (ks.map Planted.root)) := by
      rw [left]
      exact List.mem_append_right _ (List.mem_map_of_mem here)
    obtain ⟨child, stays⟩ := List.mem_filter.mp still
    exact taken.standing wf around (around ▸ child) under fun _ => by simpa using stays
  obtain ⟨isFragment, kids⟩ := taken.fragment_eq wf around
  refine ⟨fragment, d', done, taken.becomes.wellFormed, ⟨_, siblings, standLeft, trees_dropBlankPlanted ks,
    fun x mem => List.mem_append_right _ (mem_idsAll_dropBlankPlanted mem)⟩,
    .cons ⟨rfl, isFragment, inner, kids.trans below, standInner', rfl, fun x mem => ?_⟩ .nil, List.nodup_singleton _,
    fun x live outside stays => taken.frame wf around live fun lost => ?_⟩
  · rcases List.mem_cons.mp mem with rfl | mem
    · exact .inr taken.fresh
    · exact .inl (List.mem_append_left _ (List.mem_cons_of_mem _ mem))
  · rcases mem_freed.mp lost with blank | blank | same
    · have here := stays (List.mem_of_getLast? (mem_blanks.mp blank).1)
      rw [← filter_unblanked (List.nodup_append.mp nodup).1, List.mem_filter] at here
      exact absurd blank (by simpa using here.2)
    · have head := List.mem_of_head? (mem_blanks.mp blank).1
      exact outside (List.mem_append_right _ ((map_root_sublist ks).subset head))
    · exact outside (by simp [same])

/-! ## One step and the next -/

section Trans

variable {d₁ d₂ : Document} {q₁ : NodeId} {front₁ stays ids ids₁ ids₂ : List NodeId} {left left₁ : List Tree}
  {entry : String × NodeId} {entries entries₁ entries₂ : List (String × NodeId)} {pair : String × List Tree}
  {pairs pairs₁ pairs₂ : List (String × List Tree)}

/-- Nothing is taken out of what stays. -/
theorem Extracted.nothing (ks : List Planted) (wf : WellFormed d) (stand : StandAll d ks)
    (kids : d.children q = front ++ ks.map Planted.root)
    (sub : ∀ x ∈ idsAll ks, x ∈ ids) : Extracted d q front front ids (trees ks) [] [] d where
  wellFormed := wf
  remaining := ⟨ks, kids, stand, rfl, sub⟩
  banked := .nil
  distinct := List.nodup_nil
  frame := fun _ _ _ _ => ⟨rfl, fun _ => rfl⟩

/-- A fragment with a definition is not touched by what happens below a node that was there before. -/
theorem Banked.not_below (wf : WellFormed d₁) (banked : Banked d ids₁ d₁ entry pair) (live : d.contains q = true)
    (outside : q ∉ ids₁) (below : Below d₁ x entry.2) : ¬ Below d₁ x q := by
  intro below'
  obtain ⟨ks, kids, stand, -, made⟩ := banked.stands
  have among : q ∈ entry.2 :: idsAll ks := by
    rcases below.total below' with up | up
    · rcases ReflTransGen.cases_head up with same | ⟨p, step, -⟩
      · exact same ▸ List.mem_cons_self
      · rw [Up, wf.linked.placeable entry.2 banked.isFragment] at step
        cases step
    · rcases up.cases_child with same | ⟨c, step, under⟩
      · exact same ▸ List.mem_cons_self
      · have child := wf.parent_iff.mp step
        rw [kids] at child
        obtain ⟨p, mem, rfl⟩ := List.mem_map.mp child
        exact List.mem_cons_of_mem _ ((stand.mem_idsAll wf q).mpr ⟨p, mem, under⟩)
  rcases made q among with mem | dead
  · exact outside mem
  · rw [live] at dead
    cases dead

theorem Banked.trans (wf : WellFormed d₁) (banked : Banked d ids₁ d₁ entry pair) (live : d.contains q = true)
    (outside : q ∉ ids₁) (sub : ∀ x ∈ ids₁, x ∈ ids) (below : ∀ x ∈ ids₂, Below d₁ x q)
    (fronts : ∀ x ∈ front, x ∈ d₁.children q) (second : Extracted d₁ q front stays ids₂ left entries pairs d₂) :
    Banked d ids d₂ entry pair := by
  obtain ⟨ks, kids, stand, same, made⟩ := banked.stands
  have untouched : ∀ x ∈ entry.2 :: idsAll ks, d₂.content? x = d₁.content? x ∧ d₂.children x = d₁.children x := by
    intro x mem
    have under : Below d₁ x entry.2 := by
      rcases List.mem_cons.mp mem with rfl | mem
      · exact .refl
      · exact Holds.below_of_mem wf kids stand mem
    have aside := banked.not_below wf live outside under
    have alive : d₁.contains x = true :=
      wf.contains_of_below (contains_iff_content?.mpr ⟨_, banked.isFragment⟩) under
    have frame := second.frame x alive (fun mem => aside (below x mem))
      (fun mem => absurd (ReflTransGen.single (wf.parent_iff.mpr (fronts x mem)) : Below d₁ x q) aside)
    exact ⟨frame.1, frame.2 fun eq => aside (eq ▸ .refl)⟩
  have here := untouched entry.2 List.mem_cons_self
  refine ⟨banked.name_eq, here.1.trans banked.isFragment, ks, here.2.trans kids,
    stand.congr fun x mem => untouched x (List.mem_cons_of_mem _ mem), same, fun x mem => ?_⟩
  exact (made x mem).imp_left (sub x)

/-- Taking definitions out at one place and then at a place that contains it. -/
theorem Extracted.trans (first : Extracted d q₁ front₁ front₁ ids₁ left₁ entries₁ pairs₁ d₁)
    (second : Extracted d₁ q front stays ids₂ left entries₂ pairs₂ d₂) (live : d.contains q = true) (outside : q ∉ ids)
    (sub₁ : ∀ x ∈ ids₁, x ∈ ids) (sub₂ : ∀ x ∈ ids₂, x ∈ ids) (place : q₁ = q ∨ q₁ ∈ ids)
    (below : ∀ x ∈ ids₂, Below d₁ x q) (fronts : ∀ x ∈ front, x ∈ d₁.children q) :
    Extracted d q front stays ids left (entries₁ ++ entries₂) (pairs₁ ++ pairs₂) d₂ := by
  have wf₁ := first.wellFormed
  have outside₁ : q ∉ ids₁ := fun mem => outside (sub₁ q mem)
  have alive : ∀ x, d.contains x = true → x ∉ ids → d₁.contains x = true := by
    intro x here away
    obtain ⟨c, found⟩ := contains_iff_content?.mp here
    exact contains_iff_content?.mpr ⟨c, (first.frame x here (fun mem => away (sub₁ x mem)) id).1.trans found⟩
  have made : ∀ x, x ∈ ids₂ ∨ d₁.contains x = false → x ∈ ids ∨ d.contains x = false := by
    intro x here
    rcases here with mem | dead
    · exact .inl (sub₂ x mem)
    · by_contra none_
      obtain ⟨away, live⟩ := not_or.mp none_
      rw [alive x (by simpa using live) away] at dead
      cases dead
  refine ⟨second.wellFormed, ?_, ?_, ?_, fun x here away stay => ?_⟩
  · obtain ⟨ks, kids, stand, same, sub⟩ := second.remaining
    exact ⟨ks, kids, stand, same, fun x mem => sub₂ x (sub x mem)⟩
  · refine List.rel_append ?_ ?_
    · exact first.banked.imp fun entry pair banked => banked.trans wf₁ live outside₁ sub₁ below fronts second
    · refine second.banked.imp fun entry pair banked => ?_
      obtain ⟨ks, kids, stand, same, new⟩ := banked.stands
      exact ⟨banked.name_eq, banked.isFragment, ks, kids, stand, same, fun x mem => made x (new x mem)⟩
  · rw [List.map_append]
    refine List.nodup_append.mpr ⟨first.distinct, second.distinct, ?_⟩
    rintro f memF g memG rfl
    obtain ⟨entry, there, rfl⟩ := List.mem_map.mp memF
    obtain ⟨entry', there', same⟩ := List.mem_map.mp memG
    obtain ⟨pair, -, banked⟩ := Render.exists_of_paired first.banked there
    obtain ⟨pair', -, banked'⟩ := Render.exists_of_paired second.banked there'
    obtain ⟨_, -, -, -, new⟩ := banked'.stands
    rcases same ▸ new entry'.2 List.mem_cons_self with mem | dead
    · exact banked.not_below wf₁ live outside₁ .refl (below _ mem)
    · rw [contains_iff_content?.mpr ⟨_, banked.isFragment⟩] at dead
      cases dead
  · have step := first.frame x here (fun mem => away (sub₁ x mem)) id
    have step' := second.frame x (alive x here away) (fun mem => away (sub₂ x mem)) stay
    refine ⟨step'.1.trans step.1, fun other => (step'.2 other).trans (step.2 fun same => ?_)⟩
    rcases place with here | here
    · exact other (same.trans here)
    · exact away (same ▸ here)

end Trans

/-! ## All definitions -/

mutual

/-- The nodes of the definitions at and inside a tree, in document order. -/
def definitionIds : Planted → List NodeId
  | .element id tag _ children =>
    if tag = definitionTag then id :: definitionIdsAll children else definitionIdsAll children
  | .text _ _ => []
  | .comment _ _ => []

def definitionIdsAll : List Planted → List NodeId
  | [] => []
  | p :: rest => definitionIds p ++ definitionIdsAll rest

end

theorem takeOutAll_append (template : String) (more : List NodeId) : ∀ nodes : List NodeId,
    takeOutAll template (nodes ++ more) = (do
      let first ← takeOutAll template nodes
      let second ← takeOutAll template more
      return first ++ second)
  | [] => by simp [takeOutAll]
  | node :: rest => by simp [takeOutAll, takeOutAll_append template more rest]

theorem named_append (template : String) (more : List Definition) : ∀ definitions : List Definition,
    named template (definitions ++ more) = (do
      let first ← named template definitions
      let second ← named template more
      return first ++ second)
  | [] => by simp [named]
  | definition :: rest => by
      rw [List.cons_append, named, named, named_append template more rest]
      cases definition.id with
      | none => rfl
      | some name => simp

section Trees

variable {entries : List (String × NodeId)} {pairs : List (String × List Tree)} {nodes nodes' : List NodeId}
  {definitions definitions' : List Definition}
  {goes goes' : List (String × NodeId) → List (String × List Tree) → Document → Prop}

/-- Definitions are taken out one part after the other. -/
theorem agrees_append (first : Agrees goes (takeOutAll template nodes d) (named template definitions))
    (second : ∀ entries pairs d₁, goes entries pairs d₁ →
      Agrees (fun entries' pairs' => goes' (entries ++ entries') (pairs ++ pairs')) (takeOutAll template nodes' d₁)
        (named template definitions')) :
    Agrees goes' (takeOutAll template (nodes ++ nodes') d) (named template (definitions ++ definitions')) := by
  rw [takeOutAll_append, named_append]
  refine first.bind fun entries pairs d₁ went => ?_
  exact (second entries pairs d₁ went).bind fun entries' pairs' d₂ went' => went'

theorem takeOut_agrees (wf : WellFormed d) {e : Element} (found : d.content? node = some (.element e))
    (below : d.children node = inner.map Planted.root) (standInner : StandAll d inner)
    (around : d.children q = front ++ node :: ks.map Planted.root) (stand : StandAll d ks) :
    Agrees (Extracted d q front (unblanked d front) (node :: idsAll inner ++ idsAll ks) (dropBlank (trees ks)))
      (takeOutAll template [node] d) (named template [⟨definedId e.attributes, trees inner⟩]) := by
  have attribute_ : d.attribute? node "id" = Attribute.find? "id" e.attributes := by
    rw [attribute?, element?, found]
    rfl
  rw [takeOutAll, named]
  cases id : definedId e.attributes with
  | none =>
      have given : nameOf template (Attribute.find? "id" e.attributes) = .error (.nameless template) := by
        rw [nameOf, ← definedId, id]
      rw [takeOut, bind_assoc, Work.bind_ask, attribute_, given]
      exact (rfl : Fault.nameless template = .nameless template)
  | some name =>
      have given : nameOf template (Attribute.find? "id" e.attributes) = .ok name := by
        rw [nameOf, ← definedId, id]
      obtain ⟨fragment, d', done, extracted⟩ := takeOut_extracted wf found given below standInner around stand
      rw [Work.bind_ok done]
      exact extracted

theorem Extracted.absorb {stays ids : List NodeId} (ids' : List NodeId) {left : List Tree}
    (extracted : Extracted d q (front ++ [node]) stays ids left entries pairs d') (sub : ∀ x ∈ ids, x ∈ ids')
    (mem : node ∈ ids') : Extracted d q front stays ids' left entries pairs d' := by
  obtain ⟨ks, kids, stand, same, among⟩ := extracted.remaining
  refine ⟨extracted.wellFormed, ⟨ks, kids, stand, same, fun x here => sub x (among x here)⟩,
    extracted.banked.imp fun entry pair banked => banked.mono sub, extracted.distinct, fun x live away stay => ?_⟩
  refine extracted.frame x live (fun here => away (sub x here)) fun here => ?_
  rcases List.mem_append.mp here with here | here
  · exact stay here
  · exact absurd (List.mem_singleton.mp here ▸ mem) away

/-- What stays of the children in front of siblings. -/
def stays (d : Document) (front : List NodeId) (ps : List Planted) : List NodeId :=
  if (trees ps).head?.any isDefinition then unblanked d front else front

theorem unblanked_congr (same : ∀ x ∈ front, d'.content? x = d.content? x) :
    unblanked d' front = unblanked d front := by
  rw [unblanked, unblanked]
  cases last : front.getLast? with
  | none => rfl
  | some x =>
      rw [Option.any_some, Option.any_some, isBlankNode, isBlankNode, same x (List.mem_of_getLast? last)]

/-- Definitions have been taken out of the children of one sibling. -/
theorem Extracted.inside {d₁ : Document} {id : NodeId} {tag : String} {attributes : List Attribute}
    {children : List Planted} {left : List Tree} (wf : WellFormed d)
    (stand : StandAll d (.element id tag attributes children :: ks))
    (around : d.children q = front ++ id :: ks.map Planted.root)
    (first : Extracted d id [] [] (idsAll children) left entries pairs d₁) :
    ∃ kc, trees kc = left ∧ (∀ x ∈ idsAll kc, x ∈ idsAll children) ∧
      StandAll d₁ (.element id tag attributes kc :: ks) ∧ d₁.children q = front ++ id :: ks.map Planted.root ∧
      ∀ x ∈ front, d₁.content? x = d.content? x := by
  have nodup := nodup_idsAll front wf stand around
  have away : ∀ x, x = q ∨ x ∈ front → x ∉ idsAll children := by
    rintro x place mem
    have among : x ∈ idsAll (.element id tag attributes children :: ks) := by simp [idsAll, ids, mem]
    rcases place with rfl | ahead
    · exact parent_not_mem front wf stand around among
    · exact front_not_mem wf stand around ahead among
  obtain ⟨⟨⟨e, found, same⟩, kids, inner⟩, stand⟩ := stand
  obtain ⟨kc, kids₁, inner₁, left_, sub⟩ := first.remaining
  rw [idsAll, ids, List.cons_append] at nodup
  obtain ⟨absent, nodup⟩ := List.nodup_cons.mp nodup
  have idChild : id ∈ d.children q := by simp [around]
  have frame : ∀ x, d.contains x = true → x ∉ idsAll children →
      d₁.content? x = d.content? x ∧ (x ≠ id → d₁.children x = d.children x) :=
    fun x live away => first.frame x live away fun here => here
  have own := frame id (wf.contains_child idChild) fun mem => absent (List.mem_append_left _ mem)
  have parent := frame q (wf.contains_parent idChild) (away q (.inl rfl))
  refine ⟨kc, left_, sub, ⟨⟨⟨e, own.1.trans found, same⟩, kids₁, inner₁⟩, stand.congr fun x mem => ?_⟩, ?_,
    fun x mem => (frame x ?_ (away x (.inr mem))).1⟩
  · have step := frame x (stand.contains x mem) fun here => (List.nodup_append.mp nodup).2.2 x here x mem rfl
    exact ⟨step.1, step.2 fun here => absent (List.mem_append_right _ (here ▸ mem))⟩
  · rw [parent.2 (ne_of_below wf idChild .refl).symm, around]
  · exact wf.contains_child (p := q) (by simp [around, mem])

/-- What is taken out of one sibling, and what then happens to it, as one step. -/
theorem Extracted.outward {d₁ d₂ : Document} {id : NodeId} {tag : String} {attributes : List Attribute}
    {children kc : List Planted} {inner_ left : List Tree} {stays : List NodeId} {entries' : List (String × NodeId)}
    {pairs' : List (String × List Tree)} (wf : WellFormed d)
    (stand : StandAll d (.element id tag attributes children :: ks))
    (around : d.children q = front ++ id :: ks.map Planted.root)
    (first : Extracted d id [] [] (idsAll children) inner_ entries pairs d₁)
    (sub : ∀ x ∈ idsAll kc, x ∈ idsAll children)
    (stand₁ : StandAll d₁ (.element id tag attributes kc :: ks))
    (around₁ : d₁.children q = front ++ id :: ks.map Planted.root)
    (second : Extracted d₁ q front stays (idsAll (.element id tag attributes kc :: ks)) left entries' pairs' d₂) :
    Extracted d q front stays (idsAll (.element id tag attributes children :: ks)) left (entries ++ entries')
      (pairs ++ pairs') d₂ := by
  refine first.trans second (wf.contains_parent (c := id) (by simp [around])) (parent_not_mem front wf stand around)
    (fun x mem => ?_) (fun x mem => ?_) (.inr (by simp [idsAll, ids])) (fun x mem => ?_) fun x mem => by simp [around₁, mem]
  · simp [idsAll, ids, mem]
  · simp only [idsAll, ids, List.cons_append, List.mem_cons, List.mem_append] at mem ⊢
    exact mem.imp_right (Or.imp_left (sub x))
  · obtain ⟨r, child, under⟩ := exists_below front first.wellFormed stand₁ around₁ mem
    exact under.tail (first.wellFormed.parent_iff.mpr child)

/-- Definitions have been taken out of the siblings behind one, which still stands. -/
theorem Extracted.behind {d₁ : Document} {left : List Tree} (wf : WellFormed d) (stand : StandAll d (p :: ps))
    (kids : d.children q = front ++ p.root :: ps.map Planted.root)
    (first : Extracted d q (front ++ [p.root]) (front ++ [p.root]) (idsAll ps) left entries pairs d₁) :
    ∃ ks, trees ks = left ∧ (∀ x ∈ idsAll ks, x ∈ idsAll ps) ∧ StandAll d₁ (p :: ks) ∧
      d₁.children q = front ++ p.root :: ks.map Planted.root ∧ ∀ x ∈ front, d₁.content? x = d.content? x := by
  obtain ⟨ks, kids₁, stand₁, left_, sub⟩ := first.remaining
  have nodup := nodup_idsAll front wf stand kids
  have frame : ∀ x, d.contains x = true → x ∉ idsAll ps →
      d₁.content? x = d.content? x ∧ (x ≠ q → d₁.children x = d.children x) :=
    fun x live away => first.frame x live away fun here => here
  refine ⟨ks, left_, sub, ⟨stand.1.congr fun x mem => ?_, stand₁⟩, by rw [kids₁]; simp, fun x mem => ?_⟩
  · have step := frame x (stand.contains x (List.mem_append_left _ mem))
      fun there => (List.nodup_append.mp nodup).2.2 x mem x there rfl
    exact ⟨step.1, step.2 fun same => parent_not_mem front wf stand kids (same ▸ List.mem_append_left _ mem)⟩
  · refine (frame x (wf.contains_child (p := q) (by simp [kids, mem])) fun there => ?_).1
    exact front_not_mem wf stand kids mem (List.mem_append_right _ there)

/-- What is taken out of the siblings behind one, and what then happens to it, as one step. -/
theorem Extracted.forward {d₁ d₂ : Document} {left left' : List Tree} {stays : List NodeId}
    {entries' : List (String × NodeId)} {pairs' : List (String × List Tree)} (wf : WellFormed d)
    (stand : StandAll d (p :: ps)) (kids : d.children q = front ++ p.root :: ps.map Planted.root)
    (first : Extracted d q (front ++ [p.root]) (front ++ [p.root]) (idsAll ps) left entries pairs d₁)
    (sub : ∀ x ∈ idsAll ks, x ∈ idsAll ps) (stand₁ : StandAll d₁ (p :: ks))
    (around₁ : d₁.children q = front ++ p.root :: ks.map Planted.root)
    (second : Extracted d₁ q front stays (idsAll (p :: ks)) left' entries' pairs' d₂) :
    Extracted d q front stays (idsAll (p :: ps)) left' (entries ++ entries') (pairs ++ pairs') d₂ := by
  refine first.trans second (wf.contains_parent (c := p.root) (by simp [kids])) (parent_not_mem front wf stand kids)
    (fun x mem => List.mem_append_right _ mem) (fun x mem => ?_) (.inl rfl) (fun x mem => ?_)
    fun x mem => by simp [around₁, mem]
  · rcases List.mem_append.mp mem with mem | mem
    · exact List.mem_append_left _ mem
    · exact List.mem_append_right _ (sub x mem)
  · obtain ⟨r, child, under⟩ := exists_below front first.wellFormed stand₁ around₁ mem
    exact under.tail (first.wellFormed.parent_iff.mpr child)

mutual

/-- The definitions at and inside a tree, behind which there are none left. -/
theorem takeOut_tree (template : String) : ∀ {p : Planted} {d : Document} {q : NodeId} {front : List NodeId}
    {ks : List Planted}, WellFormed d → StandAll d (p :: ks) → d.children q = front ++ p.root :: ks.map Planted.root →
      Agrees (Extracted d q front (if isDefinition p.tree then unblanked d front else front) (idsAll (p :: ks))
          (if isDefinition p.tree then dropBlank (trees ks) else keptTree p.tree :: trees ks))
        (takeOutAll template (definitionIds p).reverse d) (named template (treeDefinitions p.tree).reverse)
  | .text id content, d, q, front, ks, wf, stand, around =>
      Extracted.nothing (.text id content :: ks) wf stand around fun x mem => mem
  | .comment id body, d, q, front, ks, wf, stand, around =>
      Extracted.nothing (.comment id body :: ks) wf stand around fun x mem => mem
  | .element id tag attributes children, d, q, front, ks, wf, stand, around => by
      have idChild : id ∈ d.children q := by
        rw [around]
        exact List.mem_append_right _ List.mem_cons_self
      obtain ⟨element_, kids, standInner⟩ := stand.1
      have inner := takeOut_trees template [] (q := id) wf standInner (wf.contains_child idChild) kids
      have nothing_ : stays d [] children = [] := by simp [stays, unblanked]
      rw [nothing_] at inner
      by_cases here : tag = definitionTag
      · have isDef : isDefinition (tree (.element id tag attributes children)) = true := by
          simp [tree, isDefinition, here]
        rw [isDef, if_pos rfl, if_pos rfl, definitionIds, if_pos here, List.reverse_cons, tree, treeDefinitions,
          if_pos here, List.reverse_cons]
        refine agrees_append inner fun entries pairs d₁ first => ?_
        obtain ⟨kc, left_, sub, stand₁, around₁, front₁⟩ := first.inside wf stand around
        have parts := stand₁
        obtain ⟨⟨⟨e, found, rfl, rfl⟩, kids₁, inner₁⟩, behind⟩ := parts
        rw [← left_]
        refine (takeOut_agrees first.wellFormed found kids₁ inner₁ around₁ behind).mono
          fun entries' pairs' d₂ second => ?_
        rw [unblanked_congr front₁] at second
        exact first.outward wf stand around sub stand₁ around₁ second
      · have isDef : isDefinition (tree (.element id tag attributes children)) = false := by
          simp [tree, isDefinition, here]
        rw [isDef, if_neg Bool.false_ne_true, if_neg Bool.false_ne_true, definitionIds, if_neg here, tree,
          treeDefinitions, if_neg here]
        refine inner.mono fun entries pairs d₁ first => ?_
        obtain ⟨kc, left_, sub, stand₁, around₁, -⟩ := first.inside wf stand around
        have second := Extracted.nothing _ first.wellFormed stand₁ around₁ fun x mem => mem
        have all := first.outward wf stand around sub stand₁ around₁ second
        rw [List.append_nil, List.append_nil, trees, tree, left_] at all
        exact all

/-- The definitions of siblings, the last one first. -/
theorem takeOut_trees (template : String) : ∀ {ps : List Planted} {d : Document} {q : NodeId} (front : List NodeId),
    WellFormed d → StandAll d ps → d.contains q = true → d.children q = front ++ ps.map Planted.root →
      Agrees (Extracted d q front (stays d front ps) (idsAll ps) (kept (trees ps)))
        (takeOutAll template (definitionIdsAll ps).reverse d) (named template (forestDefinitions (trees ps)).reverse)
  | [], d, q, front, wf, stand, _, kids => Extracted.nothing [] wf stand kids fun x mem => mem
  | p :: rest, d, q, front, wf, stand, live, kids => by
      have split : d.children q = (front ++ [p.root]) ++ rest.map Planted.root := by rw [kids]; simp
      have others := takeOut_trees template (front ++ [p.root]) wf stand.2 live split
      rw [definitionIdsAll, List.reverse_append, trees, forestDefinitions, List.reverse_append]
      refine agrees_append others fun entries pairs d₁ first => ?_
      have ends : unblanked d (front ++ [p.root]) = if isBlankText p.tree then front else front ++ [p.root] := by
        simp [unblanked, isBlankNode_eq stand.1]
      rw [stays, ends] at first
      by_cases blank : (isBlankText p.tree && (trees rest).head?.any isDefinition) = true
      · -- The blank text has been freed with the definition behind it.
        obtain ⟨isBlank, behind⟩ := Bool.and_eq_true_iff.mp blank
        obtain ⟨id, content, rfl⟩ := eq_text_of_isBlankText isBlank
        rw [if_pos behind, if_pos isBlank] at first
        have all := first.absorb (idsAll (.text id content :: rest)) (fun x mem => by simp [idsAll, mem])
          (by simp [idsAll, ids, Planted.root])
        have same : kept (tree (.text id content) :: trees rest) = kept (trees rest) := by
          rw [kept, if_neg (by simp [tree, isDefinition]), if_pos blank]
        have stay : stays d front (.text id content :: rest) = front := by simp [stays, trees, tree, isDefinition]
        rw [same, stay]
        simp only [definitionIds, tree, treeDefinitions, List.reverse_nil, takeOutAll, named]
        rw [← List.append_nil entries, ← List.append_nil pairs] at all
        exact all
      · have whole : (if (trees rest).head?.any isDefinition = true then if isBlankText p.tree = true then front
            else front ++ [p.root] else front ++ [p.root]) = front ++ [p.root] := by
          by_cases behind : (trees rest).head?.any isDefinition = true
          · rw [if_pos behind, if_neg fun isBlank => blank (Bool.and_eq_true_iff.mpr ⟨isBlank, behind⟩)]
          · rw [if_neg behind]
        rw [whole] at first
        obtain ⟨ks, left_, sub, stand₁, around₁, front₁⟩ := first.behind wf stand kids
        have here := takeOut_tree template first.wellFormed stand₁ around₁
        rw [unblanked_congr front₁, left_] at here
        refine here.mono fun entries' pairs' d₂ second => ?_
        have same : kept (p.tree :: trees rest) = if isDefinition p.tree then dropBlank (kept (trees rest))
            else keptTree p.tree :: kept (trees rest) := by rw [kept, if_neg blank]
        have stay : stays d front (p :: rest) = if isDefinition p.tree then unblanked d front else front := by
          rw [stays, trees, List.head?_cons, Option.any_some]
        rw [same, stay]
        exact first.forward wf stand kids sub stand₁ around₁ second

end

end Trees

end Inlay.Template
