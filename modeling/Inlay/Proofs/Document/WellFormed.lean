/-
# Proofs.Document.WellFormed — what every edit does to a well-formed document

A document is `WellFormed` when its slots are well kept, its links spell child
lists, no node is above itself and the body is a parentless element. Each
operation is described once, by what it makes of the content of every id and of
every list of children; `Becomes` packs that with what all operations have in
common. Later modules cite these descriptions and do not open the operations.
-/
import Inlay.Proofs.Document.Descent
import Inlay.Document.Markup

namespace Inlay.Document

set_option autoImplicit false

open Relation Inlay.Markup

variable {d d' d'' : Document} {id x node parent : NodeId}

structure WellFormed (d : Document) : Prop where
  kept : Kept d
  linked : Linked d d.children
  acyclic : Acyclic d
  body_element : ∃ e, d.content? d.body = some (.element e)
  body_loose : d.parent? d.body = none

theorem wellFormed_new : WellFormed new := by
  have only : ∀ x, new.get? x =
      if x = ⟨0, 0⟩ then some (.loose (.element (.plain "body" []))) else none := by
    rintro ⟨index, generation⟩
    rcases index with _ | index
    · by_cases zero : generation = 0
      · simp [new, get?, zero]
      · simp [new, get?, zero, Ne.symm zero]
    · simp [new, get?]
  have links : ∀ (f : Node → Option NodeId), f (.loose (.element (.plain "body" []))) = none →
      ∀ x, (new.get? x).bind f = none := by
    intro f none x
    rw [only]
    split <;> simp [none]
  have up : ∀ x, new.parent? x = none := links (·.parent) rfl
  have linked : Linked new fun _ => [] :=
    { first := links (·.firstChild) rfl
      last := links (·.lastChild) rfl
      around := by simp
      mem := by
        intro p c step
        rw [up] at step
        cases step
      loose := fun c _ => ⟨links (·.previousSibling) rfl c, links (·.nextSibling) rfl c⟩
      nodup := fun _ => List.nodup_nil
      container := fun _ nonempty => absurd rfl nonempty
      placeable := fun c _ => up c }
  refine ⟨kept_new, ?_, ?_, ⟨_, rfl⟩, rfl⟩
  · rw [linked.children_eq]
    exact linked
  · intro x cycle
    obtain ⟨p, first, -⟩ := TransGen.head'_iff.mp cycle
    simp [Up, up] at first

namespace WellFormed

theorem parent_iff (wf : WellFormed d) {p c : NodeId} : d.parent? c = some p ↔ c ∈ d.children p :=
  wf.linked.parent_iff

theorem nodup (wf : WellFormed d) (p : NodeId) : (d.children p).Nodup := wf.linked.nodup p

theorem contains_child (wf : WellFormed d) {p c : NodeId} (mem : c ∈ d.children p) :
    d.contains c = true :=
  wf.linked.contains_kid mem

theorem contains_parent (wf : WellFormed d) {p c : NodeId} (mem : c ∈ d.children p) :
    d.contains p = true :=
  wf.linked.contains_parent mem

theorem body_contains (wf : WellFormed d) : d.contains d.body = true := by
  obtain ⟨e, found⟩ := wf.body_element
  exact contains_iff_content?.mpr ⟨_, found⟩

/-- The body stands in no node. -/
theorem body_not_mem_children (wf : WellFormed d) (p : NodeId) : d.body ∉ d.children p := by
  intro mem
  have loose := wf.body_loose
  rw [wf.parent_iff.mpr mem] at loose
  cases loose

theorem children_eq_nil (wf : WellFormed d) {p : NodeId} (dead : d.contains p = false) :
    d.children p = [] := by
  cases list : d.children p with
  | nil => rfl
  | cons c rest =>
      have := wf.contains_parent (p := p) (c := c) (by simp [list])
      rw [dead] at this
      cases this

theorem contains_of_below (wf : WellFormed d) {a x : NodeId} (live : d.contains a = true)
    (below : Below d x a) : d.contains x = true :=
  Document.contains_of_below wf.linked live below

theorem mem_descendants (wf : WellFormed d) {y : NodeId} :
    y ∈ d.descendants x ↔ d.contains x = true ∧ Below d y x :=
  Document.mem_descendants wf.linked wf.acyclic

theorem isInclusiveAncestor_iff (wf : WellFormed d) {a : NodeId} :
    d.isInclusiveAncestor a x = true ↔ Below d x a :=
  Document.isInclusiveAncestor_iff wf.linked wf.acyclic

end WellFormed

/-- What an edit makes of a document: a well-formed one with the given content
and children, and the same body. -/
structure Becomes (d d' : Document) (content : NodeId → Option Content)
    (children : NodeId → List NodeId) : Prop where
  wellFormed : WellFormed d'
  content : d'.content? = content
  children : d'.children = children
  body : d'.body = d.body
  aged : Aged d d'

theorem Becomes.refl (wf : WellFormed d) : Becomes d d d.content? d.children :=
  ⟨wf, rfl, rfl, rfl, .refl d⟩

theorem Becomes.trans {content content' : NodeId → Option Content}
    {children children' : NodeId → List NodeId} (first : Becomes d d' content children)
    (second : Becomes d' d'' content' children') : Becomes d d'' content' children' where
  wellFormed := second.wellFormed
  content := second.content
  children := second.children
  body := second.body.trans first.body
  aged := first.aged.trans second.aged

theorem children_of_leaf (wf : WellFormed d) {content : Content} (found : d.content? x = some content)
    (leaf : content.isContainer = false) : d.children x = [] := by
  by_contra nonempty
  obtain ⟨other, here, takes⟩ := wf.linked.container x nonempty
  rw [found] at here
  cases here
  rw [leaf] at takes
  cases takes

theorem contains_congr (same : d'.content? = d.content?) (x : NodeId) :
    d'.contains x = d.contains x := by
  have : ∀ d : Document, d.contains x = (d.content? x).isSome := fun d => by
    simp [Document.contains, content?]
  rw [this, this, same]

/-! ## Steps of an edit -/

namespace Edit

variable {α β : Type} {a : α}

theorem bind_ok {e : Edit α} {f : α → Edit β} (done : e d = .ok a d') : (e >>= f) d = f a d' := by
  simp [bind, EStateM.bind, done]

theorem bind_error {e : Edit α} {f : α → Edit β} {fault : Fault} (refused : e d = .error fault d') :
    (e >>= f) d = .error fault d' := by
  simp [bind, EStateM.bind, refused]

@[simp] theorem bind_ask (f : Document → α) (g : α → Edit β) : (ask f >>= g) d = g (f d) d := rfl

@[simp] theorem bind_always (f : Document → α × Document) (g : α → Edit β) :
    (always f >>= g) d = g (f d).1 (f d).2 := rfl

theorem require_ok {check : Document → Except Fault α} (found : check d = .ok a) :
    require check d = .ok a d := by
  simp [require, found]

theorem require_error {check : Document → Except Fault α} {fault : Fault}
    (found : check d = .error fault) : require check d = .error fault d := by
  simp [require, found]

end Edit

/-! ## Making a node -/

section Create

variable {content : Content}

theorem create_becomes (wf : WellFormed d) (content : Content) :
    d.contains (create content d).1 = false ∧
      Becomes d (create content d).2
        (fun x => if x = (create content d).1 then some content else d.content? x) d.children := by
  have fresh := contains_create_fst wf.kept content
  have get := get?_create wf.kept content
  generalize (create content d).1 = id at fresh get
  have links : ∀ (f : Node → Option NodeId), f (.loose content) = none →
      ∀ x, ((create content d).2.get? x).bind f = (d.get? x).bind f := by
    intro f none x
    rw [get]
    split
    · next same =>
        subst same
        have dead : d.get? x = Option.none := by simpa [contains] using fresh
        simp [none, dead]
    · rfl
  have up : ∀ x, (create content d).2.parent? x = d.parent? x := links (·.parent) rfl
  have contents : (create content d).2.content? =
      fun x => if x = id then some content else d.content? x := by
    funext x
    simp only [content?, get]
    split <;> rfl
  have contentOf : ∀ {x c}, d.content? x = some c → (create content d).2.content? x = some c := by
    intro x c found
    rw [contents]
    simp only
    rw [if_neg]
    · exact found
    · rintro rfl
      have := contains_iff_content?.mpr ⟨c, found⟩
      rw [fresh] at this
      cases this
  have linked : Linked (create content d).2 d.children :=
    { first := fun p => (links (·.firstChild) rfl p).trans (wf.linked.first p)
      last := fun p => (links (·.lastChild) rfl p).trans (wf.linked.last p)
      around := by
        intro p front c behind split
        have := wf.linked.around p front c behind split
        simp only [parent?, previousSibling?, nextSibling?] at this ⊢
        rwa [links _ rfl, links _ rfl, links _ rfl]
      mem := fun p c step => wf.linked.mem p c ((up c).symm.trans step)
      loose := by
        intro c step
        have := wf.linked.loose c ((up c).symm.trans step)
        simp only [previousSibling?, nextSibling?] at this ⊢
        rwa [links _ rfl, links _ rfl]
      nodup := wf.nodup
      container := by
        intro p nonempty
        obtain ⟨c, found, takes⟩ := wf.linked.container p nonempty
        exact ⟨c, contentOf found, takes⟩
      placeable := by
        intro c fragment
        rw [up]
        rw [contents] at fragment
        simp only at fragment
        split at fragment
        · next same =>
            cases step : d.parent? c with
            | none => rfl
            | some p =>
                have := Linked.contains_of_parent step
                rw [same, fresh] at this
                cases this
        · exact wf.linked.placeable c fragment }
  have children := linked.children_eq
  refine ⟨fresh, ⟨⟨wf.kept.create, children ▸ linked, wf.acyclic.congr up, ?_, ?_⟩, contents,
    children, body_create, Aged.create wf.kept⟩⟩
  · rw [body_create]
    obtain ⟨e, found⟩ := wf.body_element
    exact ⟨e, contentOf found⟩
  · rw [body_create, up]
    exact wf.body_loose

end Create

/-! ## Taking a node out and putting it in -/

theorem unlink_becomes (wf : WellFormed d) (live : d.contains node = true) :
    ∃ d', unlink node d = .ok () d' ∧
      Becomes d d' d.content? (fun p => (d.children p).erase node) := by
  obtain ⟨d', done, same, content, up, linked⟩ := wf.linked.unlink live
  have children := linked.children_eq
  refine ⟨d', done, ⟨wf.kept.of_sameSlots same, children ▸ linked, wf.acyclic.of_unlinked up, ?_, ?_⟩,
    content, children, same.body, .of_sameSlots same⟩
  · rw [same.body, content]
    exact wf.body_element
  · rw [same.body, up, wf.body_loose]
    simp

theorem link_becomes (wf : WellFormed d) (parent node : NodeId) (reference : Option NodeId)
    (live : d.contains node = true) (loose : d.parent? node = none) (solid : d.content? node ≠ some .fragment)
    (inner : node ≠ d.body) (takes : ∃ c, d.content? parent = some c ∧ c.isContainer = true)
    (outside : ¬ Below d parent node) (mem : ∀ r, reference = some r → r ∈ d.children parent) :
    ∃ d', link parent node reference d = .ok () d' ∧ Becomes d d' d.content? (fun p =>
      if p = parent then placeBefore node reference (d.children p) else d.children p) := by
  obtain ⟨d', done, same, content, up, linked⟩ := wf.linked.link live loose solid takes mem
  have children := linked.children_eq
  refine ⟨d', done, ⟨wf.kept.of_sameSlots same, children ▸ linked, wf.acyclic.of_relinked up outside,
    ?_, ?_⟩, content, children, same.body, .of_sameSlots same⟩
  · rw [same.body, content]
    exact wf.body_element
  · rw [same.body, up, if_neg (Ne.symm inner)]
    exact wf.body_loose

/-! ## Writing content -/

/-- The two contents are of one kind. -/
inductive SameKind : Content → Content → Prop where
  | element (e e' : Element) : SameKind (.element e) (.element e')
  | text (data data' : String) : SameKind (.text data) (.text data')
  | comment (data data' : String) : SameKind (.comment data) (.comment data')
  | fragment : SameKind .fragment .fragment

theorem SameKind.refl : ∀ c : Content, SameKind c c
  | .element e => .element e e
  | .text data => .text data data
  | .comment data => .comment data data
  | .fragment => .fragment

/-- A document whose nodes got other content of the same kind, and kept their
links. -/
theorem becomes_of_contents (wf : WellFormed d) (same : SameSlots d d') (f : NodeId → Content → Content)
    (kind : ∀ x c, d.content? x = some c → SameKind c (f x c))
    (get : ∀ x, d'.get? x = (d.get? x).map fun n => { n with content := f x n.content }) :
    Becomes d d' (fun x => (d.content? x).map (f x)) d.children := by
  have content : d'.content? = fun x => (d.content? x).map (f x) := by
    funext x
    simp only [content?, get, Option.map_map]
    rfl
  have link : ∀ (g : Node → Option NodeId), (∀ n c, g { n with content := c } = g n) →
      ∀ x, (d'.get? x).bind g = (d.get? x).bind g := by
    intro g keeps x
    rw [get]
    cases d.get? x with
    | none => rfl
    | some n => exact keeps n _
  have up : ∀ x, d'.parent? x = d.parent? x := link (·.parent) fun _ _ => rfl
  have linked : Linked d' d.children :=
    { first := fun p => (link (·.firstChild) (fun _ _ => rfl) p).trans (wf.linked.first p)
      last := fun p => (link (·.lastChild) (fun _ _ => rfl) p).trans (wf.linked.last p)
      around := by
        intro p front c behind split
        have around := wf.linked.around p front c behind split
        exact ⟨(up c).trans around.1,
          (link (·.previousSibling) (fun _ _ => rfl) c).trans around.2.1,
          (link (·.nextSibling) (fun _ _ => rfl) c).trans around.2.2⟩
      mem := fun p c step => wf.linked.mem p c ((up c).symm.trans step)
      loose := by
        intro c step
        have loose := wf.linked.loose c ((up c).symm.trans step)
        exact ⟨(link (·.previousSibling) (fun _ _ => rfl) c).trans loose.1,
          (link (·.nextSibling) (fun _ _ => rfl) c).trans loose.2⟩
      nodup := wf.nodup
      container := by
        intro p nonempty
        obtain ⟨c, found, takes⟩ := wf.linked.container p nonempty
        refine ⟨f p c, by simp [content, found], ?_⟩
        have := kind p c found
        generalize f p c = c' at this
        cases this <;> exact takes
      placeable := by
        intro c fragment
        rw [up]
        rw [content] at fragment
        obtain ⟨old, found, made⟩ := Option.map_eq_some_iff.mp fragment
        have := kind c old found
        rw [made] at this
        cases this
        exact wf.linked.placeable c found }
  have children := linked.children_eq
  refine ⟨⟨wf.kept.of_sameSlots same, children ▸ linked, wf.acyclic.congr up, ?_, ?_⟩, content, children,
    same.body, .of_sameSlots same⟩
  · obtain ⟨e, found⟩ := wf.body_element
    have := kind d.body (.element e) found
    rw [same.body, content]
    simp only [found, Option.map_some, Option.some.injEq]
    generalize f d.body (.element e) = c' at this
    cases this with
    | element _ e' => exact ⟨e', rfl⟩
  · rw [same.body, up]
    exact wf.body_loose

/-- The journal has no part in it. -/
theorem journal_becomes (wf : WellFormed d) (journal : Option (List Record)) :
    Becomes d { d with journal := journal } d.content? d.children := by
  have get : ∀ x, ({ d with journal := journal } : Document).get? x =
      (d.get? x).map fun n => { n with content := n.content } := by
    intro x
    change d.get? x = _
    simp
  have same : SameSlots d { d with journal := journal } := ⟨rfl, rfl, rfl, rfl, rfl⟩
  have becomes := becomes_of_contents wf same (fun _ c => c) (fun _ c _ => .refl c) get
  simpa using becomes

theorem WellFormed.of_journal (wf : WellFormed d) (journal : Option (List Record)) :
    WellFormed { d with journal := journal } := (journal_becomes wf journal).wellFormed

theorem report_becomes (wf : WellFormed d) (connected : Bool) {f : Tally → Tally} (record : Record)
    (created : ∀ t, (f t).created = t.created) (discarded : ∀ t, (f t).discarded = t.discarded) :
    Becomes d (d.report connected f record) d.content? d.children := by
  have same := sameSlots_report (d := d) connected record created discarded
  have := becomes_of_contents wf same (fun _ c => c) (fun _ c _ => .refl c) (by simp)
  simpa using this

/-- A node's content is replaced by other content of its kind. -/
theorem modify_becomes (wf : WellFormed d) {g : Node → Node} {old new : Content}
    (found : d.content? id = some old) (kind : SameKind old new)
    (writes : ∀ n, n.content = old → g n = { n with content := new }) :
    Becomes d (d.modify id g) (fun x => if x = id then some new else d.content? x) d.children := by
  have get : ∀ x, (d.modify id g).get? x = (d.get? x).map fun n =>
      { n with content := if x = id then new else n.content } := by
    intro x
    rw [get?_modify]
    by_cases same : x = id
    · subst same
      obtain ⟨n, node, content⟩ := Option.map_eq_some_iff.mp found
      simp [node, writes n content]
    · simp [same]
  have becomes := becomes_of_contents wf (sameSlots_modify (d := d) id g)
    (fun x c => if x = id then new else c) (by
      intro x c here
      by_cases same : x = id
      · subst same
        cases found.symm.trans here
        simpa using kind
      · simpa [same] using SameKind.refl c) get
  have contents : (fun x => (d.content? x).map fun c => if x = id then new else c) =
      fun x => if x = id then some new else d.content? x := by
    funext x
    by_cases same : x = id
    · simp [same, found]
    · simp [same]
  rwa [contents] at becomes

end Inlay.Document
