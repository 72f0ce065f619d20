/-
# Proofs.Render.Dress — a new instance becomes its expansion

Writing a context to the slots of cleared trees that were never written makes
them the expansion of their source, slot by slot in document order
(`dress_trees`). The templates that the anchors reach stand in pots; each pot is
emptied by the one anchor that reaches it. The induction is on the source: a
tree is dressed in its place among its siblings, those in front of it being
dressed already, and takes what stands behind its comments with it.
-/
import Inlay.Proofs.Render.Fill

namespace Inlay.Render

set_option autoImplicit false

open Relation Inlay.Document Inlay.Document.Planted Inlay.Markup
open Inlay.Template hiding root

variable {d d' d'' : Document} {claims : Claims} {id q x : NodeId} {front back : List NodeId}
  {r : Planted} {rs rest ps ps' : List Planted} {pots pots' : List Pot} {memory memory' : Memory}

/-! ## What properties do not change -/

/-- The content without live properties. -/
def bare : Content → Content
  | .element e => .element (.plain e.tag e.attributes)
  | content => content

theorem stands_element {tag : String} {attributes : List Attribute} {children : List Planted} :
    Stands d (.element id tag attributes children) ↔
      (d.content? id).map bare = some (.element (.plain tag attributes)) ∧
        d.children id = children.map root ∧ StandAll d children := by
  refine and_congr_left fun _ => ?_
  constructor
  · rintro ⟨e, found, rfl, rfl⟩
    rw [found]
    rfl
  · intro found
    obtain ⟨content, here, same⟩ := Option.map_eq_some_iff.mp found
    cases content with
    | element e =>
        simp only [bare, Element.plain, Content.element.injEq, Element.mk.injEq] at same
        exact ⟨e, here, same.1, same.2.1⟩
    | text data => cases same
    | comment data => cases same
    | fragment => cases same

theorem element_of_bare (same : (d'.content? q).map bare = (d.content? q).map bare)
    (element : ∃ e, d.content? q = some (.element e)) : ∃ e, d'.content? q = some (.element e) := by
  obtain ⟨e, found⟩ := element
  rw [found] at same
  obtain ⟨content, here, same⟩ := Option.map_eq_some_iff.mp same
  cases content with
  | element e' => exact ⟨e', here⟩
  | text data => cases same
  | comment data => cases same
  | fragment => cases same

/-! ## Memories of parts -/

namespace Memory

/-- One memory for some comments, another one for the others. -/
def join (ids : List NodeId) (first second : Memory) : Memory where
  behind x := if x ∈ ids then first.behind x else second.behind x
  made x := if x ∈ ids then first.made x else second.made x

theorem anchor_join_of_mem {ids : List NodeId} (mem : x ∈ ids) :
    (join ids memory memory').anchor x = memory.anchor x := by
  simp [join, anchor, mem]

theorem anchor_join_of_not_mem {ids : List NodeId} (absent : x ∉ ids) :
    (join ids memory memory').anchor x = memory'.anchor x := by
  simp [join, anchor, absent]

end Memory

mutual

/-- Only what is remembered of its own comments counts. -/
theorem slots_congr : ∀ {r : Planted} {parent : Option (String × NodeId)},
    (∀ x ∈ anchorIds r, memory.anchor x = memory'.anchor x) →
    slots memory parent r = slots memory' parent r
  | .text _ _, _, _ => rfl
  | .comment id body, _, same => by
      cases found : anchorPath? body with
      | none => simp [slots, commentSlots, found]
      | some path =>
          have here := same id (by simp [anchorIds, found])
          simp [slots, commentSlots, found, here]
  | .element id tag attributes children, _, same => by
      have inner : ∀ x ∈ anchorIdsAll children, memory.anchor x = memory'.anchor x := same
      simp only [slots, slotsAll_congr inner]

theorem slotsAll_congr : ∀ {rs : List Planted} {parent : Option (String × NodeId)},
    (∀ x ∈ anchorIdsAll rs, memory.anchor x = memory'.anchor x) →
    slotsAll memory parent rs = slotsAll memory' parent rs
  | [], _, _ => rfl
  | r :: rest, _, same => by
      have here : ∀ x ∈ anchorIds r, memory.anchor x = memory'.anchor x :=
        fun x mem => same x (List.mem_append_left _ mem)
      have others : ∀ x ∈ anchorIdsAll rest, memory.anchor x = memory'.anchor x :=
        fun x mem => same x (List.mem_append_right _ mem)
      simp only [slotsAll, slots_congr here, slotsAll_congr others]

end

/-! ## Before and after -/

/-- Trees that can be dressed: they stand cleared among the children of a node,
and what their anchors reach stands in pots. -/
structure Ready (d : Document) (q : NodeId) (front back : List NodeId) (rs : List Planted)
    (pots : List Pot) : Prop where
  wellFormed : WellFormed d
  kids : d.children q = front ++ rs.map root ++ back
  live : d.contains q = true
  stand : StandAll d (clearedPlants rs)
  standing : ∀ pot ∈ pots, pot.Stands d
  apart : (q :: idsAll rs ++ pots.flatMap Pot.ids).Nodup
  legible : LegibleAll (trees rs)
  tidy : TidyAll (trees rs)

/-- Trees that are dressed: what they became stands in their place. -/
structure Dressed (d d' : Document) (q : NodeId) (front back : List NodeId) (rs : List Planted)
    (pots : List Pot) (memory : Memory) (ps : List Planted) : Prop where
  keeps : Keeps (q :: idsAll rs ++ pots.flatMap Pot.ids) d d'
  holder : (d'.content? q).map bare = (d.content? q).map bare
  stand : StandAll d' ps
  kids : d'.children q = front ++ ps.map root ++ back
  origin : ∀ x ∈ idsAll ps, x ∈ idsAll rs ++ pots.flatMap Pot.ids ∨ d.contains x = false
  roots : ps.map root = rs.flatMap fun r => r.root :: memory.behind r.root
  blank : ∀ x, x ∉ anchorIdsAll rs → memory.behind x = []

namespace Ready

/-- Everything that may be touched is alive. -/
theorem alive (ready : Ready d q front back rs pots) :
    ∀ x ∈ q :: idsAll rs ++ pots.flatMap Pot.ids, d.contains x = true := by
  intro x mem
  rcases List.mem_append.mp mem with mem | mem
  · rcases List.mem_cons.mp mem with rfl | mem
    · exact ready.live
    · exact ready.stand.contains x (by rwa [idsAll_clearedPlants])
  · obtain ⟨pot, there, here⟩ := List.mem_flatMap.mp mem
    exact (ready.standing pot there).contains x here

theorem head (ready : Ready d q front back (r :: rest) (pots ++ pots')) :
    Ready d q front (rest.map root ++ back) [r] pots where
  wellFormed := ready.wellFormed
  kids := by simp [ready.kids]
  live := ready.live
  stand := ⟨ready.stand.1, trivial⟩
  standing := fun pot mem => ready.standing pot (List.mem_append_left _ mem)
  apart := by
    refine ready.apart.sublist (.append (.cons_cons _ ?_) ?_)
    · simp [idsAll]
    · simp
  legible := ⟨ready.legible.1, trivial⟩
  tidy := ⟨ready.tidy.1, trivial⟩

/-- What the first tree touched is apart from what is left. -/
theorem apart_tail (ready : Ready d q front back (r :: rest) (pots ++ pots')) :
    ∀ x ∈ idsAll rest ++ pots'.flatMap Pot.ids, x ∉ q :: idsAll [r] ++ pots.flatMap Pot.ids := by
  have apart := ready.apart
  simp only [idsAll, List.append_nil, List.flatMap_append] at apart ⊢
  have perm : (q :: (r.ids ++ idsAll rest) ++ (pots.flatMap Pot.ids ++ pots'.flatMap Pot.ids)).Perm
      ((q :: r.ids ++ pots.flatMap Pot.ids) ++ (idsAll rest ++ pots'.flatMap Pot.ids)) := by
    simp only [List.cons_append, List.append_assoc, List.perm_cons, List.perm_append_left_iff]
    exact List.perm_append_comm_assoc _ _ _
  intro x mem there
  exact (List.nodup_append.mp (perm.nodup_iff.mp apart)).2.2 x there x mem rfl

/-- The trees behind the first one once that is dressed. -/
theorem tail (ready : Ready d q front back (r :: rest) (pots ++ pots'))
    (dressed : Dressed d d' q front (rest.map root ++ back) [r] pots memory ps) :
    Ready d' q (front ++ ps.map root) back rest pots' where
  wellFormed := dressed.keeps.wellFormed
  kids := by simp [dressed.kids]
  live := dressed.keeps.alive q ready.live
  stand := dressed.keeps.stand ready.stand.2 fun x mem =>
    ready.apart_tail x (List.mem_append_left _ (by rwa [idsAll_clearedPlants] at mem))
  standing := fun pot mem =>
    (ready.standing pot (List.mem_append_right _ mem)).keeps dressed.keeps fun x there =>
      ready.apart_tail x (List.mem_append_right _ (List.mem_flatMap.mpr ⟨pot, mem, there⟩))
  apart := by
    refine ready.apart.sublist (.append (.cons_cons _ ?_) ?_)
    · simp [idsAll]
    · simp
  legible := ready.legible.2
  tidy := ready.tidy.2

end Ready

theorem Dressed.append (ready : Ready d q front back (r :: rest) (pots ++ pots'))
    (first : Dressed d d' q front (rest.map root ++ back) [r] pots memory ps)
    (second : Dressed d' d'' q (front ++ ps.map root) back rest pots' memory' ps') :
    Dressed d d'' q front back (r :: rest) (pots ++ pots') (.join r.ids memory memory') (ps ++ ps') := by
  have live := ready.live
  have alive := ready.alive
  have aside := ready.apart_tail
  have outer : q ∉ r.ids ++ idsAll rest ++ (pots ++ pots').flatMap Pot.ids := by
    have apart := ready.apart
    simp only [idsAll, List.cons_append, List.nodup_cons] at apart
    exact apart.1
  simp only [List.mem_append, List.flatMap_append, not_or] at outer
  -- what the first trees became is touched by nothing later
  have away : ∀ x ∈ idsAll ps, x ∉ q :: idsAll rest ++ pots'.flatMap Pot.ids := by
    intro x mem
    rcases first.origin x mem with old | new
    · rw [List.mem_append] at old
      simp only [idsAll, List.append_nil] at old
      rw [List.cons_append, List.mem_cons, not_or]
      refine ⟨?_, fun later => aside x later ?_⟩
      · rintro rfl
        exact old.elim outer.1.1 outer.2.1
      · simp only [idsAll, List.append_nil, List.cons_append, List.mem_cons, List.mem_append]
        exact .inr old
    · intro touched
      have here : x ∈ q :: idsAll (r :: rest) ++ (pots ++ pots').flatMap Pot.ids := by
        simp only [idsAll, List.flatMap_append, List.cons_append, List.mem_cons,
          List.mem_append] at touched ⊢
        tauto
      rw [alive x here] at new
      cases new
  refine ⟨?_, second.holder.trans first.holder, ?_, ?_, ?_, ?_, ?_⟩
  · refine (first.keeps.mono ?_).trans (second.keeps.mono ?_)
    · intro x
      simp only [idsAll, List.append_nil, List.flatMap_append, List.cons_append, List.mem_cons,
        List.mem_append]
      tauto
    · intro x
      simp only [idsAll, List.flatMap_append, List.cons_append, List.mem_cons, List.mem_append]
      tauto
  · exact standAll_append.mpr ⟨second.keeps.stand first.stand away, second.stand⟩
  · simp [second.kids]
  · intro x mem
    rw [idsAll_append, List.mem_append] at mem
    rcases mem with mem | mem
    · refine (first.origin x mem).imp_left fun here => ?_
      simp only [idsAll, List.append_nil, List.flatMap_append, List.mem_append] at here ⊢
      tauto
    · rcases second.origin x mem with here | new
      · left
        simp only [idsAll, List.flatMap_append, List.mem_append] at here ⊢
        tauto
      · right
        by_contra alive
        rw [first.keeps.alive x (by simpa using alive)] at new
        cases new
  · have firstRoots := first.roots
    rw [List.flatMap_singleton] at firstRoots
    rw [List.map_append, List.flatMap_cons, firstRoots, second.roots]
    congr 1
    · simp [Memory.join, root_mem_ids]
    · refine List.flatMap_congr fun p mem => ?_
      have apart : p.root ∉ r.ids := by
        intro there
        refine aside p.root (List.mem_append_left _ (root_mem_idsAll mem)) ?_
        simp [idsAll, there]
      simp [Memory.join, apart]
  · intro x absent
    simp only [anchorIdsAll, List.mem_append, not_or] at absent
    show (if x ∈ r.ids then memory.behind x else memory'.behind x) = []
    split
    · exact first.blank x (by simpa [anchorIdsAll] using absent.1)
    · exact second.blank x absent.2

/-! ## One tree -/

variable {w : ValueOf Pot} {parent : Option (String × NodeId)}

/-- The node that holds the trees is the element of the parent. -/
def Held (d : Document) (q : NodeId) (parent : Option (String × NodeId)) : Prop :=
  ∀ tag holder, parent = some (tag, holder) → holder = q ∧ ∃ e, d.content? q = some (.element e)

/-- A single node that keeps its place. -/
theorem dressed_of_putContent {content : Content} {p : Planted} {written : NodeId}
    (ready : Ready d q front back [r] []) (same : p.root = r.root) (ids : p.ids = [p.root])
    (becomes : Becomes d d' (putContent written content d.content?) d.children)
    (there : written = q ∨ written = r.root)
    (holder : (d'.content? q).map bare = (d.content? q).map bare) (stands : p.Stands d') :
    Dressed d d' q front back [r] [] .blank [p] where
  keeps := by
    refine .of_putContent becomes ?_
    rcases there with rfl | rfl
    · simp
    · simp [idsAll, root_mem_ids]
  holder := holder
  stand := ⟨stands, trivial⟩
  kids := by simpa [becomes.children, same] using ready.kids
  origin := by
    intro x mem
    simp only [idsAll, ids, List.append_nil, List.mem_singleton] at mem
    exact .inl (by simp [idsAll, mem, same, root_mem_ids])
  roots := by simp [same, Memory.blank]
  blank := fun _ _ => rfl

theorem dressed_of_unwritten {p : Planted} (ready : Ready d q front back [r] []) (same : p.root = r.root)
    (ids : p.ids = [p.root]) (stands : p.Stands d) : Dressed d d q front back [r] [] .blank [p] where
  keeps := .refl ready.wellFormed
  holder := rfl
  stand := ⟨stands, trivial⟩
  kids := by simpa [same] using ready.kids
  origin := by
    intro x mem
    simp only [idsAll, ids, List.append_nil, List.mem_singleton] at mem
    exact .inl (by simp [idsAll, mem, same, root_mem_ids])
  roots := by simp [same, Memory.blank]
  blank := fun _ _ => rfl

theorem dress_text {content : String} (claims : Claims) (w : ValueOf Pot)
    (ready : Ready d q front back [.text id content] []) (held : Held d q parent) :
    ∃ d' p, Slot.writeAll (w.relabel Pot.roots) (textSlots parent id content) ⟨d, claims⟩ =
        ((none, textSlots parent id content), ⟨d', claims⟩) ∧
      [p.tree] = expandedTree (w.relabel Pot.trees) (parent.map Prod.fst) (.text content) ∧
      Dressed d d' q front back [.text id content] [] .blank [p] := by
  have wf := ready.wellFormed
  have found : d.content? id = some (.text (clearText content)) := ready.stand.1
  obtain ⟨pattern, read⟩ := ready.legible.1
  cases pattern with
  | none =>
      have plain := clearText_of_plain read
      rw [plain] at found
      have no := hasPlaceholder_of_plain read
      refine ⟨d, .text id content, by simp [textSlots, read, writeAll_nil], ?_,
        dressed_of_unwritten ready rfl rfl found⟩
      simp [tree, expandedTree, no, expandedText, read]
  | some pattern =>
      have has := hasPlaceholder_of_pattern read
      by_cases area : parent.map Prod.fst = some "textarea"
      · obtain ⟨⟨tag, holder⟩, rfl, rfl⟩ := Option.map_eq_some_iff.mp area
        obtain ⟨rfl, e, element⟩ := held _ _ rfl
        obtain ⟨d', e', wrote, tag', attributes', becomes⟩ :=
          write_textareaValue wf element claims (w.relabel Pot.roots) pattern
        have empty : clearText content = "" := if_pos has
        have outer : id ≠ holder := by
          have apart := ready.apart
          simp only [idsAll, ids, List.append_nil, List.flatMap_nil, List.nodup_cons,
            List.mem_singleton] at apart
          exact Ne.symm apart.1
        refine ⟨d', .text id "", ?_, ?_, dressed_of_putContent ready rfl rfl becomes (.inl rfl) ?_ ?_⟩
        · simpa [textSlots, read] using writeAll_single wrote
        · simp [tree, expandedTree, has]
        · simp [becomes.content, putContent, element, bare, tag', attributes']
        · show d'.content? id = _
          rw [becomes.content, putContent, if_neg outer, found, empty]
      · obtain ⟨d', wrote, becomes⟩ := write_text wf found claims (w.relabel Pot.roots) pattern
        have slots : textSlots parent id content = [.text id pattern] := by
          cases parent with
          | none => simp [textSlots, read]
          | some pair =>
              have other : pair.1 ≠ "textarea" := by simpa using area
              simp [textSlots, read, other]
        have outer : q ≠ id := by
          have apart := ready.apart
          simp only [idsAll, ids, List.append_nil, List.flatMap_nil, List.nodup_cons,
            List.mem_singleton] at apart
          exact apart.1
        refine ⟨d', .text id (pattern.render w), ?_, ?_,
          dressed_of_putContent ready rfl rfl becomes (.inr rfl) ?_ ?_⟩
        · rw [slots]
          exact writeAll_single wrote
        · simp [tree, expandedTree, area, expandedText, read]
        · rw [becomes.content, putContent, if_neg outer]
        · show d'.content? id = _
          rw [becomes.content, putContent, if_pos rfl, Pattern.render_relabel]

theorem dress_comment {body : String} (claims : Claims)
    (ready : Ready d q front back [.comment id body] pots)
    (reach : reached [.comment body] w = pots) :
    ∃ d' claims' memory ps,
      Slot.writeAll (w.relabel Pot.roots) (commentSlots .blank id body) ⟨d, claims⟩ =
        ((none, commentSlots memory id body), ⟨d', claims'⟩) ∧
      trees ps = expandedTree (w.relabel Pot.trees) (parent.map Prod.fst) (.comment body) ∧
      Dressed d d' q front back [.comment id body] pots memory ps := by
  have wf := ready.wellFormed
  have found : d.content? id = some (.comment (clearComment body)) := ready.stand.1
  cases path : anchorPath? body with
  | none =>
      have none_ : pots = [] := by simpa [reached, anchors, treeAnchors, path] using reach.symm
      subst none_
      have plain : clearComment body = body := by
        unfold clearComment
        split
        · next some_ =>
            obtain ⟨source, here⟩ := Option.isSome_iff_exists.mp some_
            have := ready.legible.1 source here
            rw [path] at this
            cases this
        · rfl
      rw [plain] at found
      refine ⟨d, claims, .blank, [.comment id body], by simp [commentSlots, path, writeAll_nil], ?_,
        dressed_of_unwritten ready rfl rfl found⟩
      simp [trees, tree, expandedTree, path]
  | some path' =>
      have reach' : listed ((w.find? path'.segments).getD .null) = pots := by
        simpa [reached, anchors, treeAnchors, path, valueAt] using reach
      have empty : clearComment body = "" := by
        refine if_pos ?_
        cases source : anchorSource? body with
        | none => simp [anchorPath?, source] at path
        | some chars => rfl
      rw [empty] at found
      have apart : (q :: id :: pots.flatMap Pot.ids).Nodup := by
        simpa [idsAll, ids] using ready.apart
      have kids : d.children q = front ++ id :: back := by simpa [root] using ready.kids
      obtain ⟨d', claims', made, ps, updated, shows, filled⟩ :=
        update_new wf claims kids (w.find? path'.segments) reach' ready.standing apart
      have live : d.contains id = true := contains_iff_content?.mpr ⟨_, found⟩
      have wrote : (Slot.anchor path' (.new id)).write (w.relabel Pot.roots) ⟨d, claims⟩ =
          .ok (.anchor path' ⟨id, ps.map root, made⟩) ⟨d', claims'⟩ := by
        rw [Slot.write, ValueOf.find?_relabel]
        exact bind_ok updated
      refine ⟨d', claims', ⟨fun x => if x = id then ps.map root else [], fun _ => made⟩,
        .comment id "" :: ps, ?_, ?_, ?_⟩
      · simp only [commentSlots, path]
        refine (writeAll_single wrote).trans ?_
        simp [Memory.anchor]
      · simp only [trees, tree, expandedTree, path, valueAt_relabel, shows]
        rfl
      · refine ⟨filled.keeps.mono ?_, by rw [filled.content q ready.live],
          ⟨(filled.content id live).trans found, filled.stand⟩, ?_, ?_, ?_, ?_⟩
        · intro x
          simp only [List.cons_append, List.mem_cons, List.mem_append]
          tauto
        · simpa [root] using filled.kids
        · intro x mem
          simp only [idsAll, ids, List.cons_append, List.nil_append, List.mem_cons] at mem
          rcases mem with rfl | mem
          · exact .inl (by simp [idsAll, ids])
          · exact (filled.origin x mem).imp_left fun here => List.mem_append_right _ here
        · simp [root]
        · intro x absent
          refine if_neg ?_
          rintro rfl
          exact absent (by simp [anchorIdsAll, anchorIds, path])

/-! ## All trees -/

theorem reached_cons (tree : Tree) (trees : List Tree) (w : ValueOf Pot) :
    reached (tree :: trees) w = reached [tree] w ++ reached trees w := by
  simp [reached, anchors]

mutual

theorem dress_tree (w : ValueOf Pot) : ∀ (r : Planted) {d : Document} (claims : Claims) {q : NodeId}
    {front back : List NodeId} {parent : Option (String × NodeId)} {pots : List Pot},
    reached [r.tree] w = pots → Ready d q front back [r] pots → Held d q parent →
    ∃ d' claims' memory ps,
      Slot.writeAll (w.relabel Pot.roots) (slots .blank parent r) ⟨d, claims⟩ =
        ((none, slots memory parent r), ⟨d', claims'⟩) ∧
      trees ps = expandedTree (w.relabel Pot.trees) (parent.map Prod.fst) r.tree ∧
      Dressed d d' q front back [r] pots memory ps
  | .text id content, d, claims, q, front, back, parent, pots, reach, ready, held => by
      have none_ : pots = [] := by simpa [tree, reached, anchors, treeAnchors] using reach.symm
      subst none_
      obtain ⟨d', p, done, shows, dressed⟩ := dress_text claims w ready held
      exact ⟨d', claims, .blank, [p], done, shows, dressed⟩
  | .comment id body, d, claims, q, front, back, parent, pots, reach, ready, held =>
      dress_comment claims ready reach
  | .element id tag attributes children, d, claims, q, front, back, parent, pots, reach, ready, held => by
      have wf := ready.wellFormed
      obtain ⟨⟨e, found, tag', attributes'⟩, kids, inner⟩ := ready.stand.1
      obtain ⟨d₁, e₁, wrote, tag₁, attributes₁, becomes⟩ :=
        writeAll_attributes claims (w.relabel Pot.roots) id tag attributes [] wf found
          (by simpa using attributes') ready.tidy.1.1 ready.legible.1.1
      have apart := ready.apart
      simp only [idsAll, ids, List.append_nil, List.cons_append] at apart
      obtain ⟨outer, apart⟩ := List.nodup_cons.mp apart
      simp only [List.mem_cons, List.mem_append, not_or] at outer
      have first : Keeps [id] d d₁ := .of_putContent becomes List.mem_cons_self
      have away : ∀ x ∈ idsAll children ++ pots.flatMap Pot.ids, x ∉ [id] := by
        intro x mem same
        rw [List.mem_singleton] at same
        exact (List.nodup_cons.mp apart).1 (same ▸ mem)
      have ready₁ : Ready d₁ id [] [] children pots :=
        { wellFormed := becomes.wellFormed
          kids := by simpa [becomes.children] using kids
          live := first.alive id (contains_iff_content?.mpr ⟨_, found⟩)
          stand := first.stand inner fun x mem =>
            away x (List.mem_append_left _ (by rwa [idsAll_clearedPlants] at mem))
          standing := fun pot mem => (ready.standing pot mem).keeps first fun x there =>
            away x (List.mem_append_right _ (List.mem_flatMap.mpr ⟨pot, mem, there⟩))
          apart := apart
          legible := ready.legible.1.2
          tidy := ready.tidy.1.2 }
      have found₁ : d₁.content? id = some (.element e₁) := by
        rw [becomes.content, putContent, if_pos rfl]
      have held₁ : Held d₁ id (some (tag, id)) := by
        rintro _ _ ⟨⟩
        exact ⟨rfl, e₁, found₁⟩
      obtain ⟨d₂, claims₂, memory, ps, done, shows, dressed⟩ :=
        dress_trees w children claims
          (by simpa [tree, reached, anchors, treeAnchors] using reach) ready₁ held₁
      have second : Keeps (id :: idsAll children ++ pots.flatMap Pot.ids) d d₂ :=
        (first.mono (by simp)).trans dressed.keeps
      have liveQ := ready.live
      have offQ : q ∉ id :: idsAll children ++ pots.flatMap Pot.ids := by
        simp only [List.cons_append, List.mem_cons, List.mem_append, not_or]
        exact outer
      refine ⟨d₂, claims₂, memory,
        [.element id tag (attributes.filterMap (expandedAttribute w)) ps], ?_, ?_, ?_⟩
      · simp only [slots]
        rw [writeAll_append wrote, done]
      · simp [trees, tree, expandedTree, shows]
      · refine ⟨second.mono ?_, by rw [second.content q liveQ offQ], ⟨?_, trivial⟩, ?_, ?_, ?_, ?_⟩
        · simp [idsAll, ids]
        · refine stands_element.mpr ⟨?_, by simpa using dressed.kids, dressed.stand⟩
          rw [dressed.holder, found₁]
          simp [bare, Element.plain, tag₁, tag', attributes₁]
        · rw [second.children q liveQ offQ]
          simpa [root] using ready.kids
        · intro x mem
          simp only [idsAll, ids, List.append_nil, List.mem_cons, List.cons_append,
            List.mem_append] at mem ⊢
          rcases mem with rfl | mem
          · exact .inl (.inl rfl)
          · rcases dressed.origin x mem with old | new
            · exact .inl (.inr (List.mem_append.mp old))
            · right
              by_contra alive
              rw [first.alive x (by simpa using alive)] at new
              cases new
        · have off : id ∉ anchorIdsAll children := fun mem =>
            (List.nodup_cons.mp apart).1 (List.mem_append_left _ (anchorIdsAll_subset children mem))
          simp [root, dressed.blank id off]
        · intro x absent
          refine dressed.blank x ?_
          simpa [anchorIdsAll, anchorIds] using absent

theorem dress_trees (w : ValueOf Pot) : ∀ (rs : List Planted) {d : Document} (claims : Claims) {q : NodeId}
    {front back : List NodeId} {parent : Option (String × NodeId)} {pots : List Pot},
    reached (trees rs) w = pots → Ready d q front back rs pots → Held d q parent →
    ∃ d' claims' memory ps,
      Slot.writeAll (w.relabel Pot.roots) (slotsAll .blank parent rs) ⟨d, claims⟩ =
        ((none, slotsAll memory parent rs), ⟨d', claims'⟩) ∧
      trees ps = expanded (w.relabel Pot.trees) (parent.map Prod.fst) (trees rs) ∧
      Dressed d d' q front back rs pots memory ps
  | [], d, claims, q, front, back, parent, pots, reach, ready, held => by
      refine ⟨d, claims, .blank, [], rfl, rfl, .refl ready.wellFormed, rfl, trivial, ready.kids, ?_, rfl,
        fun _ _ => rfl⟩
      simp [idsAll]
  | r :: rest, d, claims, q, front, back, parent, pots, reach, ready, held => by
      rw [trees, reached_cons] at reach
      subst reach
      obtain ⟨d₁, claims₁, memory, ps, wrote, shows, first⟩ :=
        dress_tree w r claims rfl ready.head held
      have held₁ : Held d₁ q parent := fun tag holder same =>
        ⟨(held tag holder same).1, element_of_bare first.holder (held tag holder same).2⟩
      obtain ⟨d₂, claims₂, memory', ps', done, others, second⟩ :=
        dress_trees w rest claims₁ rfl (ready.tail first) held₁
      refine ⟨d₂, claims₂, .join r.ids memory memory', ps ++ ps', ?_, ?_, first.append ready second⟩
      · have here : slots (.join r.ids memory memory') parent r = slots memory parent r :=
          slots_congr fun x mem => Memory.anchor_join_of_mem (anchorIds_subset r mem)
        have there : slotsAll (.join r.ids memory memory') parent rest =
            slotsAll memory' parent rest := by
          refine slotsAll_congr fun x mem => Memory.anchor_join_of_not_mem fun inside => ?_
          refine ready.apart_tail x (List.mem_append_left _ (anchorIdsAll_subset rest mem)) ?_
          simp [idsAll, inside]
        simp only [slotsAll, here, there]
        rw [writeAll_append wrote, done]
      · rw [trees_append, shows, others, trees, expanded]

end

end Inlay.Render
