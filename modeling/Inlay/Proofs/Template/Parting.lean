/-
# Proofs.Template.Parting — what becomes of nodes when definitions leave

`Proofs.Template.Extraction` follows the trees; here it is the nodes that are
followed. Taking definitions out frees them and blank texts among their siblings
(`Spent`), and gives the children of each to a fragment. Whatever else is there keeps
its content, and every list of children loses what is freed and nothing else (`Parted`).

The order in which the definitions leave does not matter for that: when one leaves,
the list around it is that of its parent, or of the fragment for its parent if
that has left before, and either of them is the list from the beginning without
what was freed.
-/
import Inlay.Proofs.Render.Turns
import Inlay.Proofs.Template.Extraction

namespace Inlay.Template

set_option autoImplicit false

open Inlay.Markup Inlay.Document Inlay.Render Relation

variable {d d' d'' : Document} {x p q t node : NodeId} {nodes nodes' lost lost' : List NodeId}
  {entry : String × NodeId} {entries entries' : List (String × NodeId)} {template : String}

/-- A node that is freed when nodes are taken out: one of them, or a blank text among the siblings of one. -/
def Spent (d : Document) (nodes : List NodeId) (x : NodeId) : Prop :=
  x ∈ nodes ∨ isBlankNode d x = true ∧ ∃ t ∈ nodes, ∃ p, x ∈ d.children p ∧ t ∈ d.children p

/-- The content of a node has gone to a fragment, under its id. -/
structure Moved (d : Document) (lost : List NodeId) (d' : Document) (node : NodeId) (entry : String × NodeId) :
    Prop where
  id_eq : d.attribute? node "id" = some entry.1
  isFragment : d'.content? entry.2 = some .fragment
  children : d'.children entry.2 = (d.children node).filter (· ∉ lost)

/-- Nodes have been taken out, with which some were lost. -/
structure Parted (d : Document) (nodes lost : List NodeId) (entries : List (String × NodeId)) (d' : Document) :
    Prop where
  wellFormed : WellFormed d'
  gone : ∀ t ∈ nodes, t ∈ lost
  spent : ∀ x ∈ lost, Spent d nodes x
  alive : ∀ x, d'.contains x = true → x ∈ entries.map Prod.snd ∨ d.contains x = true ∧ x ∉ lost
  content : ∀ x, d.contains x = true → x ∉ lost → d'.content? x = d.content? x
  children : ∀ x, d.contains x = true → x ∉ lost → d'.children x = (d.children x).filter (· ∉ lost)
  moved : List.Forall₂ (Moved d lost d') nodes entries
  new : ∀ entry ∈ entries, d.contains entry.2 = false ∨ entry.2 ∈ lost
  distinct : (entries.map Prod.snd).Nodup

/-- An element with a parent. -/
def Inner (d : Document) (t : NodeId) : Prop := (∃ e, d.content? t = some (.element e)) ∧ ∃ q, t ∈ d.children q

/-! ## Taking one node out -/

theorem eq_of_nameOf {given : Option String} {name : String} (named_ : nameOf template given = .ok name) :
    given = some name ∧ name ≠ "" := by
  unfold nameOf at named_
  split at named_
  · next found =>
      cases named_
      simpa using Option.filter_eq_some_iff.mp found
  · cases named_

theorem attribute?_element {e : Element} (found : d.content? node = some (.element e)) (name : String) :
    d.attribute? node name = Attribute.find? name e.attributes := by
  rw [attribute?, element?, found]
  rfl

theorem text_of_isBlankNode (blank : isBlankNode d x = true) : ∃ text, d.content? x = some (.text text) := by
  unfold isBlankNode at blank
  split at blank
  · next text found => exact ⟨text, found⟩
  · cases blank

theorem isBlankNode_congr (same : d'.content? x = d.content? x) : isBlankNode d' x = isBlankNode d x := by
  rw [isBlankNode, isBlankNode, same]

theorem mem_filter_not {l gone : List NodeId} : x ∈ l.filter (· ∉ gone) ↔ x ∈ l ∧ x ∉ gone := by
  simp [List.mem_filter]

theorem filter_filter_not (l gone more : List NodeId) :
    (l.filter (· ∉ gone)).filter (· ∉ more) = l.filter (· ∉ gone ++ more) := by
  rw [List.filter_filter]
  refine List.filter_congr fun y _ => ?_
  by_cases here : y ∈ gone <;> by_cases there : y ∈ more <;> simp [here, there]

/-- What is freed with one node is that node and blank texts next to it. -/
theorem spent_of_mem_freed {front back : List NodeId} (around : d.children q = front ++ node :: back)
    (mem : x ∈ freed d front node back) : Spent d [node] x := by
  have child : x ∈ d.children q := around ▸ freed_subset mem
  have node_ : node ∈ d.children q := by simp [around]
  rcases mem_freed.mp mem with blank | blank | rfl
  · exact .inr ⟨(mem_blanks.mp blank).2, node, List.mem_singleton_self _, q, child, node_⟩
  · exact .inr ⟨(mem_blanks.mp blank).2, node, List.mem_singleton_self _, q, child, node_⟩
  · exact .inl (List.mem_singleton_self _)

theorem takeOut_parts (wf : WellFormed d) (inner : Inner d node) (done : takeOut template node d = .ok entry d') :
    ∃ lost, Parted d [node] lost [entry] d' := by
  obtain ⟨⟨e, found⟩, q, child⟩ := inner
  obtain ⟨front, back, around⟩ := List.append_of_mem child
  have attribute_ := attribute?_element found "id"
  cases given : nameOf template (Attribute.find? "id" e.attributes) with
  | error fault =>
      rw [takeOut, Work.bind_ask, attribute_, given] at done
      cases done
  | ok name =>
      obtain ⟨fragment, d₁, went, taken⟩ := takeOut_takes wf found given around
      cases done.symm.trans went
      have away : ∀ x, d.contains x = true → x ∉ freed d front node back → x ≠ fragment ∧ x ≠ node :=
        fun x live stays => ⟨taken.ne_fragment live, fun same => stays (mem_freed.mpr (.inr (.inr same)))⟩
      obtain ⟨isFragment, -⟩ := taken.fragment_eq wf around
      refine ⟨freed d front node back, taken.becomes.wellFormed, fun t mem => ?_,
        fun x mem => spent_of_mem_freed around mem, fun x live => ?_, fun x live stays => ?_,
        fun x live stays => ?_, .cons ⟨?_, isFragment, ?_⟩ .nil, ?_, List.nodup_singleton _⟩
      · exact mem_freed.mpr (.inr (.inr (List.mem_singleton.mp mem)))
      · obtain ⟨content, here⟩ := contains_iff_content?.mp live
        rw [taken.becomes.content] at here
        dsimp only at here
        split at here
        · cases here
        · next stays =>
            split at here
            · next same => exact .inl (List.mem_singleton.mpr same)
            · exact .inr ⟨contains_iff_content?.mpr ⟨_, here⟩, stays⟩
      · rw [taken.becomes.content]
        simp only [if_neg stays, if_neg (away x live stays).1]
      · rw [taken.becomes.children]
        simp only [if_neg (away x live stays).1, if_neg (away x live stays).2]
      · rw [attribute_, (eq_of_nameOf given).1]
      · rw [taken.becomes.children]
        simp only [if_true]
      · rintro _ mem
        rw [List.mem_singleton.mp mem]
        exact .inl taken.fresh

/-! ## Taking several out, one after the other -/

namespace Parted

variable (parted : Parted d nodes lost entries d')
include parted

/-- The parts of a list of children stood in one list before. -/
theorem of_child (child : x ∈ d'.children q) : x ∉ lost ∧ ∃ p, d'.children q = (d.children p).filter (· ∉ lost) := by
  have whole : ∃ p, d'.children q = (d.children p).filter (· ∉ lost) := by
    rcases parted.alive q (parted.wellFormed.contains_parent child) with mem | ⟨live, stays⟩
    · obtain ⟨entry, there, rfl⟩ := List.mem_map.mp mem
      obtain ⟨t, -, moved⟩ := exists_of_paired parted.moved.flip there
      exact ⟨t, moved.children⟩
    · exact ⟨q, parted.children q live stays⟩
  obtain ⟨p, same⟩ := whole
  exact ⟨(mem_filter_not.mp (same ▸ child)).2, p, same⟩

/-- A child that is not lost is still a child: of the same node or of the fragment for it. -/
theorem exists_parent (wf : WellFormed d) (child : x ∈ d.children q) (stays : x ∉ lost) : ∃ p, x ∈ d'.children p := by
  by_cases gone : q ∈ lost
  · rcases parted.spent q gone with mem | ⟨blank, -⟩
    · obtain ⟨entry, -, moved⟩ := exists_of_paired parted.moved mem
      exact ⟨entry.2, moved.children ▸ mem_filter_not.mpr ⟨child, stays⟩⟩
    · obtain ⟨text, found⟩ := text_of_isBlankNode blank
      rw [children_of_leaf wf found rfl] at child
      cases child
  · exact ⟨q, parted.children q (wf.contains_parent child) gone ▸ mem_filter_not.mpr ⟨child, stays⟩⟩

/-- An element that is not taken out is not lost. -/
theorem element_stays {e : Element} (found : d.content? t = some (.element e)) (other : t ∉ nodes) : t ∉ lost := by
  intro gone
  rcases parted.spent t gone with mem | ⟨blank, -⟩
  · exact other mem
  · obtain ⟨text, found'⟩ := text_of_isBlankNode blank
    cases found.symm.trans found'

theorem inner (wf : WellFormed d) (inner : Inner d t) (other : t ∉ nodes) : Inner d' t := by
  obtain ⟨⟨e, found⟩, q, child⟩ := inner
  have stays := parted.element_stays found other
  exact ⟨⟨e, (parted.content t (wf.contains_child child) stays).trans found⟩, parted.exists_parent wf child stays⟩

/-- A fragment is not lost when others are taken out. -/
theorem fragment_stays (found : d.content? x = some .fragment) (inner : ∀ t ∈ nodes, Inner d t) : x ∉ lost := by
  intro gone
  rcases parted.spent x gone with mem | ⟨blank, -⟩
  · obtain ⟨⟨e, found'⟩, -⟩ := inner x mem
    cases found.symm.trans found'
  · obtain ⟨text, found'⟩ := text_of_isBlankNode blank
    cases found.symm.trans found'

end Parted

theorem Parted.nil (wf : WellFormed d) : Parted d [] [] [] d where
  wellFormed := wf
  gone := fun _ mem => by cases mem
  spent := fun _ mem => by cases mem
  alive := fun _ live => .inr ⟨live, List.not_mem_nil⟩
  content := fun _ _ _ => rfl
  children := fun x _ _ => by simp
  moved := .nil
  new := fun _ mem => by cases mem
  distinct := List.nodup_nil

/-- A blank text among siblings that was freed later was one from the beginning. -/
theorem Parted.spent_before (wf : WellFormed d) (parted : Parted d nodes lost entries d') (spent : Spent d' nodes' x) :
    Spent d (nodes ++ nodes') x := by
  rcases spent with mem | ⟨blank, t, mem, q, child, beside⟩
  · exact .inl (List.mem_append_right _ mem)
  · obtain ⟨stays, p, same⟩ := parted.of_child child
    rw [same] at child beside
    have child := (mem_filter_not.mp child).1
    refine .inr ⟨?_, t, List.mem_append_right _ mem, p, child, (mem_filter_not.mp beside).1⟩
    rwa [← isBlankNode_congr (parted.content x (wf.contains_child child) stays)]

theorem Parted.trans (wf : WellFormed d) (first : Parted d nodes lost entries d')
    (second : Parted d' nodes' lost' entries' d'') (inner : ∀ t ∈ nodes ++ nodes', Inner d t)
    (apart : ∀ t ∈ nodes', t ∉ nodes) : Parted d (nodes ++ nodes') (lost ++ lost') (entries ++ entries') d'' := by
  have inner' : ∀ t ∈ nodes', Inner d' t := fun t mem =>
    first.inner wf (inner t (List.mem_append_right _ mem)) (apart t mem)
  have live' : ∀ {x}, d.contains x = true → x ∉ lost → d'.contains x = true := fun {x} live stays => by
    obtain ⟨content, found⟩ := contains_iff_content?.mp live
    exact contains_iff_content?.mpr ⟨content, (first.content x live stays).trans found⟩
  have fragments : ∀ {t entry}, Moved d lost d' t entry → d'.contains entry.2 = true ∧ entry.2 ∉ lost' := fun moved =>
    ⟨contains_iff_content?.mpr ⟨_, moved.isFragment⟩, second.fragment_stays moved.isFragment inner'⟩
  have both : ∀ {x}, x ∉ lost ++ lost' → x ∉ lost ∧ x ∉ lost' := fun stays => by simpa using stays
  refine ⟨second.wellFormed, fun t mem => ?_, fun x mem => ?_, fun x live => ?_, fun x live stays => ?_,
    fun x live stays => ?_, List.rel_append ?_ ?_, fun entry mem => ?_, ?_⟩
  · exact List.mem_append.mpr ((List.mem_append.mp mem).imp (first.gone t) (second.gone t))
  · rcases List.mem_append.mp mem with here | here
    · rcases first.spent x here with mem | ⟨blank, t, mem, beside⟩
      · exact .inl (List.mem_append_left _ mem)
      · exact .inr ⟨blank, t, List.mem_append_left _ mem, beside⟩
    · exact first.spent_before wf (second.spent x here)
  · rw [List.map_append, List.mem_append]
    rcases second.alive x live with mem | ⟨live, stays⟩
    · exact .inl (.inr mem)
    · rcases first.alive x live with mem | ⟨live, stays'⟩
      · exact .inl (.inl mem)
      · exact .inr ⟨live, by simp [stays, stays']⟩
  · rw [second.content x (live' live (both stays).1) (both stays).2, first.content x live (both stays).1]
  · rw [second.children x (live' live (both stays).1) (both stays).2, first.children x live (both stays).1,
      filter_filter_not]
  · refine first.moved.imp fun t entry moved => ?_
    obtain ⟨live, stays⟩ := fragments moved
    refine ⟨moved.id_eq, (second.content _ live stays).trans moved.isFragment, ?_⟩
    rw [second.children _ live stays, moved.children, filter_filter_not]
  · refine ((List.forall₂_and_left _ _).mpr ⟨fun t mem => And.intro mem (apart t mem), second.moved⟩).imp
      fun t entry ⟨⟨mem, other⟩, moved⟩ => ?_
    obtain ⟨⟨e, found⟩, q, child⟩ := inner t (List.mem_append_right _ mem)
    have stays := first.element_stays found other
    have live := wf.contains_child child
    have same := first.content t live stays
    refine ⟨?_, moved.isFragment, ?_⟩
    · rw [← moved.id_eq, attribute?_element found, attribute?_element (same.trans found)]
    · rw [moved.children, first.children t live stays, filter_filter_not]
  · rcases List.mem_append.mp mem with here | here
    · exact (first.new entry here).imp_right (List.mem_append_left _)
    · by_cases old : d.contains entry.2 = true ∧ entry.2 ∉ lost
      · refine .inr (List.mem_append_right _ ((second.new entry here).resolve_left ?_))
        simp [live' old.1 old.2]
      · by_cases live : d.contains entry.2 = true
        · exact .inr (List.mem_append_left _ (by simpa [live] using old))
        · exact .inl (by simpa using live)
  · rw [List.map_append]
    refine List.nodup_append.mpr ⟨first.distinct, second.distinct, ?_⟩
    rintro x here _ there rfl
    obtain ⟨entry, mem, rfl⟩ := List.mem_map.mp here
    obtain ⟨entry', mem', same⟩ := List.mem_map.mp there
    obtain ⟨t, -, moved⟩ := exists_of_paired first.moved.flip mem
    obtain ⟨live, stays⟩ := fragments moved
    rcases second.new entry' mem' with dead | gone
    · rw [same, live] at dead
      cases dead
    · exact stays (same ▸ gone)

/-- Taking nodes out in any order parts the document. -/
theorem takeOutAll_parts : ∀ {nodes : List NodeId} {d d' : Document} {entries : List (String × NodeId)}, WellFormed d →
    (∀ t ∈ nodes, Inner d t) → nodes.Nodup → takeOutAll template nodes d = .ok entries d' →
      ∃ lost, Parted d nodes lost entries d'
  | [], d, _, _, wf, _, _, done => by
      cases done
      exact ⟨[], .nil wf⟩
  | node :: rest, d, d', entries, wf, inner, nodup, done => by
      obtain ⟨absent, nodup⟩ := List.nodup_cons.mp nodup
      obtain ⟨entry, d₁, one, done⟩ := of_bind_ok done
      obtain ⟨others, d₂, more, done⟩ := of_bind_ok done
      cases done
      obtain ⟨lost, first⟩ := takeOut_parts wf (inner node List.mem_cons_self) one
      have apart : ∀ t ∈ rest, t ∉ [node] := fun t mem same => absent (List.mem_singleton.mp same ▸ mem)
      obtain ⟨lost', second⟩ := takeOutAll_parts first.wellFormed
        (fun t mem => first.inner wf (inner t (List.mem_cons_of_mem _ mem)) (apart t mem)) nodup more
      exact ⟨_, first.trans wf second inner apart⟩

end Inlay.Template
