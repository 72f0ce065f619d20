/-
# Proofs.Template.Partition — every node of a source is in one prototype

A node of a source belongs to the definition that is nearest around it, or to the
root (`Nearest`). When a source is compiled, the nodes of every prototype are those
that belong to it, in the lists they stood in; only the definitions are missing, and
blank texts among their siblings (`Partitioned`, `compile_partitions`).

Taking the definitions out gives their lists of children to the fragments
(`Proofs.Template.Parting`), so that a node is below the fragment for what is nearest
around it. The tours that follow change no list (`Clears`).
-/
import Inlay.Proofs.Template.Assembling
import Inlay.Proofs.Template.Parting

namespace Inlay.Template

set_option autoImplicit false

open Inlay.Markup Inlay.Document Inlay.Render Planted Relation

variable {d d' d'' : Document} {x p t home fragment f : NodeId} {lost ids ids' : List NodeId}
  {entries : List (String × NodeId)} {name source template : String}

/-- Work that came to an end has the answer it agrees with. -/
theorem Agrees.of_ok {α β : Type} {goes : α → β → Document → Prop} {work : EStateM.Result Stop Document α} {a : α}
    {answer : Except Fault β} (agrees : Agrees goes work answer) (done : work = .ok a d) :
    ∃ b, answer = .ok b ∧ goes a b d := by
  subst done
  cases answer with
  | ok b => exact ⟨b, rfl, agrees⟩
  | error fault => cases agrees

/-- An answer is what work comes to that agrees with it. -/
theorem Agrees.exists_ok {α β : Type} {goes : α → β → Document → Prop} {work : EStateM.Result Stop Document α} {b : β}
    {answer : Except Fault β} (agrees : Agrees goes work answer) (given : answer = .ok b) :
    ∃ a d, work = .ok a d ∧ goes a b d := by
  subst given
  cases work with
  | ok a d => exact ⟨a, d, rfl, agrees⟩
  | error stop d => cases stop <;> cases agrees

/-! ## What is nearest around a node -/

/-- The innermost definition around a node below a root, or the root if there is none. -/
structure Nearest (d : Document) (root x home : NodeId) : Prop where
  above : Below d x home
  ne : x ≠ home
  kind : home = root ∨ home ∈ definitionNodes root d
  least : ∀ t ∈ definitionNodes root d, Below d x t → x ≠ t → Below d home t

theorem mem_definitionNodes (wf : WellFormed d) (live : d.contains fragment = true) :
    t ∈ definitionNodes fragment d ↔ Below d t fragment ∧ d.tag? t = some definitionTag := by
  rw [definitionNodes, List.mem_filter, wf.mem_descendants, decide_eq_true_eq, and_iff_right live]

theorem element_of_tag? {tag : String} (found : d.tag? x = some tag) :
    ∃ e, d.content? x = some (.element e) ∧ e.tag = tag := by
  obtain ⟨e, element_, same⟩ := Option.map_eq_some_iff.mp found
  refine ⟨e, ?_, same⟩
  unfold element? at element_
  split at element_
  · next content => cases element_; exact content
  · cases element_

namespace Nearest

/-- Around a child, that is the parent, if this is the root or a definition. -/
theorem of_child (wf : WellFormed d) (up : d.Up x p) (kind : p = fragment ∨ p ∈ definitionNodes fragment d) :
    Nearest d fragment x p := by
  refine ⟨.single up, fun same => wf.acyclic.not_below up (same ▸ .refl), kind, fun t _ below ne => ?_⟩
  rcases ReflTransGen.cases_head below with same | ⟨q, first, rest⟩
  · exact absurd same ne
  · exact up_unique first up ▸ rest

/-- Otherwise it is what is nearest around the parent. -/
theorem of_parent (wf : WellFormed d) (up : d.Up x p) (plain : p ∉ definitionNodes fragment d)
    (nearest : Nearest d fragment p home) : Nearest d fragment x home := by
  refine ⟨nearest.above.head up, ?_, nearest.kind, fun t mem below ne => ?_⟩
  · rintro rfl
    exact wf.acyclic.not_below up nearest.above
  · rcases ReflTransGen.cases_head below with same | ⟨q, first, rest⟩
    · exact absurd same ne
    · have below := up_unique first up ▸ rest
      exact nearest.least t mem below fun same => plain (same ▸ mem)

end Nearest

/-! ## The fragments for the definitions -/

/-- The fragment that has the content of the root or a definition. -/
def Hosts (d : Document) (fragment : NodeId) (entries : List (String × NodeId)) (home f : NodeId) : Prop :=
  home = fragment ∧ f = fragment ∨
    home ∈ definitionNodes fragment d ∧ ∃ entry ∈ entries, d.attribute? home "id" = some entry.1 ∧ f = entry.2

/-- The selection for the content of the root or a definition. -/
def selectionOf (d : Document) (fragment home : NodeId) : Option String :=
  if home = fragment then none else d.attribute? home "id"

theorem exists_moved (parted : Parted d (definitionNodes fragment d).reverse lost entries d')
    (mem : home ∈ definitionNodes fragment d) : ∃ entry ∈ entries, Moved d lost d' home entry :=
  exists_of_paired parted.moved (List.mem_reverse.mpr mem)

/-- A parent that is no definition is not lost. -/
theorem parent_stays (wf : WellFormed d) (parted : Parted d (definitionNodes fragment d).reverse lost entries d')
    (child : x ∈ d.children p) (plain : p ∉ definitionNodes fragment d) : p ∉ lost := by
  intro gone
  rcases parted.spent p gone with mem | ⟨blank, -⟩
  · exact plain (List.mem_reverse.mp mem)
  · obtain ⟨text, found⟩ := text_of_isBlankNode blank
    rw [children_of_leaf wf found rfl] at child
    cases child

section Hosting

variable (wf : WellFormed d) (isFragment : d.content? fragment = some .fragment)
  (parted : Parted d (definitionNodes fragment d).reverse lost entries d')
include wf isFragment

theorem inner_of_mem_definitionNodes (mem : t ∈ definitionNodes fragment d) : Inner d t := by
  obtain ⟨below, tagged⟩ := (mem_definitionNodes wf (contains_iff_content?.mpr ⟨_, isFragment⟩)).mp mem
  obtain ⟨e, found, -⟩ := element_of_tag? tagged
  refine ⟨⟨e, found⟩, ?_⟩
  rcases ReflTransGen.cases_head below with same | ⟨q, up, -⟩
  · rw [same, isFragment] at found
    cases found
  · exact ⟨q, wf.parent_iff.mp up⟩

theorem ne_of_mem_definitionNodes (mem : t ∈ definitionNodes fragment d) : t ≠ fragment := by
  rintro rfl
  obtain ⟨⟨e, found⟩, -⟩ := inner_of_mem_definitionNodes wf isFragment mem
  cases isFragment.symm.trans found

include parted

theorem root_stays : fragment ∉ lost :=
  parted.fragment_stays isFragment fun _ mem =>
    inner_of_mem_definitionNodes wf isFragment (List.mem_reverse.mp mem)

/-- No fragment is that of two definitions. -/
theorem selectionOf_unique {home' : NodeId} (hosts : Hosts d fragment entries home f)
    (hosts' : Hosts d fragment entries home' f) : selectionOf d fragment home = selectionOf d fragment home' := by
  have apart : ∀ entry ∈ entries, entry.2 ≠ fragment := fun entry mem same => by
    rcases parted.new entry mem with dead | gone
    · rw [same, contains_iff_content?.mpr ⟨_, isFragment⟩] at dead
      cases dead
    · exact root_stays wf isFragment parted (same ▸ gone)
  rcases hosts with ⟨rfl, rfl⟩ | ⟨mem, entry, there, id_, rfl⟩ <;>
    rcases hosts' with ⟨rfl, same⟩ | ⟨mem', entry', there', id_', same⟩
  · rfl
  · exact absurd same.symm (apart entry' there')
  · exact absurd same (apart entry there)
  · have one : entry = entry' := List.inj_on_of_nodup_map parted.distinct there there' same
    rw [selectionOf, selectionOf, if_neg (ne_of_mem_definitionNodes wf isFragment mem),
      if_neg (ne_of_mem_definitionNodes wf isFragment mem'), id_, id_', one]

variable (names : (entries.map Prod.fst).Nodup)
include names

/-- The fragment has the children that are not lost. -/
theorem kids_of_hosts (hosts : Hosts d fragment entries home f) :
    d'.content? f = some .fragment ∧ d'.children f = (d.children home).filter (· ∉ lost) := by
  rcases hosts with ⟨rfl, rfl⟩ | ⟨mem, entry, there, id_, rfl⟩
  · have live : d.contains f = true := contains_iff_content?.mpr ⟨_, isFragment⟩
    have stays := root_stays wf isFragment parted
    exact ⟨(parted.content f live stays).trans isFragment, parted.children f live stays⟩
  · obtain ⟨entry', there', moved⟩ := exists_moved parted mem
    have same : entry = entry' :=
      List.inj_on_of_nodup_map names there there' (Option.some.inj (id_.symm.trans moved.id_eq))
    exact same ▸ ⟨moved.isFragment, moved.children⟩

/-- A node that is not lost is below the fragment for what is nearest around it. -/
theorem below_host (below : Below d x fragment) (ne : x ≠ fragment) : ∃ home, Nearest d fragment x home ∧
    (x ∉ lost → ∀ f, Hosts d fragment entries home f → Below d' x f) := by
  induction below using ReflTransGen.head_induction_on with
  | refl => exact absurd rfl ne
  | @head x p up rest ih =>
      have child := wf.parent_iff.mp up
      by_cases kind : p = fragment ∨ p ∈ definitionNodes fragment d
      · refine ⟨p, .of_child wf up kind, fun stays f hosts => .single (parted.wellFormed.parent_iff.mpr ?_)⟩
        rw [(kids_of_hosts wf isFragment parted names hosts).2]
        exact mem_filter_not.mpr ⟨child, stays⟩
      · obtain ⟨inner, plain⟩ := not_or.mp kind
        obtain ⟨home, nearest, found⟩ := ih inner
        have still := parent_stays wf parted child plain
        refine ⟨home, nearest.of_parent wf up plain, fun stays f hosts => .head ?_ (found still f hosts)⟩
        refine parted.wellFormed.parent_iff.mpr ?_
        rw [parted.children p (wf.contains_parent child) still]
        exact mem_filter_not.mpr ⟨child, stays⟩

/-- Below the fragments there is nothing but nodes of the source. -/
theorem source_of_below (hosts : Hosts d fragment entries home f) (below : Below d' x f) (ne : x ≠ f) :
    Below d x fragment ∧ x ≠ fragment ∧ x ∉ lost := by
  have live : d.contains fragment = true := contains_iff_content?.mpr ⟨_, isFragment⟩
  have inside : Below d home fragment := by
    rcases hosts with ⟨same, -⟩ | ⟨mem, -⟩
    · exact same ▸ .refl
    · exact ((mem_definitionNodes wf live).mp mem).1
  have of_list : ∀ {x p}, x ∈ (d.children p).filter (· ∉ lost) → Below d p fragment →
      Below d x fragment ∧ x ≠ fragment ∧ x ∉ lost := fun {x p} mem beneath => by
    obtain ⟨child, stays⟩ := mem_filter_not.mp mem
    have up := wf.parent_iff.mpr child
    exact ⟨beneath.head up, fun same => wf.acyclic.not_below up (same ▸ beneath), stays⟩
  induction below using ReflTransGen.head_induction_on with
  | refl => exact absurd rfl ne
  | @head x p up rest ih =>
      have child := parted.wellFormed.parent_iff.mp up
      by_cases top : p = f
      · subst top
        rw [(kids_of_hosts wf isFragment parted names hosts).2] at child
        exact of_list child inside
      · obtain ⟨beneath, -, stays⟩ := ih top
        rw [parted.children p (wf.contains_of_below live beneath) stays] at child
        exact of_list child beneath

end Hosting

/-! ## Prototypes of an assembly -/

/-- The factory of a definition, or the root for no name. -/
def Assembly.factory? (assembly : Assembly) : Option String → Option Factory
  | none => some assembly.root
  | some name => assembly.definitions.get? name

/-- Tours change no list, so ways up stay. -/
theorem Clears.below_iff (wf : WellFormed d) (clears : Clears ids d d') : Below d' x p ↔ Below d x p :=
  ⟨Below.of_children_subset wf clears.wellFormed fun p _ mem => clears.children_eq p ▸ mem,
    Below.of_children_subset clears.wellFormed wf fun p _ mem => (clears.children_eq p).symm ▸ mem⟩

/-- All that is strictly below the fragments is cleared. -/
def ClearsBelow (fragments : List NodeId) (d d' : Document) : Prop :=
  ∃ ids, (∀ x, x ∈ ids ↔ ∃ f ∈ fragments, Below d x f ∧ x ≠ f) ∧ Clears ids d d'

theorem ClearsBelow.cons {fragments : List NodeId} (wf : WellFormed d)
    (first : ∃ ids, (∀ x, x ∈ ids ↔ Below d x f ∧ x ≠ f) ∧ Clears ids d d') (rest : ClearsBelow fragments d' d'') :
    ClearsBelow (f :: fragments) d d'' := by
  obtain ⟨ids, mem, clears⟩ := first
  obtain ⟨ids', mem', clears'⟩ := rest
  refine ⟨ids ++ ids', fun x => ?_, clears.trans clears'⟩
  simp only [List.mem_append, mem, mem', List.exists_mem_cons_iff, clears.below_iff wf]

/-- Factories have been made of fragments, one for each name. -/
structure Filed (entries : List (String × NodeId)) (done all : Fields Factory) : Prop where
  get?_eq : ∀ name, (all.get? name).map (·.fragment) = ((done.get? name).map (·.fragment)).or (entries.lookup name)
  names : (entries.map Prod.fst).Nodup
  absent : ∀ entry ∈ entries, done.get? entry.1 = none

theorem makeNamed_files : ∀ {entries : List (String × NodeId)} {pairs : List (String × List Tree)} {d d' : Document}
    {done all : Fields Factory}, WellFormed d → List.Forall₂ (Stored d) entries pairs →
      (∀ pair ∈ pairs, TidyAll pair.2) → (entries.map Prod.snd).Nodup → makeNamed template done entries d = .ok all d' →
      Filed entries done all ∧ ClearsBelow (entries.map Prod.snd) d d'
  | [], [], d, d', done, all, wf, .nil, _, _, made => by
      cases made
      exact ⟨⟨fun name => by simp, List.nodup_nil, by simp⟩, [], by simp, .nil wf⟩
  | (key, node) :: entries, (label, content) :: pairs, d, d', done, all, wf, .cons ⟨same, holds⟩ others, tidy, nodup,
      made => by
      obtain ⟨clean, tidy⟩ := List.forall_mem_cons.mp tidy
      obtain ⟨apart, nodup⟩ := List.nodup_cons.mp nodup
      rw [makeNamed] at made
      cases taken : done.get? key with
      | some factory =>
          rw [taken] at made
          cases made
      | none =>
          rw [taken] at made
          obtain ⟨factory, d₁, one, more⟩ := of_bind_ok made
          obtain ⟨prototype, -, toured⟩ := (tour_agrees (some key) wf holds clean).of_ok one
          have stored := stored_of_toured toured
            (fun entry mem same => apart (List.mem_map.mpr ⟨entry, mem, same⟩)) others
          obtain ⟨filed, clears⟩ := makeNamed_files toured.wellFormed stored tidy nodup more
          have fresh : ∀ entry ∈ entries, entry.1 ≠ key ∧ done.get? entry.1 = none := fun entry mem => by
            have absent := filed.absent entry mem
            rw [Fields.get?_put] at absent
            split at absent
            · cases absent
            · next ne => exact ⟨ne, absent⟩
          refine ⟨⟨fun name => ?_, ?_, ?_⟩, clears.cons wf toured.clears⟩
          · rw [filed.get?_eq, Fields.get?_put, List.lookup_cons]
            by_cases here : name = key
            · simp [here, taken, toured.fragment_eq]
            · simp [here, beq_false_of_ne here]
          · refine List.nodup_cons.mpr ⟨fun mem => ?_, filed.names⟩
            obtain ⟨entry, there, again⟩ := List.mem_map.mp mem
            exact (fresh entry there).1 again
          · exact List.forall_mem_cons.mpr ⟨taken, fun entry mem => (fresh entry mem).2⟩

/-- A key of distinct ones is looked up where it stands. -/
theorem lookup_eq_some_iff {α β : Type} [DecidableEq α] {l : List (α × β)} (nodup : (l.map Prod.fst).Nodup) {a : α}
    {b : β} : l.lookup a = some b ↔ (a, b) ∈ l := by
  induction l with
  | nil => simp
  | cons first rest ih =>
      obtain ⟨absent, nodup⟩ := List.nodup_cons.mp nodup
      rw [List.lookup_cons, List.mem_cons]
      by_cases here : a = first.1
      · subst here
        have away : (first.1, b) ∉ rest := fun mem => absent (List.mem_map.mpr ⟨_, mem, rfl⟩)
        simp [away, Prod.ext_iff, eq_comm]
      · simp [here, beq_false_of_ne here, ih nodup, Prod.ext_iff]

/-! ## The partition -/

/-- Every node of a source is in one prototype, that of the definition nearest around it. -/
structure Partitioned (parsed : Document) (fragment : NodeId) (lost : List NodeId) (assembly : Assembly)
    (d : Document) : Prop where
  wellFormed : WellFormed d
  /-- What is lost are the definitions and blank texts among their siblings. -/
  gone : ∀ t ∈ definitionNodes fragment parsed, t ∈ lost
  spent : ∀ x ∈ lost, Spent parsed (definitionNodes fragment parsed) x
  /-- The names are the ids of the definitions. -/
  names : ∀ name, (assembly.factory? (some name)).isSome = true ↔
    ∃ t ∈ definitionNodes fragment parsed, parsed.attribute? t "id" = some name
  /-- The root and every definition have a factory of their own, with what is left of their children. -/
  lists : ∀ home, home = fragment ∨ home ∈ definitionNodes fragment parsed →
    ∃ factory, assembly.factory? (selectionOf parsed fragment home) = some factory ∧
      d.content? factory.fragment = some .fragment ∧
      d.children factory.fragment = (parsed.children home).filter (· ∉ lost)
  /-- All other nodes keep what is left of their children, and their content with its placeholders cleared. -/
  inner : ∀ x, Below parsed x fragment → x ≠ fragment → x ∉ lost →
    d.content? x = (parsed.content? x).map clearedContent ∧
      d.children x = (parsed.children x).filter (· ∉ lost)
  /-- A node is in the factory of what is nearest around it and in no other one. -/
  housed : ∀ x, Below parsed x fragment → x ≠ fragment → x ∉ lost → ∃ home, Nearest parsed fragment x home ∧
    ∀ selection factory, assembly.factory? selection = some factory →
      (Below d x factory.fragment ↔ selection = selectionOf parsed fragment home)
  /-- A factory has nothing but nodes of the source, and no definition. -/
  plain : ∀ selection factory, assembly.factory? selection = some factory → ∀ x, Below d x factory.fragment →
    x ≠ factory.fragment → Below parsed x fragment ∧ x ≠ fragment ∧ x ∉ lost ∧ d.tag? x ≠ some definitionTag

section Assembling

variable {parsed : Document} {assembly : Assembly} (wf : WellFormed parsed)
  (isFragment : parsed.content? fragment = some .fragment)
  (parted : Parted parsed (definitionNodes fragment parsed).reverse lost entries d')
  (filed : Filed entries [] assembly.definitions) (root : assembly.root.fragment = fragment)
include wf isFragment parted filed root

/-- The root and every definition have a factory. -/
theorem exists_factory (kind : home = fragment ∨ home ∈ definitionNodes fragment parsed) :
    ∃ factory, assembly.factory? (selectionOf parsed fragment home) = some factory ∧
      Hosts parsed fragment entries home factory.fragment := by
  rcases kind with rfl | mem
  · exact ⟨assembly.root, by rw [selectionOf, if_pos rfl]; rfl, .inl ⟨rfl, root⟩⟩
  · obtain ⟨entry, there, moved⟩ := exists_moved parted mem
    have found := filed.get?_eq entry.1
    rw [(lookup_eq_some_iff filed.names).mpr there] at found
    obtain ⟨factory, known, same⟩ := Option.map_eq_some_iff.mp (found.trans (Option.none_or))
    refine ⟨factory, ?_, .inr ⟨mem, entry, there, moved.id_eq, same⟩⟩
    rw [selectionOf, if_neg (ne_of_mem_definitionNodes wf isFragment mem), moved.id_eq]
    exact known

/-- There are no other factories. -/
theorem exists_home {selection : Option String} {factory : Factory}
    (known : assembly.factory? selection = some factory) :
    ∃ home, Hosts parsed fragment entries home factory.fragment ∧ selection = selectionOf parsed fragment home := by
  cases selection with
  | none =>
      cases known
      exact ⟨fragment, .inl ⟨rfl, root⟩, by rw [selectionOf, if_pos rfl]⟩
  | some name =>
      have found := filed.get?_eq name
      rw [show assembly.definitions.get? name = some factory from known] at found
      have there := (lookup_eq_some_iff filed.names).mp (found.symm.trans Option.none_or)
      obtain ⟨t, mem, moved⟩ := exists_of_paired parted.moved.flip there
      have mem := List.mem_reverse.mp mem
      refine ⟨t, .inr ⟨mem, _, there, moved.id_eq, rfl⟩, ?_⟩
      rw [selectionOf, if_neg (ne_of_mem_definitionNodes wf isFragment mem), moved.id_eq]

/-- When the tours have cleared what is below the fragments, the source is partitioned. -/
theorem partitioned_of_filed (clears : ClearsBelow (fragment :: entries.map Prod.snd) d' d) :
    Partitioned parsed fragment lost assembly d := by
  obtain ⟨ids, swept, clears⟩ := clears
  have wf₁ := parted.wellFormed
  have live : parsed.contains fragment = true := contains_iff_content?.mpr ⟨_, isFragment⟩
  have known_ : ∀ {home : NodeId}, home = fragment ∨ home ∈ definitionNodes fragment parsed →
      ∃ factory, assembly.factory? (selectionOf parsed fragment home) = some factory ∧
        Hosts parsed fragment entries home factory.fragment :=
    fun kind => exists_factory wf isFragment parted filed root kind
  have kids : ∀ {home f : NodeId}, Hosts parsed fragment entries home f →
      d'.content? f = some .fragment ∧ d'.children f = (parsed.children home).filter (· ∉ lost) :=
    fun hosts => kids_of_hosts wf isFragment parted filed.names hosts
  have settled : ∀ x, Below parsed x fragment → x ≠ fragment → x ∉ lost → ∃ home factory,
      Nearest parsed fragment x home ∧ assembly.factory? (selectionOf parsed fragment home) = some factory ∧
      Hosts parsed fragment entries home factory.fragment ∧ Below d' x factory.fragment := fun x below ne stays => by
    obtain ⟨home, nearest, found⟩ := below_host wf isFragment parted filed.names below ne
    obtain ⟨factory, known, hosts⟩ := known_ nearest.kind
    exact ⟨home, factory, nearest, known, hosts, found stays _ hosts⟩
  refine ⟨clears.wellFormed, fun t mem => parted.gone t (List.mem_reverse.mpr mem), fun x mem => ?_, fun name => ?_,
    fun home kind => ?_, fun x below ne stays => ?_, fun x below ne stays => ?_,
    fun selection factory known x below ne => ?_⟩
  · simpa [Spent] using parted.spent x mem
  · constructor
    · intro known
      obtain ⟨factory, known⟩ := Option.isSome_iff_exists.mp known
      obtain ⟨home, hosts, same⟩ := exists_home wf isFragment parted filed root known
      rw [selectionOf] at same
      split at same
      · cases same
      · next ne =>
          rcases hosts with ⟨rfl, -⟩ | ⟨mem, -⟩
          · exact absurd rfl ne
          · exact ⟨home, mem, same.symm⟩
    · rintro ⟨t, mem, id_⟩
      obtain ⟨factory, known, -⟩ := known_ (.inr mem)
      rw [selectionOf, if_neg (ne_of_mem_definitionNodes wf isFragment mem), id_] at known
      exact Option.isSome_iff_exists.mpr ⟨factory, known⟩
  · obtain ⟨factory, known, hosts⟩ := known_ kind
    obtain ⟨still, list⟩ := kids hosts
    exact ⟨factory, known, clears.isFragment still, (clears.children_eq _).trans list⟩
  · obtain ⟨home, factory, -, -, hosts, under⟩ := settled x below ne stays
    have here := wf.contains_of_below live below
    have same := parted.content x here stays
    have away : x ≠ factory.fragment := fun is => by
      have solid : parsed.content? x = some .fragment := same.symm.trans (is ▸ (kids hosts).1)
      rcases ReflTransGen.cases_head below with eq | ⟨q, up, -⟩
      · exact ne eq
      · cases (wf.linked.placeable x solid).symm.trans up
    have mem : x ∈ ids := by
      refine (swept x).mpr ⟨factory.fragment, ?_, under, away⟩
      rcases hosts with ⟨-, eq⟩ | ⟨-, entry, there, -, eq⟩
      · exact eq ▸ List.mem_cons_self
      · exact eq ▸ List.mem_cons_of_mem _ (List.mem_map_of_mem there)
    refine ⟨?_, (clears.children_eq x).trans (parted.children x here stays)⟩
    rw [clears.content, ← same]
    exact if_pos mem
  · obtain ⟨home, factory, nearest, known, hosts, under⟩ := settled x below ne stays
    refine ⟨home, nearest, fun selection other known' => ?_⟩
    rw [clears.below_iff wf₁]
    constructor
    · intro under'
      obtain ⟨home', hosts', rfl⟩ := exists_home wf isFragment parted filed root known'
      have one := Holds.below_unique wf₁ (kids hosts).1 (kids hosts').1 under under'
      exact selectionOf_unique wf isFragment parted hosts' (one ▸ hosts)
    · rintro rfl
      cases known.symm.trans known'
      exact under
  · obtain ⟨home, hosts, -⟩ := exists_home wf isFragment parted filed root known
    obtain ⟨inside, other, stays⟩ :=
      source_of_below wf isFragment parted filed.names hosts ((clears.below_iff wf₁).mp below) ne
    refine ⟨inside, other, stays, fun tagged => stays ?_⟩
    have same := parted.content x (wf.contains_of_below live inside) stays
    have tagged : parsed.tag? x = some definitionTag := by
      rw [← tagged, clears.tag?_eq, tag?, tag?, element?, element?, same]
    exact parted.gone x (List.mem_reverse.mpr ((mem_definitionNodes wf live).mpr ⟨inside, tagged⟩))

end Assembling

theorem forest?_of_compile {compiled : Template} (compiles : Template.compile name source = .ok compiled) :
    ∃ forest, forest? source = .ok forest := by
  cases read : forest? source with
  | ok forest => exact ⟨forest, rfl⟩
  | error fault =>
      rw [Template.compile, read] at compiles
      cases compiles

/-- A source that compiles is partitioned: it compiles in a document to the same template, the names are the
ids of its definitions, and every other node, unless it is a blank text among the siblings of one, is in the
prototype of the definition nearest around it and in no other, in the list it stood in. -/
theorem compile_partitions {compiled : Template} (compiles : Template.compile name source = .ok compiled) :
    ∃ fragment parsed assembly d lost, Document.parse source .new = .ok (.ok fragment) parsed ∧
      assemble name source .new = .ok assembly d ∧ assembly.template name d = compiled ∧
      Partitioned parsed fragment lost assembly d := by
  obtain ⟨assembly, d, assembled, held⟩ := (assemble_agrees name source).exists_ok compiles
  obtain ⟨forest, read⟩ := forest?_of_compile compiles
  obtain ⟨fragment, ps, parsed, parses, rfl, potted⟩ := parse_ok wellFormed_new read
  have wf := potted.wellFormed
  have isFragment := potted.isFragment
  have live : parsed.contains fragment = true := contains_iff_content?.mpr ⟨_, isFragment⟩
  have outside := parent_not_mem [] wf potted.stand potted.kids
  have steps := assembled
  rw [assemble, Work.bind_edit parses] at steps
  dsimp only at steps
  rw [Work.bind_ask] at steps
  obtain ⟨entries, d₁, took, steps⟩ := of_bind_ok steps
  obtain ⟨root, d₂, made, steps⟩ := of_bind_ok steps
  obtain ⟨all, d₃, more, done⟩ := of_bind_ok steps
  cases done
  obtain ⟨lost, parted⟩ := takeOutAll_parts wf
    (fun t mem => inner_of_mem_definitionNodes wf isFragment (List.mem_reverse.mp mem))
    (List.nodup_reverse.mpr ((descendants_nodup wf.linked wf.acyclic).filter _)) took
  rw [definitionNodes_eq wf isFragment potted.kids potted.stand] at took
  obtain ⟨pairs, found, extracted⟩ := (takeOut_trees name [] wf potted.stand live potted.kids).of_ok took
  obtain ⟨prototype, -, toured⟩ := (tour_agrees none extracted.wellFormed (extracted.holds_root isFragment outside)
    (tidy_kept (tidy_of_forest? read))).of_ok made
  have stored := stored_of_toured toured (extracted.apart_root live outside) extracted.stored
  obtain ⟨filed, clears⟩ := makeNamed_files toured.wellFormed stored (tidy_named (tidy_of_forest? read) found)
    extracted.distinct more
  refine ⟨fragment, parsed, ⟨root, all⟩, _, lost, parses, assembled, held, ?_⟩
  exact partitioned_of_filed wf isFragment parted filed toured.fragment_eq
    (clears.cons parted.wellFormed toured.clears)

theorem compile_partitions_nested : ∃ compiled, Template.compile "list" nested = .ok compiled ∧
    compiled.definitions.map Prod.fst = ["cell", "row"] ∧
    ∃ fragment parsed assembly d lost, Document.parse nested .new = .ok (.ok fragment) parsed ∧
      assemble "list" nested .new = .ok assembly d ∧ assembly.template "list" d = compiled ∧
      Partitioned parsed fragment lost assembly d := by
  have names : (Template.compile "list" nested).map (·.definitions.map Prod.fst) = .ok ["cell", "row"] := by
    decide +kernel
  cases compiles : Template.compile "list" nested with
  | error fault => rw [compiles] at names; cases names
  | ok compiled =>
      rw [compiles] at names
      exact ⟨compiled, rfl, Except.ok.inj names, compile_partitions compiles⟩

end Inlay.Template
