/-
# Proofs.Template.Assembling — compiling in a document is compiling trees

The walk from the fragment of a source meets its definitions in document order,
so that its reverse takes each of them out when nothing is left inside it or
behind it (`Proofs.Template.Extraction`). The fragments are then toured one after
the other, and a tour touches no fragment but its own
(`Proofs.Template.Touring`). So compiling in a document comes to the same
template as compiling trees, or to the same fault, and the document refuses
nothing on the way (`assemble_agrees`). Which sources compile is then said of
trees alone (`compile_accepts`).
-/
import Inlay.Proofs.Document.Parsing
import Inlay.Proofs.Template.Acceptance
import Inlay.Proofs.Template.Extraction

namespace Inlay.Template

set_option autoImplicit false

open Inlay.Markup Inlay.Text Inlay.Document Inlay.Render Planted

variable {d d' : Document} {fragment q : NodeId} {ps : List Planted} {name source : String}

/-! ## The walk over a fragment -/

mutual

theorem filter_ids : ∀ {p : Planted}, p.Stands d →
    p.ids.filter (fun node => d.tag? node = some definitionTag) = definitionIds p
  | .element id tag attributes children, ⟨⟨e, found, same, _⟩, _, stand⟩ => by
      have inner := filter_idsAll stand
      have named_ : d.tag? id = some tag := by rw [tag?, element?, found, ← same]; rfl
      by_cases here : tag = definitionTag <;> simp [ids, definitionIds, named_, here, inner]
  | .text id content, found => by
      have none_ : d.tag? id = none := by rw [tag?, element?, show d.content? id = _ from found]; rfl
      simp [ids, definitionIds, none_]
  | .comment id body, found => by
      have none_ : d.tag? id = none := by rw [tag?, element?, show d.content? id = _ from found]; rfl
      simp [ids, definitionIds, none_]

theorem filter_idsAll : ∀ {ps : List Planted}, StandAll d ps →
    (idsAll ps).filter (fun node => d.tag? node = some definitionTag) = definitionIdsAll ps
  | [], _ => rfl
  | p :: rest, ⟨stands, stand⟩ => by
      rw [idsAll, List.filter_append, filter_ids stands, filter_idsAll stand, definitionIdsAll]

end

/-- The definitions below a fragment are those of the trees in it. -/
theorem definitionNodes_eq (wf : WellFormed d) (isFragment : d.content? fragment = some .fragment)
    (kids : d.children fragment = ps.map Planted.root) (stand : StandAll d ps) :
    definitionNodes fragment d = definitionIdsAll ps := by
  have live : d.contains fragment = true := contains_iff_content?.mpr ⟨_, isFragment⟩
  have none_ : d.tag? fragment = none := by rw [tag?, element?, isFragment]; rfl
  rw [definitionNodes, descendants_eq wf live kids stand, List.filter_cons_of_neg (by simp [none_]),
    filter_idsAll stand]

/-! ## The fragments of the definitions -/

/-- An entry for a definition: its name, and a fragment that holds its content. -/
def Stored (d : Document) (entry : String × NodeId) (pair : String × List Tree) : Prop :=
  entry.1 = pair.1 ∧ Holds d entry.2 pair.2

/-- A tour of another fragment leaves them. -/
theorem stored_of_toured {factory : Factory} {prototype : Prototype} {entries : List (String × NodeId)}
    {pairs : List (String × List Tree)} (toured : Toured fragment d factory prototype d')
    (apart : ∀ entry ∈ entries, entry.2 ≠ fragment) (stored : List.Forall₂ (Stored d) entries pairs) :
    List.Forall₂ (Stored d') entries pairs := by
  refine ((List.forall₂_and_left _ _).mpr ⟨apart, stored⟩).imp fun entry pair found => ?_
  obtain ⟨ne, same, holds⟩ := found
  exact ⟨same, toured.others _ _ ne holds⟩

/-- Prototypes have been made of fragments, and no others are touched. -/
structure Made (fragments : List NodeId) (d : Document) (all : Fields Factory) (prototypes : Fields Prototype)
    (d' : Document) : Prop where
  wellFormed : WellFormed d'
  prototypes_eq : all.mapValues (·.prototype d') = prototypes
  others : ∀ other content, other ∉ fragments → Holds d other content → Holds d' other content

/-- What is made already is still the same behind a tour of another fragment. -/
theorem prototype_congr {factory made : Factory} {prototype : Prototype} (wf : WellFormed d)
    (toured : Toured fragment d made prototype d') (ne : factory.fragment ≠ fragment)
    (held : ∃ content, Holds d factory.fragment content) : factory.prototype d' = factory.prototype d := by
  obtain ⟨content, holds⟩ := held
  rw [Factory.prototype, Factory.prototype, holds.forest_eq wf,
    (toured.others _ _ ne holds).forest_eq toured.wellFormed]

theorem makeNamed_agrees (template : String) : ∀ {entries : List (String × NodeId)} {pairs : List (String × List Tree)}
    {d : Document} (done : Fields Factory), WellFormed d →
      List.Forall₂ (Stored d) entries pairs → (∀ pair ∈ pairs, TidyAll pair.2) → (entries.map Prod.snd).Nodup →
      (∀ entry ∈ done, entry.2.fragment ∉ entries.map Prod.snd ∧ ∃ content, Holds d entry.2.fragment content) →
      Agrees (Made (entries.map Prod.snd) d) (makeNamed template done entries d)
        (compileNamed template (done.mapValues (·.prototype d)) pairs)
  | [], [], d, done, wf, .nil, _, _, _ => ⟨wf, rfl, fun _ _ _ holds => holds⟩
  | (key, node) :: entries, (label, content) :: pairs, d, done, wf, .cons ⟨same, holds⟩ others, tidy, nodup,
      before => by
      cases same
      obtain ⟨clean, tidy⟩ := List.forall_mem_cons.mp tidy
      rw [List.map_cons] at nodup before
      obtain ⟨absent, nodup⟩ := List.nodup_cons.mp nodup
      rw [makeNamed, compileNamed]
      simp only [Fields.get?_mapValues, Option.isSome_map]
      cases taken : (done.get? key).isSome with
      | true => exact (rfl : Fault.duplicate template key = .duplicate template key)
      | false =>
          refine (tour_agrees (some key) wf holds clean).bind fun factory prototype d₁ toured => ?_
          have still : done.mapValues (·.prototype d₁) = done.mapValues (·.prototype d) := by
            refine List.map_congr_left fun entry mem => ?_
            obtain ⟨away, held⟩ := before entry mem
            exact congrArg _ (prototype_congr wf toured (fun eq => away (eq ▸ List.mem_cons_self)) held)
          have more : (done.put key factory).mapValues (·.prototype d₁) =
              (done.mapValues (·.prototype d)).put key prototype := by
            rw [Fields.mapValues_put, still, toured.prototype_eq]
          rw [← more]
          have apart : ∀ entry ∈ entries, entry.2 ≠ node :=
            fun entry mem same => absent (List.mem_map.mpr ⟨entry, mem, same⟩)
          have stored := stored_of_toured toured apart others
          refine (makeNamed_agrees template (done.put key factory) toured.wellFormed stored tidy nodup
            fun entry mem => ?_).mono
            fun all prototypes d₂ made => ⟨made.wellFormed, made.prototypes_eq, fun other content away here => ?_⟩
          · rcases Fields.mem_put mem with rfl | mem
            · exact ⟨toured.fragment_eq ▸ absent, _, toured.fragment_eq ▸ toured.holds⟩
            · obtain ⟨away, content, held⟩ := before entry mem
              exact ⟨fun there => away (List.mem_cons_of_mem _ there), content,
                toured.others _ _ (fun eq => away (eq ▸ List.mem_cons_self)) held⟩
          · rw [List.map_cons, List.mem_cons, not_or] at away
            exact made.others other content away.2 (toured.others other content away.1 here)

/-! ## A source -/

/-- The contents of definitions are tidy, and so is what is kept. -/
theorem tidy_named {forest : List Tree} (tidy : TidyAll forest) {pairs : List (String × List Tree)}
    (found : named name (forestDefinitions forest).reverse = .ok pairs) : ∀ pair ∈ pairs, TidyAll pair.2 := by
  have lasting : ElementProperty.Lasting Distinct := fun _ _ _ _ _ distinct => distinct
  intro pair mem
  have there : (some pair.1, pair.2) ∈ pairs.map fun pair => (some pair.1, pair.2) := List.mem_map_of_mem mem
  rw [← named_eq found, List.map_reverse, List.mem_reverse] at there
  obtain ⟨definition, here, same⟩ := List.mem_map.mp there
  have all := everywhere_forestDefinitions lasting ((tidyAll_iff _).mp tidy) definition here
  rw [(Prod.mk.inj same).2] at all
  exact (tidyAll_iff _).mpr all

theorem tidy_kept {forest : List Tree} (tidy : TidyAll forest) : TidyAll (kept forest) :=
  tidy_libraryOf tidy none

section Root

variable {pairs : List (String × List Tree)} {entries : List (String × NodeId)}
  (extracted : Extracted d fragment [] (stays d [] ps) (idsAll ps) (kept (trees ps)) entries pairs d')
include extracted

/-- The fragment of a source holds what is kept. -/
theorem Extracted.holds_root (isFragment : d.content? fragment = some .fragment) (outside : fragment ∉ idsAll ps) :
    Holds d' fragment (kept (trees ps)) := by
  have live : d.contains fragment = true := contains_iff_content?.mpr ⟨_, isFragment⟩
  have still := (extracted.frame fragment live outside fun mem => absurd mem List.not_mem_nil).1
  obtain ⟨ks, left, stand, same, -⟩ := extracted.remaining
  exact ⟨still.trans isFragment, ks, by simpa [stays, unblanked] using left, stand, same⟩

/-- It is none of the fragments of the definitions. -/
theorem Extracted.apart_root (live : d.contains fragment = true) (outside : fragment ∉ idsAll ps) :
    ∀ entry ∈ entries, entry.2 ≠ fragment := by
  rintro entry mem rfl
  obtain ⟨pair, -, banked⟩ := exists_of_paired extracted.banked mem
  obtain ⟨_, -, -, -, new⟩ := banked.stands
  rcases new entry.2 List.mem_cons_self with mem | dead
  · exact outside mem
  · rw [live] at dead
    cases dead

theorem Extracted.stored : List.Forall₂ (Stored d') entries pairs :=
  extracted.banked.imp fun _ _ banked => ⟨banked.name_eq, banked.holds⟩

end Root

/-- What compiling leaves in a document is the template. -/
abbrev Held (name : String) (assembly : Assembly) (template : Template) (d : Document) : Prop :=
  assembly.template name d = template

/-- From a fragment that holds a forest, the forest is compiled. -/
theorem assembleFrom_agrees {forest : List Tree} (wf : WellFormed d) (holds : Holds d fragment forest)
    (tidy : TidyAll forest) :
    Agrees (Held name) ((do
        let nodes ← Work.ask (definitionNodes fragment)
        let definitions ← takeOutAll name nodes.reverse
        let root ← Factory.make none fragment
        let all ← makeNamed name [] definitions
        return (⟨root, all⟩ : Assembly) : Work Assembly) d) (Template.ofForest name forest) := by
  obtain ⟨ps, kids, stand, rfl⟩ := holds.stands
  have live : d.contains fragment = true := contains_iff_content?.mpr ⟨_, holds.isFragment⟩
  have outside := parent_not_mem [] wf stand kids
  rw [Work.bind_ask, definitionNodes_eq wf holds.isFragment kids stand, Template.ofForest]
  refine (takeOut_trees name [] wf stand live kids).given.bind fun entries pairs d₁ went => ?_
  obtain ⟨extracted, found⟩ := went
  have wf₁ := extracted.wellFormed
  have root := extracted.holds_root holds.isFragment outside
  have apart := extracted.apart_root live outside
  refine (tour_agrees none wf₁ root (tidy_kept tidy)).bind fun factory prototype d₂ toured => ?_
  refine (makeNamed_agrees name [] toured.wellFormed (stored_of_toured toured apart extracted.stored)
    (tidy_named tidy found) extracted.distinct (by simp)).bind fun all prototypes d₃ made => ?_
  have isRoot : factory.prototype d₃ = prototype := by
    have away : factory.fragment ∉ entries.map Prod.snd := fun mem => by
      obtain ⟨entry, here, same⟩ := List.mem_map.mp mem
      exact apart entry here (same.trans toured.fragment_eq)
    have here : Holds d₂ factory.fragment prototype.content := toured.fragment_eq ▸ toured.holds
    rw [← toured.prototype_eq, Factory.prototype, Factory.prototype, here.forest_eq toured.wellFormed,
      (made.others _ _ away here).forest_eq made.wellFormed]
  show Assembly.template ⟨factory, all⟩ name d₃ = ⟨name, prototype, prototypes⟩
  rw [Assembly.template, isRoot, made.prototypes_eq]

/-- Compiling in a document comes to the same end as compiling trees, and is
refused nothing. -/
theorem assemble_agrees (name source : String) :
    Agrees (Held name) (assemble name source Document.new) (Template.compile name source) := by
  rw [assemble, Template.compile]
  cases read : forest? source with
  | error fault =>
      obtain ⟨d', parsed, -⟩ := parse_error wellFormed_new read
      rw [Work.bind_edit parsed]
      exact (rfl : Fault.markup name fault = .markup name fault)
  | ok forest =>
      obtain ⟨fragment, ps, d', parsed, same, potted⟩ := parse_ok wellFormed_new read
      rw [Work.bind_edit parsed]
      exact assembleFrom_agrees potted.wellFormed ⟨potted.isFragment, ps, potted.kids, potted.stand, same⟩
        (tidy_of_forest? read)

/-! ## Which sources compile -/

/-- A source compiles exactly if it is markup whose trees are acceptable; a
comment is bound as an anchor exactly if it reads as one, in every prototype; and
compiling it in a document comes to the same template or the same fault, with no
edit refused. -/
theorem compile_accepts (name source : String) :
    ((∃ template, Template.compile name source = .ok template) ↔
        ∃ forest, forest? source = .ok forest ∧ Acceptable forest) ∧
      (∀ path body place, commentBindings path body = .ok [⟨path, .anchor place⟩] ↔ Anchors body place) ∧
      (∀ template selection prototype, Template.compile name source = .ok template →
        template.prototype? selection = some prototype → ∀ path place, ⟨path, .anchor place⟩ ∈ prototype.bindings ↔
          ∃ body, treeAt? (Library.ofSource source selection) path = some (.comment body) ∧ Anchors body place) ∧
      Agrees (Held name) (assemble name source Document.new) (Template.compile name source) ∧
      ∀ fault d, assemble name source Document.new ≠ .error (.document fault) d := by
  have agrees := assemble_agrees name source
  refine ⟨compile_ok_iff, fun path body place => commentBindings_anchor_iff, ?_, agrees, fun fault d refused => ?_⟩
  · intro template selection prototype compiled known path place
    exact anchor_mem_iff ((compiled_of_compile compiled).of_selection known)
  · rw [refused] at agrees
    exact agrees

/-- A definition inside another one, with blank texts around both, and anchors. -/
def nested : String :=
  "<ul><!-- ${rows} --></ul> " ++
    "<template id=\"row\"><li>${name}</li> <template id=\"cell\"><!--${at}--></template></template>"

theorem compile_accepts_nested : ∃ template assembly d, Template.compile "list" nested = .ok template ∧
    assemble "list" nested Document.new = .ok assembly d ∧ assembly.template "list" d = template ∧
    (∃ forest, forest? nested = .ok forest ∧ Acceptable forest) ∧
    ∃ prototype, template.prototype? (some "cell") = some prototype ∧
      ∃ body, treeAt? (Library.ofSource nested (some "cell")) [0] = some (.comment body) ∧
        Anchors body ⟨["at"]⟩ := by
  have goes : (Template.compile "list" nested).map (fun template =>
      (template.prototype? (some "cell")).map (·.bindings)) = .ok (some [⟨[0], .anchor ⟨["at"]⟩⟩]) := by decide +kernel
  obtain ⟨accepts, -, anchors, agrees, -⟩ := compile_accepts "list" nested
  cases compiled : Template.compile "list" nested with
  | error fault => rw [compiled] at goes; cases goes
  | ok template =>
      rw [compiled] at agrees
      cases assembled : assemble "list" nested Document.new with
      | error stop d => rw [assembled] at agrees; cases stop <;> cases agrees
      | ok assembly d =>
          rw [assembled] at agrees
          rw [compiled] at goes
          obtain ⟨prototype, known, bindings_⟩ := Option.map_eq_some_iff.mp (Except.ok.inj goes)
          have anchor := (anchors template (some "cell") prototype compiled known [0] ⟨["at"]⟩).mp (by simp [bindings_])
          exact ⟨template, assembly, d, rfl, rfl, agrees, accepts.mp ⟨template, compiled⟩, prototype, known, anchor⟩

end Inlay.Template
