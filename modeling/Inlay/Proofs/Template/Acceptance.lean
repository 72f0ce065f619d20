/-
# Proofs.Template.Acceptance — which sources can be compiled

`Acceptable` says it of the trees of a source, node by node: every definition at
any depth has an id, no two have the same, and every placeholder outside the tags
of definitions can be read. Nothing depends on the order in which definitions are
taken out, nor on which content a node ends up in: the contents that `kept` and
`forestDefinitions` make share the nodes of the source among them, up to blank
texts and the definitions themselves (`properAll_iff`).
-/
import Inlay.Proofs.Render.Compile
import Inlay.Proofs.Template.Splitting

namespace Inlay.Template

set_option autoImplicit false

open Inlay.Markup Inlay.Text Inlay.Render Inlay.Path

variable {tree : Tree} {trees forest : List Tree} {tag name template : String}

/-! ## Nodes -/

mutual

/-- The tree and the trees inside it, each before those inside it. -/
def nodes : Tree → List Tree
  | .element tag attributes children => .element tag attributes children :: nodesAll children
  | .text content => [.text content]
  | .comment body => [.comment body]

def nodesAll : List Tree → List Tree
  | [] => []
  | tree :: rest => nodes tree ++ nodesAll rest

end

/-- The id that a definition is given. -/
def givenId : Tree → Option String
  | .element tag attributes _ => if tag = definitionTag then Attribute.find? "id" attributes else none
  | .text _ => none
  | .comment _ => none

/-- What the trees of a source must be for it to be compiled. -/
structure Acceptable (forest : List Tree) : Prop where
  identified : ∀ attributes children, .element definitionTag attributes children ∈ nodesAll forest →
    ∃ id, Attribute.find? "id" attributes = some id ∧ id ≠ ""
  distinct : ((nodesAll forest).filterMap givenId).Nodup
  texts : ∀ content, .text content ∈ nodesAll forest → opener <:+: content.toList →
    ∃ parts, Splits content.toList parts
  values : ∀ tag attributes children, .element tag attributes children ∈ nodesAll forest →
    tag ≠ definitionTag → ∀ a ∈ attributes, opener <:+: a.value.toList → ∃ parts, Splits a.value.toList parts
  comments : ∀ body, .comment body ∈ nodesAll forest → ∀ source, trim body.toList = opener ++ source ++ closer →
    ¬ closer <:+: source → ¬ opener <:+: source → ∃ path, Spells source path

/-! ## Contents that can be compiled -/

theorem attributeBindings_of_readable (tag : String) (path : List Nat) : ∀ {attributes : List Attribute}
    (index : Nat), (∀ a ∈ attributes, ∃ found, Pattern.read? a.value = .ok found) →
      ∃ all, attributeBindings tag path index attributes = .ok all
  | [], _, _ => ⟨[], rfl⟩
  | a :: rest, index, readable => by
      obtain ⟨⟨found, read⟩, others⟩ := List.forall_mem_cons.mp readable
      obtain ⟨more, done⟩ := attributeBindings_of_readable tag path (index + 1) others
      cases found <;> simp [attributeBindings, read, done, bind, Except.bind, pure, Except.pure]

mutual

theorem treeBindings_of_legible : ∀ {tree : Tree} (parent : Option String) (path : List Nat), Legible tree →
    ∃ all, treeBindings parent path tree = .ok all
  | .text content, parent, path, ⟨found, read⟩ => by
      cases found <;> simp [treeBindings, textBindings, read, bind, Except.bind, pure, Except.pure]
  | .comment body, parent, path, legible => by
      cases here : anchorSource? body with
      | none => exact ⟨[], by simp [treeBindings, commentBindings, here, pure, Except.pure]⟩
      | some source =>
          cases read : Pattern.readPath source with
          | error fault =>
              have := legible source here
              simp [anchorPath?, here, read, Except.toOption] at this
          | ok found =>
              simp [treeBindings, commentBindings, here, read, bind, Except.bind, pure, Except.pure]
  | .element tag attributes children, parent, path, ⟨own, below⟩ => by
      obtain ⟨first, here⟩ := attributeBindings_of_readable tag path 0 own
      obtain ⟨second, inner⟩ := bindings_of_legible (some tag) path 0 below
      exact ⟨first ++ second, by simp [treeBindings, here, inner, bind, Except.bind, pure, Except.pure]⟩

theorem bindings_of_legible : ∀ {trees : List Tree} (parent : Option String) (path : List Nat) (index : Nat),
    LegibleAll trees → ∃ all, bindings parent path index trees = .ok all
  | [], _, _, _, _ => ⟨[], rfl⟩
  | tree :: rest, parent, path, index, ⟨here, others⟩ => by
      obtain ⟨first, own⟩ := treeBindings_of_legible parent (path ++ [index]) here
      obtain ⟨second, more⟩ := bindings_of_legible parent path (index + 1) others
      exact ⟨first ++ second, by simp [bindings, own, more, bind, Except.bind, pure, Except.pure]⟩

end

/-- A content makes a prototype exactly if all its placeholders can be read. -/
theorem prototype_ok_iff (label : Option String) (trees : List Tree) :
    (∃ prototype, Prototype.compile label trees = .ok prototype) ↔ LegibleAll trees := by
  constructor
  · rintro ⟨prototype, compiled⟩
    exact legible_of_bindings (compiledFrom_of_compile compiled).bound
  · intro legible
    obtain ⟨all, bound⟩ := bindings_of_legible none [] 0 legible
    exact ⟨⟨label, cleared trees, all⟩, by simp [Prototype.compile, bound, bind, Except.bind, pure, Except.pure]⟩

/-! ## Nodes of contents -/

mutual

/-- Every placeholder outside the tags of definitions can be read. -/
def Proper : Tree → Prop
  | .element tag attributes children =>
    (tag ≠ definitionTag → ∀ a ∈ attributes, ∃ found, Pattern.read? a.value = .ok found) ∧ ProperAll children
  | .text content => Legible (.text content)
  | .comment body => Legible (.comment body)

def ProperAll : List Tree → Prop
  | [] => True
  | tree :: rest => Proper tree ∧ ProperAll rest

end

theorem legible_of_isBlankText (blank : isBlankText tree = true) : Legible tree := by
  cases tree with
  | element tag attributes children => cases blank
  | comment body => cases blank
  | text content =>
      refine readable_iff.mpr fun holds => ?_
      -- a blank text has no characters but blanks, and `$` is none
      rcases mem_of_mem_trim_or_blank (holds.subset List.mem_cons_self) with kept | isBlank
      · rw [List.isEmpty_iff.mp blank] at kept
        cases kept
      · exact absurd isBlank (by decide)

theorem legibleAll_dropBlank : LegibleAll (dropBlank trees) ↔ LegibleAll trees := by
  cases trees with
  | nil => exact Iff.rfl
  | cons tree rest =>
      rw [dropBlank]
      split
      · next blank => exact ⟨fun others => ⟨legible_of_isBlankText blank, others⟩, fun all => all.2⟩
      · exact Iff.rfl

mutual

theorem proper_iff : ∀ tree : Tree, Proper tree ↔ (isDefinition tree = false → Legible (keptTree tree)) ∧
    ∀ definition ∈ treeDefinitions tree, LegibleAll definition.content
  | .text content => by simp [Proper, isDefinition, keptTree, treeDefinitions]
  | .comment body => by simp [Proper, isDefinition, keptTree, treeDefinitions]
  | .element tag attributes children => by
      have inner := properAll_iff children
      by_cases here : tag = definitionTag
      · simp [Proper, isDefinition, treeDefinitions, here, inner]
      · simp [Proper, isDefinition, treeDefinitions, here, inner, keptTree, Legible, and_assoc]

/-- The placeholders outside the tags of definitions are those of the contents. -/
theorem properAll_iff : ∀ trees : List Tree, ProperAll trees ↔ LegibleAll (kept trees) ∧
    ∀ definition ∈ forestDefinitions trees, LegibleAll definition.content
  | [] => by simp [ProperAll, kept, LegibleAll, forestDefinitions]
  | tree :: rest => by
      have here := proper_iff tree
      have others := properAll_iff rest
      rw [ProperAll, here, others, forestDefinitions, List.forall_mem_append, kept]
      cases isDef : isDefinition tree with
      | true =>
          rw [if_pos rfl, legibleAll_dropBlank]
          simp only [Bool.true_eq_false, false_implies, true_and]
          exact and_left_comm
      | false =>
          rw [if_neg Bool.false_ne_true]
          split
          · next blank =>
            have isText := (Bool.and_eq_true _ _ ▸ blank).1
            have same : keptTree tree = tree := by
              cases tree with
              | element tag attributes children => cases isText
              | text content => rfl
              | comment body => rfl
            simp only [same, legible_of_isBlankText isText, implies_true, true_and]
            exact and_left_comm
          · simp only [LegibleAll, true_implies]
            exact and_and_and_comm

end

mutual

theorem proper_iff_nodes : ∀ tree : Tree, Proper tree ↔ ∀ node ∈ nodes tree, match node with
    | .element tag attributes _ =>
      tag ≠ definitionTag → ∀ a ∈ attributes, ∃ found, Pattern.read? a.value = .ok found
    | node => Legible node
  | .text content => by simp [Proper, nodes]
  | .comment body => by simp [Proper, nodes]
  | .element tag attributes children => by
      rw [Proper, nodes, List.forall_mem_cons, properAll_iff_nodes children]

theorem properAll_iff_nodes : ∀ trees : List Tree, ProperAll trees ↔ ∀ node ∈ nodesAll trees, match node with
    | .element tag attributes _ =>
      tag ≠ definitionTag → ∀ a ∈ attributes, ∃ found, Pattern.read? a.value = .ok found
    | node => Legible node
  | [] => by simp [ProperAll, nodesAll]
  | tree :: rest => by
      rw [ProperAll, nodesAll, List.forall_mem_append, proper_iff_nodes tree, properAll_iff_nodes rest]

end

theorem legible_comment_iff {body : String} : Legible (.comment body) ↔ ∀ source,
    trim body.toList = opener ++ source ++ closer → ¬ closer <:+: source → ¬ opener <:+: source →
      ∃ path, Spells source path := by
  have readable : ∀ source, anchorSource? body = some source →
      ((anchorPath? body).isSome = true ↔ ∃ path, Spells source path) := by
    intro source here
    simp only [← readPath_eq_ok, anchorPath?, here, Option.bind_some]
    cases Pattern.readPath source <;> simp [Except.toOption]
  simp only [Legible]
  constructor
  · intro legible source whole unclosed unopened
    have here := anchorSource?_eq_some.mpr ⟨whole, unclosed, unopened⟩
    exact (readable source here).mp (legible source here)
  · intro spelled source here
    obtain ⟨whole, unclosed, unopened⟩ := anchorSource?_eq_some.mp here
    exact (readable source here).mpr (spelled source whole unclosed unopened)

/-! ## Ids -/

/-- The id that a definition is given, unless it is empty. -/
def countedId (node : Tree) : Option String := (givenId node).filter (· ≠ "")

theorem countedId_isSome {node : Tree} : (countedId node).isSome = true ↔ ∃ id, givenId node = some id ∧ id ≠ "" := by
  simp [countedId, Option.isSome_filter, Option.any_eq_true]

theorem givenId_of_not_isDefinition {node : Tree} (other : isDefinition node = false) : givenId node = none := by
  cases node with
  | element tag attributes children => exact if_neg (by simpa [isDefinition] using other)
  | text content => rfl
  | comment body => rfl

mutual

/-- The definitions are the definitions among the nodes, in their order. -/
theorem map_id_treeDefinitions : ∀ tree : Tree,
    (treeDefinitions tree).map (·.id) = ((nodes tree).filter isDefinition).map countedId
  | .text _ => rfl
  | .comment _ => rfl
  | .element tag attributes children => by
      have inner := map_id_forestDefinitions children
      by_cases here : tag = definitionTag
      · simp [treeDefinitions, nodes, isDefinition, here, inner, countedId, givenId, definedId]
      · simp [treeDefinitions, nodes, isDefinition, here, inner]

theorem map_id_forestDefinitions : ∀ trees : List Tree,
    (forestDefinitions trees).map (·.id) = ((nodesAll trees).filter isDefinition).map countedId
  | [] => rfl
  | tree :: rest => by
      rw [forestDefinitions, nodesAll, List.map_append, List.filter_append, List.map_append,
        map_id_treeDefinitions tree, map_id_forestDefinitions rest]

end

/-- Among nodes whose definitions have ids, those are the ids that nodes are given. -/
theorem map_countedId : ∀ {nodes : List Tree},
    (∀ node ∈ nodes, isDefinition node = true → (countedId node).isSome = true) →
      (nodes.filter isDefinition).map countedId = (nodes.filterMap givenId).map some
  | [], _ => rfl
  | node :: rest, identified => by
      obtain ⟨here, others⟩ := List.forall_mem_cons.mp identified
      have more := map_countedId others
      cases isDef : isDefinition node with
      | true =>
          obtain ⟨id, given, some_⟩ := countedId_isSome.mp (here isDef)
          have counted : countedId node = some id := by simp [countedId, given, some_]
          rw [List.filter_cons_of_pos isDef, List.map_cons, more, List.filterMap_cons_some given, List.map_cons,
            counted]
      | false =>
          rw [List.filter_cons_of_neg (by simp [isDef]), more,
            List.filterMap_cons_none (givenId_of_not_isDefinition isDef)]

theorem named_ok_iff (template : String) : ∀ definitions : List Definition,
    (∃ pairs, named template definitions = .ok pairs) ↔ ∀ definition ∈ definitions, definition.id.isSome
  | [] => by simp [named, pure, Except.pure]
  | definition :: rest => by
      rw [List.forall_mem_cons, ← named_ok_iff template rest]
      cases id : definition.id with
      | none => simp [named, id, throw, throwThe, MonadExceptOf.throw]
      | some name =>
          cases others : named template rest <;> simp [named, id, others, bind, Except.bind, pure, Except.pure]

/-- Definitions compile exactly if their names are free and distinct and their contents compile. -/
theorem compileNamed_ok_iff : ∀ (pairs : List (String × List Tree)) (done : Fields Prototype),
    (∃ all, compileNamed template done pairs = .ok all) ↔
      (∀ pair ∈ pairs, done.get? pair.1 = none) ∧ (pairs.map Prod.fst).Nodup ∧ ∀ pair ∈ pairs, LegibleAll pair.2
  | [], done => by simp [compileNamed, pure, Except.pure]
  | (name, content) :: rest, done => by
      simp only [List.forall_mem_cons, List.map_cons, List.nodup_cons]
      cases taken : done.get? name with
      | some old => simp [compileNamed, taken, bind, Except.bind, throw, throwThe, MonadExceptOf.throw]
      | none =>
          have compiles := prototype_ok_iff (some name) content
          cases made : Prototype.compile (some name) content with
          | error fault =>
              have illegible : ¬ LegibleAll content := fun legible => by
                obtain ⟨prototype, compiled⟩ := compiles.mpr legible
                rw [made] at compiled
                cases compiled
              simp [compileNamed, taken, made, illegible, bind, Except.bind]
          | ok prototype =>
              have legible := compiles.mp ⟨prototype, made⟩
              have others := compileNamed_ok_iff rest (done.put name prototype)
              simp only [compileNamed, taken, made, bind, Except.bind, Option.isSome_none, Bool.false_eq_true,
                if_false]
              rw [others]
              have free : (∀ pair ∈ rest, (done.put name prototype).get? pair.1 = none) ↔
                  (∀ pair ∈ rest, done.get? pair.1 = none) ∧ name ∉ rest.map Prod.fst := by
                simp only [Fields.get?_put, List.mem_map, not_exists, not_and]
                constructor
                · intro all
                  refine ⟨fun pair mem => ?_, fun pair mem same => ?_⟩
                  · have := all pair mem
                    split at this
                    · cases this
                    · exact this
                  · have := all pair mem
                    rw [if_pos same] at this
                    cases this
                · rintro ⟨all, apart⟩ pair mem
                  rw [if_neg (apart pair mem)]
                  exact all pair mem
              rw [free]
              tauto

/-! ## Sources that can be compiled -/

theorem ofForest_ok_iff : (∃ result, Template.ofForest name forest = .ok result) ↔
    (∀ definition ∈ forestDefinitions forest, definition.id.isSome) ∧
      ((forestDefinitions forest).map (·.id)).Nodup ∧ ProperAll forest := by
  have ids := named_ok_iff name (forestDefinitions forest).reverse
  have root := prototype_ok_iff none (kept forest)
  simp only [List.mem_reverse] at ids
  rw [properAll_iff, ← ids, ← root, Template.ofForest]
  cases found : named name (forestDefinitions forest).reverse with
  | error fault => simp [bind, Except.bind]
  | ok pairs =>
      have split := named_eq found
      have names : ((forestDefinitions forest).map (·.id)).reverse = (pairs.map Prod.fst).map some := by
        simpa [Function.comp_def] using congrArg (List.map Prod.fst) split
      have contents : ((forestDefinitions forest).map (·.content)).reverse = pairs.map Prod.snd := by
        simpa [Function.comp_def] using congrArg (List.map Prod.snd) split
      have nodup : ((forestDefinitions forest).map (·.id)).Nodup ↔ (pairs.map Prod.fst).Nodup := by
        rw [← List.nodup_reverse, names, List.nodup_map_iff (fun _ _ same => Option.some.inj same)]
      have legible : (∀ definition ∈ forestDefinitions forest, LegibleAll definition.content) ↔
          ∀ pair ∈ pairs, LegibleAll pair.2 := by
        calc (∀ definition ∈ forestDefinitions forest, LegibleAll definition.content)
            ↔ ∀ content ∈ ((forestDefinitions forest).map (·.content)).reverse, LegibleAll content := by simp
          _ ↔ ∀ content ∈ pairs.map Prod.snd, LegibleAll content := by rw [contents]
          _ ↔ ∀ pair ∈ pairs, LegibleAll pair.2 := List.forall_mem_map
      have definitions : (∃ all, compileNamed name [] pairs = .ok all) ↔
          (pairs.map Prod.fst).Nodup ∧ ∀ pair ∈ pairs, LegibleAll pair.2 := by
        rw [compileNamed_ok_iff]
        exact and_iff_right fun _ _ => rfl
      rw [nodup, legible]
      simp only [bind, Except.bind, pure, Except.pure]
      cases Prototype.compile none (kept forest) with
      | error fault => simp
      | ok prototype =>
          simp only [Except.ok.injEq, exists_eq', true_and, ← definitions]
          cases compileNamed name [] pairs <;> simp

/-- The trees that can be compiled, by their nodes. -/
theorem acceptable_iff : Acceptable forest ↔
    (∀ definition ∈ forestDefinitions forest, definition.id.isSome) ∧
      ((forestDefinitions forest).map (·.id)).Nodup ∧ ProperAll forest := by
  have ids : (∀ definition ∈ forestDefinitions forest, definition.id.isSome) ↔
      ∀ node ∈ nodesAll forest, isDefinition node = true → (countedId node).isSome = true := by
    calc (∀ definition ∈ forestDefinitions forest, definition.id.isSome)
        ↔ ∀ id ∈ (forestDefinitions forest).map (·.id), id.isSome := by rw [List.forall_mem_map]
      _ ↔ ∀ id ∈ ((nodesAll forest).filter isDefinition).map countedId, id.isSome := by
          rw [map_id_forestDefinitions]
      _ ↔ ∀ node ∈ nodesAll forest, isDefinition node = true → (countedId node).isSome = true := by
          simp only [List.forall_mem_map, List.mem_filter, and_imp]
  rw [ids, map_id_forestDefinitions, properAll_iff_nodes]
  have distinct : (∀ node ∈ nodesAll forest, isDefinition node = true → (countedId node).isSome = true) →
      ((((nodesAll forest).filter isDefinition).map countedId).Nodup ↔
        ((nodesAll forest).filterMap givenId).Nodup) := by
    intro identified
    rw [map_countedId identified, List.nodup_map_iff (fun _ _ same => Option.some.inj same)]
  constructor
  · intro acceptable
    have identified : ∀ node ∈ nodesAll forest, isDefinition node = true → (countedId node).isSome = true := by
      intro node mem isDef
      cases node with
      | element tag attributes children =>
          obtain rfl : tag = definitionTag := by simpa [isDefinition] using isDef
          exact countedId_isSome.mpr (by simpa [givenId] using acceptable.identified attributes children mem)
      | text content => cases isDef
      | comment body => cases isDef
    refine ⟨identified, (distinct identified).mpr acceptable.distinct, fun node mem => ?_⟩
    cases node with
    | element tag attributes children =>
        exact fun other a here => readable_iff.mpr (acceptable.values tag attributes children mem other a here)
    | text content => exact readable_iff.mpr (acceptable.texts content mem)
    | comment body => exact legible_comment_iff.mpr (acceptable.comments body mem)
  · rintro ⟨identified, nodup, proper⟩
    refine ⟨fun attributes children mem => ?_, (distinct identified).mp nodup, fun content mem => ?_,
      fun tag attributes children mem other a here => ?_, fun body mem => ?_⟩
    · simpa [givenId] using countedId_isSome.mp (identified _ mem (by simp [isDefinition]))
    · exact readable_iff.mp (proper _ mem)
    · exact readable_iff.mp (proper _ mem other a here)
    · exact legible_comment_iff.mp (proper _ mem)

/-- A source is compiled exactly if it is markup whose trees can be compiled. -/
theorem compile_ok_iff {source : String} : (∃ result, Template.compile name source = .ok result) ↔
    ∃ forest, forest? source = .ok forest ∧ Acceptable forest := by
  rw [Template.compile]
  cases forest? source with
  | error fault => simp
  | ok forest => simp [acceptable_iff, ofForest_ok_iff]

/-! ## Anchors -/

/-- A comment is bound as an anchor if it reads as one. -/
theorem commentBindings_anchor_iff {path : List Nat} {body : String} {place : Path} :
    commentBindings path body = .ok [⟨path, .anchor place⟩] ↔ Anchors body place := by
  rw [anchors_iff, commentBindings]
  cases source : anchorSource? body with
  | none => simp [pure, Except.pure]
  | some source' =>
      cases read : Pattern.readPath source' with
      | error fault => simp [read, bind, Except.bind]
      | ok found => simp [read, bind, Except.bind, pure, Except.pure]

/-- The anchors of a prototype are the comments of its content that read as one. -/
theorem anchor_mem_iff {prototype : Prototype} {content : List Tree} (compiled : CompiledFrom prototype content)
    {path : List Nat} {place : Path} : ⟨path, .anchor place⟩ ∈ prototype.bindings ↔
      ∃ body, treeAt? content path = some (.comment body) ∧ Anchors body place := by
  have listed := listed_of_bindings compiled.bound
  simp only [treeAt?, Option.map_eq_some_iff, anchors_iff]
  constructor
  · intro mem
    obtain ⟨sub, node, same, here, -, suits⟩ := listed.sound _ mem
    obtain rfl : path = sub := same
    cases suits with
    | @anchor parent body source _ found read => exact ⟨body, ⟨_, here, rfl⟩, source, found, read⟩
  · rintro ⟨body, ⟨⟨parent, _⟩, here, rfl⟩, source, found, read⟩
    have opened : Open (.comment body) none := .comment (singlePlaceholder_iff.mpr (found ▸ rfl))
    obtain ⟨binding, mem, site⟩ := List.mem_map.mp (listed.complete path _ none here opened)
    obtain ⟨sub, node, same, there, -, suits⟩ := listed.sound binding mem
    obtain rfl : sub = path := by
      have first := congrArg Prod.fst site
      rw [Binding.site_eq, same] at first
      exact first
    cases here.symm.trans there
    obtain ⟨there, target⟩ := binding
    obtain rfl : there = sub := same
    cases suits with
    | anchor found' read' =>
        cases found.symm.trans found'
        cases read.symm.trans read'
        exact mem

end Inlay.Template
