/-
# Proofs.Render.Compile — a compiled template and the library of its source

Compiling leaves nothing out and adds nothing: the prototype of every selection
is the cleared content that the library of the source has for it, with the
bindings of that content (`compiled_of_compile`). The definitions of a source
that compiles have distinct names, so that the first of a name is the only one.
-/
import Inlay.Proofs.Data.Sorted
import Inlay.Proofs.Markup.Tidy
import Inlay.Proofs.Render.Expansion
import Inlay.Template.Basic

namespace Inlay.Render

set_option autoImplicit false

open Inlay.Markup Inlay.Template

/-- The prototype is what a content compiles to. -/
structure CompiledFrom (prototype : Prototype) (content : List Tree) : Prop where
  cleared : prototype.content = cleared content
  bound : bindings none [] 0 content = .ok prototype.bindings

/-- Every selection has the prototype of its content in a library. -/
structure Compiled (template : Template) (library : Library) : Prop where
  of_selection : ∀ {selection : Option String} {prototype : Prototype},
    template.prototype? selection = some prototype → CompiledFrom prototype (library selection)
  tidy : ∀ selection, TidyAll (library selection)

/-! ## Tidy contents -/

theorem tidy_libraryOf {forest : List Tree} (tidy : TidyAll forest) (selection : Option String) :
    TidyAll (libraryOf forest selection) := by
  have lasting : ElementProperty.Lasting Distinct := fun _ _ _ _ _ distinct => distinct
  exact (tidyAll_iff _).mpr (everywhere_libraryOf lasting ((tidyAll_iff _).mp tidy) selection)

/-! ## Legible contents -/

mutual

/-- Every placeholder of a tree can be read. -/
def Legible : Tree → Prop
  | .text content => ∃ found, Pattern.read? content = .ok found
  | .comment body => ∀ source, anchorSource? body = some source → (anchorPath? body).isSome
  | .element _ attributes children =>
    (∀ a ∈ attributes, ∃ found, Pattern.read? a.value = .ok found) ∧ LegibleAll children

def LegibleAll : List Tree → Prop
  | [] => True
  | tree :: rest => Legible tree ∧ LegibleAll rest

end

theorem readable_of_attributeBindings {tag : String} {path : List Nat} :
    ∀ {attributes : List Attribute} {index : Nat} {all : List Binding},
      attributeBindings tag path index attributes = .ok all →
        ∀ a ∈ attributes, ∃ found, Pattern.read? a.value = .ok found
  | [], _, _, _ => by simp
  | a :: rest, index, all, bound => by
      cases read : Pattern.read? a.value with
      | error fault => simp [attributeBindings, read, bind, Except.bind] at bound
      | ok found =>
          cases others : attributeBindings tag path (index + 1) rest with
          | error fault => simp [attributeBindings, read, others, bind, Except.bind] at bound
          | ok more => exact List.forall_mem_cons.mpr ⟨⟨found, read⟩, readable_of_attributeBindings others⟩

mutual

theorem legible_of_treeBindings : ∀ {tree : Tree} {parent : Option String} {path : List Nat}
    {all : List Binding}, treeBindings parent path tree = .ok all → Legible tree
  | .text content, parent, path, all, bound => by
      cases read : Pattern.read? content with
      | error fault => simp [treeBindings, textBindings, read, bind, Except.bind] at bound
      | ok found => exact ⟨found, read⟩
  | .comment body, parent, path, all, bound => by
      intro source here
      cases read : Pattern.readPath source with
      | error fault => simp [treeBindings, commentBindings, here, read, bind, Except.bind] at bound
      | ok found => simp [anchorPath?, here, read, Except.toOption]
  | .element tag attributes children, parent, path, all, bound => by
      rw [treeBindings] at bound
      cases own : attributeBindings tag path 0 attributes with
      | error fault => simp [own, bind, Except.bind] at bound
      | ok first =>
          cases below : bindings (some tag) path 0 children with
          | error fault => simp [own, below, bind, Except.bind] at bound
          | ok second => exact ⟨readable_of_attributeBindings own, legible_of_bindings below⟩

theorem legible_of_bindings : ∀ {trees : List Tree} {parent : Option String} {path : List Nat}
    {index : Nat} {all : List Binding}, bindings parent path index trees = .ok all → LegibleAll trees
  | [], _, _, _, _, _ => trivial
  | tree :: rest, parent, path, index, all, bound => by
      rw [bindings] at bound
      cases own : treeBindings parent (path ++ [index]) tree with
      | error fault => simp [own, bind, Except.bind] at bound
      | ok first =>
          cases others : bindings parent path (index + 1) rest with
          | error fault => simp [own, others, bind, Except.bind] at bound
          | ok second => exact ⟨legible_of_treeBindings own, legible_of_bindings others⟩

end

/-! ## Prototypes -/

theorem compiledFrom_of_compile {name : Option String} {content : List Tree} {prototype : Prototype}
    (compiled : Prototype.compile name content = .ok prototype) : CompiledFrom prototype content := by
  cases bound : bindings none [] 0 content with
  | error fault => simp [Prototype.compile, bound, bind, Except.bind] at compiled
  | ok all =>
      simp only [Prototype.compile, bound, bind, Except.bind, pure, Except.pure, Except.ok.injEq] at compiled
      subst compiled
      exact ⟨rfl, bound⟩

/-- What naming definitions gives: each with its id. -/
theorem named_eq {template : String} : ∀ {definitions : List Definition} {pairs : List (String × List Tree)},
    named template definitions = .ok pairs →
      definitions.map (fun definition => (definition.id, definition.content)) =
        pairs.map fun pair => (some pair.1, pair.2)
  | [], pairs, done => by
      cases done
      rfl
  | definition :: rest, pairs, done => by
      cases id : definition.id with
      | none => simp [named, id, throw, throwThe, MonadExceptOf.throw] at done
      | some name =>
          cases others : named template rest with
          | error fault => simp [named, id, others, bind, Except.bind] at done
          | ok more =>
              simp only [named, id, others, bind, Except.bind, pure, Except.pure, Except.ok.injEq] at done
              subst done
              simp [id, named_eq others]

/-- The definitions compiled so far, among which a later one may not repeat a
name, are what their contents compile to. -/
theorem compileNamed_spec {template : String} : ∀ {pairs : List (String × List Tree)}
    {done all : Fields Prototype}, compileNamed template done pairs = .ok all →
      (∀ pair ∈ pairs, done.get? pair.1 = none) ∧ (pairs.map Prod.fst).Nodup ∧
        ∀ name prototype, all.get? name = some prototype →
          done.get? name = some prototype ∨
            ∃ content, (name, content) ∈ pairs ∧ CompiledFrom prototype content
  | [], done, all, compiled => by
      cases compiled
      exact ⟨by simp, List.nodup_nil, fun name prototype found => .inl found⟩
  | (name, content) :: rest, done, all, compiled => by
      cases taken : done.get? name with
      | some old => simp [compileNamed, taken, bind, Except.bind, throw, throwThe,
          MonadExceptOf.throw] at compiled
      | none =>
          cases made : Prototype.compile (some name) content with
          | error fault => simp [compileNamed, taken, made, bind, Except.bind] at compiled
          | ok prototype =>
              simp only [compileNamed, taken, made, bind, Except.bind, Option.isSome_none,
                Bool.false_eq_true, if_false] at compiled
              obtain ⟨free, nodup, found⟩ := compileNamed_spec compiled
              simp only [Fields.get?_put] at free found
              have other : ∀ pair ∈ rest, pair.1 ≠ name ∧ done.get? pair.1 = none := by
                intro pair mem
                have := free pair mem
                split at this
                · cases this
                · next ne => exact ⟨ne, this⟩
              refine ⟨List.forall_mem_cons.mpr ⟨taken, fun pair mem => (other pair mem).2⟩, ?_, ?_⟩
              · refine List.nodup_cons.mpr ⟨fun mem => ?_, nodup⟩
                obtain ⟨pair, there, same⟩ := List.mem_map.mp mem
                exact (other pair there).1 same
              · intro key proto here
                rcases found key proto here with old | ⟨raw, mem, from_⟩
                · split at old
                  · next same =>
                      cases old
                      subst same
                      exact .inr ⟨content, List.mem_cons_self, compiledFrom_of_compile made⟩
                  · exact .inl old
                · exact .inr ⟨raw, List.mem_cons_of_mem _ mem, from_⟩

/-- Of definitions with distinct ids, one is found by its id. -/
theorem find?_id {definitions : List Definition} {pairs : List (String × List Tree)}
    (ids : definitions.map (fun definition => (definition.id, definition.content)) =
      pairs.map fun pair => (some pair.1, pair.2))
    (nodup : (pairs.map Prod.fst).Nodup) {name : String} {content : List Tree}
    (mem : (name, content) ∈ pairs) :
    (definitions.find? (·.id = some name)).map (·.content) = some content := by
  induction definitions generalizing pairs with
  | nil =>
      cases pairs with
      | nil => cases mem
      | cons pair rest => cases ids
  | cons definition others ih =>
      cases pairs with
      | nil => cases mem
      | cons pair rest =>
          simp only [List.map_cons, List.cons.injEq, Prod.mk.injEq] at ids
          obtain ⟨⟨id, same⟩, ids⟩ := ids
          simp only [List.map_cons, List.nodup_cons] at nodup
          by_cases here : pair.1 = name
          · rw [List.find?_cons_of_pos (by simp [id, here]), Option.map_some]
            rcases List.mem_cons.mp mem with first | later
            · rw [same, ← first]
            · exact absurd (List.mem_map_of_mem (f := Prod.fst) later) (here ▸ nodup.1)
          · rw [List.find?_cons_of_neg (by simp [id, here])]
            rcases List.mem_cons.mp mem with first | later
            · exact absurd (by rw [← first]) here
            · exact ih ids nodup.2 later

/-- A template holds what the library of its source holds. -/
theorem compiled_of_ofForest {name : String} {forest : List Tree} {template : Template}
    (tidy : TidyAll forest) (compiled : Template.ofForest name forest = .ok template) :
    Compiled template (libraryOf forest) := by
  cases ids : named name (forestDefinitions forest).reverse with
  | error fault => simp [Template.ofForest, ids, bind, Except.bind] at compiled
  | ok pairs =>
      cases root : Prototype.compile none (kept forest) with
      | error fault => simp [Template.ofForest, ids, root, bind, Except.bind] at compiled
      | ok prototype =>
          cases all : compileNamed name [] pairs with
          | error fault => simp [Template.ofForest, ids, root, all, bind, Except.bind] at compiled
          | ok definitions =>
              simp only [Template.ofForest, ids, root, all, bind, Except.bind, pure, Except.pure,
                Except.ok.injEq] at compiled
              subst compiled
              refine ⟨fun {selection} {found} here => ?_, tidy_libraryOf tidy⟩
              cases selection with
              | none =>
                  cases here
                  exact compiledFrom_of_compile root
              | some key =>
                  obtain ⟨-, nodup, made⟩ := compileNamed_spec all
                  rcases made key found here with old | ⟨content, mem, from_⟩
                  · cases old
                  · have forward : (forestDefinitions forest).map
                        (fun definition => (definition.id, definition.content)) =
                        pairs.reverse.map fun pair => (some pair.1, pair.2) := by
                      rw [List.map_reverse, ← named_eq ids, List.map_reverse, List.reverse_reverse]
                    have found := find?_id forward
                      (by rw [List.map_reverse]; exact List.nodup_reverse.mpr nodup)
                      (List.mem_reverse.mpr mem)
                    have same : libraryOf forest (some key) = content := by
                      rw [libraryOf, found, Option.getD_some]
                    exact same ▸ from_

theorem compiled_of_compile {name source : String} {template : Template}
    (compiled : Template.compile name source = .ok template) :
    Compiled template (.ofSource source) := by
  unfold Library.ofSource
  cases read : forest? source with
  | error fault => simp [Template.compile, read] at compiled
  | ok forest =>
      simp only [Template.compile, read] at compiled
      exact compiled_of_ofForest (tidy_of_forest? read) compiled

end Inlay.Render
