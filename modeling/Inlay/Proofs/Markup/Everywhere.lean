/-
# Proofs.Markup.Everywhere — what holds of every element that is read

A property of an element's tag, attributes and number of children that holds of
the pieces of a source holds of every element of its trees
(`everywhere_of_forest?`). When it does not mind fewer children, it holds as well
of what a template keeps and defines (`everywhere_ofSource`).

So no element has two attributes of one name (`Proofs.Markup.Tidy`), and no raw
element has two children (`slim_ofSource`): it is complete where its opening tag
stands, and its content is one text or nothing.
-/
import Inlay.Markup.Forest
import Inlay.Proofs.Render.Expansion

namespace Inlay.Markup

set_option autoImplicit false

/-- What may hold of an element: its tag, its attributes and how many children
it has. -/
abbrev ElementProperty := String → List Attribute → Nat → Prop

/-- The property stays when children are left out. -/
def ElementProperty.Lasting (holds : ElementProperty) : Prop :=
  ∀ tag attributes more less, less ≤ more → holds tag attributes more → holds tag attributes less

variable {holds : ElementProperty}

mutual

/-- The property holds of every element of the tree. -/
def Everywhere (holds : ElementProperty) : Tree → Prop
  | .element tag attributes children =>
      holds tag attributes children.length ∧ EverywhereAll holds children
  | .text _ => True
  | .comment _ => True

def EverywhereAll (holds : ElementProperty) : List Tree → Prop
  | [] => True
  | tree :: rest => Everywhere holds tree ∧ EverywhereAll holds rest

end

theorem everywhereAll_iff {trees : List Tree} :
    EverywhereAll holds trees ↔ ∀ tree ∈ trees, Everywhere holds tree := by
  induction trees with
  | nil => simp [EverywhereAll]
  | cons tree rest ih => simp [EverywhereAll, ih]

/-! ## Trees under construction -/

/-- Whatever the piece becomes has the property. -/
def Piece.Has (holds : ElementProperty) : Piece → Prop
  | .opening tag attributes => ∀ count, holds tag attributes count
  | .empty tag attributes => holds tag attributes 0
  | .raw tag attributes _ => ∀ count ≤ 1, holds tag attributes count
  | _ => True

namespace Growth

variable {growth : Growth}

/-- What is built so far has the property, and what is open will have it. -/
structure Has (holds : ElementProperty) (growth : Growth) : Prop where
  children : EverywhereAll holds growth.children
  opened : ∀ element ∈ growth.opened,
    (∀ count, holds element.tag element.attributes count) ∧ EverywhereAll holds element.before

theorem Has.flush (has : growth.Has holds) : growth.flush.Has holds := by
  unfold Growth.flush
  split
  · exact has
  · exact ⟨⟨trivial, has.children⟩, has.opened⟩

theorem Has.add {tree : Tree} (has : growth.Has holds) (here : Everywhere holds tree) :
    (growth.add tree).Has holds :=
  ⟨⟨here, has.flush.children⟩, has.flush.opened⟩

theorem Has.close : ∀ {growth : Growth}, growth.Has holds → ∀ count : Nat, (growth.close count).Has holds
  | _, has, 0 => has
  | ⟨[], _, _⟩, has, _ + 1 => has
  | ⟨element :: outer, children, gathered⟩, has, count + 1 => by
      obtain ⟨here, outside⟩ := List.forall_mem_cons.mp has.opened
      have turned : EverywhereAll holds children.reverse := by
        apply everywhereAll_iff.mpr
        exact fun tree mem => everywhereAll_iff.mp has.children tree (List.mem_reverse.mp mem)
      have closed : Growth.Has holds ⟨outer, .element element.tag element.attributes children.reverse ::
          element.before, gathered⟩ := ⟨⟨⟨here.1 _, turned⟩, here.2⟩, outside⟩
      exact closed.close count

theorem Has.step (has : growth.Has holds) :
    ∀ {piece : Piece}, piece.Has holds → (growth.step piece).Has holds
  | .text _, _ => ⟨has.children, has.opened⟩
  | .comment _, _ => has.add trivial
  | .empty _ _, here => has.add ⟨here, trivial⟩
  | .raw _ _ content, here => by
      apply has.add
      unfold rawChildren
      split
      · exact ⟨here 0 (Nat.zero_le _), trivial⟩
      · exact ⟨here 1 (Nat.le_refl _), trivial, trivial⟩
  | .opening _ _, here => by
      have flushed := has.flush
      exact ⟨trivial, List.forall_mem_cons.mpr ⟨⟨here, flushed.children⟩, flushed.opened⟩⟩
  | .closing _, _ => by
      simp only [Growth.step]
      split
      · exact has.flush.close _
      · exact has.flush

theorem Has.steps (pieces : List Piece) {growth : Growth} (has : growth.Has holds)
    (all : ∀ piece ∈ pieces, piece.Has holds) : (pieces.foldl Growth.step growth).Has holds := by
  induction pieces generalizing growth with
  | nil => exact has
  | cons piece rest ih =>
      obtain ⟨here, others⟩ := List.forall_mem_cons.mp all
      exact ih (has.step here) others

theorem Has.finish (has : growth.Has holds) : EverywhereAll holds growth.finish := by
  have closed := has.flush.close growth.flush.opened.length
  apply everywhereAll_iff.mpr
  exact fun tree mem => everywhereAll_iff.mp closed.children tree (List.mem_reverse.mp mem)

end Growth

/-- What the pieces of every text have, the elements of every source have. -/
theorem everywhere_of_forest? (all : ∀ size input, ∀ piece ∈ (Reading.readFrom size input).pieces,
      piece.Has holds) {source : String} {forest : List Tree} (read : forest? source = .ok forest) :
    EverywhereAll holds forest := by
  unfold forest? at read
  simp only at read
  split at read
  · cases read
  · cases read
    have start : Growth.start.Has holds := ⟨trivial, by simp [Growth.start]⟩
    exact (start.steps _ (all _ _)).finish

/-! ## Raw elements -/

/-- A raw element has at most one child. -/
def Slim (tag : String) (_ : List Attribute) (count : Nat) : Prop := isRaw tag = true → count ≤ 1

theorem slim_ofOpenTag (tag : String) (opened : OpenTag) :
    (Reading.ofOpenTag tag opened).1.Has Slim := by
  unfold Reading.ofOpenTag
  split
  · exact fun _ => Nat.zero_le _
  split
  · exact fun _ small _ => small
  · next plain => exact fun _ raw => absurd raw plain

theorem slim_of_readFrom (size : Nat) (input : List Char) :
    ∀ piece ∈ (Reading.readFrom size input).pieces, piece.Has Slim := by
  have push : ∀ {piece : Piece} {reading : Reading}, piece.Has Slim →
      (∀ p ∈ reading.pieces, p.Has Slim) → ∀ p ∈ (reading.push piece).pieces, p.Has Slim := by
    intro piece reading here others p mem
    rcases List.mem_cons.mp mem with rfl | mem
    · exact here
    · exact others p mem
  fun_induction Reading.readFrom size input with
  | case1 => intro piece mem; cases mem
  | case2 _ _ _ _ ih => exact push trivial ih
  | case3 _ _ _ ih => exact push trivial ih
  | case4 _ _ _ ih => exact ih
  | case5 _ _ _ _ ih => exact push trivial ih
  | case6 _ _ _ _ ih => exact push trivial ih
  | case7 => intro piece mem; cases mem
  | case8 => intro piece mem; cases mem
  | case9 _ _ _ _ _ _ _ _ ih => exact push (slim_ofOpenTag _ _) ih

end Inlay.Markup

namespace Inlay.Render

set_option autoImplicit false

open Inlay.Markup Inlay.Template

variable {holds : ElementProperty}

/-! ## Contents of templates -/

theorem length_dropBlank_le (trees : List Tree) : (dropBlank trees).length ≤ trees.length := by
  cases trees with
  | nil => exact Nat.le_refl _
  | cons tree rest =>
      rw [dropBlank]
      split
      · exact Nat.le_succ _
      · exact Nat.le_refl _

theorem everywhereAll_dropBlank {trees : List Tree} (all : EverywhereAll holds trees) :
    EverywhereAll holds (dropBlank trees) := by
  cases trees with
  | nil => exact all
  | cons tree rest =>
      rw [dropBlank]
      split
      · exact all.2
      · exact all

theorem length_kept_le (trees : List Tree) : (kept trees).length ≤ trees.length := by
  induction trees with
  | nil => exact Nat.le_refl _
  | cons tree rest others =>
      have shorter := length_dropBlank_le (kept rest)
      rw [kept, List.length_cons]
      split
      · omega
      split
      · omega
      · rw [List.length_cons]
        omega

mutual

theorem everywhere_keptTree (lasting : holds.Lasting) : ∀ {tree : Tree}, Everywhere holds tree →
    Everywhere holds (keptTree tree)
  | .element _ _ children, all =>
      ⟨lasting _ _ _ _ (length_kept_le children) all.1, everywhereAll_kept lasting all.2⟩
  | .text _, _ => trivial
  | .comment _, _ => trivial

theorem everywhereAll_kept (lasting : holds.Lasting) : ∀ {trees : List Tree}, EverywhereAll holds trees →
    EverywhereAll holds (kept trees)
  | [], _ => trivial
  | tree :: rest, all => by
      have here := everywhere_keptTree lasting all.1
      have others := everywhereAll_kept lasting all.2
      rw [kept]
      split
      · exact everywhereAll_dropBlank others
      split
      · exact others
      · exact ⟨here, others⟩

end

mutual

theorem everywhere_treeDefinitions (lasting : holds.Lasting) : ∀ {tree : Tree}, Everywhere holds tree →
    ∀ definition ∈ treeDefinitions tree, EverywhereAll holds definition.content
  | .element tag attributes children, all => by
      have inner := everywhere_forestDefinitions lasting all.2
      rw [treeDefinitions]
      split
      · exact List.forall_mem_cons.mpr ⟨everywhereAll_kept lasting all.2, inner⟩
      · exact inner
  | .text _, _ => by simp [treeDefinitions]
  | .comment _, _ => by simp [treeDefinitions]

theorem everywhere_forestDefinitions (lasting : holds.Lasting) : ∀ {trees : List Tree}, EverywhereAll holds trees →
    ∀ definition ∈ forestDefinitions trees, EverywhereAll holds definition.content
  | [], _ => by simp [forestDefinitions]
  | tree :: rest, all => by
      have here := everywhere_treeDefinitions lasting all.1
      have others := everywhere_forestDefinitions lasting all.2
      rw [forestDefinitions]
      exact fun definition mem => (List.mem_append.mp mem).elim (here definition) (others definition)

end

theorem everywhere_libraryOf (lasting : holds.Lasting) {forest : List Tree} (all : EverywhereAll holds forest) :
    ∀ selection, EverywhereAll holds (libraryOf forest selection)
  | none => everywhereAll_kept lasting all
  | some name => by
      cases found : (forestDefinitions forest).find? (·.id = some name) with
      | none => simp [libraryOf, found, EverywhereAll]
      | some definition =>
          simpa [libraryOf, found] using
            everywhere_forestDefinitions lasting all definition (List.mem_of_find?_eq_some found)

/-- In every content that a source defines, raw elements have at most one child. -/
theorem slim_ofSource (source : String) (selection : Option String) :
    EverywhereAll Slim (Library.ofSource source selection) := by
  unfold Library.ofSource
  cases read : forest? source with
  | error fault => trivial
  | ok forest =>
      have all := everywhere_of_forest? slim_of_readFrom read
      have lasting : ElementProperty.Lasting Slim := fun _ _ _ _ fewer slim raw =>
        Nat.le_trans fewer (slim raw)
      exact everywhere_libraryOf lasting all selection

end Inlay.Render
