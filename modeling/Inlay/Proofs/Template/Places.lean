/-
# Proofs.Template.Places — the bindings of a content and the places they stand for

A place of a content is a node, reached by child indices, or an attribute of
one, reached by its index besides. It is open when there is a placeholder in it:
a text or an attribute value that holds `${`, or a comment that is a single
placeholder, blanks around it aside.

The bindings of a content are its open places in document order, each once
(`listed_of_bindings`): nodes in pre-order, the attributes of an element in
their order. What a binding writes is what its place asks for (`Suits`). Clearing
keeps every place and closes it (`closed_cleared`).
-/
import Inlay.Proofs.Markup.Escape
import Inlay.Template.Basic
import Mathlib.Data.List.Lex

namespace Inlay.Template

set_option autoImplicit false

open Inlay.Markup Inlay.Text

/-! ## Places -/

/-- What child indices lead to from a tree that stands in an element of a tag:
the tree there, with the tag of the element it stands in. -/
def within : (parent : Option String) → Tree → List Nat → Option (Option String × Tree)
  | parent, tree, [] => some (parent, tree)
  | _, .element tag _ children, index :: path =>
    (children[index]?).bind fun child => within (some tag) child path
  | _, .text _, _ :: _ => none
  | _, .comment _, _ :: _ => none

/-- What child indices lead to from siblings, the first of which has an index. -/
def amongst (parent : Option String) (trees : List Tree) (first : Nat) :
    List Nat → Option (Option String × Tree)
  | [] => none
  | index :: path =>
    if first ≤ index then (trees[index - first]?).bind fun tree => within parent tree path else none

/-- What child indices lead to in a content. -/
def placeAt? (content : List Tree) (path : List Nat) : Option (Option String × Tree) :=
  amongst none content 0 path

/-- The tree that child indices lead to in a content. -/
def treeAt? (content : List Tree) (path : List Nat) : Option Tree :=
  (placeAt? content path).map Prod.snd

/-- Child indices, with the index of an attribute. -/
abbrev Site := List Nat × Option Nat

def Binding.site (binding : Binding) : Site :=
  match binding.target with
  | .attribute index _ _ _ => (binding.path, some index)
  | _ => (binding.path, none)

theorem Binding.site_eq (binding : Binding) : binding.site = (binding.path, binding.site.2) := by
  unfold Binding.site
  split <;> rfl

/-- In document order the first site is before the second. -/
inductive Site.Before : Site → Site → Prop
  | node {p q : List Nat} {i j : Option Nat} : p < q → Before (p, i) (q, j)
  | attribute {p : List Nat} {i j : Nat} : i < j → Before (p, some i) (p, some j)

/-- The comment is a single placeholder, blanks around it aside. -/
def SinglePlaceholder (body : String) : Prop :=
  ∃ source, trim body.toList = opener ++ source ++ closer ∧ ¬ closer <:+: source ∧ ¬ opener <:+: source

/-- There is a placeholder in a tree, or in the attribute of an index. -/
inductive Open : Tree → Option Nat → Prop
  | text {content : String} : opener <:+: content.toList → Open (.text content) none
  | comment {body : String} : SinglePlaceholder body → Open (.comment body) none
  | attribute {tag : String} {attributes : List Attribute} {children : List Tree} {index : Nat}
      {a : Attribute} : attributes[index]? = some a → opener <:+: a.value.toList →
      Open (.element tag attributes children) (some index)

/-- What a binding of a place writes. -/
inductive Suits : Option String × Tree → Target → Prop
  | text {parent : Option String} {content : String} {pattern : Pattern} : parent ≠ some "textarea" →
      Pattern.read content = .ok pattern → Suits (parent, .text content) (.text pattern)
  | textareaValue {content : String} {pattern : Pattern} :
      Pattern.read content = .ok pattern →
      Suits (some "textarea", .text content) (.textareaValue pattern)
  | attribute {parent : Option String} {tag : String} {attributes : List Attribute} {children : List Tree}
      {index : Nat} {a : Attribute} {pattern : Pattern} : attributes[index]? = some a → Pattern.read a.value = .ok pattern →
      Suits (parent, .element tag attributes children)
        (.attribute index a.name pattern (LiveProperty.following? tag a.name))
  | anchor {parent : Option String} {body : String} {source : List Char} {place : Path} : anchorSource? body = some source →
      Pattern.readPath source = .ok place → Suits (parent, .comment body) (.anchor place)

/-- The bindings are the open places of what is looked at, in document order and
each once; `base` leads there. -/
structure Listed (base : List Nat) (look : List Nat → Option (Option String × Tree))
    (all : List Binding) : Prop where
  sound : ∀ binding ∈ all, ∃ sub place, binding.path = base ++ sub ∧ look sub = some place ∧
    Open place.2 binding.site.2 ∧ Suits place binding.target
  complete : ∀ sub place index, look sub = some place → Open place.2 index →
    (base ++ sub, index) ∈ all.map Binding.site
  ordered : (all.map Binding.site).Pairwise Site.Before

variable {tree : Tree} {trees content : List Tree} {parent : Option String} {path sub : List Nat}
  {tag : String} {all : List Binding}

/-! ## Placeholders -/

theorem hasPlaceholder_iff {text : String} : hasPlaceholder text = true ↔ opener <:+: text.toList :=
  occurs_iff

theorem dropWordEnd?_eq_some {word text before : List Char} :
    dropWordEnd? word text = some before ↔ text = before ++ word := by
  rw [dropWordEnd?, Option.map_eq_some_iff]
  constructor
  · rintro ⟨rest, dropped, rfl⟩
    have split := congrArg List.reverse (eq_append_of_dropWord? dropped)
    simpa using split
  · rintro rfl
    refine ⟨before.reverse, ?_, List.reverse_reverse _⟩
    rw [List.reverse_append, dropWord?_append]

/-- The source of an anchor's path is what stands inside the placeholder. -/
theorem anchorSource?_eq_some {body : String} {source : List Char} :
    anchorSource? body = some source ↔ trim body.toList = opener ++ source ++ closer ∧
      ¬ closer <:+: source ∧ ¬ opener <:+: source := by
  rw [anchorSource?, Option.filter_eq_some_iff, Option.bind_eq_some_iff, Bool.not_eq_true',
    Bool.or_eq_false_iff, Bool.eq_false_iff, Bool.eq_false_iff, ne_eq, ne_eq, occurs_iff, occurs_iff]
  refine and_congr_left fun _ => ⟨?_, fun split => ?_⟩
  · rintro ⟨rest, opened, closed⟩
    rw [eq_append_of_dropWord? opened, dropWordEnd?_eq_some.mp closed, List.append_assoc]
  · refine ⟨source ++ closer, ?_, dropWordEnd?_eq_some.mpr rfl⟩
    rw [split, List.append_assoc, dropWord?_append]

theorem singlePlaceholder_iff {body : String} :
    SinglePlaceholder body ↔ (anchorSource? body).isSome = true := by
  simp only [SinglePlaceholder, ← anchorSource?_eq_some, Option.isSome_iff_exists]

theorem read?_eq_some {text : String} {pattern : Pattern} :
    Pattern.read? text = .ok (some pattern) ↔
      opener <:+: text.toList ∧ Pattern.read text = .ok pattern := by
  rw [← hasPlaceholder_iff, Pattern.read?]
  cases hasPlaceholder text with
  | false => simp
  | true => cases Pattern.read text <;> simp [Except.map]

theorem read?_eq_none {text : String} (read : Pattern.read? text = .ok none) :
    ¬ opener <:+: text.toList := by
  rw [← hasPlaceholder_iff, Pattern.read?] at *
  cases here : hasPlaceholder text with
  | false => simp
  | true => cases found : Pattern.read text <;> simp [here, found, Except.map] at read

/-! ## Document order -/

theorem append_lt_append (base : List Nat) {p q : List Nat} (before : p < q) : base ++ p < base ++ q :=
  List.Lex.append_left _ before base

theorem lt_append {base p : List Nat} (some_ : p ≠ []) : base < base ++ p := by
  obtain ⟨index, rest, rfl⟩ := List.exists_cons_of_ne_nil some_
  simpa using append_lt_append base (List.Lex.nil : ([] : List Nat) < index :: rest)

/-! ## Listing the open places -/

theorem Listed.nil {base : List Nat} {look : List Nat → Option (Option String × Tree)}
    (closed : ∀ sub place index, look sub = some place → ¬ Open place.2 index) : Listed base look [] where
  sound := by simp
  complete := fun sub place index here opened => absurd opened (closed sub place index here)
  ordered := .nil

/-- A place without children that is open at one site. -/
theorem Listed.single {target : Target} (leaf : ∀ index path, within parent tree (index :: path) = none)
    (opened : Open tree (Binding.site ⟨path, target⟩).2) (suits : Suits (parent, tree) target)
    (only : ∀ index, Open tree index → index = (Binding.site ⟨path, target⟩).2) :
    Listed path (within parent tree) [⟨path, target⟩] where
  sound := by
    intro binding mem
    rw [List.mem_singleton.mp mem]
    exact ⟨[], (parent, tree), by simp, by cases tree <;> rfl, opened, suits⟩
  complete := by
    intro sub place index here opened
    cases sub with
    | cons first rest => rw [leaf] at here; cases here
    | nil =>
        have same : place = (parent, tree) := by cases tree <;> exact (Option.some.inj here).symm
        subst same
        rw [only index opened, List.map_singleton, List.append_nil, List.mem_singleton]
        unfold Binding.site
        split <;> rfl
  ordered := List.pairwise_singleton _ _

theorem listed_text {text : String} (bound : textBindings parent path text = .ok all) :
    Listed path (within parent (.text text)) all := by
  cases read : Pattern.read? text with
  | error fault => simp [textBindings, read, bind, Except.bind] at bound
  | ok found =>
      simp only [textBindings, read, bind, Except.bind] at bound
      cases found with
      | none =>
          cases bound
          refine .nil fun sub place index here opened => ?_
          cases sub with
          | cons first rest => cases here
          | nil =>
              cases here
              cases opened with
              | text holds => exact read?_eq_none read holds
      | some pattern =>
          cases bound
          obtain ⟨holds, whole⟩ := read?_eq_some.mp read
          have only : ∀ index, Open (.text text) index → index = none := by
            rintro _ ⟨⟩
            rfl
          by_cases area : parent = some "textarea"
          · subst area
            exact .single (fun _ _ => rfl) (.text holds) (.textareaValue whole) only
          · rw [if_neg area]
            exact .single (fun _ _ => rfl) (.text holds) (.text area whole) only

theorem listed_comment {body : String} (bound : commentBindings path body = .ok all) :
    Listed path (within parent (.comment body)) all := by
  cases source : anchorSource? body with
  | none =>
      simp only [commentBindings, source] at bound
      cases bound
      refine .nil fun sub place index here opened => ?_
      cases sub with
      | cons first rest => cases here
      | nil =>
          cases here
          cases opened with
          | comment single =>
              rw [singlePlaceholder_iff, source] at single
              cases single
  | some chars =>
      cases read : Pattern.readPath chars with
      | error fault => simp [commentBindings, source, read, bind, Except.bind] at bound
      | ok found =>
          simp only [commentBindings, source, read, bind, Except.bind] at bound
          cases bound
          have single : SinglePlaceholder body := by rw [singlePlaceholder_iff, source]; rfl
          refine .single (fun _ _ => rfl) (.comment single) (.anchor source read) ?_
          rintro _ ⟨⟩
          rfl

/-- The bindings of attributes, the first of which has an index. -/
structure ListedAttributes (path : List Nat) (tag : String) (first : Nat) (attributes : List Attribute)
    (all : List Binding) : Prop where
  sound : ∀ binding ∈ all, ∃ index a pattern, attributes[index]? = some a ∧
    Pattern.read? a.value = .ok (some pattern) ∧
    binding = ⟨path, .attribute (first + index) a.name pattern (LiveProperty.following? tag a.name)⟩
  complete : ∀ (index : Nat) (a : Attribute), attributes[index]? = some a → opener <:+: a.value.toList →
    (path, some (first + index)) ∈ all.map Binding.site
  ordered : (all.map Binding.site).Pairwise Site.Before

/-- One more attribute in front, with a binding or without. -/
theorem ListedAttributes.cons {a : Attribute} {rest : List Attribute} {first : Nat} {more : List Binding}
    (here : List Binding) (listed : ListedAttributes path tag (first + 1) rest more)
    (own : match Pattern.read? a.value with
      | .ok (some pattern) =>
        here = [⟨path, .attribute first a.name pattern (LiveProperty.following? tag a.name)⟩]
      | .ok none => here = []
      | .error _ => False) : ListedAttributes path tag first (a :: rest) (here ++ more) := by
  have shift : ∀ index, first + 1 + index = first + (index + 1) := by omega
  have later : ∀ binding ∈ more, ∃ index a' pattern, (a :: rest)[index]? = some a' ∧
      Pattern.read? a'.value = .ok (some pattern) ∧
      binding = ⟨path, .attribute (first + index) a'.name pattern (LiveProperty.following? tag a'.name)⟩ := by
    intro binding mem
    obtain ⟨index, a', pattern, there, read, same⟩ := listed.sound binding mem
    exact ⟨index + 1, a', pattern, there, read, shift index ▸ same⟩
  cases read : Pattern.read? a.value with
  | error fault => simp [read] at own
  | ok found =>
      cases found with
      | none =>
          simp only [read] at own
          subst own
          refine ⟨later, fun index a' there holds => ?_, listed.ordered⟩
          cases index with
          | zero =>
              cases there
              exact absurd holds (read?_eq_none read)
          | succ index => exact shift index ▸ listed.complete index a' there holds
      | some pattern =>
          simp only [read] at own
          subst own
          refine ⟨List.forall_mem_cons.mpr ⟨⟨0, a, pattern, rfl, read, rfl⟩, later⟩,
            fun index a' there holds => ?_, ?_⟩
          · cases index with
            | zero => exact List.mem_cons_self
            | succ index =>
                exact List.mem_cons_of_mem _ (shift index ▸ listed.complete index a' there holds)
          · refine List.pairwise_cons.mpr ⟨fun site mem => ?_, listed.ordered⟩
            obtain ⟨binding, there, rfl⟩ := List.mem_map.mp mem
            obtain ⟨index, a', pattern', -, -, rfl⟩ := listed.sound binding there
            exact .attribute (by omega)

theorem listed_attributes : ∀ {attributes : List Attribute} {first : Nat} {all : List Binding},
    attributeBindings tag path first attributes = .ok all → ListedAttributes path tag first attributes all
  | [], first, all, bound => by
      cases bound
      exact ⟨by simp, by simp, .nil⟩
  | a :: rest, first, all, bound => by
      cases read : Pattern.read? a.value with
      | error fault => simp [attributeBindings, read, bind, Except.bind] at bound
      | ok found =>
          cases others : attributeBindings tag path (first + 1) rest with
          | error fault => simp [attributeBindings, read, others, bind, Except.bind] at bound
          | ok more =>
              simp only [attributeBindings, read, others, bind, Except.bind] at bound
              cases found <;> cases bound
              · exact .cons [] (listed_attributes others) (by simp [read])
              · exact .cons [_] (listed_attributes others) (by simp [read])

/-! ## The lists of trees -/

theorem lt_of_amongst {first index : Nat} {place : Option String × Tree}
    (here : amongst parent trees (first + 1) (index :: sub) = some place) : first < index := by
  by_contra before
  rw [amongst, if_neg (by omega)] at here
  cases here

/-- Places below siblings are not the empty path. -/
theorem ne_nil_of_amongst {first : Nat} {place : Option String × Tree}
    (here : amongst parent trees first sub = some place) : sub ≠ [] := by
  rintro rfl
  cases here

theorem within_element {attributes : List Attribute} {children : List Tree} (some_ : sub ≠ []) :
    within parent (.element tag attributes children) sub = amongst (some tag) children 0 sub := by
  obtain ⟨index, rest, rfl⟩ := List.exists_cons_of_ne_nil some_
  simp [within, amongst]

theorem amongst_here (first : Nat) : amongst parent (tree :: trees) first (first :: sub) = within parent tree sub := by
  simp [amongst]

theorem amongst_later {first index : Nat} (later : first < index) :
    amongst parent (tree :: trees) first (index :: sub) = amongst parent trees (first + 1) (index :: sub) := by
  have shift : index - first = index - (first + 1) + 1 := by omega
  simp only [amongst, shift, List.getElem?_cons_succ, if_pos later.le, if_pos (Nat.succ_le_of_lt later)]

/-- The attributes of an element are in front of what is below it. -/
theorem ListedAttributes.element {attributes : List Attribute} {children : List Tree}
    {first second : List Binding} (own : ListedAttributes path tag 0 attributes first)
    (below : Listed path (amongst (some tag) children 0) second) :
    Listed path (within parent (.element tag attributes children)) (first ++ second) where
  sound := by
    refine List.forall_mem_append.mpr ⟨fun binding mem => ?_, fun binding mem => ?_⟩
    · obtain ⟨index, a, pattern, there, read, rfl⟩ := own.sound binding mem
      obtain ⟨holds, whole⟩ := read?_eq_some.mp read
      rw [Nat.zero_add]
      exact ⟨[], _, by simp, rfl, .attribute there holds, .attribute there whole⟩
    · obtain ⟨sub, place, same, here, opened, suits⟩ := below.sound binding mem
      exact ⟨sub, place, same, (within_element (ne_nil_of_amongst here)).trans here, opened, suits⟩
  complete := by
    intro sub place index here opened
    rw [List.map_append, List.mem_append]
    by_cases empty : sub = []
    · subst empty
      cases here
      obtain _ | _ | ⟨there, holds⟩ := opened
      have found := own.complete _ _ there holds
      rw [Nat.zero_add] at found
      rw [List.append_nil]
      exact .inl found
    · rw [within_element empty] at here
      exact .inr (below.complete sub place index here opened)
  ordered := by
    rw [List.map_append]
    refine List.pairwise_append.mpr ⟨own.ordered, below.ordered, fun site mem later there => ?_⟩
    obtain ⟨binding, isOwn, rfl⟩ := List.mem_map.mp mem
    obtain ⟨binding', isBelow, rfl⟩ := List.mem_map.mp there
    obtain ⟨index, a, pattern, -, -, rfl⟩ := own.sound binding isOwn
    obtain ⟨sub, place, same, here, -, -⟩ := below.sound binding' isBelow
    rw [Binding.site_eq binding', same]
    exact .node (lt_append (ne_nil_of_amongst here))

/-- The open places of a tree are in front of those of its later siblings. -/
theorem Listed.cons {index : Nat} {first second : List Binding}
    (own : Listed (path ++ [index]) (within parent tree) first)
    (others : Listed path (amongst parent trees (index + 1)) second) :
    Listed path (amongst parent (tree :: trees) index) (first ++ second) where
  sound := by
    refine List.forall_mem_append.mpr ⟨fun binding mem => ?_, fun binding mem => ?_⟩
    · obtain ⟨sub, place, same, here, opened, suits⟩ := own.sound binding mem
      exact ⟨index :: sub, place, by simp [same], (amongst_here index).trans here, opened, suits⟩
    · obtain ⟨sub, place, same, here, opened, suits⟩ := others.sound binding mem
      obtain ⟨at_, rest, rfl⟩ := List.exists_cons_of_ne_nil (ne_nil_of_amongst here)
      exact ⟨at_ :: rest, place, same, (amongst_later (lt_of_amongst here)).trans here, opened, suits⟩
  complete := by
    intro sub place site here opened
    rw [List.map_append, List.mem_append]
    obtain ⟨at_, rest, rfl⟩ := List.exists_cons_of_ne_nil (ne_nil_of_amongst here)
    rcases Nat.lt_trichotomy at_ index with before | rfl | after
    · simp [amongst, Nat.not_le.mpr before] at here
    · rw [amongst_here] at here
      exact .inl (by simpa using own.complete rest place site here opened)
    · rw [amongst_later after] at here
      exact .inr (others.complete _ place site here opened)
  ordered := by
    rw [List.map_append]
    refine List.pairwise_append.mpr ⟨own.ordered, others.ordered, fun site mem later there => ?_⟩
    obtain ⟨binding, isOwn, rfl⟩ := List.mem_map.mp mem
    obtain ⟨binding', isOther, rfl⟩ := List.mem_map.mp there
    obtain ⟨sub, -, same, -⟩ := own.sound binding isOwn
    obtain ⟨sub', place, same', here, -⟩ := others.sound binding' isOther
    obtain ⟨at_, rest, rfl⟩ := List.exists_cons_of_ne_nil (ne_nil_of_amongst here)
    rw [Binding.site_eq binding, Binding.site_eq binding', same, same', List.append_assoc]
    exact .node (append_lt_append _ (List.Lex.rel (lt_of_amongst here)))

mutual

/-- The bindings of a tree are its open places. -/
theorem listed_tree : ∀ {tree : Tree} {parent : Option String} {path : List Nat} {all : List Binding},
    treeBindings parent path tree = .ok all → Listed path (within parent tree) all
  | .text text, parent, path, all, bound => listed_text bound
  | .comment body, parent, path, all, bound => listed_comment bound
  | .element tag attributes children, parent, path, all, bound => by
      rw [treeBindings] at bound
      cases own : attributeBindings tag path 0 attributes with
      | error fault => simp [own, bind, Except.bind] at bound
      | ok first =>
          cases below : bindings (some tag) path 0 children with
          | error fault => simp [own, below, bind, Except.bind] at bound
          | ok second =>
              simp only [own, below, bind, Except.bind, pure, Except.pure, Except.ok.injEq] at bound
              subst bound
              exact (listed_attributes own).element (listed_trees below)

/-- The bindings of siblings are their open places. -/
theorem listed_trees : ∀ {trees : List Tree} {parent : Option String} {path : List Nat} {index : Nat}
    {all : List Binding}, bindings parent path index trees = .ok all →
      Listed path (amongst parent trees index) all
  | [], parent, path, index, all, bound => by
      cases bound
      refine .nil fun sub place site here opened => ?_
      obtain ⟨first, rest, rfl⟩ := List.exists_cons_of_ne_nil (ne_nil_of_amongst here)
      simp [amongst] at here
  | tree :: rest, parent, path, index, all, bound => by
      rw [bindings] at bound
      cases own : treeBindings parent (path ++ [index]) tree with
      | error fault => simp [own, bind, Except.bind] at bound
      | ok first =>
          cases others : bindings parent path (index + 1) rest with
          | error fault => simp [own, others, bind, Except.bind] at bound
          | ok second =>
              simp only [own, others, bind, Except.bind, pure, Except.pure, Except.ok.injEq] at bound
              subst bound
              exact (listed_tree own).cons (listed_trees others)

end

/-- The bindings of a content are its open places. -/
theorem listed_of_bindings (bound : bindings none [] 0 content = .ok all) :
    Listed [] (placeAt? content) all :=
  listed_trees bound

/-! ## Cleared contents -/

theorem cleared_eq_map (trees : List Tree) : cleared trees = trees.map clearedTree := by
  induction trees with
  | nil => rfl
  | cons tree rest ih => rw [cleared, ih, List.map_cons]

/-- Clearing keeps every place. -/
theorem within_clearedTree : ∀ (sub : List Nat) (tree : Tree) (parent : Option String),
    within parent (clearedTree tree) sub =
      (within parent tree sub).map fun place => (place.1, clearedTree place.2)
  | [], tree, parent => by cases tree <;> rfl
  | index :: sub, .text _, parent => rfl
  | index :: sub, .comment _, parent => rfl
  | index :: sub, .element tag attributes children, parent => by
      simp only [clearedTree, within, cleared_eq_map, List.getElem?_map]
      cases children[index]? with
      | none => rfl
      | some child => exact within_clearedTree sub child (some tag)

theorem placeAt?_cleared (content : List Tree) (path : List Nat) : placeAt? (cleared content) path =
    (placeAt? content path).map fun place => (place.1, clearedTree place.2) := by
  cases path with
  | nil => rfl
  | cons index sub =>
      simp only [placeAt?, amongst, Nat.zero_le, if_true, cleared_eq_map, List.getElem?_map]
      cases content[index - 0]? with
      | none => rfl
      | some tree => exact within_clearedTree sub tree none

theorem not_holds_clearText (text : String) : ¬ opener <:+: (clearText text).toList := by
  rw [← hasPlaceholder_iff, clearText]
  cases here : hasPlaceholder text with
  | true =>
      rw [if_pos rfl]
      decide
  | false => simp [here]

theorem not_singlePlaceholder_clearComment (body : String) : ¬ SinglePlaceholder (clearComment body) := by
  rw [singlePlaceholder_iff, clearComment]
  cases here : (anchorSource? body).isSome with
  | true =>
      rw [if_pos rfl]
      decide
  | false => simp [here]

theorem not_open_clearedTree : ∀ (tree : Tree) (index : Option Nat), ¬ Open (clearedTree tree) index
  | .text text, _, .text holds => not_holds_clearText text holds
  | .comment body, _, .comment single => not_singlePlaceholder_clearComment body single
  | .element tag attributes children, _, opened => by
      obtain _ | _ | ⟨there, holds⟩ := opened
      rw [List.getElem?_map] at there
      obtain ⟨a, -, rfl⟩ := Option.map_eq_some_iff.mp there
      exact not_holds_clearText a.value holds

/-- No place of a cleared content is open. -/
theorem closed_cleared {place : Option String × Tree} (here : placeAt? (cleared content) path = some place)
    (index : Option Nat) : ¬ Open place.2 index := by
  rw [placeAt?_cleared] at here
  obtain ⟨place, -, rfl⟩ := Option.map_eq_some_iff.mp here
  exact not_open_clearedTree place.2 index

end Inlay.Template
