/-
# Proofs.Markup.Canonical — what reading gives, and what writing it gives back

Whatever a source looks like, the trees that are read from it are `Canonical`: names
have a written form and the attributes of an element have distinct ones, no text is
empty, no comment holds `-->`, void elements hold nothing and raw elements at most one
text, which does not close a verbatim one (`canonicalAll_of_forest?`). Each piece of
the source brings its part of this (`canonical_of_readFrom`), and building keeps it.

Canonical trees may still be neighbouring texts, since a closing tag that closes
nothing ends a text. Joining neighbours (`joinedAll`) makes a forest clean and leaves
what is written as it is, so the joined forest is what comes back
(`forest?_writeAll_joined`, `parse_canonical`).
-/
import Inlay.Proofs.Markup.RoundTrip

namespace Inlay.Markup

set_option autoImplicit false

open Inlay.Text

variable {input rest content : List Char} {size start : Nat} {tag : String} {attributes : List Attribute}
  {children : List Tree} {tree : Tree} {trees : List Tree}

/-! ## Trees that reading gives -/

/-- An element has a tag and attribute names as they are written, and no two attributes
of one name. -/
structure Named (tag : String) (attributes : List Attribute) : Prop where
  tag : TagName tag
  each : ∀ a ∈ attributes, AttributeName a.name
  distinct : DistinctNames attributes

mutual

/-- The tree can stand in what is read. -/
def Canonical : Tree → Prop
  | .text content => content ≠ ""
  | .comment body => ¬ ['-', '-', '>'] <:+: body.toList
  | .element tag attributes children =>
      Named tag attributes ∧ (isVoid tag = true → children = []) ∧
        (isRaw tag = true → RawChildren tag children) ∧ CanonicalAll children

def CanonicalAll : List Tree → Prop
  | [] => True
  | tree :: rest => Canonical tree ∧ CanonicalAll rest

end

theorem canonicalAll_iff : CanonicalAll trees ↔ ∀ tree ∈ trees, Canonical tree := by
  induction trees with
  | nil => simp [CanonicalAll]
  | cons tree rest ih => simp [CanonicalAll, ih]

theorem canonicalAll_reverse (canonical : CanonicalAll trees) : CanonicalAll trees.reverse := by
  rw [canonicalAll_iff] at canonical ⊢
  exact fun tree mem => canonical tree (List.mem_reverse.mp mem)

/-! ## Joining neighbouring texts -/

/-- A tree in front of others; a text is joined to a text. -/
def joinFront : Tree → List Tree → List Tree
  | .text first, .text second :: rest => .text (first ++ second) :: rest
  | tree, rest => tree :: rest

mutual

/-- The tree with each run of neighbouring texts joined into one. -/
def joined : Tree → Tree
  | .text content => .text content
  | .comment body => .comment body
  | .element tag attributes children => .element tag attributes (joinedAll children)

def joinedAll : List Tree → List Tree
  | [] => []
  | tree :: rest => joinFront (joined tree) (joinedAll rest)

end

theorem escapeText_append (first second : String) :
    escapeText (first ++ second) = escapeText first ++ escapeText second := by
  simp [escapeText, String.toList_append]

theorem writeAll_joinFront (comments : Bool) (parent : Option String) (tree : Tree) (rest : List Tree) :
    Tree.writeAll comments parent (joinFront tree rest) =
      Tree.write comments parent tree ++ Tree.writeAll comments parent rest := by
  unfold joinFront
  split
  · next first second rest =>
    simp only [Tree.writeAll, Tree.write]
    split
    · rw [String.append_assoc]
    · rw [escapeText_append, String.append_assoc]
  · rfl

mutual

theorem write_joined (comments : Bool) (parent : Option String) :
    ∀ tree : Tree, Tree.write comments parent (joined tree) = Tree.write comments parent tree
  | .text _ => rfl
  | .comment _ => rfl
  | .element tag _ children => by
      rw [joined, Tree.write, Tree.write, writeAll_joinedAll comments (some tag) children]

/-- Joining does not change what is written. -/
theorem writeAll_joinedAll (comments : Bool) (parent : Option String) :
    ∀ trees : List Tree, Tree.writeAll comments parent (joinedAll trees) = Tree.writeAll comments parent trees
  | [] => rfl
  | tree :: rest => by
      rw [joinedAll, writeAll_joinFront, write_joined comments parent tree,
        writeAll_joinedAll comments parent rest, Tree.writeAll]

end

theorem cleanAll_joinFront (here : Clean tree) (others : CleanAll trees) : CleanAll (joinFront tree trees) := by
  unfold joinFront
  split
  · next first second rest =>
    obtain ⟨-, apart, later⟩ := others
    have some : first ≠ "" := here
    have some : first ++ second ≠ "" := by simp [some]
    exact ⟨some, fun _ => apart rfl, later⟩
  · next noTexts =>
    refine ⟨here, fun text next first => ?_, others⟩
    cases tree with
    | comment | element => cases text
    | text content =>
        obtain ⟨rest, rfl⟩ := List.head?_eq_some_iff.mp first
        cases next with
        | text second => exact absurd rfl (noTexts content second rest rfl)
        | comment | element => rfl

theorem rawChildren_joinedAll (raw : RawChildren tag children) : RawChildren tag (joinedAll children) := by
  unfold RawChildren at raw
  split at raw
  · trivial
  · exact raw
  · exact raw.elim

mutual

theorem clean_joined : ∀ {tree : Tree}, Canonical tree → Clean (joined tree)
  | .text _, canonical => canonical
  | .comment _, canonical => canonical
  | .element _ _ _, ⟨named, void, raw, inner⟩ =>
      ⟨named.tag, named.each, named.distinct, fun kind => by rw [void kind]; rfl,
        fun kind => rawChildren_joinedAll (raw kind), cleanAll_joinedAll inner⟩

/-- Markup can express a canonical forest whose neighbouring texts are joined. -/
theorem cleanAll_joinedAll : ∀ {trees : List Tree}, CanonicalAll trees → CleanAll (joinedAll trees)
  | [], _ => trivial
  | _ :: _, ⟨here, others⟩ => cleanAll_joinFront (clean_joined here) (cleanAll_joinedAll others)

end

/-- A canonical forest that is written comes back with its neighbouring texts joined. -/
theorem forest?_writeAll_joined (canonical : CanonicalAll trees) :
    forest? (Tree.writeAll true none trees) = .ok (joinedAll trees) := by
  rw [← writeAll_joinedAll]
  exact forest?_writeAll (cleanAll_joinedAll canonical)

/-! ## Names that are read -/

/-- A letter is put in lower case, and no other character is changed. -/
theorem toLower_cases (c : Char) : c.toLower.isLower = true ∨ (c.toLower = c ∧ c.isUpper = false) := by
  by_cases capital : c.val ≥ 'A'.val ∧ c.val ≤ 'Z'.val
  · have lowered : c.toLower.val = c.val + ('a'.val - 'A'.val) := congrArg Char.val (dif_pos capital)
    left
    obtain ⟨least, most⟩ := capital
    rw [ge_iff_le, UInt32.le_iff_toNat_le] at least
    rw [UInt32.le_iff_toNat_le] at most
    change 65 ≤ c.val.toNat at least
    change c.val.toNat ≤ 90 at most
    have code : c.toLower.val.toNat = c.val.toNat + 32 := by
      rw [lowered, UInt32.toNat_add]
      change (c.val.toNat + 32) % 4294967296 = c.val.toNat + 32
      omega
    have small : 97 ≤ c.toLower.val.toNat ∧ c.toLower.val.toNat ≤ 122 := by
      rw [code]
      omega
    refine Eq.mpr (Bool.and_eq_true _ _) ⟨decide_eq_true ?_, decide_eq_true ?_⟩
    · exact UInt32.le_iff_toNat_le.mpr small.1
    · exact UInt32.le_iff_toNat_le.mpr small.2
  · exact .inr ⟨dif_neg capital, decide_eq_false capital⟩

theorem isTagChar_of_isLower {c : Char} (small : c.isLower = true) : isTagChar c = true := by
  simp [isTagChar, small]

theorem isUpper_toLower (c : Char) : c.toLower.isUpper = false := by
  rcases toLower_cases c with small | ⟨same, noCapital⟩
  · exact isUpper_of_isTagChar (isTagChar_of_isLower small)
  · rwa [same]

theorem isTagChar_toLower {c : Char} (ok : isNameChar c = true) : isTagChar c.toLower = true := by
  rcases toLower_cases c with small | ⟨same, noCapital⟩
  · exact isTagChar_of_isLower small
  · have alphanumeric : c.isAlphanum = ((c.isUpper || c.isLower) || c.isDigit) := rfl
    simp only [isNameChar, alphanumeric, noCapital, Bool.false_or] at ok
    rw [same, isTagChar, ok]

theorem isWordChar_of_isLower {c : Char} (small : c.isLower = true) : TagToken.isWordChar c = true := by
  have whole := isBlank_of_isTagChar (isTagChar_of_isLower small)
  have other : ∀ {x : Char}, x.isLower = false → (c == x) = false := by
    intro x large
    rw [beq_eq_false_iff_ne]
    rintro rfl
    rw [small] at large
    cases large
  simp [TagToken.isWordChar, whole, other]

theorem isWordChar_toLower {c : Char} (ok : TagToken.isWordChar c = true) : TagToken.isWordChar c.toLower = true := by
  rcases toLower_cases c with small | ⟨same, -⟩
  · exact isWordChar_of_isLower small
  · rwa [same]

/-- What is read as a name of a tag is one. -/
theorem tagName_lower {c : Char} {tail : List Char} (letter : isAsciiLetter c = true)
    (all : ∀ x ∈ tail, isNameChar x = true) : TagName (String.ofList (lower (c :: tail))) := by
  have small : c.toLower.isLower = true := by
    rcases toLower_cases c with small | ⟨same, noCapital⟩
    · exact small
    · have alpha : c.isAlpha = (c.isUpper || c.isLower) := rfl
      rwa [isAsciiLetter, alpha, noCapital, Bool.false_or, ← same] at letter
  refine ⟨⟨c.toLower, by simp [lower], small⟩, fun x mem => ?_⟩
  rw [String.toList_ofList, lower, List.map_cons] at mem
  rcases List.mem_cons.mp mem with rfl | mem
  · exact isTagChar_of_isLower small
  · obtain ⟨y, there, rfl⟩ := List.mem_map.mp mem
    exact isTagChar_toLower (all y there)

/-- A word inside a tag is the name of an attribute. -/
theorem attributeName_lower {word : List Char} (some : word ≠ [])
    (all : ∀ x ∈ word, TagToken.isWordChar x = true) : AttributeName (String.ofList (lower word)) := by
  have lowered : ∀ c ∈ (String.ofList (lower word)).toList,
      c.isUpper = false ∧ TagToken.isWordChar c = true := by
    intro c mem
    rw [String.toList_ofList] at mem
    obtain ⟨x, there, rfl⟩ := List.mem_map.mp mem
    exact ⟨isUpper_toLower x, isWordChar_toLower (all x there)⟩
  refine ⟨fun none => some ?_, fun c mem => (lowered c mem).1, fun c mem => ?_, fun c mem => ?_⟩
  · have empty := congrArg String.toList none
    rw [String.toList_ofList] at empty
    exact List.map_eq_nil_iff.mp empty
  · have ok := (lowered c mem).2
    simp only [TagToken.isWordChar, Bool.not_eq_true', Bool.or_eq_false_iff] at ok
    exact ok.1.1.1.1.1.1
  · have ok := (lowered c mem).2
    simp only [TagToken.isWordChar, Bool.not_eq_true', Bool.or_eq_false_iff, beq_eq_false_iff_ne] at ok
    simp only [List.mem_cons, List.not_mem_nil, or_false]
    tauto

/-! ## Tokens -/

/-- A comment does not hold its end, and a tag opens with a name. -/
def Token.Canonical : Token → Prop
  | .comment body => ¬ ['-', '-', '>'] <:+: body
  | .opening name => TagName (String.ofList (lower name))
  | _ => True

theorem Token.canonical_afterLess (input : List Char) : (afterLess input).1.Canonical := by
  fun_cases afterLess input with
  | case4 input body rest cut => exact not_infix_of_cutAt? (List.cons_ne_nil _ _) cut
  | case9 c input _ _ _ letter =>
      have all : ∀ x ∈ input.takeWhile isNameChar, isNameChar x = true := fun x mem => List.mem_takeWhile_imp mem
      exact tagName_lower letter all
  | _ => trivial

theorem Token.canonical_next? {token : Token} (found : next? input = some (token, rest)) : token.Canonical := by
  cases input with
  | nil => cases found
  | cons c input =>
      simp only [next?] at found
      split at found
      · have canonical := canonical_afterLess input
        rwa [Option.some.inj found] at canonical
      · cases found
        trivial

/-- A word is the name of an attribute. -/
def TagToken.Canonical : TagToken → Prop
  | .word content => AttributeName (String.ofList (lower content))
  | _ => True

theorem TagToken.canonical_startingWith (c : Char) (input : List Char) : (startingWith c input).1.Canonical := by
  fun_cases startingWith c input with
  | case5 =>
      unfold afterQuote
      split <;> trivial
  | case6 _ _ _ _ _ here =>
      have all : ∀ x ∈ c :: input.takeWhile isWordChar, isWordChar x = true :=
        List.forall_mem_cons.mpr ⟨here, fun x mem => List.mem_takeWhile_imp mem⟩
      exact attributeName_lower (List.cons_ne_nil _ _) all
  | _ => trivial

theorem TagToken.canonical_next? {token : TagToken} (found : next? input = some (token, rest)) :
    token.Canonical := by
  unfold next? at found
  split at found
  · cases found
  · next c tail _ =>
    have canonical := canonical_startingWith c tail
    rwa [Option.some.inj found] at canonical

/-! ## Pieces -/

theorem attributeName_add {name value : String} (ok : AttributeName name)
    (each : ∀ a ∈ attributes, AttributeName a.name) : ∀ a ∈ Attribute.add attributes name value, AttributeName a.name := by
  unfold Attribute.add
  split
  · exact each
  · intro a mem
    rcases List.mem_append.mp mem with mem | mem
    · exact each a mem
    · obtain rfl := List.mem_singleton.mp mem
      exact ok

theorem attributeName_settle {pending : Option String} (ok : ∀ name ∈ pending, AttributeName name)
    (each : ∀ a ∈ attributes, AttributeName a.name) :
    ∀ a ∈ OpenTag.settle pending attributes, AttributeName a.name := by
  cases pending with
  | none => exact each
  | some name => exact attributeName_add (ok name rfl) each

/-- The attributes that are read have names of attributes. -/
theorem attributeName_of_readFrom {pending : Option String} {result : OpenTag}
    (ok : ∀ name ∈ pending, AttributeName name) (each : ∀ a ∈ attributes, AttributeName a.name)
    (done : OpenTag.readFrom size start tag pending attributes input = .ok result) :
    ∀ a ∈ result.attributes, AttributeName a.name := by
  fun_induction OpenTag.readFrom size start tag pending attributes input with
  | case1 => cases done
  | case2 => cases done; exact attributeName_settle ok each
  | case3 => cases done; exact attributeName_settle ok each
  | case4 _ _ _ _ _ ih => exact ih ok each done
  | case5 _ _ _ word _ found ih =>
      have named : AttributeName (String.ofList (lower word)) := TagToken.canonical_next? found
      refine ih (fun name same => ?_) (attributeName_settle ok each) done
      cases same
      exact named
  | case6 => cases done
  | case7 => cases done
  | case8 _ _ _ _ name _ _ _ ih =>
      have noPending : ∀ name ∈ (none : Option String), AttributeName name := by rintro name ⟨⟩
      exact ih noPending (attributeName_add (ok name rfl) each) done
  | case9 => cases done
  | case10 => cases done

/-- What the piece becomes is canonical. -/
def Piece.Canonical : Piece → Prop
  | .text _ => True
  | .comment body => ¬ ['-', '-', '>'] <:+: body.toList
  | .opening tag attributes => Named tag attributes ∧ isVoid tag = false ∧ isRaw tag = false
  | .empty tag attributes => Named tag attributes
  | .raw tag attributes content => Named tag attributes ∧ isVoid tag = false ∧ RawChildren tag [.text content]
  | .closing _ => True

/-- Raw content ends in front of the first place of what closes it. -/
theorem rawContent_unclosed (tag : String) (input : List Char) :
    ¬ '<' :: '/' :: tag.toList <:+: lower (rawContent tag input).1 := by
  unfold rawContent
  split
  · next before _ cut =>
    have whole := eq_append_of_cutAt? cut
    have front : lower (input.take before.length) = before := by
      have taken := congrArg (List.take before.length) whole
      rwa [List.append_assoc, List.take_left, lower, ← List.map_take] at taken
    rw [front]
    exact not_infix_of_cutAt? (List.cons_ne_nil _ _) cut
  · next uncut => exact not_infix_of_cutAt?_eq_none uncut

theorem canonical_ofOpenTag {opened : OpenTag} (named : Named tag opened.attributes) :
    (Reading.ofOpenTag tag opened).1.Canonical := by
  unfold Reading.ofOpenTag
  split
  · exact named
  · next closed =>
    obtain ⟨-, notVoid⟩ := not_or.mp closed
    split
    · refine ⟨named, by simpa using notVoid, fun verbatim => ?_⟩
      rw [rawText, if_pos verbatim, String.toList_ofList]
      exact rawContent_unclosed tag opened.rest
    · next notRaw => exact ⟨named, by simpa using notVoid, by simpa using notRaw⟩

theorem canonical_of_readFrom (size : Nat) (input : List Char) :
    ∀ piece ∈ (Reading.readFrom size input).pieces, piece.Canonical := by
  have push : ∀ {piece : Piece} {reading : Reading}, piece.Canonical →
      (∀ p ∈ reading.pieces, p.Canonical) → ∀ p ∈ (reading.push piece).pieces, p.Canonical :=
    fun here others => List.forall_mem_cons.mpr ⟨here, others⟩
  fun_induction Reading.readFrom size input with
  | case1 => intro piece mem; cases mem
  | case2 _ _ _ _ ih => exact push trivial ih
  | case3 _ _ _ ih => exact push trivial ih
  | case4 _ _ _ ih => exact ih
  | case5 _ body _ found ih =>
      have inner : ¬ ['-', '-', '>'] <:+: body := Token.canonical_next? found
      refine push ?_ ih
      rwa [Piece.Canonical, String.toList_ofList]
  | case6 _ _ _ _ ih => exact push trivial ih
  | case7 => intro piece mem; cases mem
  | case8 => intro piece mem; cases mem
  | case9 _ _ name _ found _ _ opened ih =>
      have tag : TagName (String.ofList (lower name)) := Token.canonical_next? found
      have noPending : ∀ name ∈ (none : Option String), AttributeName name := by rintro name ⟨⟩
      have none : DistinctNames [] := List.nodup_nil
      have each := attributeName_of_readFrom noPending (List.forall_mem_nil _) opened
      have distinct := distinctNames_of_readFrom none opened
      exact push (canonical_ofOpenTag ⟨tag, each, distinct⟩) ih

/-! ## Trees under construction -/

namespace Growth

variable {growth : Growth}

/-- What is built so far is canonical, and what is open can take any children. -/
structure Canonical (growth : Growth) : Prop where
  children : CanonicalAll growth.children
  opened : ∀ element ∈ growth.opened, Named element.tag element.attributes ∧
    isVoid element.tag = false ∧ isRaw element.tag = false ∧ CanonicalAll element.before

theorem Canonical.flush (canonical : growth.Canonical) : growth.flush.Canonical := by
  unfold Growth.flush
  split
  · exact canonical
  · next some => exact ⟨⟨some, canonical.children⟩, canonical.opened⟩

theorem Canonical.add (canonical : growth.Canonical) (here : Markup.Canonical tree) : (growth.add tree).Canonical :=
  ⟨⟨here, canonical.flush.children⟩, canonical.flush.opened⟩

theorem Canonical.close : ∀ {growth : Growth}, growth.Canonical → ∀ count : Nat, (growth.close count).Canonical
  | _, canonical, 0 => canonical
  | ⟨[], _, _⟩, canonical, _ + 1 => canonical
  | ⟨element :: outer, children, gathered⟩, canonical, count + 1 => by
      obtain ⟨⟨named, notVoid, notRaw, before⟩, outside⟩ := List.forall_mem_cons.mp canonical.opened
      have here : Markup.Canonical (.element element.tag element.attributes children.reverse) :=
        ⟨named, by simp [notVoid], by simp [notRaw], canonicalAll_reverse canonical.children⟩
      have closed : Growth.Canonical ⟨outer, .element element.tag element.attributes children.reverse ::
          element.before, gathered⟩ := ⟨⟨here, before⟩, outside⟩
      exact closed.close count

theorem Canonical.step (canonical : growth.Canonical) :
    ∀ {piece : Piece}, piece.Canonical → (growth.step piece).Canonical
  | .text _, _ => ⟨canonical.children, canonical.opened⟩
  | .comment _, inner => canonical.add inner
  | .empty _ _, named => canonical.add ⟨named, fun _ => rfl, fun _ => trivial, trivial⟩
  | .raw tag attributes content, ⟨named, notVoid, unclosed⟩ => by
      apply canonical.add
      refine ⟨named, by simp [notVoid], fun _ => ?_, ?_⟩
      · unfold rawChildren
        split
        · trivial
        · exact unclosed
      · unfold rawChildren
        split
        · trivial
        · next some => exact ⟨some, trivial⟩
  | .opening _ _, ⟨named, notVoid, notRaw⟩ => by
      have flushed := canonical.flush
      exact ⟨trivial, List.forall_mem_cons.mpr ⟨⟨named, notVoid, notRaw, flushed.children⟩, flushed.opened⟩⟩
  | .closing _, _ => by
      simp only [Growth.step]
      split
      · exact canonical.flush.close _
      · exact canonical.flush

theorem Canonical.steps (pieces : List Piece) {growth : Growth} (canonical : growth.Canonical)
    (all : ∀ piece ∈ pieces, piece.Canonical) : (pieces.foldl Growth.step growth).Canonical := by
  induction pieces generalizing growth with
  | nil => exact canonical
  | cons piece rest ih =>
      obtain ⟨here, others⟩ := List.forall_mem_cons.mp all
      exact ih (canonical.step here) others

theorem Canonical.finish (canonical : growth.Canonical) : CanonicalAll growth.finish :=
  canonicalAll_reverse (canonical.flush.close growth.flush.opened.length).children

end Growth

/-- What is read from a source is canonical. -/
theorem canonicalAll_of_forest? {source : String} {forest : List Tree} (read : forest? source = .ok forest) :
    CanonicalAll forest := by
  unfold forest? at read
  simp only at read
  split at read
  · cases read
  · cases read
    have start : Growth.start.Canonical := ⟨trivial, by simp [Growth.start]⟩
    exact (start.steps _ (canonical_of_readFrom _ _)).finish

end Inlay.Markup

namespace Inlay.Document

open Inlay.Markup

variable {d d' : Document} {fragment : NodeId} {source : String}

/-- What a parse makes is a fragment with the trees that are read. -/
theorem forest_of_parse {forest : List Tree} (wf : WellFormed d) (read : forest? source = .ok forest)
    (parsed : parse source d = .ok (.ok fragment) d') :
    d'.isFragment fragment = true ∧ d'.forest fragment = forest := by
  obtain ⟨_, ps, _, done, same, potted⟩ := parse_ok wf read
  cases done.symm.trans parsed
  refine ⟨by simp only [isFragment, potted.isFragment], ?_⟩
  rw [forest_eq potted.wellFormed potted.stand potted.kids, same]

/-- Whatever source a parse accepts, the forest it makes is canonical. Written and
parsed again, into any document, it comes back with each run of neighbouring texts
joined into one, and is then written the same. -/
theorem parse_canonical (wf : WellFormed d) (parsed : parse source d = .ok (.ok fragment) d') :
    CanonicalAll (d'.forest fragment) ∧
    ∀ e, WellFormed e → ∃ copy e', parse (d'.outerMarkup fragment) e = .ok (.ok copy) e' ∧
      e'.isFragment copy = true ∧ e'.forest copy = joinedAll (d'.forest fragment) ∧
      e'.outerMarkup copy = d'.outerMarkup fragment := by
  cases read : forest? source with
  | error fault =>
      obtain ⟨_, refused, -⟩ := parse_error wf read
      cases refused.symm.trans parsed
  | ok forest =>
      obtain ⟨isFragment, same⟩ := forest_of_parse wf read parsed
      have canonical := canonicalAll_of_forest? read
      rw [outerMarkup_fragment isFragment, same]
      refine ⟨canonical, fun e wf => ?_⟩
      have again := forest?_writeAll_joined canonical
      obtain ⟨copy, _, e', done, -, -⟩ := parse_ok wf again
      obtain ⟨isFragment', same'⟩ := forest_of_parse wf again done
      refine ⟨copy, e', done, isFragment', same', ?_⟩
      rw [outerMarkup_fragment isFragment', same', writeAll_joinedAll]

/-- A source with most of what is out of order. -/
def Specimen.disorder : String :=
  "a</x>b < c<BR CLASS=q class=\"r\">&am<!x>p;&amp;lt;<p><LI k=v/>d<i>e</p>f<!--a---><Script>if (a<b) </p></SCRIPT\n>" ++
    "<textarea>&lt;/textarea></textarea><title/><title></title></b>g"

theorem parse_canonical_disorder : ∃ fragment d, parse Specimen.disorder .new = .ok (.ok fragment) d ∧
    d.outerMarkup fragment = "ab &lt; c<br class=\"q\">&amp;amp;&amp;lt;<p><li k=\"v/\">d<i>e</i></li></p>f<!--a--->" ++
      "<script>if (a<b) </p></script><textarea>&lt;/textarea&gt;</textarea><title></title><title></title>g" ∧
    CanonicalAll (d.forest fragment) ∧ ¬ CleanAll (d.forest fragment) ∧
    ∃ copy d', parse (d.outerMarkup fragment) d = .ok (.ok copy) d' ∧
      d'.forest copy = joinedAll (d.forest fragment) ∧ d'.outerMarkup copy = d.outerMarkup fragment := by
  have read : ((forest? Specimen.disorder).map fun forest => (Tree.writeAll true none forest, decide (CleanAll forest))) =
      .ok ("ab &lt; c<br class=\"q\">&amp;amp;&amp;lt;<p><li k=\"v/\">d<i>e</i></li></p>f<!--a--->" ++
      "<script>if (a<b) </p></script><textarea>&lt;/textarea&gt;</textarea><title></title><title></title>g", false) := by
    decide +kernel
  cases found : forest? Specimen.disorder with
  | error fault =>
      rw [found] at read
      cases read
  | ok forest =>
      rw [found] at read
      obtain ⟨written, unclean⟩ := Prod.mk.inj (Except.ok.inj read)
      obtain ⟨fragment, _, d, parsed, -, potted⟩ := parse_ok wellFormed_new found
      obtain ⟨isFragment, same⟩ := forest_of_parse wellFormed_new found parsed
      obtain ⟨canonical, again⟩ := parse_canonical wellFormed_new parsed
      obtain ⟨copy, d', done, -, comes, rewritten⟩ := again d potted.wellFormed
      refine ⟨fragment, d, parsed, ?_, canonical, ?_, copy, d', done, comes, rewritten⟩
      · rw [outerMarkup_fragment isFragment, same, written]
      · rw [same]
        exact of_decide_eq_false unclean

end Inlay.Document
