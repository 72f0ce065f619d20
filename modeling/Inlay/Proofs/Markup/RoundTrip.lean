/-
# Proofs.Markup.RoundTrip — reading undoes writing

A forest is `CleanAll` when markup can express it: names that have a written
form, texts that are not empty and not next to each other, comments without
`-->`, nothing in void elements and at most one text in raw ones. Texts and
attribute values are any strings.

A written forest reads as its pieces in order (`readFrom_writeAll`), and these
build the forest (`forestOf_piecesAll`); so no content of a clean forest can
change its structure (`forest?_writeAll`). A clean fragment of a document, written
and parsed into any document, stands there as the same forest
(`parse_outerMarkup`).
-/
import Inlay.Proofs.Document.Forest
import Inlay.Proofs.Document.Parsing
import Inlay.Proofs.Markup.Written

namespace Inlay.Markup

set_option autoImplicit false

open Inlay.Text

/-! ## Forests that markup can express -/

def Tree.isText : Tree → Bool
  | .text _ => true
  | _ => false

/-- What a raw element holds: nothing, or one text, which in a verbatim element
does not close it. -/
def RawChildren (tag : String) : List Tree → Prop
  | [] => True
  | [.text content] => isVerbatim tag = true → ¬ '<' :: '/' :: tag.toList <:+: lower content.toList
  | _ => False

mutual

/-- The tree has a written form. -/
def Clean : Tree → Prop
  | .text content => content ≠ ""
  | .comment body => ¬ ['-', '-', '>'] <:+: body.toList
  | .element tag attributes children =>
      TagName tag ∧ (∀ a ∈ attributes, AttributeName a.name) ∧ DistinctNames attributes ∧
        (isVoid tag = true → children = []) ∧ (isRaw tag = true → RawChildren tag children) ∧
        CleanAll children

/-- Each of the trees has a written form, and no two texts are neighbours. -/
def CleanAll : List Tree → Prop
  | [] => True
  | tree :: rest =>
      Clean tree ∧ (tree.isText = true → ∀ next ∈ rest.head?, next.isText = false) ∧ CleanAll rest

end

instance (tag : String) : ∀ children : List Tree, Decidable (RawChildren tag children)
  | [] => .isTrue trivial
  | [.text content] =>
      inferInstanceAs (Decidable (isVerbatim tag = true →
        ¬ '<' :: '/' :: tag.toList <:+: lower content.toList))
  | .text _ :: _ :: _ => .isFalse id
  | .comment _ :: _ => .isFalse id
  | .element _ _ _ :: _ => .isFalse id

instance (tag : String) : Decidable (TagName tag) :=
  decidable_of_iff (tag.toList.head?.any (·.isLower) = true ∧ tag.toList.all isTagChar = true) <| by
    rw [Option.any_eq_true, List.all_eq_true]
    constructor
    · rintro ⟨⟨c, here, small⟩, each⟩
      exact ⟨⟨c, here, small⟩, each⟩
    · rintro ⟨⟨c, here, small⟩, each⟩
      exact ⟨⟨c, here, small⟩, each⟩

instance (name : String) : Decidable (AttributeName name) :=
  decidable_of_iff (name ≠ "" ∧ name.toList.all (!·.isUpper) = true ∧ name.toList.all (!isBlank ·) = true ∧
      name.toList.all (fun c => !(List.contains ['"', '\x27', '<', '>', '/', '='] c)) = true) <| by
    simp only [List.all_eq_true, Bool.not_eq_true', List.contains_eq_mem, decide_eq_false_iff_not]
    constructor
    · rintro ⟨nonempty, small, whole, plain⟩
      exact ⟨nonempty, small, whole, plain⟩
    · rintro ⟨nonempty, small, whole, plain⟩
      exact ⟨nonempty, small, whole, plain⟩

mutual

instance decidableClean : ∀ tree : Tree, Decidable (Clean tree)
  | .text content => inferInstanceAs (Decidable (content ≠ ""))
  | .comment body => inferInstanceAs (Decidable (¬ ['-', '-', '>'] <:+: body.toList))
  | .element tag attributes children =>
      have := decidableCleanAll children
      inferInstanceAs (Decidable (TagName tag ∧ (∀ a ∈ attributes, AttributeName a.name) ∧
        (attributes.map (·.name)).Nodup ∧ (isVoid tag = true → children = []) ∧
        (isRaw tag = true → RawChildren tag children) ∧ CleanAll children))

instance decidableCleanAll : ∀ trees : List Tree, Decidable (CleanAll trees)
  | [] => .isTrue trivial
  | tree :: rest =>
      have := decidableClean tree
      have := decidableCleanAll rest
      inferInstanceAs (Decidable (Clean tree ∧
        (tree.isText = true → ∀ next ∈ rest.head?, next.isText = false) ∧ CleanAll rest))

end

/-! ## The pieces of a forest -/

/-- The text in a raw element. -/
def rawOf : List Tree → String
  | [.text content] => content
  | _ => ""

mutual

def pieces : Tree → List Piece
  | .text content => [.text content]
  | .comment body => [.comment body]
  | .element tag attributes children =>
    if isVoid tag then [.empty tag attributes]
    else if isRaw tag then [.raw tag attributes (rawOf children)]
    else .opening tag attributes :: (piecesAll children ++ [.closing tag])

/-- The pieces that a forest is written with. -/
def piecesAll : List Tree → List Piece
  | [] => []
  | tree :: rest => pieces tree ++ piecesAll rest

end

/-! ## Reading what is written -/

variable {input rest : List Char} {size : Nat} {tag : String} {attributes : List Attribute}
  {children : List Tree} {tree : Tree} {trees : List Tree} {parent : Option String}

namespace Reading

/-- A reading with more pieces in front. -/
def behind (front : List Piece) (reading : Reading) : Reading :=
  { reading with pieces := front ++ reading.pieces }

@[simp] theorem behind_nil (reading : Reading) : reading.behind [] = reading := rfl

theorem behind_append (first second : List Piece) (reading : Reading) :
    reading.behind (first ++ second) = (reading.behind second).behind first := by
  simp [behind]

theorem readFrom_of_text {content : List Char} (found : Token.next? input = some (.text content, rest)) :
    readFrom size input = (readFrom size rest).behind [.text (String.ofList (decode content))] := by
  rw [readFrom]
  split <;> simp_all [push, behind]

theorem readFrom_of_comment {body : List Char}
    (found : Token.next? input = some (.comment body, rest)) :
    readFrom size input = (readFrom size rest).behind [.comment (String.ofList body)] := by
  rw [readFrom]
  split <;> simp_all [push, behind]

theorem readFrom_of_closing {name : List Char}
    (found : Token.next? input = some (.closing name, rest)) :
    readFrom size input = (readFrom size rest).behind [.closing (String.ofList (lower name))] := by
  rw [readFrom]
  split <;> simp_all [push, behind]

theorem readFrom_of_opening {name : List Char} {opened : OpenTag}
    (found : Token.next? input = some (.opening name, rest))
    (read : ∀ start, OpenTag.read size start (String.ofList (lower name)) rest = .ok opened) :
    readFrom size input =
      (readFrom size (ofOpenTag (String.ofList (lower name)) opened).2).behind
        [(ofOpenTag (String.ofList (lower name)) opened).1] := by
  rw [readFrom]
  split <;> simp_all
  split <;> simp_all [push, behind]

end Reading

/-- The characters of a written element in front of what it holds. -/
theorem toList_write_element (parent : Option String) (tag : String) (attributes : List Attribute)
    (children : List Tree) :
    (Tree.write true parent (.element tag attributes children)).toList =
      '<' :: (tag.toList ++ ((Tree.writeAttributes attributes).toList ++ '>' ::
        if isVoid tag then []
        else (Tree.writeAll true (some tag) children).toList ++ '<' :: '/' :: (tag.toList ++ ['>']))) := by
  rw [Tree.write]
  split
  · simp
  · simp

/-- What follows a tag name is no part of it. -/
theorem head_writeAttributes (attributes : List Attribute) (rest : List Char) :
    ∀ c ∈ ((Tree.writeAttributes attributes).toList ++ '>' :: rest).head?, isNameChar c = false := by
  cases attributes with
  | nil =>
      rintro c ⟨⟩
      decide
  | cons a more =>
      rw [OpenTag.toList_writeAttributes_cons]
      rintro c ⟨⟩
      decide

/-- A written opening tag is read as it is. -/
theorem readFrom_openTag (name : TagName tag) (named : ∀ a ∈ attributes, AttributeName a.name)
    (distinct : DistinctNames attributes) (rest : List Char) :
    Reading.readFrom size ('<' :: (tag.toList ++ ((Tree.writeAttributes attributes).toList ++
        '>' :: rest))) =
      (Reading.readFrom size (Reading.ofOpenTag tag ⟨attributes, false, rest⟩).2).behind
        [(Reading.ofOpenTag tag ⟨attributes, false, rest⟩).1] := by
  have read : ∀ start, OpenTag.read size start tag ((Tree.writeAttributes attributes).toList ++
      '>' :: rest) = .ok ⟨attributes, false, rest⟩ := fun start => by
    have distinct : DistinctNames ([] ++ attributes) := distinct
    rw [OpenTag.read, OpenTag.readFrom_writeAttributes size start tag named distinct rest]
    rfl
  have lowered : String.ofList (lower tag.toList) = tag := by
    rw [name.lower, String.ofList_toList]
  have found := next?_opening name (head_writeAttributes attributes rest)
  have opened := Reading.readFrom_of_opening found (fun start => lowered.symm ▸ read start)
  rwa [lowered] at opened

theorem readFrom_closeTag (name : TagName tag) (rest : List Char) :
    Reading.readFrom size ('<' :: '/' :: (tag.toList ++ '>' :: rest)) =
      (Reading.readFrom size rest).behind [.closing tag] := by
  rw [Reading.readFrom_of_closing (next?_closing name rest), name.lower, String.ofList_toList]

theorem less_mem_of_lower {text : List Char} (mem : '<' ∈ lower text) : '<' ∈ text := by
  obtain ⟨c, there, same⟩ := List.mem_map.mp mem
  by_cases capital : c.val ≥ 'A'.val ∧ c.val ≤ 'Z'.val
  · have lowered : c.toLower.val = c.val + ('a'.val - 'A'.val) := congrArg Char.val (dif_pos capital)
    obtain ⟨least, most⟩ := capital
    rw [ge_iff_le, UInt32.le_iff_toNat_le] at least
    rw [UInt32.le_iff_toNat_le] at most
    have code : (c.val + ('a'.val - 'A'.val)).toNat = 60 := by rw [← lowered, same]; rfl
    rw [UInt32.toNat_add] at code
    change 65 ≤ c.val.toNat at least
    change c.val.toNat ≤ 90 at most
    change (c.val.toNat + 32) % 4294967296 = 60 at code
    omega
  · have lowered : c.toLower = c := dif_neg capital
    rwa [← same, lowered]

/-- Raw content is read as it is. -/
theorem rawText_content (raw : RawChildren tag children) :
    ¬ '<' :: '/' :: tag.toList <:+: lower (Tree.writeAll true (some tag) children).toList ∧
      rawText tag (Tree.writeAll true (some tag) children).toList = rawOf children := by
  unfold RawChildren at raw
  split at raw
  · constructor
    · intro inner
      have := inner.length_le
      simp [Tree.writeAll, lower] at this
    · simp [Tree.writeAll, rawText, rawOf, decode]
  · next content =>
    simp only [Tree.writeAll, Tree.write, Option.any_some, String.append_empty, rawText, rawOf]
    split
    · next kept => exact ⟨raw kept, String.ofList_toList⟩
    · refine ⟨fun inner => ?_, by rw [decode_escapeText, String.ofList_toList]⟩
      exact less_notMem_escapeText content (less_mem_of_lower (inner.subset List.mem_cons_self))
  · exact raw.elim

theorem stops_write (markup : tree.isText = false) (parent : Option String) (rest : List Char) :
    Stops ((Tree.write true parent tree).toList ++ rest) := by
  cases tree with
  | text content => cases markup
  | comment body =>
      have written : (Tree.write true parent (.comment body)).toList =
          '<' :: '!' :: '-' :: '-' :: (body.toList ++ ['-', '-', '>']) := by simp [Tree.write]
      rw [written]
      rintro c ⟨⟩
      rfl
  | element tag attributes children =>
      rw [toList_write_element]
      rintro c ⟨⟩
      rfl

theorem stops_writeAll (next : ∀ tree ∈ trees.head?, tree.isText = false) (parent : Option String)
    (stops : Stops rest) : Stops ((Tree.writeAll true parent trees).toList ++ rest) := by
  cases trees with
  | nil => simpa [Tree.writeAll] using stops
  | cons tree others =>
      rw [Tree.writeAll, String.toList_append, List.append_assoc]
      exact stops_write (next tree rfl) parent _

theorem isVerbatim_of_not_isRaw (tag : String) (plain : isRaw tag = false) : isVerbatim tag = false := by
  simp [isRaw, rawTags, isVerbatim, verbatimTags] at plain ⊢
  exact ⟨plain.1, plain.2.1⟩

mutual

/-- A written tree reads as its pieces. -/
theorem readFrom_write (size : Nat) : ∀ {tree : Tree} {parent : Option String} {rest : List Char}, Clean tree →
    parent.any isVerbatim = false → (tree.isText = true → Stops rest) →
    Reading.readFrom size ((Tree.write true parent tree).toList ++ rest) =
      (Reading.readFrom size rest).behind (pieces tree)
  | .text content, parent, rest, clean, plain, stops => by
      have some : (escapeText content).toList ≠ [] := by
        intro none
        have read := decode_escapeText content
        rw [none, decode] at read
        exact clean (String.toList_eq_nil_iff.mp read.symm)
      rw [Tree.write, plain, if_neg Bool.false_ne_true,
        Reading.readFrom_of_text (next?_text some (less_notMem_escapeText content) (stops rfl)),
        decode_escapeText, String.ofList_toList, pieces]
  | .comment body, parent, rest, clean, _, _ => by
      have found := next?_comment clean rest
      rw [Tree.write, if_pos rfl, pieces]
      simp only [String.toList_append, List.append_assoc]
      exact (Reading.readFrom_of_comment found).trans (by rw [String.ofList_toList])
  | .element tag attributes children, parent, rest, clean, _, _ => by
      obtain ⟨name, named, distinct, void, raw, inner⟩ := clean
      rw [toList_write_element, pieces]
      simp only [List.cons_append, List.append_assoc]
      rw [readFrom_openTag name named distinct, Reading.ofOpenTag]
      cases isVoid tag with
      | true => simp
      | false =>
          cases kind : isRaw tag with
          | true =>
              obtain ⟨open_, text⟩ := rawText_content (raw kind)
              have content := rawContent_append name open_ rest
              simp [content, text]
          | false =>
              have held : (some tag).any isVerbatim = false := isVerbatim_of_not_isRaw tag kind
              have stops : Stops ('<' :: '/' :: (tag.toList ++ '>' :: rest)) := by
                rintro c ⟨⟩
                rfl
              have children := readFrom_writeAll size inner held stops
              simp only [Bool.false_eq_true, or_self, if_false, List.append_assoc, List.cons_append,
                List.nil_append]
              rw [children, readFrom_closeTag name, ← Reading.behind_append, ← Reading.behind_append]
              rfl

theorem readFrom_writeAll (size : Nat) : ∀ {trees : List Tree} {parent : Option String} {rest : List Char},
    CleanAll trees → parent.any isVerbatim = false → Stops rest →
    Reading.readFrom size ((Tree.writeAll true parent trees).toList ++ rest) =
      (Reading.readFrom size rest).behind (piecesAll trees)
  | [], _, _, _, _, _ => rfl
  | tree :: others, parent, rest, clean, plain, stops => by
      obtain ⟨here, apart, later⟩ := clean
      have stop : tree.isText = true → Stops ((Tree.writeAll true parent others).toList ++ rest) :=
        fun text => stops_writeAll (apart text) parent stops
      rw [Tree.writeAll, String.toList_append, List.append_assoc, readFrom_write size here plain stop,
        readFrom_writeAll size later plain stops, piecesAll, Reading.behind_append]

end

/-! ## Building what was read -/

namespace Growth

variable {growth : Growth}

theorem flush_of_gathered (none : growth.gathered = "") : growth.flush = growth := if_pos none

theorem gathered_flush (growth : Growth) : growth.flush.gathered = "" := by
  unfold flush
  split
  · next none => exact none
  · rfl

/-- The growth with more children behind those it has. -/
def take (trees : List Tree) (growth : Growth) : Growth :=
  { growth.flush with children := trees.reverse ++ growth.flush.children }

theorem flush_take (trees : List Tree) (growth : Growth) :
    (growth.take trees).flush = growth.take trees :=
  flush_of_gathered (gathered_flush growth)

theorem take_append (first second : List Tree) (growth : Growth) :
    growth.take (first ++ second) = (growth.take first).take second := by
  rw [take, take, flush_take, take, List.reverse_append, List.append_assoc]

theorem rawChildren_rawOf (raw : RawChildren tag children) (clean : CleanAll children) :
    rawChildren (rawOf children) = children := by
  unfold RawChildren at raw
  split at raw
  · rfl
  · exact if_neg clean.1
  · exact raw.elim

/-- A closing tag makes an element of what was taken behind its opening tag. -/
theorem step_closing {inside : Growth}
    (taken : inside.flush = (growth.step (.opening tag attributes)).take children) :
    inside.step (.closing tag) = growth.take [.element tag attributes children] := by
  have ready : (growth.step (.opening tag attributes)).flush = growth.step (.opening tag attributes) :=
    flush_of_gathered (gathered_flush growth)
  rw [step, taken, take, ready]
  simp [step, close, take, List.findIdx?_cons]

mutual

/-- The pieces of a tree build the tree. -/
theorem foldl_pieces : ∀ {tree : Tree} (growth : Growth), Clean tree → tree.isText = false →
    (pieces tree).foldl step growth = growth.take [tree]
  | .text _, _, _, markup => by cases markup
  | .comment _, _, _, _ => rfl
  | .element tag attributes children, growth, clean, _ => by
      obtain ⟨-, -, -, void, raw, inner⟩ := clean
      rw [pieces]
      cases nothing : isVoid tag with
      | true =>
          rw [void nothing]
          rfl
      | false =>
          cases kind : isRaw tag with
          | true =>
              have held := rawChildren_rawOf (raw kind) inner
              simp only [Bool.false_eq_true, if_false, if_true, List.foldl_cons, List.foldl_nil, step,
                held]
              rfl
          | false =>
              simp only [Bool.false_eq_true, if_false, List.foldl_cons, List.foldl_append,
                List.foldl_nil]
              exact step_closing
                (flush_foldl_piecesAll _ inner (.inl (gathered_flush growth)))

/-- The pieces of a forest build the forest. -/
theorem flush_foldl_piecesAll : ∀ {trees : List Tree} (growth : Growth), CleanAll trees →
    (growth.gathered = "" ∨ ∀ tree ∈ trees.head?, tree.isText = false) →
    ((piecesAll trees).foldl step growth).flush = growth.take trees
  | [], _, _, _ => rfl
  | .text content :: others, growth, clean, ready => by
      obtain ⟨some, apart, later⟩ := clean
      have none : growth.gathered = "" := ready.resolve_right fun head => by cases head _ rfl
      have rest := flush_foldl_piecesAll { growth with gathered := content } later (.inr (apart rfl))
      have gathers : (pieces (.text content)).foldl step growth = { growth with gathered := content } := by
        simp [pieces, step, none]
      rw [piecesAll, List.foldl_append, gathers, rest]
      have some : content ≠ "" := some
      simp [take, flush, some, none]
  | .comment body :: others, growth, clean, _ => by
      have rest := flush_foldl_piecesAll (growth.take [.comment body]) clean.2.2
        (.inl (gathered_flush growth))
      rw [piecesAll, List.foldl_append, foldl_pieces growth clean.1 rfl, rest, ← take_append,
        List.singleton_append]
  | .element tag attributes children :: others, growth, clean, _ => by
      have rest := flush_foldl_piecesAll (growth.take [.element tag attributes children]) clean.2.2
        (.inl (gathered_flush growth))
      rw [piecesAll, List.foldl_append, foldl_pieces growth clean.1 rfl, rest, ← take_append,
        List.singleton_append]

end

end Growth

theorem forestOf_piecesAll (clean : CleanAll trees) : forestOf (piecesAll trees) = trees := by
  have built := Growth.flush_foldl_piecesAll .start clean (.inl rfl)
  rw [forestOf, Growth.finish, built]
  simp [Growth.take, Growth.start, Growth.flush, Growth.close]

/-- A written forest is read as it is. -/
theorem forest?_writeAll (clean : CleanAll trees) :
    forest? (Tree.writeAll true none trees) = .ok trees := by
  have stops : Stops [] := by
    rintro c ⟨⟩
  have read : Reading.ofSource (Tree.writeAll true none trees) = ⟨piecesAll trees, none⟩ := by
    have ended : Reading.readFrom (Tree.writeAll true none trees).utf8ByteSize [] = ⟨[], none⟩ := by
      rw [Reading.readFrom]
      rfl
    have outside : (none : Option String).any isVerbatim = false := rfl
    have all := readFrom_writeAll (Tree.writeAll true none trees).utf8ByteSize clean outside stops
    rw [List.append_nil] at all
    rw [Reading.ofSource, all, ended]
    simp [Reading.behind]
  simp only [forest?, read, forestOf_piecesAll clean]

end Inlay.Markup

namespace Inlay.Document

open Inlay.Markup

variable {d d' : Document} {id : NodeId}

/-- A fragment is written as its forest. -/
theorem outerMarkup_fragment (fragment : d.isFragment id = true) :
    d.outerMarkup id = Tree.writeAll true none (d.forest id) := by
  have content : d.content? id = some .fragment := by
    unfold isFragment at fragment
    split at fragment
    · next found => exact found
    · cases fragment
  have noTree : d.tree? id = none := by
    rw [content?, Option.map_eq_some_iff] at content
    obtain ⟨node, got, kind⟩ := content
    unfold tree?
    cases d.slots.size with
    | zero => rfl
    | succ fuel => simp only [treeWithin, got, kind]
  have noTag : d.tag? id = none := by
    simp only [tag?, element?, content, Option.map_none]
  simp only [outerMarkup, noTree, innerMarkup, childMarkup, noTag]

/-- A clean fragment that is written and parsed gives a new fragment with the
same forest. -/
theorem parse_outerMarkup (fragment : d.isFragment id = true) (clean : CleanAll (d.forest id))
    (wf : WellFormed d') :
    ∃ copy d'', parse (d.outerMarkup id) d' = .ok (.ok copy) d'' ∧ d'.contains copy = false ∧
      d''.isFragment copy = true ∧ d''.forest copy = d.forest id := by
  rw [outerMarkup_fragment fragment]
  obtain ⟨copy, ps, d'', parsed, same, potted⟩ := parse_ok wf (forest?_writeAll clean)
  refine ⟨copy, d'', parsed, potted.fresh copy List.mem_cons_self, ?_, ?_⟩
  · simp only [isFragment, potted.isFragment]
  · rw [forest_eq potted.wellFormed potted.stand potted.kids, same]

namespace Specimen

/-- Contents that look like markup, in every place where content stands. -/
def forest : List Tree :=
  [.element "p" [⟨"title", "\"><b>&quot;&amp;\u00a0"⟩, ⟨"on:x.y", "'/>"⟩]
      [.text "</p> & <b>&lt;", .element "br" [] [], .text "<!-- \u00a0"],
    .comment "- <!-- -- > -",
    .element "script" [⟨"async", ""⟩] [.text "if (a < b && c) d = \"</p>&amp;</scrip\""],
    .element "textarea" [] [.text "</textarea>&amp;"],
    .element "x-1:y_z" [] [.element "title" [] [], .element "i" [] []],
    .text "]]>"]

end Specimen

theorem parse_outerMarkup_specimen : ∃ id d, plantFragment Specimen.forest .new = .ok id d ∧
    d.isFragment id = true ∧ CleanAll (d.forest id) ∧ WellFormed d ∧
    d.outerMarkup id =
      "<p title=\"&quot;><b>&amp;quot;&amp;amp;&nbsp;\" on:x.y=\"'/>\">&lt;/p&gt; &amp; &lt;b&gt;&amp;lt;" ++
        "<br>&lt;!-- &nbsp;</p><!--- <!-- -- > ---><script async=\"\">if (a < b && c) d = " ++
        "\"</p>&amp;</scrip\"</script><textarea>&lt;/textarea&gt;&amp;amp;</textarea>" ++
        "<x-1:y_z><title></title><i></i></x-1:y_z>]]&gt;" ∧
    ∃ copy d', parse (d.outerMarkup id) d = .ok (.ok copy) d' ∧ d.contains copy = false ∧
      d'.isFragment copy = true ∧ d'.forest copy = Specimen.forest := by
  obtain ⟨id, ps, d, planted, same, potted⟩ := plantFragment_potted Specimen.forest wellFormed_new
  have fragment : d.isFragment id = true := by simp only [isFragment, potted.isFragment]
  have forest : d.forest id = Specimen.forest :=
    (forest_eq potted.wellFormed potted.stand potted.kids).trans same
  have clean : CleanAll (d.forest id) := by
    rw [forest]
    decide +kernel
  refine ⟨id, d, planted, fragment, clean, potted.wellFormed, ?_, ?_⟩
  · rw [outerMarkup_fragment fragment, forest]
    decide +kernel
  · rw [← forest]
    exact parse_outerMarkup fragment clean potted.wellFormed

end Inlay.Document
