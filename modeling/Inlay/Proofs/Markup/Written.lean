/-
# Proofs.Markup.Written — written tags, comments and raw content are read back

A name is written as it is and put in lower case when it is read, so only names
without capitals come back (`TagName`, `AttributeName`). Behind a tag or an
attribute name stands a character that no name has; a value stands between
quotes that are escaped in it; a comment and raw content reach to the first
place of the word that ends them. Each lemma reads one written construct off the
front of a text and leaves what stands behind it.
-/
import Inlay.Markup.Tree
import Inlay.Markup.Piece
import Inlay.Proofs.Markup.Escape
import Inlay.Proofs.Markup.Tidy
import Mathlib.Data.List.TakeWhile

namespace Inlay.Markup

set_option autoImplicit false

open Inlay.Text

variable {input rest word content : List Char} {size start : Nat} {tag : String}

/-! ## Names -/

/-- A character of a written tag name. -/
def isTagChar (c : Char) : Bool := c.isLower || c.isDigit || c == ':' || c == '_' || c == '-'

/-- A small letter first; small letters, digits, `:`, `_` and `-` throughout. -/
structure TagName (tag : String) : Prop where
  starts : ∃ c ∈ tag.toList.head?, c.isLower = true
  each : ∀ c ∈ tag.toList, isTagChar c = true

/-- Something without capitals, blanks, and what has a meaning in a tag. -/
structure AttributeName (name : String) : Prop where
  nonempty : name ≠ ""
  small : ∀ c ∈ name.toList, c.isUpper = false
  whole : ∀ c ∈ name.toList, isBlank c = false
  plain : ∀ c ∈ name.toList, c ∉ ['"', '\x27', '<', '>', '/', '=']

theorem lower_eq_self {text : List Char} (small : ∀ c ∈ text, c.isUpper = false) :
    lower text = text := by
  rw [lower, List.map_congr_left (g := id), List.map_id]
  intro c mem
  have noCapital : ¬ (c.val ≥ 'A'.val ∧ c.val ≤ 'Z'.val) := of_decide_eq_false (small c mem)
  exact dif_neg noCapital

theorem trim_eq_self {text : List Char} (whole : ∀ c ∈ text, isBlank c = false) :
    trim text = text := by
  have start : trimStart text = text := by
    rw [trimStart, List.dropWhile_eq_self_iff]
    intro some
    simp [whole _ (List.getElem_mem some)]
  have turned : text.reverse.dropWhile isBlank = text.reverse := by
    rw [List.dropWhile_eq_self_iff]
    intro some
    have mem := List.mem_reverse.mp (List.getElem_mem some)
    simpa using whole _ mem
  rw [trim, start, trimEnd, turned, List.reverse_reverse]

/-- The characters of a tag name, by their code points. -/
theorem code_of_isTagChar {c : Char} (ok : isTagChar c = true) :
    (97 ≤ c.toNat ∧ c.toNat ≤ 122) ∨ (48 ≤ c.toNat ∧ c.toNat ≤ 57) ∨
      c.toNat = 58 ∨ c.toNat = 95 ∨ c.toNat = 45 := by
  simp only [isTagChar, Char.isDigit, Bool.or_eq_true, Bool.and_eq_true,
    decide_eq_true_eq, beq_iff_eq, ge_iff_le, UInt32.le_iff_toNat_le] at ok
  rcases ok with (((small | digit) | rfl) | rfl) | rfl
  · obtain ⟨least, most⟩ := Eq.mp (Bool.and_eq_true _ _) small
    exact .inl ⟨UInt32.le_iff_toNat_le.mp (of_decide_eq_true least),
      UInt32.le_iff_toNat_le.mp (of_decide_eq_true most)⟩
  · exact .inr (.inl digit)
  · exact .inr (.inr (.inl rfl))
  · exact .inr (.inr (.inr (.inl rfl)))
  · exact .inr (.inr (.inr (.inr rfl)))

theorem isAsciiLetter_of_isLower {c : Char} (small : c.isLower = true) : isAsciiLetter c = true := by
  have letter : c.isAlpha = (c.isUpper || c.isLower) := rfl
  rw [isAsciiLetter, letter, small, Bool.or_true]

theorem isNameChar_of_isTagChar {c : Char} (ok : isTagChar c = true) : isNameChar c = true := by
  have alphanumeric : c.isAlphanum = ((c.isUpper || c.isLower) || c.isDigit) := rfl
  simp only [isTagChar, isNameChar, alphanumeric, Bool.or_eq_true] at ok ⊢
  tauto

theorem isUpper_of_isTagChar {c : Char} (ok : isTagChar c = true) : c.isUpper = false := by
  have code := code_of_isTagChar ok
  rw [← Bool.not_eq_true]
  intro capital
  obtain ⟨least, most⟩ : c.val ≥ 'A'.val ∧ c.val ≤ 'Z'.val := of_decide_eq_true capital
  have : 65 ≤ c.toNat := UInt32.le_iff_toNat_le.mp least
  have : c.toNat ≤ 90 := UInt32.le_iff_toNat_le.mp most
  omega

theorem isBlank_of_isTagChar {c : Char} (ok : isTagChar c = true) : isBlank c = false := by
  have code := code_of_isTagChar ok
  rw [← Bool.not_eq_true]
  intro blank
  simp only [isBlank, Ranges.has, blankRanges, List.any_cons, List.any_nil, Bool.or_eq_true,
    Bool.and_eq_true, decide_eq_true_eq, Bool.false_eq_true, or_false] at blank
  omega

theorem TagName.lower (name : TagName tag) : Text.lower tag.toList = tag.toList :=
  lower_eq_self fun c mem => isUpper_of_isTagChar (name.each c mem)

theorem TagName.trim (name : TagName tag) : Text.trim tag.toList = tag.toList :=
  trim_eq_self fun c mem => isBlank_of_isTagChar (name.each c mem)

theorem TagName.notMem (name : TagName tag) {c : Char} (other : isTagChar c = false) :
    c ∉ tag.toList := by
  intro mem
  rw [name.each c mem] at other
  cases other

/-- The first letter of a tag name and what follows it. -/
theorem TagName.exists_cons (name : TagName tag) :
    ∃ c tail, tag.toList = c :: tail ∧ c.isLower = true := by
  obtain ⟨c, first, small⟩ := name.starts
  obtain ⟨tail, split⟩ := List.head?_eq_some_iff.mp first
  exact ⟨c, tail, split, small⟩

/-- A blank between the parts of a tag is white space. -/
theorem isGap_of_isBlank {c : Char} (whole : isBlank c = false) : TagToken.isGap c = false := by
  rw [← Bool.not_eq_true]
  intro gap
  simp only [TagToken.isGap, isAsciiBlank, Bool.or_eq_true, beq_iff_eq] at gap
  rcases gap with (((rfl | rfl) | rfl) | rfl) | rfl <;> revert whole <;> decide

theorem AttributeName.isWordChar {name : String} (ok : AttributeName name) :
    ∀ c ∈ name.toList, TagToken.isWordChar c = true := by
  intro c mem
  have whole := ok.whole c mem
  have plain := ok.plain c mem
  simp only [List.mem_cons, List.not_mem_nil, or_false, not_or] at plain
  simp [TagToken.isWordChar, whole, plain]

/-! ## Between tags -/

/-- The text goes on with a tag or a comment, or ends. -/
def Stops (rest : List Char) : Prop := ∀ c ∈ rest.head?, c = '<'

theorem takeWhile_append {p : Char → Bool} (all : ∀ c ∈ word, p c = true)
    (stop : ∀ c ∈ rest.head?, p c = false) : (word ++ rest).takeWhile p = word := by
  rw [List.takeWhile_append_of_pos all]
  cases rest with
  | nil => simp
  | cons c rest => simp [stop c rfl]

theorem dropWhile_append {p : Char → Bool} (all : ∀ c ∈ word, p c = true)
    (stop : ∀ c ∈ rest.head?, p c = false) : (word ++ rest).dropWhile p = rest := by
  rw [List.dropWhile_append_of_pos all]
  cases rest with
  | nil => rfl
  | cons c rest => simp [stop c rfl]

theorem next?_text (some : content ≠ []) (plain : '<' ∉ content) (stops : Stops rest) :
    Token.next? (content ++ rest) = .some (.text content, rest) := by
  obtain ⟨c, tail, rfl⟩ := List.exists_cons_of_ne_nil some
  obtain ⟨first, others⟩ := not_or.mp (fun h => plain (List.mem_cons.mpr h))
  have all : ∀ x ∈ tail, decide (x ≠ '<') = true := fun x mem =>
    decide_eq_true fun same => others (same ▸ mem)
  have stop : ∀ x ∈ rest.head?, decide (x ≠ '<') = false := fun x mem => by simp [stops x mem]
  rw [List.cons_append, Token.next?, if_neg fun same => first same.symm, takeWhile_append all stop,
    dropWhile_append all stop]

theorem next?_comment {body : List Char} (inner : ¬ ['-', '-', '>'] <:+: body) (rest : List Char) :
    Token.next? ('<' :: '!' :: '-' :: '-' :: (body ++ '-' :: '-' :: '>' :: rest)) =
      some (.comment body, rest) := by
  have unbordered : Unbordered ['-', '-', '>'] := unbordered_of_last ['-', '-'] (by decide)
  have cut := cutAt?_append unbordered (List.cons_ne_nil _ _) rest inner
  simp only [List.cons_append, List.nil_append] at cut
  rw [Token.next?, if_pos rfl, Token.afterLess, cut]

theorem next?_opening (name : TagName tag) (stop : ∀ c ∈ rest.head?, isNameChar c = false) :
    Token.next? ('<' :: (tag.toList ++ rest)) = some (.opening tag.toList, rest) := by
  obtain ⟨c, tail, split, small⟩ := name.exists_cons
  have all : ∀ x ∈ tail, isNameChar x = true := fun x mem =>
    isNameChar_of_isTagChar (name.each x (split ▸ List.mem_cons_of_mem _ mem))
  have letter : isAsciiLetter c = true := isAsciiLetter_of_isLower small
  have slash : c ≠ '/' := by
    rintro rfl
    exact absurd small (by decide)
  have mark : c ≠ '!' := by
    rintro rfl
    exact absurd small (by decide)
  rw [split, List.cons_append, Token.next?, if_pos rfl, Token.afterLess, if_pos letter,
    takeWhile_append all stop, dropWhile_append all stop]
  · exact fun _ _ same => absurd same slash
  · exact fun _ same => absurd same mark
  · exact fun _ _ same => absurd same mark

theorem next?_closing (name : TagName tag) (rest : List Char) :
    Token.next? ('<' :: '/' :: (tag.toList ++ '>' :: rest)) = some (.closing tag.toList, rest) := by
  obtain ⟨c, tail, split, small⟩ := name.exists_cons
  have letter : isAsciiLetter c = true := isAsciiLetter_of_isLower small
  have cut : untilFinish? (tag.toList ++ '>' :: rest) = some (tag.toList, rest) :=
    cutAt?_singleton (name.notMem (by decide)) rest
  have trimmed := name.trim
  rw [split] at cut trimmed ⊢
  rw [List.cons_append] at cut ⊢
  rw [Token.next?, if_pos rfl, Token.afterLess, if_pos letter, cut]
  simp only [trimmed]

/-! ## Inside an opening tag -/

theorem next?_finish (rest : List Char) : TagToken.next? ('>' :: rest) = some (.finish, rest) := rfl

theorem next?_equals (rest : List Char) : TagToken.next? ('=' :: rest) = some (.equals, rest) := rfl

theorem next?_word {name : String} (ok : AttributeName name) (rest : List Char) :
    TagToken.next? (' ' :: (name.toList ++ '=' :: rest)) = some (.word name.toList, '=' :: rest) := by
  obtain ⟨c, tail, split⟩ := List.exists_cons_of_ne_nil (mt String.toList_eq_nil_iff.mp ok.nonempty)
  have all := ok.isWordChar
  have first : c ∈ name.toList := split ▸ List.mem_cons_self
  have gap := isGap_of_isBlank (ok.whole c first)
  have plain := ok.plain c first
  simp only [List.mem_cons, List.not_mem_nil, or_false, not_or] at plain
  obtain ⟨double, single, -, finish, slash, equals⟩ := plain
  rw [split] at all ⊢
  obtain ⟨here, others⟩ := List.forall_mem_cons.mp all
  have stop : ∀ x ∈ ('=' :: rest).head?, TagToken.isWordChar x = false := by
    rintro x ⟨⟩
    decide
  have dropped : (' ' :: (c :: tail ++ '=' :: rest)).dropWhile TagToken.isGap =
      c :: (tail ++ '=' :: rest) := by
    have space : TagToken.isGap ' ' = true := by decide
    simp [space, gap]
  simp only [TagToken.next?, dropped, TagToken.startingWith, finish, equals, slash, double, single,
    here, takeWhile_append others stop, dropWhile_append others stop, if_true, if_false, or_self]

theorem value?_quoted (plain : '"' ∉ content) (rest : List Char) :
    value? ('"' :: (content ++ '"' :: rest)) = some (decode content, rest) := by
  have bare : trimStart ('"' :: (content ++ '"' :: rest)) = '"' :: (content ++ '"' :: rest) := rfl
  have token : TagToken.next? ('"' :: (content ++ '"' :: rest)) = some (.quoted content, rest) := by
    have gap : TagToken.isGap '"' = false := by decide
    simp [TagToken.next?, gap, TagToken.startingWith, TagToken.afterQuote, cutAt?_singleton plain rest]
  simp only [value?, bare, List.head?_cons, token]

namespace OpenTag

variable {pending : Option String} {attributes : List Attribute}

theorem readFrom_of_finish (found : TagToken.next? input = some (.finish, rest)) :
    readFrom size start tag pending attributes input =
      .ok ⟨settle pending attributes, false, rest⟩ := by
  rw [readFrom]
  split <;> simp_all

theorem readFrom_of_selfFinish (found : TagToken.next? input = some (.selfFinish, rest)) :
    readFrom size start tag pending attributes input =
      .ok ⟨settle pending attributes, true, rest⟩ := by
  rw [readFrom]
  split <;> simp_all

theorem readFrom_of_slash (found : TagToken.next? input = some (.slash, rest)) :
    readFrom size start tag pending attributes input =
      readFrom size start tag pending attributes rest := by
  rw [readFrom]
  split <;> simp_all

theorem readFrom_of_word (found : TagToken.next? input = some (.word word, rest)) :
    readFrom size start tag pending attributes input =
      readFrom size start tag (some (String.ofList (lower word))) (settle pending attributes)
        rest := by
  rw [readFrom]
  split <;> simp_all

theorem readFrom_of_value {name : String} {behind value : List Char}
    (found : TagToken.next? input = some (.equals, rest))
    (valued : value? rest = some (value, behind)) :
    readFrom size start tag (some name) attributes input =
      readFrom size start tag none (Attribute.add attributes name (String.ofList value)) behind := by
  rw [readFrom]
  split <;> simp_all
  split <;> simp_all

/-- One written attribute is read as it is. -/
theorem readFrom_attribute {a : Attribute} (ok : AttributeName a.name)
    (new : a.name ∉ attributes.map (·.name)) (rest : List Char) :
    readFrom size start tag none attributes
        (' ' :: (a.name.toList ++ '=' :: '"' :: ((escapeAttribute a.value).toList ++ '"' :: rest))) =
      readFrom size start tag none (attributes ++ [a]) rest := by
  have absent : attributes.any (fun b => decide (b.name = a.name)) = false := by
    simpa using new
  rw [readFrom_of_word (next?_word ok _), lower_eq_self ok.small, String.ofList_toList,
    readFrom_of_value (next?_equals _) (value?_quoted (quote_notMem_escapeAttribute a.value) rest),
    decode_escapeAttribute, String.ofList_toList, Attribute.add]
  simp [settle, absent]

theorem toList_writeAttributes_cons (a : Attribute) (more : List Attribute) :
    (Tree.writeAttributes (a :: more)).toList =
      ' ' :: (a.name.toList ++ '=' :: '"' :: ((escapeAttribute a.value).toList ++ '"' ::
        (Tree.writeAttributes more).toList)) := by
  simp [Tree.writeAttributes]

/-- The attributes of a written tag are read as they are, in their order. -/
theorem readFrom_writeAttributes (size start : Nat) (tag : String) :
    ∀ {written attributes : List Attribute}, (∀ a ∈ written, AttributeName a.name) →
      DistinctNames (attributes ++ written) → ∀ rest : List Char,
      readFrom size start tag none attributes
          ((Tree.writeAttributes written).toList ++ '>' :: rest) =
        .ok ⟨attributes ++ written, false, rest⟩
  | [], attributes, _, _, rest => by
      rw [List.append_nil]
      exact readFrom_of_finish (next?_finish rest)
  | a :: more, attributes, ok, distinct, rest => by
      obtain ⟨here, others⟩ := List.forall_mem_cons.mp ok
      have new : a.name ∉ attributes.map (·.name) := by
        rw [DistinctNames, List.map_append, List.map_cons, List.nodup_append] at distinct
        intro mem
        exact distinct.2.2 _ mem _ List.mem_cons_self rfl
      have later : DistinctNames (attributes ++ [a] ++ more) := by simpa using distinct
      have read := readFrom_writeAttributes size start tag others later rest
      rw [toList_writeAttributes_cons]
      simp only [List.cons_append, List.append_assoc, List.nil_append] at read ⊢
      rw [readFrom_attribute here new, read]

end OpenTag

/-! ## Raw content -/

/-- Raw content reaches to the closing tag that is written behind it. -/
theorem rawContent_append (name : TagName tag) (inner : ¬ '<' :: '/' :: tag.toList <:+: lower content)
    (rest : List Char) :
    rawContent tag (content ++ '<' :: '/' :: (tag.toList ++ '>' :: rest)) = (content, rest) := by
  have once : '<' ∉ '/' :: tag.toList := by
    have outside := name.notMem (c := '<') (by decide)
    simpa using outside
  have cut := cutAt?_append (unbordered_of_head once) (List.cons_ne_nil _ _) (lower ('>' :: rest)) inner
  have lowered : lower (content ++ '<' :: '/' :: (tag.toList ++ '>' :: rest)) =
      lower content ++ ('<' :: '/' :: tag.toList ++ lower ('>' :: rest)) := by
    have same := name.lower
    simp only [lower, List.map_append, List.map_cons] at same ⊢
    rw [same]
    rfl
  have finish : behindFinish ('<' :: '/' :: (tag.toList ++ '>' :: rest)) = rest := by
    have outside : '>' ∉ '<' :: '/' :: tag.toList := by
      have outside := name.notMem (c := '>') (by decide)
      simpa using outside
    have cut := cutAt?_singleton outside rest
    simp only [List.cons_append] at cut
    simp only [behindFinish, untilFinish?, cut]
  have long : (lower content).length = content.length := List.length_map _
  rw [rawContent, lowered, cut]
  simp only [long, List.take_left, List.drop_left, finish]

end Inlay.Markup
