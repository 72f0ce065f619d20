/-
# Proofs.Template.Spelling — the grammar of paths and their written form

A source is a path exactly if it is, blanks at its ends aside, pieces between dots of which
each, blanks at its ends aside, is a run of decimal digits or a name; the segments are what is
left of the pieces (`reads_grammar`). The two forms of a segment do not overlap, and neither
holds a blank, a dot or a brace (`Valid`). So the written form of a path, its segments with dots
between them, has nothing to be left out: it is read as the same path, and as a placeholder it is
a text that is a single placeholder.
-/
import Inlay.Proofs.Markup.Written
import Inlay.Proofs.Template.Splitting

namespace Inlay.Text

set_option autoImplicit false

variable {text inner front back : List Char} {c : Char}

/-! ## Characters of segments -/

/-- A character in one of two sets of ranges that have nothing in common is not in the other. -/
theorem Ranges.not_has_of_apart {ranges others : Ranges}
    (apart : (ranges.all fun r => others.all fun s => decide (r.2 < s.1 ∨ s.2 < r.1)) = true)
    (here : ranges.has c = true) : others.has c = false := by
  obtain ⟨r, mem, low, high⟩ : ∃ r ∈ ranges, r.1 ≤ c.toNat ∧ c.toNat ≤ r.2 := by
    simpa [Ranges.has, Bool.and_eq_true] using here
  rw [Ranges.has, List.any_eq_false]
  intro s there
  have gap := of_decide_eq_true (List.all_eq_true.mp (List.all_eq_true.mp apart r mem) s there)
  simp only [Bool.and_eq_true, decide_eq_true_eq]
  omega

theorem isLetter_of_isBlank (blank : isBlank c = true) : isLetter c = false :=
  Ranges.not_has_of_apart (by decide +kernel : (blankRanges.all fun r =>
    letterRanges.all fun s => decide (r.2 < s.1 ∨ s.2 < r.1)) = true) blank

theorem isNumeral_of_isBlank (blank : isBlank c = true) : isNumeral c = false :=
  Ranges.not_has_of_apart (by decide +kernel : (blankRanges.all fun r =>
    numeralRanges.all fun s => decide (r.2 < s.1 ∨ s.2 < r.1)) = true) blank

theorem isNumeral_of_isDigit (digit : c.isDigit = true) : isNumeral c = true := by
  obtain ⟨low, high⟩ : '0'.toNat ≤ c.toNat ∧ c.toNat ≤ '9'.toNat := by
    simpa [Char.isDigit, UInt32.le_iff_toNat_le] using digit
  have digits : (0x30, 0x39) ∈ numeralRanges := by decide +kernel
  exact List.any_eq_true.mpr ⟨_, digits, by simpa using ⟨low, high⟩⟩

/-- Joined pieces have the characters of the pieces, and the mark. -/
theorem mem_intercalate {mark : Char} : ∀ {pieces : List (List Char)}, c ∈ [mark].intercalate pieces →
    c = mark ∨ ∃ piece ∈ pieces, c ∈ piece
  | [], mem => by cases mem
  | [piece], mem => .inr ⟨piece, List.mem_singleton_self _, by rwa [List.intercalate_singleton] at mem⟩
  | piece :: next :: rest, mem => by
      rw [List.intercalate_cons_cons, List.append_assoc, List.mem_append, List.mem_append, List.mem_singleton] at mem
      rcases mem with here | isMark | later
      · exact .inr ⟨piece, List.mem_cons_self, here⟩
      · exact .inl isMark
      · exact (mem_intercalate later).imp_right fun ⟨other, mem, there⟩ => ⟨other, List.mem_cons_of_mem _ mem, there⟩

/-! ## Trimming -/

/-- `inner` is what is left of the text without the blanks at its two ends. -/
structure Trims (text inner : List Char) : Prop where
  around : ∃ front back, text = front ++ inner ++ back ∧ (∀ c ∈ front, isBlank c = true) ∧
    ∀ c ∈ back, isBlank c = true
  first : ∀ c ∈ inner.head?, isBlank c = false
  last : ∀ c ∈ inner.getLast?, isBlank c = false

theorem exists_dropWhile_isBlank (text : List Char) : ∃ front, text = front ++ text.dropWhile isBlank ∧
    (∀ c ∈ front, isBlank c = true) ∧ ∀ c ∈ (text.dropWhile isBlank).head?, isBlank c = false := by
  have blanks : ∀ c ∈ text.takeWhile isBlank, isBlank c = true := fun c mem => List.mem_takeWhile_imp mem
  exact ⟨_, List.takeWhile_append_dropWhile.symm, blanks, fun c first => not_of_mem_dropWhile first⟩

/-- `trim` finds what is left of a text, and nothing else is. -/
theorem trims_iff : Trims text inner ↔ trim text = inner := by
  constructor
  · rintro ⟨⟨front, back, rfl, frontBlank, backBlank⟩, first, last⟩
    cases inner with
    | nil =>
        have blank : ∀ c ∈ front ++ [] ++ back, isBlank c = true := by simpa [or_imp, forall_and] using
          ⟨frontBlank, backBlank⟩
        rw [trim, trimStart, List.dropWhile_eq_nil_iff.mpr blank]
        rfl
    | cons c rest =>
        have start : trimStart (front ++ (c :: rest) ++ back) = (c :: rest) ++ back := by
          rw [trimStart, List.append_assoc]
          exact Markup.dropWhile_append frontBlank first
        have stop : ((c :: rest) ++ back).reverse.dropWhile isBlank = (c :: rest).reverse := by
          rw [List.reverse_append]
          refine Markup.dropWhile_append (fun c mem => backBlank c (List.mem_reverse.mp mem)) ?_
          rw [List.head?_reverse]
          exact last
        rw [trim, start, trimEnd, stop, List.reverse_reverse]
  · rintro rfl
    obtain ⟨front, whole, frontBlank, first⟩ := exists_dropWhile_isBlank text
    obtain ⟨back, rest, backBlank, last⟩ := exists_dropWhile_isBlank (text.dropWhile isBlank).reverse
    have start : text.dropWhile isBlank = trim text ++ back.reverse := by
      rw [trim, trimEnd, trimStart, ← List.reverse_append, ← rest, List.reverse_reverse]
    refine ⟨⟨front, back.reverse, ?_, frontBlank, fun c mem => backBlank c (List.mem_reverse.mp mem)⟩, ?_, ?_⟩
    · rw [List.append_assoc, ← start]
      exact whole
    · intro c here
      refine first c ?_
      rw [start, List.head?_append, here]
      rfl
    · rw [trim, trimEnd, List.getLast?_reverse]
      exact last

end Inlay.Text

namespace Inlay

set_option autoImplicit false

open Inlay.Text Inlay.Template

/-- The characters of texts that are joined. -/
theorem toList_join (mark : String) : ∀ texts : List String,
    (join mark texts).toList = mark.toList.intercalate (texts.map String.toList)
  | [] => rfl
  | [text] => (List.intercalate_singleton ..).symm
  | text :: next :: rest => by
      have others := toList_join mark (next :: rest)
      rw [List.map_cons] at others
      show (text ++ mark ++ join mark (next :: rest)).toList = _
      rw [String.toList_append, String.toList_append, others, List.map_cons, List.map_cons,
        List.intercalate_cons_cons]

namespace Path

variable {source segment : List Char} {path : Path} {c : Char}

/-! ## Segments -/

/-- A run of decimal digits. -/
def IsIndex (segment : List Char) : Prop := segment ≠ [] ∧ ∀ c ∈ segment, '0' ≤ c ∧ c ≤ '9'

/-- A letter, `_` or `$`, and behind it letters, numerals, `_`, `$` and `-`. -/
def IsName (segment : List Char) : Prop :=
  ∃ head tail, segment = head :: tail ∧ (isLetter head = true ∨ head = '_' ∨ head = '$') ∧
    ∀ c ∈ tail, isLetter c = true ∨ isNumeral c = true ∨ c = '_' ∨ c = '$' ∨ c = '-'

theorem isSegment_iff : isSegment segment = true ↔ IsIndex segment ∨ IsName segment := by
  cases segment with
  | nil => simp [isSegment, IsIndex, IsName]
  | cons head tail =>
      simp [isSegment, IsIndex, IsName, Char.isDigit, isHeadChar, isTailChar, isLetterOrNumeral, Char.le_def,
        or_assoc]

theorem isTailChar_of_isSegment (ok : isSegment segment = true) (mem : c ∈ segment) : isTailChar c = true := by
  rcases isSegment_iff.mp ok with ⟨-, digits⟩ | ⟨head, tail, rfl, heads, tails⟩
  · have digit : c.isDigit = true := by simpa [Char.isDigit, Char.le_def] using digits c mem
    simp [isTailChar, isLetterOrNumeral, isNumeral_of_isDigit digit]
  · rcases List.mem_cons.mp mem with rfl | mem
    · simpa [isTailChar, isLetterOrNumeral] using by tauto
    · simpa [isTailChar, isLetterOrNumeral, or_assoc] using tails c mem

theorem isBlank_of_isTailChar (ok : isTailChar c = true) : isBlank c = false := by
  by_contra blank
  rw [Bool.not_eq_false] at blank
  simp only [isTailChar, isLetterOrNumeral, isLetter_of_isBlank blank, isNumeral_of_isBlank blank, Bool.or_self,
    Bool.false_or, Bool.or_eq_true, beq_iff_eq] at ok
  rcases ok with (rfl | rfl) | rfl <;> exact absurd blank (by decide)

theorem trim_eq_self_of_isSegment (ok : isSegment segment = true) : trim segment = segment :=
  Markup.trim_eq_self fun _ mem => isBlank_of_isTailChar (isTailChar_of_isSegment ok mem)

/-! ## Written paths -/

/-- There is a segment, and every segment is an index or a name. -/
structure Valid (path : Path) : Prop where
  some_ : path.segments ≠ []
  each : ∀ segment ∈ path.segments, isSegment segment.toList = true

/-- The segments of a source are what is left of its pieces between dots. -/
theorem spells_iff : Spells source path ↔ ∃ pieces : List (List Char), pieces ≠ [] ∧
    trim source = ['.'].intercalate pieces ∧ (∀ piece ∈ pieces, '.' ∉ piece) ∧
      (∀ piece ∈ pieces, isSegment (trim piece) = true) ∧
        path.segments = pieces.map fun piece => String.ofList (trim piece) := by
  have paired : ∀ {pieces : List (List Char)} {segments : List String}, List.Forall₂
      (fun piece segment => String.ofList (trim piece) = segment ∧ isSegment (trim piece) = true) pieces segments ↔
        (∀ piece ∈ pieces, isSegment (trim piece) = true) ∧
          segments = pieces.map fun piece => String.ofList (trim piece) := by
    intro pieces segments
    rw [eq_comm, ← List.forall₂_eq_eq_eq, List.forall₂_map_left_iff, ← List.forall₂_and_left]
    simp only [and_comm]
  simp only [Spells, paired]

theorem Spells.valid (spells : Spells source path) : Valid path := by
  obtain ⟨pieces, some_, -, -, ok, segments⟩ := spells_iff.mp spells
  constructor
  · rw [segments]
    exact mt List.map_eq_nil_iff.mp some_
  · rw [segments]
    exact List.forall_mem_map.mpr fun piece mem => by rw [String.toList_ofList]; exact ok piece mem

/-- The written form of a path is a source of it. -/
theorem Valid.spells_text (valid : Valid path) : Spells path.text.toList path := by
  have each : ∀ piece ∈ path.segments.map String.toList, isSegment piece = true := List.forall_mem_map.mpr valid.each
  have tail : ∀ piece ∈ path.segments.map String.toList, ∀ c ∈ piece, isTailChar c = true :=
    fun piece mem c here => isTailChar_of_isSegment (each piece mem) here
  have whole : path.text.toList = ['.'].intercalate (path.segments.map String.toList) := toList_join "." _
  refine spells_iff.mpr ⟨path.segments.map String.toList, mt List.map_eq_nil_iff.mp valid.some_, ?_, ?_, ?_, ?_⟩
  · rw [whole]
    refine Markup.trim_eq_self fun c mem => ?_
    rcases mem_intercalate mem with rfl | ⟨piece, there, here⟩
    · decide
    · exact isBlank_of_isTailChar (tail piece there c here)
  · exact fun piece mem dot => absurd (tail piece mem _ dot) (by decide +kernel)
  · intro piece mem
    rw [trim_eq_self_of_isSegment (each piece mem)]
    exact each piece mem
  · rw [List.map_map]
    have same : ∀ segment ∈ path.segments, String.ofList (trim segment.toList) = segment := fun segment mem => by
      rw [trim_eq_self_of_isSegment (valid.each segment mem), String.ofList_toList]
    exact (List.map_congr_left same).trans (List.map_id _) |>.symm

/-- The written form of a path ends no placeholder. -/
theorem Valid.unclosed (valid : Valid path) : ¬ closer <:+: path.text.toList := fun inside =>
  valid.spells_text.no_brace (.inr rfl) (inside.subset List.mem_cons_self)

/-- The written form of a path is one placeholder. -/
theorem Valid.read?_placeholder (valid : Valid path) :
    Pattern.read? ("$\x7b" ++ path.text ++ "\x7d") = .ok (some ⟨[.place path]⟩) := by
  have shape : ("$\x7b" ++ path.text ++ "\x7d").toList = opener ++ path.text.toList ++ closer := by
    rw [String.toList_append, String.toList_append]
    rfl
  refine read?_eq_some.mpr ⟨?_, read_eq_ok.mpr ?_⟩
  · exact ⟨[], path.text.toList ++ closer, by rw [shape, List.nil_append, List.append_assoc]⟩
  · exact splits_single.mpr ⟨_, shape, valid.unclosed, valid.spells_text⟩

/-! ## The grammar -/

/-- The text, blanks at its ends aside, is pieces between dots, and the segments are the pieces,
blanks at the ends of each aside. Every segment is an index or a name. -/
def Dotted (source : List Char) (segments : List (List Char)) : Prop :=
  ∃ inner pieces, Trims source inner ∧ pieces ≠ [] ∧ inner = ['.'].intercalate pieces ∧
    (∀ piece ∈ pieces, '.' ∉ piece) ∧ List.Forall₂ Trims pieces segments ∧
      ∀ segment ∈ segments, IsIndex segment ∨ IsName segment

theorem spells_iff_dotted : Spells source path ↔ Dotted source (path.segments.map String.toList) := by
  have trimmed : ∀ {pieces segments : List (List Char)}, List.Forall₂ Trims pieces segments ↔
      segments = pieces.map trim := by
    intro pieces segments
    have same : Trims = fun text inner => trim text = inner := funext₂ fun _ _ => propext trims_iff
    calc List.Forall₂ Trims pieces segments
        ↔ List.Forall₂ (· = ·) (pieces.map trim) segments := by rw [same, List.forall₂_map_left_iff]
      _ ↔ segments = pieces.map trim := by rw [List.forall₂_eq_eq_eq, eq_comm]
  rw [spells_iff]
  constructor
  · rintro ⟨pieces, some_, whole, apart, ok, segments⟩
    have each : path.segments.map String.toList = pieces.map trim := by
      rw [segments, List.map_map]
      exact List.map_congr_left fun piece _ => String.toList_ofList
    refine ⟨_, pieces, trims_iff.mpr rfl, some_, whole, apart, trimmed.mpr each, ?_⟩
    rw [each]
    exact List.forall_mem_map.mpr fun piece mem => isSegment_iff.mp (ok piece mem)
  · rintro ⟨inner, pieces, around, some_, rfl, apart, trims, ok⟩
    have each := trimmed.mp trims
    rw [each] at ok
    refine ⟨pieces, some_, trims_iff.mp around, apart, fun piece mem => isSegment_iff.mpr ?_, ?_⟩
    · exact List.forall_mem_map.mp ok piece mem
    · calc path.segments = (path.segments.map String.toList).map String.ofList := by simp [Function.comp_def]
        _ = pieces.map fun piece => String.ofList (trim piece) := by rw [each, List.map_map]; rfl

/-- A source is read as a path exactly if it is the segments of the path between dots, with blanks
around the whole and around each. The written form of a path that was read is read as the same
path, and in braces behind a `$` it is a text that is one placeholder of it. -/
theorem reads_grammar (source : List Char) (path : Path) :
    (Path.read? source = .ok path ↔ Dotted source (path.segments.map String.toList)) ∧
    (Path.read? source = .ok path →
      Path.read? path.text.toList = .ok path ∧
      ∃ pattern, Pattern.read? ("$\x7b" ++ path.text ++ "\x7d") = .ok (some pattern) ∧
        pattern.whole? = some path) := by
  refine ⟨read?_eq_ok.trans spells_iff_dotted, fun read => ?_⟩
  have valid := (read?_eq_ok.mp read).valid
  exact ⟨read?_eq_ok.mpr valid.spells_text, _, valid.read?_placeholder, rfl⟩

/-- Blanks go and the digits in front of a dot stay an index. -/
theorem reads_grammar_spaced :
    Path.read? "\trows . 07.$x-1 ".toList = .ok ⟨["rows", "07", "$x-1"]⟩ ∧
    Dotted "\trows . 07.$x-1 ".toList ["rows".toList, "07".toList, "$x-1".toList] ∧
    Path.read? "rows.07.$x-1".toList = .ok ⟨["rows", "07", "$x-1"]⟩ ∧
    ∃ pattern, Pattern.read? "$\x7brows.07.$x-1\x7d" = .ok (some pattern) ∧
      pattern.whole? = some ⟨["rows", "07", "$x-1"]⟩ := by
  have read : Path.read? "\trows . 07.$x-1 ".toList = .ok ⟨["rows", "07", "$x-1"]⟩ := by decide +kernel
  obtain ⟨grammar, again⟩ := reads_grammar "\trows . 07.$x-1 ".toList ⟨["rows", "07", "$x-1"]⟩
  exact ⟨read, grammar.mp read, again read⟩

end Path
end Inlay
