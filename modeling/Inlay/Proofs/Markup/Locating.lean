/-
# Proofs.Markup.Locating — where a fault is

A fault is reported with a position in bytes, and `Fault.span` makes a stretch of the source of it.
What is at fault at that position is said in two layers, as the source is read. In an opening tag
everything up to the fault is `Inside` the tag; then something `Offending` comes, or the tag stays
`Unended` (`OpenTag.stuck_of_readFrom`). Between tags whole constructs are `Passed` up to one that is
`Faulty` (`faulty_of_readFrom`). Counting the bytes in front gives `Located`.

The stretch is compared with the source on its own: `Shows` says which text it cuts out, if its ends
are between characters at all, and `Tells` what that text should be. Both hold of every fault but one
(`parse_locates`): of a quoted text that is no value (`Misquoted`) the position is that of its quote,
while the length is that of the text without its quotes.
-/
import Inlay.Proofs.Markup.Bytes
import Inlay.Proofs.Markup.Scanning
import Inlay.Proofs.Document.Forest
import Inlay.Proofs.Document.Parsing

namespace Inlay.Markup

set_option autoImplicit false

open Inlay.Text

variable {input rest text content : List Char} {c quote : Char} {size start : Nat} {tag : String} {fault : Fault}
  {pending : Bool}

/-! ## Inside an opening tag -/

/-- What stands in an opening tag behind its name, without anything that ends the tag. `pending`
tells whether the last word may still get a value. -/
inductive Inside : (pending : Bool) → List Char → Prop
  | start : Inside false []
  | gaps {pending : Bool} {text gaps : List Char} : Inside pending text → (∀ x ∈ gaps, TagToken.isGap x = true) →
      Inside pending (text ++ gaps)
  | slash {pending : Bool} {text : List Char} : Inside pending text → Inside pending (text ++ ['/'])
  | word {pending : Bool} {text word : List Char} : Inside pending text → word ≠ [] →
      (∀ x ∈ word, TagToken.isWordChar x = true) → Inside true (text ++ word)
  | value {text value : List Char} : Inside true text → SpelledValue value → Inside false (text ++ '=' :: value)

/-- What may not come next in an opening tag, as it is reported and as it is written: an `=` without a
name, a quoted text that is no value, a quote without its partner, and a character that stands in no tag. -/
inductive Offending : (pending : Bool) → (found token after : List Char) → Prop
  | equals {after : List Char} : Offending false ['='] ['='] after
  | quoted {pending : Bool} {quote : Char} {content after : List Char} : IsQuote quote → quote ∉ content →
      Offending pending content (quote :: (content ++ [quote])) after
  | unclosed {pending : Bool} {quote : Char} {content : List Char} : IsQuote quote → quote ∉ content →
      Offending pending (quote :: content) (quote :: content) []
  | stray {pending : Bool} {c : Char} {after : List Char} : c = '<' ∨ isBlank c = true ∧ TagToken.isGap c = false →
      Offending pending [c] [c] after

/-- An opening tag is not ended: nothing more comes, or a value that cannot be read. -/
inductive Unended : (pending : Bool) → List Char → Prop
  | ends {pending : Bool} : Unended pending []
  | value {value : List Char} : Unreadable value → Unended true ('=' :: value)

/-- The fault of an opening tag, with what stands behind its name. -/
inductive Stuck (size start : Nat) (tag : String) : List Char → Fault → Prop
  | unended {pending : Bool} {inner tail : List Char} : Inside pending inner → Unended pending tail →
      Stuck size start tag (inner ++ tail) (.openTag start tag)
  | unexpected {pending : Bool} {inner found token after : List Char} : Inside pending inner →
      Offending pending found token after →
      Stuck size start tag (inner ++ (token ++ after))
        (.unexpected (size - bytes (token ++ after)) tag (String.ofList found))

namespace OpenTag

variable {inner : List Char} {attributes : List Attribute}

/-- Gaps and then a token, behind what is read so far. -/
theorem append_gaps (inner : List Char) {token : TagToken} (found : TagToken.next? input = some (token, rest)) :
    ∃ text, inner ++ input = inner ++ input.takeWhile TagToken.isGap ++ (text ++ rest) ∧
      input.dropWhile TagToken.isGap = text ++ rest ∧ TagToken.Spelled token text rest := by
  obtain ⟨text, dropped, spelled⟩ := TagToken.spelled_next? found
  refine ⟨text, ?_, dropped, spelled⟩
  rw [← dropped, List.append_assoc, List.takeWhile_append_dropWhile]

theorem inside_gaps (inside : Inside pending inner) (input : List Char) :
    Inside pending (inner ++ input.takeWhile TagToken.isGap) :=
  inside.gaps fun _ mem => List.mem_takeWhile_imp mem

/-- Reading stays inside the tag until it ends or is stuck. -/
theorem stuck_of_readFrom {pending : Option String} (inside : Inside pending.isSome inner)
    (refused : readFrom size start tag pending attributes input = .error fault) :
    Stuck size start tag (inner ++ input) fault := by
  fun_induction readFrom size start tag pending attributes input generalizing inner with
  | case1 _ _ input found =>
      cases refused
      have none := TagToken.dropWhile_of_next?_eq_none found
      have whole : inner ++ input = inner ++ input.takeWhile TagToken.isGap ++ [] := by
        rw [← none, List.append_assoc, List.takeWhile_append_dropWhile]
      rw [whole]
      exact .unended (inside_gaps inside input) .ends
  | case2 => cases refused
  | case3 => cases refused
  | case4 _ _ input _ found ih =>
      obtain ⟨text, whole, -, spelled⟩ := append_gaps inner found
      cases spelled
      rw [whole, ← List.append_assoc]
      exact ih (inside_gaps inside input).slash refused
  | case5 _ _ input _ _ found ih =>
      obtain ⟨text, whole, -, spelled⟩ := append_gaps inner found
      cases spelled with
      | word some word =>
          rw [whole, ← List.append_assoc]
          exact ih ((inside_gaps inside input).word some word) refused
  | case6 _ input =>
      rename_i found
      cases refused
      obtain ⟨text, whole, dropped, spelled⟩ := append_gaps inner found
      cases spelled
      change Stuck size start tag _ (.unexpected (size - bytes (input.dropWhile TagToken.isGap)) tag "=")
      rw [whole, dropped]
      exact .unexpected (inside_gaps inside input) .equals
  | case7 _ input _ found _ valued =>
      cases refused
      obtain ⟨text, whole, -, spelled⟩ := append_gaps inner found
      cases spelled
      rw [whole]
      exact .unended (inside_gaps inside input) (.value (unreadable_of_value?_eq_none valued))
  | case8 _ input _ found _ _ _ valued ih =>
      obtain ⟨text, whole, -, spelled⟩ := append_gaps inner found
      obtain ⟨value, rfl, readable⟩ := spelled_value? valued
      cases spelled
      have stuck := ih ((inside_gaps inside input).value readable) refused
      rw [whole]
      simpa using stuck
  | case9 _ _ input =>
      rename_i taken
      cases refused
      obtain ⟨text, whole, dropped, spelled⟩ := append_gaps inner taken
      change Stuck size start tag _ (.unexpected (size - bytes (input.dropWhile TagToken.isGap)) tag _)
      rw [whole, dropped]
      cases spelled with
      | quoted isQuote clear => exact .unexpected (inside_gaps inside input) (.quoted isQuote clear)
  | case10 _ _ input =>
      rename_i taken
      cases refused
      obtain ⟨text, whole, dropped, spelled⟩ := append_gaps inner taken
      change Stuck size start tag _ (.unexpected (size - bytes (input.dropWhile TagToken.isGap)) tag _)
      rw [whole, dropped]
      cases spelled with
      | unclosed isQuote clear => exact .unexpected (inside_gaps inside input) (.unclosed isQuote clear)
      | stray foreign =>
          refine .unexpected (inside_gaps inside input) (.stray (foreign.imp_right fun blank => ⟨blank, ?_⟩))
          exact not_of_mem_dropWhile (by rw [dropped]; rfl)

end OpenTag

/-! ## Between tags -/

/-- The token is all of a construct. -/
def Token.Whole : Token → Prop
  | .opening _ => False
  | .broken _ => False
  | _ => True

/-- A text is read without a fault up to what is left of it. -/
inductive Passed : (text rest : List Char) → Prop
  | here {text : List Char} : Passed text text
  | token {text next rest : List Char} {token : Token} : Token.next? text = some (token, next) → token.Whole →
      Passed next rest → Passed text rest
  | tag {text next rest name : List Char} {opened : OpenTag} {size start : Nat} :
      Token.next? text = some (.opening name, next) →
      OpenTag.read size start (String.ofList (lower name)) next = .ok opened →
      Passed (Reading.ofOpenTag (String.ofList (lower name)) opened).2 rest → Passed text rest

theorem Passed.suffix (passed : Passed text rest) : rest <:+ text := by
  induction passed with
  | here => exact List.suffix_refl _
  | token found _ _ ih => exact ih.trans (Token.suffix_of_next? found)
  | tag found read _ ih =>
      have behind := ih.trans (Reading.suffix_ofOpenTag _ _)
      exact (behind.trans (OpenTag.suffix_of_readFrom read)).trans (Token.suffix_of_next? found)

/-- The whole name of a tag in front of a text: a letter and the characters of names behind it. -/
def IsTagName (name behind : List Char) : Prop :=
  (∃ c tail, name = c :: tail ∧ isAsciiLetter c = true ∧ ∀ x ∈ tail, isNameChar x = true) ∧
    ∀ x ∈ behind.head?, isNameChar x = false

/-- A closing tag or a declaration without `>`. -/
inductive Unclosed : List Char → Prop
  | closing {c : Char} {tail : List Char} : isAsciiLetter c = true → '>' ∉ c :: tail → Unclosed ('<' :: '/' :: c :: tail)
  | declaration {c : Char} {tail : List Char} : c ≠ '-' → '>' ∉ tail → Unclosed ('<' :: '!' :: c :: tail)

/-- The fault of what stands at the start of a text. -/
inductive Faulty (size : Nat) : List Char → Fault → Prop
  | comment {body : List Char} : ¬ ['-', '-', '>'] <:+: body →
      Faulty size ('<' :: '!' :: '-' :: '-' :: body) (.openComment (size - bytes ('<' :: '!' :: '-' :: '-' :: body)))
  | markup {text : List Char} : Unclosed text → Faulty size text (.openMarkup (size - bytes text) (String.ofList text))
  | tag {name behind : List Char} {fault : Fault} : IsTagName name behind →
      Stuck size (size - bytes ('<' :: (name ++ behind))) (String.ofList (lower name)) behind fault →
      Faulty size ('<' :: (name ++ behind)) fault

/-- What is broken at the start of a text. -/
theorem faulty_of_broken {slice : List Char} (found : Token.next? input = some (.broken slice, rest)) :
    Faulty size input (Reading.brokenFault (size - bytes input) slice) := by
  obtain ⟨text, rfl, spelled⟩ := Token.spelled_next? found
  cases spelled with
  | openComment unclosed => exact .comment unclosed
  | openClosing letter clear =>
      rw [List.append_nil, Reading.brokenFault, if_neg (by simp)]
      exact .markup (.closing letter clear)
  | openDeclaration plain clear =>
      rw [List.append_nil, Reading.brokenFault, if_neg (by simp [plain])]
      exact .markup (.declaration plain clear)

/-- Reading passes whole constructs until it comes to one with a fault. -/
theorem faulty_of_readFrom (faulted : (Reading.readFrom size input).fault = some fault) :
    ∃ rest, Passed input rest ∧ Faulty size rest fault := by
  fun_induction Reading.readFrom size input with
  | case1 => cases faulted
  | case2 _ _ _ found ih =>
      obtain ⟨rest, passed, faulty⟩ := ih faulted
      exact ⟨rest, .token found trivial passed, faulty⟩
  | case3 _ _ found ih =>
      obtain ⟨rest, passed, faulty⟩ := ih faulted
      exact ⟨rest, .token found trivial passed, faulty⟩
  | case4 _ _ found ih =>
      obtain ⟨rest, passed, faulty⟩ := ih faulted
      exact ⟨rest, .token found trivial passed, faulty⟩
  | case5 _ _ _ found ih =>
      obtain ⟨rest, passed, faulty⟩ := ih faulted
      exact ⟨rest, .token found trivial passed, faulty⟩
  | case6 _ _ _ found ih =>
      obtain ⟨rest, passed, faulty⟩ := ih faulted
      exact ⟨rest, .token found trivial passed, faulty⟩
  | case7 input _ _ _ found =>
      cases faulted
      exact ⟨input, .here, faulty_of_broken found⟩
  | case8 input _ _ _ found _ _ refused =>
      cases faulted
      obtain ⟨text, rfl, spelled⟩ := Token.spelled_next? found
      cases spelled with
      | opening letter each stop =>
          have inside : Inside (none : Option String).isSome [] := .start
          exact ⟨_, .here, .tag ⟨⟨_, _, rfl, letter, each⟩, stop⟩ (OpenTag.stuck_of_readFrom inside refused)⟩
  | case9 _ _ _ _ found _ _ read ih =>
      obtain ⟨rest, passed, faulty⟩ := ih faulted
      exact ⟨rest, .tag found read passed, faulty⟩

/-! ## Positions -/

/-- The fault of a source with its position, which is counted in the bytes in front of the construct
that the source is read up to: a comment that is not ended, a closing tag or declaration without its
end, an opening tag that is not ended, and something that may not come next in an opening tag. -/
inductive Located (source : List Char) : Fault → Prop
  | comment {before body : List Char} : source = before ++ '<' :: '!' :: '-' :: '-' :: body →
      Passed source ('<' :: '!' :: '-' :: '-' :: body) → ¬ ['-', '-', '>'] <:+: body →
      Located source (.openComment (bytes before))
  | markup {before text : List Char} : source = before ++ text → Passed source text → Unclosed text →
      Located source (.openMarkup (bytes before) (String.ofList text))
  | tag {pending : Bool} {before name inner tail : List Char} : source = before ++ '<' :: (name ++ (inner ++ tail)) →
      Passed source ('<' :: (name ++ (inner ++ tail))) → IsTagName name (inner ++ tail) → Inside pending inner →
      Unended pending tail → Located source (.openTag (bytes before) (String.ofList (lower name)))
  | token {pending : Bool} {before name inner found token after : List Char} :
      source = before ++ '<' :: (name ++ (inner ++ (token ++ after))) →
      Passed source ('<' :: (name ++ (inner ++ (token ++ after)))) → IsTagName name (inner ++ (token ++ after)) →
      Inside pending inner → Offending pending found token after →
      Located source
        (.unexpected (bytes (before ++ '<' :: (name ++ inner))) (String.ofList (lower name)) (String.ofList found))

theorem located_of_faulty {source before : List Char} (split : source = before ++ rest) (passed : Passed source rest)
    (faulty : Faulty (bytes source) rest fault) : Located source fault := by
  have start : ∀ {front behind : List Char}, source = front ++ behind → bytes source - bytes behind = bytes front := by
    rintro front behind rfl
    rw [bytes_append, Nat.add_sub_cancel]
  cases faulty with
  | comment unclosed =>
      rw [start split]
      exact .comment split passed unclosed
  | markup unclosed =>
      rw [start split]
      exact .markup split passed unclosed
  | @tag name behind _ isName stuck =>
      rw [start split] at stuck
      cases stuck with
      | unended inside unended => exact .tag split passed isName inside unended
      | @unexpected pending inner found token after inside offending =>
          have whole : source = (before ++ '<' :: (name ++ inner)) ++ (token ++ after) := by simp [split]
          rw [start whole]
          exact .token split passed isName inside offending

/-- A stretch of the source from one position to another, both between characters, is the text. -/
def Shows (source : List Char) (span : Nat × Nat) (text : List Char) : Prop :=
  ∃ before after, source = before ++ (text ++ after) ∧ span = (bytes before, bytes before + bytes text)

/-- The text shows the fault: how a comment starts, how a tag of that name starts, what was found, or how markup
starts. -/
def Tells : Fault → (text : List Char) → Prop
  | .openComment _, text => text = ['<', '!', '-', '-']
  | .openTag _ tag, text => ∃ name, text = '<' :: name ∧ lower name = tag.toList
  | .unexpected _ _ found, text => found.toList <:+: text
  | .openMarkup _ _, text => text = ['<']

/-- A quoted text that is not empty, with its last character, is reported where it is no value: its position is that
of its quote, and what was found stands without the quotes. -/
inductive Misquoted (source : List Char) : Fault → (last : Char) → Prop
  | intro {before front after : List Char} {quote last : Char} {tag : String} :
      source = before ++ quote :: (front ++ last :: quote :: after) → IsQuote quote → quote ∉ front ++ [last] →
      Misquoted source (.unexpected (bytes before) tag (String.ofList (front ++ [last]))) last

theorem IsQuote.utf8Size (isQuote : IsQuote quote) : quote.utf8Size = 1 := by
  rcases isQuote with rfl | rfl <;> rfl

/-- The stretch of a fault shows it, unless it is a misquoted text. -/
theorem shows_or_misquoted {source : List Char} (located : Located source fault) :
    (∃ text, Shows source fault.span text ∧ Tells fault text) ∨ ∃ c, Misquoted source fault c := by
  cases located with
  | @comment before body split => exact .inl ⟨_, ⟨before, body, split, rfl⟩, rfl⟩
  | @markup before text split _ unclosed =>
      left
      obtain ⟨tail, rfl⟩ : ∃ tail, text = '<' :: tail := by
        cases unclosed with
        | closing => exact ⟨_, rfl⟩
        | declaration => exact ⟨_, rfl⟩
      exact ⟨['<'], ⟨before, tail, split, rfl⟩, rfl⟩
  | @tag _ before name inner tail split =>
      left
      refine ⟨'<' :: name, ⟨before, inner ++ tail, split, ?_⟩, name, rfl, String.toList_ofList.symm⟩
      rw [Fault.span, utf8ByteSize_ofList, bytes_lower, Nat.add_assoc, Nat.add_comm (bytes name)]
      rfl
  | @token _ before name inner found token after split _ _ _ offending =>
      have whole : source = (before ++ '<' :: (name ++ inner)) ++ (token ++ after) := by simp [split]
      generalize before ++ '<' :: (name ++ inner) = front at whole
      cases offending with
      | equals => exact .inl ⟨['='], ⟨front, _, whole, rfl⟩, List.infix_refl _⟩
      | @quoted _ quote _ _ isQuote clear =>
          rcases List.eq_nil_or_concat' found with rfl | ⟨init, last, rfl⟩
          · have span : (bytes front, bytes front + 1) = (bytes front, bytes front + bytes [quote]) := by
              simp [isQuote.utf8Size]
            exact .inl ⟨[quote], ⟨front, quote :: after, whole, span⟩, List.nil_infix⟩
          · exact .inr ⟨last, .intro (by simpa using whole) isQuote clear⟩
      | unclosed =>
          refine .inl ⟨_, ⟨front, _, whole, ?_⟩, by rw [Tells, String.toList_ofList]⟩
          rw [Fault.span, utf8ByteSize_ofList, max_bytes (List.cons_ne_nil _ _)]
      | stray =>
          refine .inl ⟨_, ⟨front, _, whole, ?_⟩, by rw [Tells, String.toList_ofList]⟩
          rw [Fault.span, utf8ByteSize_ofList, max_bytes (List.cons_ne_nil _ _)]

/-- The end of a misquoted stretch is inside the last character of the quoted text, or in front of it when it has one
byte. -/
theorem shows_iff_of_misquoted {source : List Char} {last : Char} (misquoted : Misquoted source fault last) :
    (∃ text, Shows source fault.span text) ↔ last.utf8Size = 1 := by
  obtain ⟨split, isQuote, -⟩ := misquoted
  rename_i before front after quote tag
  have span : (Fault.unexpected (bytes before) tag (String.ofList (front ++ [last]))).span =
      (bytes before, bytes before + (bytes front + last.utf8Size)) := by
    rw [Fault.span, utf8ByteSize_ofList, max_bytes (by simp)]
    simp
  rw [span]
  constructor
  · rintro ⟨text, before', after', split', same⟩
    obtain ⟨start, stop⟩ := Prod.mk.inj same
    have reach : (before ++ quote :: front) ++ [last] <+: source := ⟨quote :: after, by simp [split]⟩
    have other : before' ++ text <+: source := ⟨after', by rw [split', List.append_assoc]⟩
    by_contra wide
    have size := last.utf8Size_pos
    have le := bytes_concat_le reach other (by simp [isQuote.utf8Size]; omega)
    simp [isQuote.utf8Size] at le
    omega
  · intro one
    refine ⟨quote :: front, before, last :: quote :: after, by simpa using split, ?_⟩
    simp [isQuote.utf8Size, one, Nat.add_comm]

/-- A misquoted stretch never holds what was found: it starts with the quote. -/
theorem not_tells_of_misquoted {source : List Char} {last : Char} (misquoted : Misquoted source fault last) :
    ¬ ∃ text, Shows source fault.span text ∧ Tells fault text := by
  obtain ⟨split, isQuote, clear⟩ := misquoted
  rename_i before front after quote tag
  rintro ⟨text, ⟨before', after', split', same⟩, told⟩
  obtain ⟨start, stop⟩ := Prod.mk.inj same
  rw [Tells, String.toList_ofList] at told
  obtain ⟨one, two, rfl⟩ := told
  -- the stretch is no longer than what was found, so it would be just that
  have none : bytes one = 0 := by
    have size : max (bytes (front ++ [last])) 1 = bytes (front ++ [last]) := max_bytes (by simp)
    rw [utf8ByteSize_ofList, size, ← start] at stop
    simp only [bytes_append] at stop
    omega
  rw [eq_nil_of_bytes none, List.nil_append] at split'
  obtain rfl := eq_of_bytes ⟨_, split'.symm⟩ ⟨_, split.symm⟩ start.symm
  rw [split, List.append_cancel_left_eq] at split'
  cases front with
  | nil =>
      obtain ⟨rfl, -⟩ := List.cons.inj split'
      exact clear List.mem_cons_self
  | cons c front =>
      obtain ⟨rfl, -⟩ := List.cons.inj split'
      exact clear List.mem_cons_self

/-- The fault of a source is located in it. -/
theorem located_of_forest? {source : String} (refused : forest? source = .error fault) :
    Located source.toList fault := by
  have faulted : (Reading.ofSource source).fault = some fault := by
    unfold forest? at refused
    cases read : (Reading.ofSource source).fault with
    | none => simp [read] at refused
    | some other => simpa [read] using refused
  obtain ⟨rest, passed, faulty⟩ := faulty_of_readFrom faulted
  obtain ⟨before, split⟩ := passed.suffix
  rw [← String.ofList_toList (s := source), utf8ByteSize_ofList] at faulty
  exact located_of_faulty split.symm passed faulty

/-- The stretch of a fault is inside its source. -/
theorem span_le_of_located {source : List Char} (located : Located source fault) : fault.span.2 ≤ bytes source := by
  rcases shows_or_misquoted located with ⟨text, ⟨before, after, rfl, same⟩, -⟩ | ⟨last, split, -, -⟩
  · rw [same, bytes_append, bytes_append]
    omega
  · rw [split, Fault.span, utf8ByteSize_ofList, max_bytes (by simp)]
    simp
    omega

end Inlay.Markup

namespace Inlay.Document

set_option autoImplicit false

open Inlay.Text Inlay.Markup

/-- In every document that public operations lead to, a source is parsed or has a fault. The position of the fault is
that of the construct at fault, and its stretch is inside the source. The stretch can be cut out of the source and
shows what is wrong, unless a quoted text stands where it is no value: then it does not hold what was found, and
cannot be cut out when the last character of the text has more than one byte. -/
theorem parse_locates (run : List Operation) (source : String) :
    (∃ fragment d', parse source (new.performAll run) = .ok (.ok fragment) d') ∨
    ∃ fault d', parse source (new.performAll run) = .ok (.error fault) d' ∧ Located source.toList fault ∧
      fault.span.2 ≤ source.utf8ByteSize ∧
      ((∃ text, Shows source.toList fault.span text) ↔ ∀ c, Misquoted source.toList fault c → c.utf8Size = 1) ∧
      ((∃ text, Shows source.toList fault.span text ∧ Tells fault text) ↔ ∀ c, ¬ Misquoted source.toList fault c) := by
  have wf := wellFormed_new.performAll run
  cases read : forest? source with
  | ok trees =>
      left
      obtain ⟨fragment, _, d', done, -⟩ := parse_ok wf read
      exact ⟨fragment, d', done⟩
  | error fault =>
      right
      obtain ⟨d', done, -⟩ := parse_error wf read
      have located := located_of_forest? read
      have within : fault.span.2 ≤ source.utf8ByteSize := by
        rw [← String.ofList_toList (s := source), utf8ByteSize_ofList]
        exact span_le_of_located located
      refine ⟨fault, d', done, located, within, ?_⟩
      rcases shows_or_misquoted located with ⟨text, shown, told⟩ | ⟨c, misquoted⟩
      · have fair : ∀ c, ¬ Misquoted source.toList fault c := fun c misquoted =>
          not_tells_of_misquoted misquoted ⟨text, shown, told⟩
        exact ⟨iff_of_true ⟨text, shown⟩ fun c misquoted => absurd misquoted (fair c),
          iff_of_true ⟨text, shown, told⟩ fair⟩
      · refine ⟨⟨fun some c misquoted => (shows_iff_of_misquoted misquoted).mp some, fun narrow => ?_⟩, ?_⟩
        · exact (shows_iff_of_misquoted misquoted).mpr (narrow c misquoted)
        · exact iff_of_false (not_tells_of_misquoted misquoted) fun fair => fair c misquoted

/-- The stretch of a quoted text that is no value ends inside its last character. -/
theorem parse_locates_quoted : ∃ d', parse "<a \"é\">" new = .ok (.error (.unexpected 3 "a" "é")) d' ∧
    (Fault.unexpected 3 "a" "é").span = (3, 5) ∧ ¬ ∃ text, Shows "<a \"é\">".toList (3, 5) text := by
  have fault : (Reading.ofSource "<a \"é\">").fault = some (.unexpected 3 "a" "é") := by decide +kernel
  have read : forest? "<a \"é\">" = .error (.unexpected 3 "a" "é") := by simp [forest?, fault]
  obtain ⟨d', done, -⟩ := parse_error wellFormed_new read
  refine ⟨d', done, rfl, fun shown => ?_⟩
  have misquoted : Misquoted "<a \"é\">".toList (.unexpected 3 "a" "é") 'é' :=
    @Misquoted.intro _ ['<', 'a', ' '] [] ['>'] '"' 'é' "a" rfl (.inl rfl) (by decide)
  exact absurd ((shows_iff_of_misquoted misquoted).mp shown) (by decide)

end Inlay.Document
