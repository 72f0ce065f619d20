/-
# Proofs.Markup.Scanning — the text that a token is made of

Taking a token off the front of a text splits the text: blanks that are passed over, the
characters of the token, and what is left. Which characters a token of each kind is made of is
said here without the scanner (`Token.Spelled`, `TagToken.Spelled`, `SpelledValue`), and the
scanner is shown to split texts accordingly (`Token.spelled_next?`, `TagToken.spelled_next?`,
`spelled_value?`).
-/
import Inlay.Proofs.Markup.Written

namespace Inlay.Markup

set_option autoImplicit false

open Inlay.Text

variable {input rest text content : List Char} {c quote : Char}

theorem cutAt?_singleton_iff {before : List Char} :
    cutAt? [c] input = some (before, rest) ↔ input = before ++ c :: rest ∧ c ∉ before := by
  constructor
  · intro cut
    refine ⟨by simpa using eq_append_of_cutAt? cut, fun mem => ?_⟩
    exact not_infix_of_cutAt? (List.cons_ne_nil _ _) cut (List.singleton_infix_iff _ _ |>.mpr mem)
  · rintro ⟨rfl, absent⟩
    exact cutAt?_singleton absent rest

theorem not_mem_of_cutAt?_eq_none (uncut : cutAt? [c] input = none) : c ∉ input := fun mem =>
  not_infix_of_cutAt?_eq_none uncut (List.singleton_infix_iff _ _ |>.mpr mem)

/-! ## Between tags -/

namespace Token

/-- The characters of a token, in front of what is left. -/
inductive Spelled : Token → (text rest : List Char) → Prop
  | text {content rest : List Char} : content ≠ [] → '<' ∉ content → Spelled (.text content) content rest
  | less {rest : List Char} : Spelled .less ['<'] rest
  | comment {body rest : List Char} : ¬ ['-', '-', '>'] <:+: body →
      Spelled (.comment body) ('<' :: '!' :: '-' :: '-' :: (body ++ ['-', '-', '>'])) rest
  | declaration {c : Char} {body rest : List Char} : c ≠ '-' → '>' ∉ body →
      Spelled .declaration ('<' :: '!' :: c :: (body ++ ['>'])) rest
  | closing {c : Char} {tail rest : List Char} : isAsciiLetter c = true → '>' ∉ c :: tail →
      Spelled (.closing (trim (c :: tail))) ('<' :: '/' :: c :: (tail ++ ['>'])) rest
  | opening {c : Char} {tail rest : List Char} : isAsciiLetter c = true → (∀ x ∈ tail, isNameChar x = true) →
      (∀ x ∈ rest.head?, isNameChar x = false) → Spelled (.opening (c :: tail)) ('<' :: c :: tail) rest
  | openComment {rest : List Char} : ¬ ['-', '-', '>'] <:+: rest →
      Spelled (.broken ['<', '!', '-', '-']) ['<', '!', '-', '-'] rest
  | openClosing {c : Char} {tail : List Char} : isAsciiLetter c = true → '>' ∉ c :: tail →
      Spelled (.broken ('<' :: '/' :: c :: tail)) ('<' :: '/' :: c :: tail) []
  | openDeclaration {c : Char} {tail : List Char} : c ≠ '-' → '>' ∉ tail →
      Spelled (.broken ('<' :: '!' :: c :: tail)) ('<' :: '!' :: c :: tail) []

theorem spelled_afterLess (input : List Char) :
    ∃ text, '<' :: input = text ++ (afterLess input).2 ∧ Spelled (afterLess input).1 text (afterLess input).2 := by
  unfold afterLess
  split
  · next c input =>
    split
    · next letter =>
      split
      · next name rest cut =>
        obtain ⟨whole, clear⟩ := cutAt?_singleton_iff.mp cut
        cases name with
        | nil =>
            obtain ⟨rfl, -⟩ := List.cons.inj whole
            exact absurd letter (by decide)
        | cons d tail =>
            rw [List.cons_append] at whole
            obtain ⟨rfl, rfl⟩ := List.cons.inj whole
            exact ⟨_, by simp, .closing letter clear⟩
      · next uncut => exact ⟨_, by simp, .openClosing letter (not_mem_of_cutAt?_eq_none uncut)⟩
    · exact ⟨_, rfl, .less⟩
  · next input =>
    split
    · next body rest cut =>
      refine ⟨_, ?_, .comment (not_infix_of_cutAt? (List.cons_ne_nil _ _) cut)⟩
      rw [eq_append_of_cutAt? cut]
      simp
    · next uncut => exact ⟨_, rfl, .openComment (not_infix_of_cutAt?_eq_none uncut)⟩
  · next c input _ =>
    split
    · exact ⟨_, rfl, .less⟩
    · next plain =>
      split
      · next body rest cut =>
        obtain ⟨rfl, clear⟩ := cutAt?_singleton_iff.mp cut
        exact ⟨_, by simp, .declaration plain clear⟩
      · next uncut => exact ⟨_, by simp, .openDeclaration plain (not_mem_of_cutAt?_eq_none uncut)⟩
  · next c input _ _ _ =>
    split
    · next letter =>
      have stop : ∀ x ∈ (input.dropWhile isNameChar).head?, isNameChar x = false := fun _ first =>
        not_of_mem_dropWhile first
      refine ⟨_, ?_, .opening letter (fun x mem => List.mem_takeWhile_imp mem) stop⟩
      simp [List.takeWhile_append_dropWhile]
    · exact ⟨_, rfl, .less⟩
  · exact ⟨_, rfl, .less⟩

/-- A token is taken off the front of a text. -/
theorem spelled_next? {token : Token} (found : next? input = some (token, rest)) :
    ∃ text, input = text ++ rest ∧ Spelled token text rest := by
  cases input with
  | nil => cases found
  | cons c input =>
      simp only [next?] at found
      split at found
      · next less =>
        subst less
        have spelled := spelled_afterLess input
        rwa [Option.some.inj found] at spelled
      · next plain =>
        cases found
        refine ⟨_, ?_, .text (List.cons_ne_nil _ _) ?_⟩
        · rw [List.cons_append, List.takeWhile_append_dropWhile]
        · rintro (_ | ⟨_, mem⟩)
          · exact plain rfl
          · simpa using List.mem_takeWhile_imp mem

theorem Spelled.ne_nil {token : Token} (spelled : Spelled token text rest) : text ≠ [] := by
  cases spelled with
  | text some => exact some
  | _ => exact List.cons_ne_nil _ _

/-- Only at its end a text has no token. -/
theorem eq_nil_of_next? (ended : next? input = none) : input = [] := by
  cases input with
  | nil => rfl
  | cons c input =>
      simp only [next?] at ended
      split at ended <;> cases ended

/-- Character data goes on to the next `<`. -/
theorem stops_of_next? (found : next? input = some (.text content, rest)) : Stops rest := by
  obtain ⟨text, rfl, spelled⟩ := spelled_next? found
  cases spelled with
  | text some plain =>
      obtain ⟨c, tail, rfl⟩ := List.exists_cons_of_ne_nil some
      have other : c ≠ '<' := fun same => plain (same ▸ List.mem_cons_self)
      rw [List.cons_append, next?, if_neg other] at found
      have left : (tail ++ rest).dropWhile (· ≠ '<') = rest := (Prod.mk.inj (Option.some.inj found)).2
      intro x first
      rw [← left] at first
      simpa using not_of_mem_dropWhile first

end Token

/-! ## Inside an opening tag -/

/-- The two quotes. -/
def IsQuote (c : Char) : Prop := c = '"' ∨ c = '\x27'

namespace TagToken

/-- The characters of a token in a tag, in front of what is left. -/
inductive Spelled : TagToken → (text rest : List Char) → Prop
  | finish {rest : List Char} : Spelled .finish ['>'] rest
  | selfFinish {rest : List Char} : Spelled .selfFinish ['/', '>'] rest
  | equals {rest : List Char} : Spelled .equals ['='] rest
  | slash {rest : List Char} : Spelled .slash ['/'] rest
  | quoted {quote : Char} {content rest : List Char} : IsQuote quote → quote ∉ content →
      Spelled (.quoted content) (quote :: (content ++ [quote])) rest
  | word {content rest : List Char} : content ≠ [] → (∀ x ∈ content, isWordChar x = true) →
      Spelled (.word content) content rest
  | unclosed {quote : Char} {content : List Char} : IsQuote quote → quote ∉ content →
      Spelled (.broken (quote :: content)) (quote :: content) []
  | stray {c : Char} {rest : List Char} : c = '<' ∨ isBlank c = true → Spelled (.broken [c]) [c] rest

theorem spelled_startingWith (c : Char) (input : List Char) : ∃ text, c :: input = text ++ (startingWith c input).2 ∧
    Spelled (startingWith c input).1 text (startingWith c input).2 := by
  unfold startingWith
  split
  · next same => exact same ▸ ⟨_, rfl, .finish⟩
  split
  · next same => exact same ▸ ⟨_, rfl, .equals⟩
  split
  · next same =>
    subst same
    split
    · exact ⟨_, rfl, .selfFinish⟩
    · exact ⟨_, rfl, .slash⟩
  split
  · next quote =>
    unfold afterQuote
    split
    · next cut =>
      obtain ⟨rfl, clear⟩ := cutAt?_singleton_iff.mp cut
      exact ⟨_, by simp, .quoted quote clear⟩
    · next uncut => exact ⟨_, by simp, .unclosed quote (not_mem_of_cutAt?_eq_none uncut)⟩
  split
  · next here =>
    refine ⟨_, ?_, .word (List.cons_ne_nil _ _) (List.forall_mem_cons.mpr ⟨here, fun x mem => List.mem_takeWhile_imp mem⟩)⟩
    rw [List.cons_append, List.takeWhile_append_dropWhile]
  · next finish equals slash plain other =>
    obtain ⟨double, single⟩ := not_or.mp plain
    refine ⟨_, rfl, .stray ?_⟩
    by_contra neither
    obtain ⟨less, whole⟩ := not_or.mp neither
    simp [isWordChar, finish, equals, slash, double, single, less, whole] at other

/-- Behind gaps a token is taken off the front of a text. -/
theorem spelled_next? {token : TagToken} (found : next? input = some (token, rest)) :
    ∃ text, input.dropWhile isGap = text ++ rest ∧ Spelled token text rest := by
  unfold next? at found
  split at found
  · cases found
  · next c tail dropped =>
    have spelled := spelled_startingWith c tail
    rw [Option.some.inj found] at spelled
    rwa [dropped]

theorem Spelled.ne_nil {token : TagToken} (spelled : Spelled token text rest) : text ≠ [] := by
  cases spelled with
  | word some => exact some
  | _ => exact List.cons_ne_nil _ _

theorem dropWhile_of_next?_eq_none (found : next? input = none) : input.dropWhile isGap = [] := by
  unfold next? at found
  split at found
  · next dropped => exact dropped
  · cases found

end TagToken

/-! ## Values -/

/-- The characters of a value behind `=`: a quoted text behind gaps, or anything up to a blank or `>`
that does not start with a quote. -/
inductive SpelledValue : List Char → Prop
  | quoted {gaps content : List Char} {quote : Char} : (∀ x ∈ gaps, TagToken.isGap x = true) → IsQuote quote →
      quote ∉ content → SpelledValue (gaps ++ quote :: (content ++ [quote]))
  | bare {blanks content : List Char} : (∀ x ∈ blanks, isBlank x = true) → (∀ x ∈ content, isBareChar x = true) →
      (∀ x ∈ content.head?, ¬ IsQuote x) → SpelledValue (blanks ++ content)

/-- A value that starts with a quote but cannot be read: the quote is not closed, or a blank in front
of it may not stand in a tag. -/
inductive Unreadable : List Char → Prop
  | unclosed {blanks tail : List Char} {quote : Char} : (∀ x ∈ blanks, isBlank x = true) → IsQuote quote → quote ∉ tail →
      Unreadable (blanks ++ quote :: tail)
  | foreign {blanks tail : List Char} {quote x : Char} : (∀ x ∈ blanks, isBlank x = true) → IsQuote quote → x ∈ blanks →
      TagToken.isGap x = false → Unreadable (blanks ++ quote :: tail)

/-- What is read of a value depends on whether it starts with a quote. -/
theorem value?_cases (input : List Char) :
    (∃ quote tail, trimStart input = quote :: tail ∧ IsQuote quote ∧
      value? input = match TagToken.next? input with
        | some (.quoted content, rest) => some (decode content, rest)
        | _ => none) ∨
    ((∀ x ∈ (trimStart input).head?, ¬ IsQuote x) ∧
      value? input = some (decode (bareValue (trimStart input)).1, (bareValue (trimStart input)).2)) := by
  unfold value?
  generalize trimStart input = bare
  cases bare with
  | nil => exact .inr ⟨nofun, rfl⟩
  | cons c tail =>
      by_cases double : c = '"'
      · subst double
        exact .inl ⟨_, tail, rfl, .inl rfl, rfl⟩
      by_cases single : c = '\x27'
      · subst single
        exact .inl ⟨_, tail, rfl, .inr rfl, rfl⟩
      refine .inr ⟨?_, ?_⟩
      · rintro x ⟨⟩
        exact not_or.mpr ⟨double, single⟩
      · simp only [List.head?_cons]
        split <;> simp_all

theorem spelled_value? {value : List Char} (found : value? input = some (value, rest)) :
    ∃ text, input = text ++ rest ∧ SpelledValue text := by
  rcases value?_cases input with ⟨quote, tail, -, -, read⟩ | ⟨plain, read⟩
  · rw [read] at found
    split at found
    · next next =>
      cases found
      have gaps : ∀ x ∈ input.takeWhile TagToken.isGap, TagToken.isGap x = true := fun x mem => List.mem_takeWhile_imp mem
      obtain ⟨text, dropped, spelled⟩ := TagToken.spelled_next? next
      cases spelled with
      | quoted isQuote clear =>
          refine ⟨_, ?_, .quoted gaps isQuote clear⟩
          rw [List.append_assoc, ← dropped, List.takeWhile_append_dropWhile]
    · cases found
  · rw [read] at found
    cases found
    have blanks : ∀ x ∈ input.takeWhile isBlank, isBlank x = true := fun x mem => List.mem_takeWhile_imp mem
    have bare : ∀ x ∈ (trimStart input).takeWhile isBareChar, isBareChar x = true := fun x mem =>
      List.mem_takeWhile_imp mem
    refine ⟨_, ?_, .bare blanks bare fun x mem => plain x ?_⟩
    · rw [List.append_assoc, bareValue, List.takeWhile_append_dropWhile, trimStart, List.takeWhile_append_dropWhile]
    · rw [List.head?_takeWhile] at mem
      exact (Option.mem_filter_iff.mp mem).1

theorem isGap_of_isQuote (isQuote : IsQuote quote) : TagToken.isGap quote = false := by
  rcases isQuote with rfl | rfl <;> decide

theorem TagToken.startingWith_of_isQuote (isQuote : IsQuote quote) (tail : List Char) :
    startingWith quote tail = afterQuote quote tail := by
  rcases isQuote with rfl | rfl <;> rfl

theorem unreadable_of_value?_eq_none (refused : value? input = none) : Unreadable input := by
  rcases value?_cases input with ⟨quote, tail, start, isQuote, read⟩ | ⟨-, read⟩
  · have whole : input = input.takeWhile isBlank ++ quote :: tail := by
      rw [← start, trimStart, List.takeWhile_append_dropWhile]
    have blanks : ∀ x ∈ input.takeWhile isBlank, isBlank x = true := fun x mem => List.mem_takeWhile_imp mem
    generalize input.takeWhile isBlank = front at whole blanks
    subst whole
    by_cases foreign : ∃ x ∈ front, TagToken.isGap x = false
    · obtain ⟨x, mem, foreign⟩ := foreign
      exact .foreign blanks isQuote mem foreign
    · have gaps : ∀ x ∈ front, TagToken.isGap x = true := by simpa using foreign
      refine .unclosed blanks isQuote fun mem => ?_
      -- the quote is closed, so the quoted text could be read
      have next : TagToken.next? (front ++ quote :: tail) = some (TagToken.afterQuote quote tail) := by
        have stop : ∀ x ∈ (quote :: tail).head?, TagToken.isGap x = false := by
          rintro x ⟨⟩
          exact isGap_of_isQuote isQuote
        rw [TagToken.next?, dropWhile_append gaps stop]
        exact congrArg some (TagToken.startingWith_of_isQuote isQuote tail)
      cases cut : cutAt? [quote] tail with
      | none => exact not_mem_of_cutAt?_eq_none cut mem
      | some parts => simp [read, next, TagToken.afterQuote, cut] at refused
  · rw [read] at refused
    cases refused

/-! ## What is left -/

theorem Token.suffix_of_next? {token : Token} (found : next? input = some (token, rest)) : rest <:+ input := by
  obtain ⟨text, rfl, -⟩ := spelled_next? found
  exact List.suffix_append _ _

theorem TagToken.suffix_of_next? {token : TagToken} (found : next? input = some (token, rest)) : rest <:+ input := by
  obtain ⟨text, dropped, -⟩ := spelled_next? found
  exact (dropped ▸ List.suffix_append text rest).trans (List.dropWhile_suffix _)

theorem suffix_of_value? {value : List Char} (found : value? input = some (value, rest)) : rest <:+ input := by
  obtain ⟨text, rfl, -⟩ := spelled_value? found
  exact List.suffix_append _ _

/-- What is left behind an opening tag. -/
theorem OpenTag.suffix_of_readFrom {size start : Nat} {tag : String} {pending : Option String}
    {attributes : List Attribute} {opened : OpenTag}
    (done : readFrom size start tag pending attributes input = .ok opened) : opened.rest <:+ input := by
  fun_induction readFrom size start tag pending attributes input with
  | case1 => cases done
  | case2 _ _ _ _ found =>
      cases done
      exact TagToken.suffix_of_next? found
  | case3 _ _ _ _ found =>
      cases done
      exact TagToken.suffix_of_next? found
  | case4 _ _ _ _ found ih => exact (ih done).trans (TagToken.suffix_of_next? found)
  | case5 _ _ _ _ _ found ih => exact (ih done).trans (TagToken.suffix_of_next? found)
  | case6 => cases done
  | case7 => cases done
  | case8 _ _ _ found _ _ _ valued ih =>
      exact ((ih done).trans (suffix_of_value? valued)).trans (TagToken.suffix_of_next? found)
  | case9 => cases done
  | case10 => cases done

theorem suffix_rawContent (tag : String) (input : List Char) : (rawContent tag input).2 <:+ input := by
  unfold rawContent
  split
  · next before _ _ =>
    refine List.IsSuffix.trans ?_ (List.drop_suffix before.length input)
    unfold behindFinish
    split
    · next cut =>
      obtain ⟨whole, -⟩ := cutAt?_singleton_iff.mp cut
      rw [whole]
      exact (List.suffix_cons _ _).trans (List.suffix_append _ _)
    · exact List.nil_suffix
  · exact List.nil_suffix

theorem Reading.suffix_ofOpenTag (tag : String) (opened : OpenTag) : (ofOpenTag tag opened).2 <:+ opened.rest := by
  unfold ofOpenTag
  split
  · exact List.suffix_refl _
  split
  · exact suffix_rawContent tag opened.rest
  · exact List.suffix_refl _

end Inlay.Markup
