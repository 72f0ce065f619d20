/-
# Markup.Token — the tokens of markup

Markup is read in two modes. Between tags a token is a run of text, a comment, a
declaration, a closing tag, the start of an opening tag, or a `<` that starts
none of these; a construct that is never closed gives a broken token. Inside an
opening tag (`TagToken`) it is a word, a quoted text, or one of `>`, `/>`, `=`
and `/`, with blanks in between.

`Token.next?` and `TagToken.next?` take the token in front of a text; what is
left is always shorter (`Token.length_of_next?`, `TagToken.length_of_next?`).
`Token.scan` and `TagToken.scan` list the tokens of a whole text with their
positions in bytes.
-/
import Inlay.Text.Blank
import Inlay.Text.Cut

namespace Inlay.Markup

set_option autoImplicit false

open Inlay.Text

/-- A token between tags. -/
inductive Token where
  /-- Character data, as it is written. -/
  | text (content : List Char)
  /-- A `<` that starts nothing. -/
  | less
  /-- What stands between the delimiters of a comment. -/
  | comment (body : List Char)
  /-- A document type or another declaration. -/
  | declaration
  /-- A closing tag, by its name. -/
  | closing (name : List Char)
  /-- The start of an opening tag, up to the end of its name. -/
  | opening (name : List Char)
  /-- A construct that is never closed. -/
  | broken (slice : List Char)
  deriving DecidableEq

/-- A token inside an opening tag. -/
inductive TagToken where
  | finish
  | selfFinish
  | equals
  | slash
  | quoted (content : List Char)
  | word (content : List Char)
  /-- An unclosed quoted text, or a character that may not stand in a tag. -/
  | broken (slice : List Char)
  deriving DecidableEq

/-- A token with the positions where it starts and ends. -/
structure Placed (α : Type) where
  token : α
  start : Nat
  stop : Nat

/-! ## Between tags -/

/-- A character of a tag name behind its first letter. -/
def isNameChar (c : Char) : Bool := c.isAlphanum || c == ':' || c == '_' || c == '-'

/-- Two pieces of a text: up to the first `>`, and behind it. -/
def untilFinish? (input : List Char) : Option (List Char × List Char) := cutAt? ['>'] input

namespace Token

/-- The token whose `<` stands right before the text. -/
def afterLess : List Char → Token × List Char
  | '/' :: c :: input =>
    if isAsciiLetter c then
      match untilFinish? (c :: input) with
      | some (name, rest) => (.closing (trim name), rest)
      | none => (.broken ('<' :: '/' :: c :: input), [])
    else (.less, '/' :: c :: input)
  | '!' :: '-' :: '-' :: input =>
    match cutAt? ['-', '-', '>'] input with
    | some (body, rest) => (.comment body, rest)
    | none => (.broken ['<', '!', '-', '-'], input)
  | '!' :: c :: input =>
    if c = '-' then (.less, '!' :: c :: input)
    else
      match untilFinish? input with
      | some (_, rest) => (.declaration, rest)
      | none => (.broken ('<' :: '!' :: c :: input), [])
  | c :: input =>
    if isAsciiLetter c then
      (.opening (c :: input.takeWhile isNameChar), input.dropWhile isNameChar)
    else (.less, c :: input)
  | [] => (.less, [])

/-- The token in front of a text, and what is left. -/
def next? : List Char → Option (Token × List Char)
  | [] => none
  | c :: input =>
    if c = '<' then some (afterLess input)
    else some (.text (c :: input.takeWhile (· ≠ '<')), input.dropWhile (· ≠ '<'))

theorem length_of_untilFinish? {input before after : List Char}
    (found : untilFinish? input = some (before, after)) : after.length < input.length := by
  have := length_of_cutAt? found
  simp only [List.length_cons, List.length_nil] at this
  omega

theorem length_dropWhile_le {α : Type} (p : α → Bool) (l : List α) :
    (l.dropWhile p).length ≤ l.length := (List.dropWhile_suffix p).length_le

theorem length_afterLess (input : List Char) : (afterLess input).2.length ≤ input.length := by
  unfold afterLess
  split
  · split
    · split
      · next found =>
        have := length_of_untilFinish? found
        simp only [List.length_cons] at *
        omega
      · simp
    · simp
  · split
    · next found =>
      have := length_of_cutAt? found
      simp only [List.length_cons, List.length_nil] at *
      omega
    · simp only [List.length_cons]
      omega
  · split
    · simp
    · split
      · next found =>
        have := length_of_untilFinish? found
        simp only [List.length_cons] at *
        omega
      · simp
  · next c input _ _ _ =>
    split
    · have := length_dropWhile_le isNameChar input
      simp only [List.length_cons]
      omega
    · simp
  · simp

/-- Every token takes at least one character. -/
theorem length_of_next? {input rest : List Char} {token : Token}
    (found : next? input = some (token, rest)) : rest.length < input.length := by
  cases input with
  | nil => cases found
  | cons c input =>
    simp only [next?] at found
    split at found
    · have := length_afterLess input
      simp only [Option.some.inj found, List.length_cons] at *
      omega
    · cases found
      have := length_dropWhile_le (· ≠ '<') input
      simp only [List.length_cons]
      omega

/-- The tokens of a text that starts at a position. -/
def scanFrom (start : Nat) (input : List Char) : List (Placed Token) :=
  match _found : next? input with
  | none => []
  | some (token, rest) =>
    let stop := start + (bytes input - bytes rest)
    ⟨token, start, stop⟩ :: scanFrom stop rest
termination_by input.length
decreasing_by exact length_of_next? _found

/-- The tokens of a text. -/
def scan (input : String) : List (Placed Token) := scanFrom 0 input.toList

end Token

/-! ## Inside an opening tag -/

namespace TagToken

/-- A blank that may stand between the parts of a tag. -/
def isGap (c : Char) : Bool := isAsciiBlank c

/-- A character of a word. -/
def isWordChar (c : Char) : Bool :=
  !(isBlank c || c == '"' || c == '\x27' || c == '<' || c == '>' || c == '/' || c == '=')

/-- The quoted text behind its opening quote. -/
def afterQuote (quote : Char) (input : List Char) : TagToken × List Char :=
  match cutAt? [quote] input with
  | some (content, rest) => (.quoted content, rest)
  | none => (.broken (quote :: input), [])

/-- The token that starts with a given character. -/
def startingWith (c : Char) (input : List Char) : TagToken × List Char :=
  if c = '>' then (.finish, input)
  else if c = '=' then (.equals, input)
  else if c = '/' then
    match input with
    | '>' :: rest => (.selfFinish, rest)
    | input => (.slash, input)
  else if c = '"' ∨ c = '\x27' then afterQuote c input
  else if isWordChar c then (.word (c :: input.takeWhile isWordChar), input.dropWhile isWordChar)
  else (.broken [c], input)

/-- The token in front of a text, and what is left behind it; `none` when only
gaps are left. -/
def next? (input : List Char) : Option (TagToken × List Char) :=
  match input.dropWhile isGap with
  | [] => none
  | c :: input => some (startingWith c input)

theorem length_startingWith (c : Char) (input : List Char) :
    (startingWith c input).2.length ≤ input.length := by
  unfold startingWith
  split
  · exact Nat.le_refl _
  split
  · exact Nat.le_refl _
  split
  · split <;> simp
  split
  · unfold afterQuote
    split
    · next found =>
      have := length_of_cutAt? found
      simp only [List.length_cons, List.length_nil] at *
      omega
    · simp
  split
  · exact Token.length_dropWhile_le _ _
  · exact Nat.le_refl _

/-- Every token takes at least one character. -/
theorem length_of_next? {input rest : List Char} {token : TagToken}
    (found : next? input = some (token, rest)) : rest.length < input.length := by
  unfold next? at found
  split at found
  · cases found
  · next c tail dropped =>
    have shorter := Token.length_dropWhile_le isGap input
    have kept := length_startingWith c tail
    simp only [Option.some.inj found] at kept
    rw [dropped] at shorter
    simp only [List.length_cons] at shorter
    omega

/-- The tokens of a text that starts at a position. -/
def scanFrom (start : Nat) (input : List Char) : List (Placed TagToken) :=
  match _found : next? input with
  | none => []
  | some (token, rest) =>
    let gap := bytes (input.takeWhile isGap)
    let stop := start + (bytes input - bytes rest)
    ⟨token, start + gap, stop⟩ :: scanFrom stop rest
termination_by input.length
decreasing_by exact length_of_next? _found

/-- The tokens of a text. -/
def scan (input : String) : List (Placed TagToken) := scanFrom 0 input.toList

end TagToken

end Inlay.Markup
