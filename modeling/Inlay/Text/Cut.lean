/-
# Text.Cut — measuring, searching and splitting text

Texts are worked on as lists of characters; a position is counted in the bytes
of the UTF-8 form (`bytes`). `cutAt?` finds the first place of a word and gives
what stands before and after it; `splitAt` cuts a text at every occurrence of a
character.
-/

namespace Inlay.Text

set_option autoImplicit false

/-- The length of a text in UTF-8 bytes. -/
def bytes (text : List Char) : Nat := text.foldr (fun c n => c.utf8Size + n) 0

/-- ASCII letters in lower case, every other character unchanged. -/
def lower (text : List Char) : List Char := text.map Char.toLower

/-- An ASCII letter. -/
def isAsciiLetter (c : Char) : Bool := c.isAlpha

/-- The text behind `word`, when the text starts with it. -/
def dropWord? : (word text : List Char) → Option (List Char)
  | [], text => some text
  | _ :: _, [] => none
  | w :: word, c :: text => if w = c then dropWord? word text else none

/-- Cuts the text at the first occurrence of `word`: what stands before it and
what stands behind it. -/
def cutAt? (word : List Char) : List Char → Option (List Char × List Char)
  | [] => (dropWord? word []).map ([], ·)
  | c :: text =>
    match dropWord? word (c :: text) with
    | some rest => some ([], rest)
    | none => (cutAt? word text).map fun (before, after) => (c :: before, after)

/-- The word occurs somewhere in the text. -/
def occurs (word text : List Char) : Bool := (cutAt? word text).isSome

/-- The pieces of a text between the occurrences of `mark`; a text without it
is one piece. -/
def splitAt (mark : Char) : List Char → List (List Char)
  | [] => [[]]
  | c :: text =>
    if c = mark then [] :: splitAt mark text
    else
      match splitAt mark text with
      | [] => [[c]]
      | piece :: pieces => (c :: piece) :: pieces

/-- The texts in order with `mark` between two neighbours. -/
def join (mark : String) : List String → String
  | [] => ""
  | [text] => text
  | text :: rest => text ++ mark ++ join mark rest

theorem length_of_dropWord? : ∀ {word text rest : List Char}, dropWord? word text = some rest →
    rest.length + word.length = text.length
  | [], _, _, found => by simp only [dropWord?, Option.some.injEq] at found; simp [found]
  | _ :: _, [], _, found => by simp [dropWord?] at found
  | w :: word, c :: text, rest, found => by
      simp only [dropWord?] at found
      split at found
      · have := length_of_dropWord? found
        simp only [List.length_cons]
        omega
      · cases found

/-- A cut loses exactly the word. -/
theorem length_of_cutAt? {word : List Char} : ∀ {text before after : List Char},
    cutAt? word text = some (before, after) →
      before.length + word.length + after.length = text.length
  | [], before, after, found => by
      simp only [cutAt?, Option.map_eq_some_iff, Prod.mk.injEq] at found
      obtain ⟨rest, dropped, rfl, rfl⟩ := found
      have := length_of_dropWord? dropped
      simp only [List.length_nil] at *
      omega
  | c :: text, before, after, found => by
      simp only [cutAt?] at found
      split at found
      · next rest dropped =>
        cases found
        have := length_of_dropWord? dropped
        simp only [List.length_nil] at *
        omega
      · simp only [Option.map_eq_some_iff, Prod.exists, Prod.mk.injEq] at found
        obtain ⟨b, a, cut, rfl, rfl⟩ := found
        have := length_of_cutAt? cut
        simp only [List.length_cons]
        omega

end Inlay.Text
