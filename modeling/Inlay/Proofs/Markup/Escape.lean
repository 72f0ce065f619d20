/-
# Proofs.Markup.Escape — a written text is read back, and nothing in it looks like markup

A word cuts a text where it first occurs (`cutAt?_append`), provided that no end
of the word is also its start: else the word could begin in front of the place
where it was put. The two words that end things in markup, `-->` and `</` with a
tag, are of this kind.

Escaping leaves no `<` in a text and no `"` in an attribute value, and decoding
gives the text back whatever it is (`decode_escapeText`,
`decode_escapeAttribute`).
-/
import Inlay.Markup.Reference
import Mathlib.Data.List.Infix

namespace Inlay.Text

set_option autoImplicit false

variable {word before after text rest : List Char}

/-- Dropping stops in front of a character that is not dropped. -/
theorem not_of_mem_dropWhile {p : Char → Bool} {c : Char} (first : c ∈ (text.dropWhile p).head?) : p c = false := by
  have kept := List.head?_dropWhile_not p text
  rw [Option.mem_def.mp first] at kept
  simpa using kept

/-! ## The first place of a word -/

theorem dropWord?_append (word rest : List Char) : dropWord? word (word ++ rest) = some rest := by
  induction word with
  | nil => rfl
  | cons c word ih => simp [dropWord?, ih]

theorem eq_append_of_dropWord? : ∀ {word text rest : List Char},
    dropWord? word text = some rest → text = word ++ rest
  | [], _, _, found => by
      cases found
      rfl
  | _ :: _, [], _, found => by cases found
  | w :: word, c :: text, rest, found => by
      simp only [dropWord?] at found
      split at found
      · next same =>
        rw [same, eq_append_of_dropWord? found, List.cons_append]
      · cases found

/-- A word occurs in a text where it is a stretch of it. -/
theorem occurs_iff : occurs word text = true ↔ word <:+: text := by
  induction text with
  | nil =>
      cases word with
      | nil => simp [occurs, cutAt?, dropWord?]
      | cons w word => simp [occurs, cutAt?, dropWord?]
  | cons c text ih =>
      rw [List.infix_cons_iff, ← ih]
      cases found : dropWord? word (c :: text) with
      | some rest =>
          have start : word <+: c :: text := ⟨rest, (eq_append_of_dropWord? found).symm⟩
          simp [occurs, cutAt?, found, start]
      | none =>
          have noStart : ¬ word <+: c :: text := by
            rintro ⟨rest, same⟩
            rw [← same, dropWord?_append] at found
            cases found
          simp [occurs, cutAt?, found, noStart]

/-- A text that a word does not cut does not hold it. -/
theorem not_infix_of_cutAt?_eq_none (uncut : cutAt? word text = none) : ¬ word <:+: text := by
  intro inside
  rw [← occurs_iff, occurs, uncut] at inside
  cases inside

theorem eq_append_of_cutAt? : ∀ {text before after : List Char},
    cutAt? word text = some (before, after) → text = before ++ word ++ after
  | [], before, after, found => by
      simp only [cutAt?, Option.map_eq_some_iff, Prod.mk.injEq] at found
      obtain ⟨rest, dropped, rfl, rfl⟩ := found
      rw [List.nil_append]
      exact eq_append_of_dropWord? dropped
  | c :: text, before, after, found => by
      simp only [cutAt?] at found
      split at found
      · next dropped =>
        cases found
        rw [List.nil_append]
        exact eq_append_of_dropWord? dropped
      · simp only [Option.map_eq_some_iff, Prod.exists, Prod.mk.injEq] at found
        obtain ⟨b, a, cut, rfl, rfl⟩ := found
        rw [eq_append_of_cutAt? cut, List.cons_append, List.cons_append]

/-- What stands in front of the first place of a word does not hold it. -/
theorem not_infix_of_cutAt? (some : word ≠ []) : ∀ {text before after : List Char},
    cutAt? word text = .some (before, after) → ¬ word <:+: before
  | [], before, after, found, inside => by
      simp only [cutAt?, Option.map_eq_some_iff, Prod.mk.injEq] at found
      obtain ⟨rest, -, rfl, -⟩ := found
      exact some (List.infix_nil.mp inside)
  | c :: text, before, after, found, inside => by
      have whole := eq_append_of_cutAt? found
      simp only [cutAt?] at found
      split at found
      · cases found
        exact some (List.infix_nil.mp inside)
      · next absent =>
        simp only [Option.map_eq_some_iff, Prod.exists, Prod.mk.injEq] at found
        obtain ⟨b, a, cut, rfl, rfl⟩ := found
        rcases List.infix_cons_iff.mp inside with ⟨more, start⟩ | later
        · rw [whole, ← start, List.append_assoc, List.append_assoc, dropWord?_append] at absent
          cases absent
        · exact not_infix_of_cutAt? some cut later

/-- No end of the word, other than the whole, is also its start. -/
def Unbordered (word : List Char) : Prop :=
  ∀ first last, word = first ++ last → first ≠ [] → last ≠ [] → ¬ last <+: word

/-- A word whose first character does not come again. -/
theorem unbordered_of_head {c : Char} {tail : List Char} (once : c ∉ tail) :
    Unbordered (c :: tail) := by
  intro first last split firstSome lastSome isStart
  obtain ⟨a, first, rfl⟩ := List.exists_cons_of_ne_nil firstSome
  obtain ⟨b, last, rfl⟩ := List.exists_cons_of_ne_nil lastSome
  obtain ⟨rfl, rfl⟩ := List.cons.inj split
  obtain ⟨more, same⟩ := isStart
  obtain ⟨rfl, -⟩ := List.cons.inj same
  exact once (by simp)

/-- A word whose last character does not come before. -/
theorem unbordered_of_last {c : Char} (init : List Char) (once : c ∉ init) :
    Unbordered (init ++ [c]) := by
  intro first last split firstSome lastSome isStart
  obtain ⟨last, a, rfl⟩ := List.eq_nil_or_concat last |>.resolve_left lastSome
  rw [List.concat_eq_append, ← List.append_assoc] at split
  obtain ⟨rfl, same⟩ := List.append_inj' split rfl
  obtain ⟨rfl⟩ := List.cons.inj same
  obtain ⟨b, first, rfl⟩ := List.exists_cons_of_ne_nil firstSome
  rw [List.concat_eq_append] at isStart
  -- the end is shorter than the word, so its last character stands in front of the word's last
  have shorter : (last ++ [c]).length ≤ (b :: first ++ last).length := by
    simp only [List.length_append, List.length_cons, List.length_nil]
    omega
  have inner : last ++ [c] <+: b :: first ++ last :=
    List.prefix_of_prefix_length_le isStart (List.prefix_append _ _) shorter
  exact once (inner.subset (by simp))

/-- A text without the word, and behind it the word: that is its first place. -/
theorem cutAt?_append (unbordered : Unbordered word) (some : word ≠ []) (after : List Char) :
    ∀ {before : List Char}, ¬ word <:+: before →
      cutAt? word (before ++ (word ++ after)) = .some (before, after)
  | [], _ => by
      obtain ⟨c, tail, rfl⟩ := List.exists_cons_of_ne_nil some
      have found := dropWord?_append (c :: tail) after
      simp only [List.cons_append, List.nil_append, cutAt?] at found ⊢
      rw [found]
  | c :: before, absent => by
      have later := cutAt?_append unbordered some after fun inner =>
        absent (inner.trans (List.suffix_cons c before).isInfix)
      have here : dropWord? word (c :: before ++ (word ++ after)) = none := by
        cases found : dropWord? word (c :: before ++ (word ++ after)) with
        | none => rfl
        | some rest =>
            have start : word <+: c :: before ++ (word ++ after) :=
              ⟨rest, (eq_append_of_dropWord? found).symm⟩
            have front : c :: before <+: c :: before ++ (word ++ after) := List.prefix_append _ _
            rcases List.prefix_or_prefix_of_prefix start front with inside | ⟨last, split⟩
            · exact absurd inside.isInfix absent
            · -- the word would reach from the text into the word behind it
              have lastSome : last ≠ [] := by
                rintro rfl
                rw [List.append_nil] at split
                exact absent (split ▸ List.infix_refl _)
              have short : last.length ≤ word.length := by
                rw [← split, List.length_append]
                omega
              have behind : last <+: word ++ after := by
                rw [← split, List.prefix_append_right_inj, split] at start
                exact start
              have isStart : last <+: word :=
                List.prefix_of_prefix_length_le behind (List.prefix_append _ _) short
              exact absurd isStart (unbordered _ _ split.symm (List.cons_ne_nil _ _) lastSome)
      simp only [List.cons_append] at here later ⊢
      simp only [cutAt?, here, later, Option.map_some]

/-- A character cuts a text at its first place. -/
theorem cutAt?_singleton {c : Char} (absent : c ∉ before) (after : List Char) :
    cutAt? [c] (before ++ c :: after) = some (before, after) := by
  have unbordered : Unbordered [c] := unbordered_of_head (List.not_mem_nil)
  refine cutAt?_append unbordered (List.cons_ne_nil _ _) after fun inner => absent ?_
  exact inner.subset List.mem_cons_self

end Inlay.Text

namespace Inlay.Markup

set_option autoImplicit false

open Inlay.Text

/-! ## Escaping -/

/-- Every character is written so that it is read back in front of any text. -/
def Escapes (escape : Char → String) : Prop :=
  ∀ c rest, decode ((escape c).toList ++ rest) = c :: decode rest

theorem decode_plain {c : Char} (plain : c ≠ '&') (rest : List Char) :
    decode (c :: rest) = c :: decode rest := by
  rw [decode, if_neg plain]

/-- A body up to the first `;` is what is looked up. -/
theorem reference?_append {c : Char} (body rest : List Char) (ends : ';' ∉ body) (short : bytes body ≤ longestBody)
    (stands : referenced? body = some c) : reference? (body ++ ';' :: rest) = some (c, rest) := by
  have inside : ∀ x ∈ body, decide (x ≠ ';') = true := by
    intro x mem
    simp only [decide_eq_true_eq]
    exact fun same => ends (same ▸ mem)
  have taken : (body ++ ';' :: rest).takeWhile (· ≠ ';') = body := by
    rw [List.takeWhile_append_of_pos inside]
    simp
  have dropped : (body ++ ';' :: rest).dropWhile (· ≠ ';') = ';' :: rest := by
    rw [List.dropWhile_append_of_pos inside]
    simp
  simp only [reference?, taken, dropped, if_pos short, stands, Option.map_some]

/-- A reference is replaced by its character. -/
theorem decode_reference {c : Char} (body rest : List Char)
    (ends : ';' ∉ body) (short : bytes body ≤ longestBody)
    (stands : referenced? body = some c) :
    decode ('&' :: (body ++ ';' :: rest)) = c :: decode rest := by
  have found := reference?_append body rest ends short stands
  rw [decode, if_pos rfl]
  split
  · next same =>
    rw [found] at same
    cases same
    rfl
  · next same =>
    rw [found] at same
    cases same

theorem escapes_text : Escapes escapeTextChar := by
  intro c rest
  unfold escapeTextChar
  split
  · exact decode_reference ['a', 'm', 'p'] rest (by decide) (by decide) (by decide)
  · exact decode_reference ['l', 't'] rest (by decide) (by decide) (by decide)
  · exact decode_reference ['g', 't'] rest (by decide) (by decide) (by decide)
  · exact decode_reference ['n', 'b', 's', 'p'] rest (by decide) (by decide) (by decide)
  · next plain _ _ _ => simpa using decode_plain plain rest

theorem escapes_attribute : Escapes escapeAttributeChar := by
  intro c rest
  unfold escapeAttributeChar
  split
  · exact decode_reference ['a', 'm', 'p'] rest (by decide) (by decide) (by decide)
  · exact decode_reference ['q', 'u', 'o', 't'] rest (by decide) (by decide) (by decide)
  · exact decode_reference ['n', 'b', 's', 'p'] rest (by decide) (by decide) (by decide)
  · next plain _ _ => simpa using decode_plain plain rest

theorem toList_join_map (escape : Char → String) (text : List Char) :
    (String.join (text.map escape)).toList = text.flatMap fun c => (escape c).toList := by
  rw [String.toList_join, List.flatMap_map]

theorem decode_join {escape : Char → String} (escapes : Escapes escape) (text : List Char) :
    decode (String.join (text.map escape)).toList = text := by
  rw [toList_join_map]
  induction text with
  | nil => simp [decode]
  | cons c text ih => rw [List.flatMap_cons, escapes, ih]

/-- Every text comes back from its written form. -/
theorem decode_escapeText (text : String) :
    decode (escapeText text).toList = text.toList :=
  decode_join escapes_text text.toList

/-- Every attribute value comes back from its written form. -/
theorem decode_escapeAttribute (text : String) :
    decode (escapeAttribute text).toList = text.toList :=
  decode_join escapes_attribute text.toList

/-- No written text starts markup. -/
theorem less_notMem_escapeText (text : String) : '<' ∉ (escapeText text).toList := by
  rw [escapeText, toList_join_map, List.mem_flatMap]
  rintro ⟨c, -, mem⟩
  revert mem
  unfold escapeTextChar
  split
  · decide
  · decide
  · decide
  · decide
  · next plain _ _ => simpa using fun same => plain same.symm

/-- No written attribute value ends its quotes. -/
theorem quote_notMem_escapeAttribute (text : String) : '"' ∉ (escapeAttribute text).toList := by
  rw [escapeAttribute, toList_join_map, List.mem_flatMap]
  rintro ⟨c, -, mem⟩
  revert mem
  unfold escapeAttributeChar
  split
  · decide
  · decide
  · decide
  · next plain _ => simpa using fun same => plain same.symm

end Inlay.Markup
