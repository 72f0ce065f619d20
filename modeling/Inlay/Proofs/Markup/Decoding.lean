/-
# Proofs.Markup.Decoding — what a character reference is

A reference is told apart without the reader: `&`, a body without `;` of at most nine bytes,
and `;`, where the body is one of six names or a numeral behind `#` or `#x` (`Refers`). A text
is `Replaced` from the left: a reference that stands in front gives its character, and what
follows it is read on from behind its `;`, so that nothing is read twice; any other character
stays.

Decoding is this relation for numerals that may have one plus sign in front (`decode_iff`).
For numerals of digits alone it is the relation of exactly the texts in which no reference has
a sign (`decode_replaces`).
-/
import Inlay.Proofs.Markup.Escape
import Mathlib.Data.Nat.Digits.Defs
import Mathlib.Data.List.Forall2
import Mathlib.Data.List.TakeWhile

namespace Inlay.Markup

set_option autoImplicit false

open Inlay.Text

variable {text rest body digits out : List Char} {c : Char} {base number value : Nat}

/-! ## Numerals -/

/-- The digits with their values; the letters among them have two cases. -/
def digitValues : List (Char × Nat) := "0123456789abcdef".toList.zipIdx ++ "ABCDEF".toList.zipIdx 10

/-- A digit of a base of at most sixteen. -/
def Digit (base : Nat) (c : Char) (value : Nat) : Prop := value < base ∧ (c, value) ∈ digitValues

/-- Digits, at least one, of a number in a base; the last one counts units. -/
def Numeral (base : Nat) (digits : List Char) (number : Nat) : Prop :=
  digits ≠ [] ∧ ∃ values, List.Forall₂ (Digit base) digits.reverse values ∧ Nat.ofDigits base values = number

/-- A numeral behind a plus sign. -/
def Plussed (base : Nat) (text : List Char) (number : Nat) : Prop :=
  ∃ digits, text = '+' :: digits ∧ Numeral base digits number

/-- A numeral that may have a plus sign in front. -/
def Signed (base : Nat) (text : List Char) (number : Nat) : Prop :=
  Numeral base text number ∨ Plussed base text number

/-- Characters of a range are digits when those counted off from its first are. -/
theorem mem_digitValues_of_range {first last : Char} {offset : Nat}
    (each : ∀ k < last.toNat - first.toNat + 1, (Char.ofNat (first.toNat + k), k + offset) ∈ digitValues)
    (low : first ≤ c) (high : c ≤ last) : (c, c.toNat - first.toNat + offset) ∈ digitValues := by
  have low : first.toNat ≤ c.toNat := low
  have high : c.toNat ≤ last.toNat := high
  have mem := each (c.toNat - first.toNat) (by omega)
  rwa [Nat.add_sub_cancel' low, Char.ofNat_toNat] at mem

theorem digitIn?_eq_some_iff : digitIn? base c = some value ↔ Digit base c value := by
  unfold digitIn? Digit
  simp only [Option.filter_eq_some_iff, decide_eq_true_eq, and_comm (b := value < base)]
  refine and_congr_right fun below => ⟨fun found => ?_, fun mem => ?_⟩
  · split at found
    · next digit =>
      cases found
      simp only [Char.isDigit, Bool.and_eq_true, decide_eq_true_eq] at digit
      have each : ∀ k < '9'.toNat - '0'.toNat + 1, (Char.ofNat ('0'.toNat + k), k + 0) ∈ digitValues := by decide
      exact mem_digitValues_of_range each digit.1 digit.2
    split at found
    · next lower =>
      cases found
      exact mem_digitValues_of_range (by decide) lower.1 lower.2
    split at found
    · next upper =>
      cases found
      exact mem_digitValues_of_range (by decide) upper.1 upper.2
    · cases found
  · have each : ∀ p ∈ digitValues, (if p.1.isDigit then some (p.1.toNat - '0'.toNat)
        else if 'a' ≤ p.1 ∧ p.1 ≤ 'f' then some (p.1.toNat - 'a'.toNat + 10)
        else if 'A' ≤ p.1 ∧ p.1 ≤ 'F' then some (p.1.toNat - 'A'.toNat + 10) else none) = some p.2 := by
      decide
    exact each _ mem

/-- Each digit moves what is read so far up by one place. -/
theorem digitsIn?_eq_some_iff : digitsIn? base digits = some number ↔
    ∃ values, List.Forall₂ (Digit base) digits.reverse values ∧ Nat.ofDigits base values = number := by
  unfold digitsIn?
  induction digits using List.reverseRecOn generalizing number with
  | nil => simp [eq_comm]
  | append_singleton front c ih =>
      rw [List.foldlM_append, List.reverse_append, List.reverse_singleton, List.singleton_append]
      simp only [List.foldlM_cons, List.foldlM_nil, Option.bind_eq_bind, Option.pure_def,
        Option.bind_eq_some_iff, Option.map_eq_some_iff, Option.some.injEq, ih, digitIn?_eq_some_iff]
      constructor
      · rintro ⟨_, ⟨values, each, rfl⟩, _, ⟨value, digit, rfl⟩, rfl⟩
        exact ⟨value :: values, .cons digit each, by rw [Nat.ofDigits_cons, Nat.mul_comm, Nat.add_comm]⟩
      · rintro ⟨_, each, rfl⟩
        obtain ⟨value, values, digit, front', rfl⟩ := List.forall₂_cons_left_iff.mp each
        exact ⟨_, ⟨values, front', rfl⟩, _, ⟨value, digit, rfl⟩, by rw [Nat.ofDigits_cons, Nat.mul_comm, Nat.add_comm]⟩

theorem numeral_iff : Numeral base digits number ↔ digits ≠ [] ∧ digitsIn? base digits = some number := by
  rw [digitsIn?_eq_some_iff, Numeral]

/-- A numeral is made of digits. -/
theorem mem_digits_of_mem (numeral : Numeral base digits number) (mem : c ∈ digits) :
    c ∈ digitValues.map Prod.fst := by
  obtain ⟨-, values, each, -⟩ := numeral
  rw [← List.mem_reverse] at mem
  generalize digits.reverse = reversed at each mem
  induction each with
  | nil => cases mem
  | cons digit _ ih =>
      rcases List.mem_cons.mp mem with rfl | later
      · exact List.mem_map_of_mem digit.2
      · exact ih later

theorem numeralIn?_eq_some_iff : numeralIn? base text = some number ↔ Signed base text number := by
  have noPlus : ∀ digits, ¬ Numeral base ('+' :: digits) number := by
    intro digits numeral
    have : '+' ∉ digitValues.map Prod.fst := by decide
    exact this (mem_digits_of_mem numeral List.mem_cons_self)
  unfold Signed Plussed
  cases text with
  | nil => simp [numeralIn?, numeral_iff]
  | cons c text =>
      by_cases plus : c = '+'
      · subst plus
        cases text with
        | nil => simp [numeralIn?, noPlus, numeral_iff]
        | cons d text => simp [numeralIn?, noPlus, numeral_iff]
      · have same : numeralIn? base (c :: text) = digitsIn? base (c :: text) := by
          rw [numeralIn?]
          · exact List.cons_ne_nil _ _
          · intro single
            exact plus (List.cons.inj single).1
          · intro digits split
            exact plus (List.cons.inj split).1
        simp [same, numeral_iff, plus]

/-! ## References -/

/-- The bodies that are names. -/
def referenceNames : List (String × Char) :=
  [("amp", '&'), ("lt", '<'), ("gt", '>'), ("quot", '"'), ("apos", '\x27'), ("nbsp", '\u00a0')]

/-- A body with the number of a character, for a notion of numerals. Every number of a character
is a Unicode scalar value. -/
inductive Numbered (numeral : Nat → List Char → Nat → Prop) : List Char → Char → Prop
  | decimal {digits : List Char} {c : Char} : numeral 10 digits c.toNat → Numbered numeral ('#' :: digits) c
  | hexadecimal {x : Char} {digits : List Char} {c : Char} : x = 'x' ∨ x = 'X' → numeral 16 digits c.toNat →
      Numbered numeral ('#' :: x :: digits) c

/-- The body stands for the character: by its name, or by its number. -/
def Denotes (numeral : Nat → List Char → Nat → Prop) (body : List Char) (c : Char) : Prop :=
  (String.ofList body, c) ∈ referenceNames ∨ Numbered numeral body c

theorem scalar?_eq_some_iff {code : Nat} : scalar? code = some c ↔ c.toNat = code := by
  unfold scalar?
  constructor
  · intro found
    split at found
    · next valid =>
      cases found
      rw [Char.ofNat, dif_pos valid]
      rfl
    · cases found
  · rintro rfl
    have valid : c.toNat.isValidChar := c.valid
    rw [if_pos valid, Char.ofNat_toNat]

theorem namedReference?_eq_some_iff : namedReference? body = some c ↔ (String.ofList body, c) ∈ referenceNames := by
  unfold namedReference?
  generalize String.ofList body = name
  constructor
  · intro found
    split at found <;> cases found <;> decide
  · simp only [referenceNames, List.mem_cons, Prod.mk.injEq, List.not_mem_nil, or_false]
    rintro (⟨rfl, rfl⟩ | ⟨rfl, rfl⟩ | ⟨rfl, rfl⟩ | ⟨rfl, rfl⟩ | ⟨rfl, rfl⟩ | ⟨rfl, rfl⟩) <;> rfl

/-- The value of a numeral as a character. -/
theorem bind_scalar?_eq_some_iff : (numeralIn? base digits).bind scalar? = some c ↔ Signed base digits c.toNat := by
  simp only [Option.bind_eq_some_iff, numeralIn?_eq_some_iff, scalar?_eq_some_iff]
  exact ⟨fun ⟨_, numeral, same⟩ => same ▸ numeral, fun numeral => ⟨_, numeral, rfl⟩⟩

/-- No decimal numeral starts with a letter. -/
theorem not_signed_letter {x : Char} (letter : x = 'x' ∨ x = 'X') : ¬ Signed base (x :: digits) number := by
  have apart : x ≠ '+' ∧ x ∉ digitValues.map Prod.fst := by
    rcases letter with rfl | rfl <;> decide
  rintro (numeral | ⟨_, same, -⟩)
  · exact apart.2 (mem_digits_of_mem numeral List.mem_cons_self)
  · exact apart.1 (List.cons.inj same).1

theorem referenced?_of_unnamed (unnamed : namedReference? body = none) :
    referenced? body = some c ↔ Numbered Signed body c := by
  unfold referenced?
  rw [unnamed]
  dsimp only
  constructor
  · intro found
    split at found
    · exact .hexadecimal (.inl rfl) (bind_scalar?_eq_some_iff.mp found)
    · exact .hexadecimal (.inr rfl) (bind_scalar?_eq_some_iff.mp found)
    · exact .decimal (bind_scalar?_eq_some_iff.mp found)
    · cases found
  · rintro (numeral | ⟨rfl | rfl, numeral⟩)
    · split
      · next same => exact absurd ((List.cons.inj same).2 ▸ numeral) (not_signed_letter (.inl rfl))
      · next same => exact absurd ((List.cons.inj same).2 ▸ numeral) (not_signed_letter (.inr rfl))
      · next same => exact bind_scalar?_eq_some_iff.mpr ((List.cons.inj same).2 ▸ numeral)
      · next none => exact absurd rfl (none _)
    · exact bind_scalar?_eq_some_iff.mpr numeral
    · exact bind_scalar?_eq_some_iff.mpr numeral

/-- No name starts like a number. -/
theorem Numbered.unnamed {numeral : Nat → List Char → Nat → Prop} (numbered : Numbered numeral body c) :
    namedReference? body = none := by
  obtain ⟨digits, rfl⟩ : ∃ digits, body = '#' :: digits := by
    cases numbered with
    | decimal => exact ⟨_, rfl⟩
    | hexadecimal => exact ⟨_, rfl⟩
  cases named : namedReference? ('#' :: digits) with
  | none => rfl
  | some r =>
      have apart : ∀ p ∈ referenceNames, p.1.toList.head? ≠ some '#' := by decide
      exact absurd (by simp) (apart _ (namedReference?_eq_some_iff.mp named))

theorem referenced?_eq_some_iff : referenced? body = some c ↔ Denotes Signed body c := by
  unfold Denotes
  rw [← namedReference?_eq_some_iff]
  cases named : namedReference? body with
  | none => simp [referenced?_of_unnamed named]
  | some r =>
      have noNumber : ¬ Numbered Signed body c := fun numbered => by simp [numbered.unnamed] at named
      simp [referenced?, named, noNumber]

/-- A reference stands in front of a text: the character it is replaced by, and what follows it. -/
def Refers (denotes : List Char → Char → Prop) (text : List Char) (c : Char) (rest : List Char) : Prop :=
  ∃ body, text = '&' :: (body ++ ';' :: rest) ∧ ';' ∉ body ∧ bytes body ≤ 9 ∧ denotes body c

theorem reference?_eq_some_iff :
    reference? text = some (c, rest) ↔ Refers (Denotes Signed) ('&' :: text) c rest := by
  constructor
  · intro found
    unfold reference? at found
    simp only at found
    split at found
    · cases found
    · next x behind dropped =>
      split at found
      · next short =>
        obtain ⟨_, stands, same⟩ := Option.map_eq_some_iff.mp found
        cases same
        have isMark : x = ';' := by
          have first : x ∈ (text.dropWhile (· ≠ ';')).head? := by rw [dropped]; rfl
          simpa using not_of_mem_dropWhile first
        have whole : text = text.takeWhile (· ≠ ';') ++ ';' :: rest := by
          rw [isMark] at dropped
          rw [← dropped, List.takeWhile_append_dropWhile]
        refine ⟨_, congrArg _ whole, fun mem => ?_, short, referenced?_eq_some_iff.mp stands⟩
        simpa using List.mem_takeWhile_imp mem
      · cases found
  · rintro ⟨body, same, ends, short, denotes⟩
    rw [(List.cons.inj same).2]
    exact reference?_append body rest ends short (referenced?_eq_some_iff.mpr denotes)

/-! ## Decoding -/

/-- A text and what it becomes when its references are replaced, from the left. -/
inductive Replaced (denotes : List Char → Char → Prop) : (text out : List Char) → Prop
  | nil : Replaced denotes [] []
  | reference {text rest out : List Char} {c : Char} : Refers denotes text c rest → Replaced denotes rest out →
      Replaced denotes text (c :: out)
  | verbatim {text out : List Char} {c : Char} : (∀ r rest, ¬ Refers denotes (c :: text) r rest) →
      Replaced denotes text out → Replaced denotes (c :: text) (c :: out)

theorem replaced_decode (text : List Char) : Replaced (Denotes Signed) text (decode text) := by
  fun_induction decode text with
  | case1 => exact .nil
  | case2 text r rest found ih => exact .reference (reference?_eq_some_iff.mp found) ih
  | case3 text missing ih =>
      refine .verbatim (fun r rest refers => ?_) ih
      rw [reference?_eq_some_iff.mpr refers] at missing
      cases missing
  | case4 c text plain ih =>
      refine .verbatim (fun r rest ⟨_, same, _⟩ => plain (List.cons.inj same).1) ih

/-- Decoding replaces the references whose numerals may be signed. -/
theorem decode_iff : decode text = out ↔ Replaced (Denotes Signed) text out := by
  constructor
  · rintro rfl
    exact replaced_decode text
  · intro replaced
    induction replaced with
    | nil => rw [decode]
    | reference refers _ ih =>
        obtain ⟨body, rfl, ends, short, denotes⟩ := refers
        rw [decode_reference body _ ends short (referenced?_eq_some_iff.mpr denotes), ih]
    | @verbatim text out c none _ ih =>
        by_cases mark : c = '&'
        · subst mark
          rw [decode, if_pos rfl]
          split
          · next found => exact absurd (reference?_eq_some_iff.mp found) (none _ _)
          · rw [ih]
        · rw [decode_plain mark, ih]

/-! ## Signs -/

theorem denotes_signed_iff : Denotes Signed body c ↔ Denotes Numeral body c ∨ Numbered Plussed body c := by
  constructor
  · rintro (name | ⟨numeral | plussed⟩ | ⟨hex, numeral | plussed⟩)
    · exact .inl (.inl name)
    · exact .inl (.inr (.decimal numeral))
    · exact .inr (.decimal plussed)
    · exact .inl (.inr (.hexadecimal hex numeral))
    · exact .inr (.hexadecimal hex plussed)
  · rintro ((name | ⟨numeral⟩ | ⟨hex, numeral⟩) | ⟨plussed⟩ | ⟨hex, plussed⟩)
    · exact .inl name
    · exact .inr (.decimal (.inl numeral))
    · exact .inr (.hexadecimal hex (.inl numeral))
    · exact .inr (.decimal (.inr plussed))
    · exact .inr (.hexadecimal hex (.inr plussed))

/-- A body with a sign is none without one. -/
theorem Numbered.not_denotes {r : Char} (plussed : Numbered Plussed body c) : ¬ Denotes Numeral body r := by
  have plus : '+' ∉ digitValues.map Prod.fst := by decide
  rintro (name | numeral)
  · have unnamed := plussed.unnamed
    rw [namedReference?_eq_some_iff.mpr name] at unnamed
    cases unnamed
  · have mem : '+' ∈ body := by
      cases plussed with
      | decimal plussed => obtain ⟨_, rfl, -⟩ := plussed; simp
      | hexadecimal _ plussed => obtain ⟨_, rfl, -⟩ := plussed; simp
    cases numeral with
    | decimal numeral => exact plus (mem_digits_of_mem numeral (by simpa using mem))
    | hexadecimal hex numeral =>
        refine plus (mem_digits_of_mem numeral ?_)
        rcases hex with rfl | rfl <;> simpa using mem

/-- What the bodies of references are made of. -/
def bodyChars : List Char :=
  '#' :: 'x' :: 'X' :: '+' :: (digitValues.map Prod.fst ++ referenceNames.flatMap fun p => p.1.toList)

theorem mem_bodyChars_of_signed (signed : Signed base digits number) (mem : c ∈ digits) : c ∈ bodyChars := by
  have digit : ∀ {digits : List Char}, Numeral base digits number → c ∈ digits → c ∈ bodyChars := by
    intro digits numeral mem
    simp [bodyChars, mem_digits_of_mem numeral mem]
  rcases signed with numeral | ⟨_, rfl, numeral⟩
  · exact digit numeral mem
  · rcases List.mem_cons.mp mem with rfl | mem
    · simp [bodyChars]
    · exact digit numeral mem

theorem Denotes.mem_bodyChars {x : Char} (denotes : Denotes Signed body c) (mem : x ∈ body) : x ∈ bodyChars := by
  rcases denotes with name | ⟨signed⟩ | ⟨hex, signed⟩
  · refine List.mem_of_mem_drop (i := 4) (List.mem_append_right _ (List.mem_flatMap.mpr ⟨_, name, ?_⟩))
    simpa using mem
  · rcases List.mem_cons.mp mem with rfl | mem
    · simp [bodyChars]
    · exact mem_bodyChars_of_signed signed mem
  · simp only [List.mem_cons] at mem
    rcases mem with rfl | rfl | mem
    · simp [bodyChars]
    · rcases hex with rfl | rfl <;> simp [bodyChars]
    · exact mem_bodyChars_of_signed signed mem

/-- No body of a reference holds the start of another one. -/
theorem Denotes.mark_not_mem (denotes : Denotes Signed body c) : '&' ∉ body := fun mem =>
  absurd (denotes.mem_bodyChars mem) (by decide)

/-- Somewhere in the text is a reference with a sign. -/
def HoldsSigned (text : List Char) : Prop := ∃ tail c rest, tail <:+ text ∧ Refers (Numbered Plussed) tail c rest

theorem holdsSigned_cons : HoldsSigned (c :: text) ↔
    (∃ r rest, Refers (Numbered Plussed) (c :: text) r rest) ∨ HoldsSigned text := by
  constructor
  · rintro ⟨tail, r, rest, inside, refers⟩
    rcases List.suffix_cons_iff.mp inside with rfl | later
    · exact .inl ⟨r, rest, refers⟩
    · exact .inr ⟨tail, r, rest, later, refers⟩
  · rintro (⟨r, rest, refers⟩ | ⟨tail, r, rest, inside, refers⟩)
    · exact ⟨_, r, rest, List.suffix_refl _, refers⟩
    · exact ⟨tail, r, rest, inside.trans (List.suffix_cons _ _), refers⟩

theorem holdsSigned_append : ∀ {plain : List Char}, '&' ∉ plain → (HoldsSigned (plain ++ text) ↔ HoldsSigned text)
  | [], _ => .rfl
  | d :: plain, free => by
      have none : ¬ ∃ r rest, Refers (Numbered Plussed) (d :: (plain ++ text)) r rest := by
        rintro ⟨r, rest, _, same, -⟩
        exact free ((List.cons.inj same).1 ▸ List.mem_cons_self)
      rw [List.cons_append, holdsSigned_cons, or_iff_right none,
        holdsSigned_append fun mem => free (List.mem_cons_of_mem _ mem)]

namespace Refers

variable {denotes denotes' : List Char → Char → Prop} {r : Char} {rest' : List Char}

theorem mono (refers : Refers denotes text c rest) (more : ∀ body, denotes body c → denotes' body c) :
    Refers denotes' text c rest :=
  let ⟨body, same, ends, short, here⟩ := refers
  ⟨body, same, ends, short, more body here⟩

/-- The body of a reference ends at its first `;`. -/
theorem unique (first : Refers denotes text c rest) (second : Refers denotes' text r rest') :
    rest = rest' ∧ ∃ body, text = '&' :: (body ++ ';' :: rest) ∧ denotes body c ∧ denotes' body r := by
  obtain ⟨body, rfl, ends, -, here⟩ := first
  obtain ⟨body', same, ends', -, there⟩ := second
  have cut := cutAt?_singleton ends rest
  rw [(List.cons.inj same).2, cutAt?_singleton ends' rest'] at cut
  cases cut
  exact ⟨rfl, body, rfl, here, there⟩

end Refers

/-- Text without the start of a reference stays. -/
theorem Replaced.of_append {denotes : List Char → Char → Prop} : ∀ {plain out : List Char}, '&' ∉ plain →
    Replaced denotes (plain ++ text) out → ∃ out', out = plain ++ out' ∧ Replaced denotes text out'
  | [], out, _, replaced => ⟨out, rfl, replaced⟩
  | d :: plain, _, free, replaced => by
      cases replaced with
      | reference refers _ =>
          obtain ⟨_, same, -⟩ := refers
          exact absurd ((List.cons.inj same).1 ▸ List.mem_cons_self) free
      | verbatim _ later =>
          obtain ⟨out', rfl, rest⟩ := Replaced.of_append (fun mem => free (List.mem_cons_of_mem _ mem)) later
          exact ⟨out', rfl, rest⟩

theorem replaced_plain {denotes : List Char → Char → Prop} : ∀ {plain : List Char}, '&' ∉ plain →
    Replaced denotes plain plain
  | [], _ => .nil
  | d :: plain, free => by
      refine .verbatim (fun r rest refers => ?_) (replaced_plain fun mem => free (List.mem_cons_of_mem _ mem))
      obtain ⟨_, same, -⟩ := refers
      exact free ((List.cons.inj same).1 ▸ List.mem_cons_self)

/-- Each reference with a sign that is replaced makes a text shorter than one in which it stays. -/
theorem Replaced.length_le {out' : List Char} (signed : Replaced (Denotes Signed) text out)
    (plain : Replaced (Denotes Numeral) text out') :
    out.length ≤ out'.length ∧ (HoldsSigned text → out.length < out'.length) := by
  induction signed generalizing out' with
  | nil =>
      refine ⟨Nat.zero_le _, ?_⟩
      rintro ⟨_, _, _, inside, _, rfl, -⟩
      exact absurd (List.suffix_nil.mp inside) (List.cons_ne_nil _ _)
  | @reference text rest out c refers _ ih =>
      obtain ⟨body, rfl, ends, short, denotes⟩ := id refers
      have free := denotes.mark_not_mem
      have later : HoldsSigned (body ++ ';' :: rest) ↔ HoldsSigned rest := by
        have through : HoldsSigned (body ++ [';'] ++ rest) ↔ HoldsSigned rest := holdsSigned_append (by simp [free])
        simpa using through
      cases plain with
      | reference refers' plain =>
          obtain ⟨rfl, body', same, -, numeral⟩ := refers.unique refers'
          obtain ⟨le, lt⟩ := ih plain
          refine ⟨Nat.succ_le_succ le, fun holds => Nat.succ_lt_succ (lt ?_)⟩
          refine later.mp (holdsSigned_cons.mp holds |>.resolve_left ?_)
          rintro ⟨r, rest', plussed⟩
          obtain ⟨-, _, -, numeral, plussed⟩ := refers'.unique plussed
          exact plussed.not_denotes numeral
      | verbatim _ kept =>
          have whole : body ++ ';' :: rest = (body ++ [';']) ++ rest := by simp
          rw [whole] at kept
          obtain ⟨out', rfl, behind⟩ := kept.of_append (by simp [free])
          have le := (ih behind).1
          simp only [List.length_cons, List.length_append, List.length_nil]
          omega
  | @verbatim text out c none _ ih =>
      cases plain with
      | reference refers _ => exact absurd (refers.mono fun _ here => denotes_signed_iff.mpr (.inl here)) (none _ _)
      | verbatim _ plain =>
          obtain ⟨le, lt⟩ := ih plain
          refine ⟨Nat.succ_le_succ le, fun holds => Nat.succ_lt_succ (lt ?_)⟩
          refine (holdsSigned_cons.mp holds).resolve_left ?_
          rintro ⟨r, rest, plussed⟩
          exact none _ _ (plussed.mono fun _ here => denotes_signed_iff.mpr (.inr here))

/-- Where no reference has a sign, it does not matter whether one may. -/
theorem Replaced.unsigned (signed : Replaced (Denotes Signed) text out) (none : ¬ HoldsSigned text) :
    Replaced (Denotes Numeral) text out := by
  induction signed with
  | nil => exact .nil
  | @reference text rest out c refers _ ih =>
      obtain ⟨body, rfl, ends, short, denotes⟩ := refers
      have after : rest <:+ '&' :: (body ++ ';' :: rest) := ⟨'&' :: (body ++ [';']), by simp⟩
      refine .reference ⟨body, rfl, ends, short, ?_⟩ (ih ?_)
      · refine (denotes_signed_iff.mp denotes).resolve_right fun plussed => none ?_
        exact ⟨_, c, rest, List.suffix_refl _, body, rfl, ends, short, plussed⟩
      · exact fun ⟨tail, r, rest', inside, plussed⟩ => none ⟨tail, r, rest', inside.trans after, plussed⟩
  | @verbatim text out c free _ ih =>
      refine .verbatim (fun r rest refers => ?_) (ih fun holds => none (holdsSigned_cons.mpr (.inr holds)))
      exact free r rest (refers.mono fun _ here => denotes_signed_iff.mpr (.inl here))

/-- A text is decoded by replacing its references from the left, where a numeral may have one plus
sign in front of its digits. Without this sign decoding replaces exactly the references of
those texts in which no reference has a sign. -/
theorem decode_replaces (text out : String) :
    (decodeReferences text = out ↔ Replaced (Denotes Signed) text.toList out.toList) ∧
    (Replaced (Denotes Numeral) text.toList (decodeReferences text).toList ↔ ¬ HoldsSigned text.toList) := by
  have signed := replaced_decode text.toList
  rw [decodeReferences, String.toList_ofList, ← decode_iff, ← String.toList_inj, String.toList_ofList]
  refine ⟨.rfl, fun numeral holds => ?_, signed.unsigned⟩
  exact absurd ((signed.length_le numeral).2 holds) (Nat.lt_irrefl _)

/-- A sign in front of the digits is passed over, and the reference replaced; without signs it stays. -/
theorem decode_replaces_plus : decodeReferences "&#+65;" = "A" ∧
    Replaced (Denotes Numeral) "&#+65;".toList "&#+65;".toList ∧
    ¬ Replaced (Denotes Numeral) "&#+65;".toList (decodeReferences "&#+65;").toList := by
  have numeral : Numeral 10 ['6', '5'] 'A'.toNat :=
    ⟨by decide, [5, 6], .cons ⟨by decide, by decide⟩ (.cons ⟨by decide, by decide⟩ .nil), by decide⟩
  have plussed : Refers (Numbered Plussed) "&#+65;".toList 'A' [] :=
    ⟨['#', '+', '6', '5'], rfl, by decide, by decide, .decimal ⟨_, rfl, numeral⟩⟩
  have decoded : decodeReferences "&#+65;" = "A" := by decide +kernel
  refine ⟨decoded, .verbatim (fun r rest refers => ?_) (replaced_plain (by decide)), fun unsigned => ?_⟩
  · obtain ⟨-, _, -, number, name⟩ := plussed.unique refers
    exact number.not_denotes name
  · have whole : (decodeReferences "&#+65;").toList = decode "&#+65;".toList := String.toList_ofList
    rw [whole] at unsigned
    exact absurd (((replaced_decode _).length_le unsigned).2 ⟨_, _, _, List.suffix_refl _, plussed⟩) (Nat.lt_irrefl _)

end Inlay.Markup
