/-
# Proofs.Markup.Tiling — the tokens of a text cover it

Scanning a text gives its tokens with their positions in bytes. How tokens lie in a text is said once
for both modes of reading (`Laid`): a gap of characters that may be skipped, the characters of a token,
and so on, up to a gap behind the last token. Between tags nothing may be skipped, inside a tag the five
ASCII blanks may; one token taken off the front is one constructor, so both scans lay out their tokens in
this way (`Token.laid_scanFrom`, `TagToken.laid_scanFrom`).

What holds of the positions follows from the layout alone (`Laid.covers`): a token stands between
characters and is not empty, tokens are in order, and every byte is in exactly one token, or in none
and part of a character that is skipped. Where nothing is skipped the tokens tile the text
(`Laid.tiles`). There every token that is not a text starts with `<`, and a text goes on to the next
`<`; so two texts never meet (`Token.apart_of_laid`), and a text takes all it can on both sides.
-/
import Inlay.Proofs.Markup.Bytes
import Inlay.Proofs.Markup.Scanning

namespace Inlay.Markup

set_option autoImplicit false

open Inlay.Text

variable {α : Type} {Skipped : Char → Prop} {Written : α → List Char → List Char → Prop} {start stop p : Nat}
  {input rest text gap front behind : List Char} {c : Char} {t : Placed α} {tokens : List (Placed α)}

/-! ## Bytes and tokens -/

/-- A byte of a text is part of a character. -/
def PartOf (input : List Char) (p : Nat) (c : Char) : Prop :=
  ∃ before after, input = before ++ c :: after ∧ bytes before ≤ p ∧ p < bytes before + c.utf8Size

theorem PartOf.append_right (part : PartOf front p c) (behind : List Char) : PartOf (front ++ behind) p c := by
  obtain ⟨before, after, rfl, least, most⟩ := part
  exact ⟨before, after ++ behind, by simp, least, most⟩

theorem PartOf.append_left (part : PartOf behind p c) (front : List Char) :
    PartOf (front ++ behind) (bytes front + p) c := by
  obtain ⟨before, after, rfl, least, most⟩ := part
  refine ⟨front ++ before, after, by simp, ?_, ?_⟩ <;> rw [bytes_append] <;> omega

theorem exists_partOf (within : p < bytes input) : ∃ c ∈ input, PartOf input p c := by
  induction input generalizing p with
  | nil => exact absurd within (Nat.not_lt_zero p)
  | cons c input ih =>
      rw [bytes_cons] at within
      by_cases here : p < c.utf8Size
      · exact ⟨c, List.mem_cons_self, [], input, rfl, Nat.zero_le p, by simpa using here⟩
      · obtain ⟨x, mem, part⟩ := ih (p := p - c.utf8Size) (by omega)
        have moved := part.append_left [c]
        rw [bytes_cons, bytes_nil, Nat.add_zero, Nat.add_sub_cancel' (Nat.not_lt.mp here)] at moved
        exact ⟨x, List.mem_cons_of_mem c mem, moved⟩

/-- How many of the tokens a byte is in. -/
def readings (tokens : List (Placed α)) (p : Nat) : Nat :=
  tokens.countP fun t => t.start ≤ p ∧ p < t.stop

theorem readings_cons_inside (least : t.start ≤ p) (most : p < t.stop) :
    readings (t :: tokens) p = readings tokens p + 1 :=
  List.countP_cons_of_pos (by simp [least, most])

theorem readings_cons_outside (outside : p < t.start ∨ t.stop ≤ p) :
    readings (t :: tokens) p = readings tokens p :=
  List.countP_cons_of_neg (by simp; omega)

/-- The tokens tile the bytes from one position to another: each starts where the one in front of it
stops, and none is empty. -/
def Tiles : (start stop : Nat) → List (Placed α) → Prop
  | start, stop, [] => start = stop
  | start, stop, t :: tokens => t.start = start ∧ t.start < t.stop ∧ Tiles t.stop stop tokens

/-! ## Tokens laid out in a text -/

/-- Tokens as they lie in a text that starts at a position: in front of each token and behind the last
one is a gap of characters that may be skipped, and a token is written with at least one character.
What may be written can depend on what is left behind it. -/
inductive Laid (Skipped : Char → Prop) (Written : α → (text rest : List Char) → Prop) :
    (start : Nat) → (input : List Char) → List (Placed α) → Prop
  | last {start : Nat} {gap : List Char} : (∀ c ∈ gap, Skipped c) → Laid Skipped Written start gap []
  | next {start : Nat} {gap text rest : List Char} {token : α} {tokens : List (Placed α)} :
      (∀ c ∈ gap, Skipped c) → text ≠ [] → Written token text rest →
      Laid Skipped Written (start + bytes (gap ++ text)) rest tokens →
      Laid Skipped Written start (gap ++ (text ++ rest))
        (⟨token, start + bytes gap, start + bytes (gap ++ text)⟩ :: tokens)

/-- Tokens cover a text but for what is skipped. -/
structure Covers (Skipped : Char → Prop) (Written : α → (text rest : List Char) → Prop) (input : List Char)
    (tokens : List (Placed α)) : Prop where
  /-- A token stands between characters, is not empty, and is written as it should be. -/
  written : ∀ t ∈ tokens, ∃ before text after, input = before ++ (text ++ after) ∧ text ≠ [] ∧
    t.start = bytes before ∧ t.stop = bytes before + bytes text ∧ Written t.token text after
  /-- No token starts before the ones in front of it have stopped. -/
  ordered : tokens.Pairwise fun s t => s.stop ≤ t.start
  /-- A byte is in one token, or in none and part of a character that is skipped. -/
  once : ∀ p < bytes input, readings tokens p = 1 ∨ readings tokens p = 0 ∧ ∃ c, Skipped c ∧ PartOf input p c
  /-- There are no more tokens than characters. -/
  ends : tokens.length ≤ input.length

namespace Laid

theorem written (laid : Laid Skipped Written start input tokens) (mem : t ∈ tokens) :
    ∃ before text after, input = before ++ (text ++ after) ∧ text ≠ [] ∧ t.start = start + bytes before ∧
      t.stop = start + bytes before + bytes text ∧ Written t.token text after := by
  induction laid with
  | last => cases mem
  | @next start gap text rest token tokens _ some here _ ih =>
      rcases List.mem_cons.mp mem with rfl | later
      · exact ⟨gap, text, rest, rfl, some, rfl, by rw [bytes_append, Nat.add_assoc], here⟩
      · obtain ⟨before, other, after, rfl, some, first, last, there⟩ := ih later
        rw [Nat.add_assoc start, ← bytes_append] at first last
        exact ⟨gap ++ text ++ before, other, after, by simp, some, first, last, there⟩

theorem start_le (laid : Laid Skipped Written start input tokens) (mem : t ∈ tokens) : start ≤ t.start := by
  obtain ⟨before, -, -, -, -, first, -⟩ := laid.written mem
  omega

theorem readings_before (laid : Laid Skipped Written start input tokens) (before : p < start) :
    readings tokens p = 0 := by
  refine List.countP_eq_zero.mpr fun t mem => ?_
  have := laid.start_le mem
  simp only [decide_eq_true_eq]
  omega

theorem ordered (laid : Laid Skipped Written start input tokens) :
    tokens.Pairwise fun s t => s.stop ≤ t.start := by
  induction laid with
  | last => exact .nil
  | next _ _ _ later ih => exact .cons (fun _ mem => later.start_le mem) ih

theorem once (laid : Laid Skipped Written start input tokens) (within : p < bytes input) :
    readings tokens (start + p) = 1 ∨
      readings tokens (start + p) = 0 ∧ ∃ c, Skipped c ∧ PartOf input p c := by
  induction laid generalizing p with
  | last skipped =>
      obtain ⟨c, mem, part⟩ := exists_partOf within
      exact .inr ⟨rfl, c, skipped c mem, part⟩
  | @next start gap text rest token tokens skipped _ _ later ih =>
      -- the byte is in the gap, in the token, or in what is left; later tokens start behind this one
      rw [bytes_append, bytes_append] at within
      rcases Nat.lt_or_ge p (bytes gap) with inGap | behindGap
      · obtain ⟨c, mem, part⟩ := exists_partOf inGap
        refine .inr ⟨?_, c, skipped c mem, part.append_right _⟩
        rw [readings_cons_outside (.inl (Nat.add_lt_add_left inGap start))]
        exact later.readings_before (by rw [bytes_append]; omega)
      rcases Nat.lt_or_ge p (bytes (gap ++ text)) with inToken | behindToken
      · left
        rw [readings_cons_inside (Nat.add_le_add_left behindGap start) (Nat.add_lt_add_left inToken start)]
        rw [later.readings_before (Nat.add_lt_add_left inToken start)]
      · obtain ⟨q, rfl⟩ := Nat.exists_eq_add_of_le behindToken
        rw [readings_cons_outside (.inr (Nat.add_le_add_left behindToken start)), ← Nat.add_assoc]
        rw [bytes_append] at within
        rcases ih (p := q) (by omega) with once | ⟨never, c, skips, part⟩
        · exact .inl once
        · have moved := part.append_left (gap ++ text)
          rw [List.append_assoc] at moved
          exact .inr ⟨never, c, skips, moved⟩

theorem length_le (laid : Laid Skipped Written start input tokens) : tokens.length ≤ input.length := by
  induction laid with
  | last => exact Nat.zero_le _
  | next _ some _ _ ih =>
      have := List.length_pos_of_ne_nil some
      simp only [List.length_cons, List.length_append]
      omega

theorem covers (laid : Laid Skipped Written 0 input tokens) : Covers Skipped Written input tokens where
  written t mem := by simpa only [Nat.zero_add] using laid.written mem
  ordered := laid.ordered
  once p within := by simpa only [Nat.zero_add] using laid.once within
  ends := laid.length_le

/-- Tokens between which nothing is skipped tile their text. -/
theorem tiles (laid : Laid (fun _ => False) Written start input tokens) :
    Tiles start (start + bytes input) tokens := by
  induction laid with
  | last skipped =>
      rw [List.eq_nil_iff_forall_not_mem.mpr skipped]
      rfl
  | @next start gap text rest token tokens skipped some _ _ ih =>
      obtain rfl := List.eq_nil_iff_forall_not_mem.mpr skipped
      have size : 0 < bytes text := Nat.pos_of_ne_zero fun none => some (eq_nil_of_bytes none)
      rw [List.nil_append] at ih
      refine ⟨rfl, ?_, ?_⟩
      · simpa using size
      · rw [List.nil_append, List.nil_append, bytes_append, ← Nat.add_assoc]
        exact ih

end Laid

/-! ## Between tags -/

namespace Token

variable {token : Token}

/-- Character data. -/
def isText : Token → Bool
  | .text _ => true
  | _ => false

/-- A token in front of what is left: it has the characters of its kind; a text goes on to the next `<`
or to the end, and everything else starts with `<`. -/
def Fits (token : Token) (text rest : List Char) : Prop :=
  Spelled token text rest ∧ if token.isText then '<' ∉ text ∧ Stops rest else text.head? = some '<'

theorem fits_next? (found : next? input = some (token, rest)) : ∃ text, input = text ++ rest ∧ Fits token text rest := by
  obtain ⟨text, rfl, spelled⟩ := spelled_next? found
  refine ⟨text, rfl, spelled, ?_⟩
  cases spelled with
  | text _ plain => exact ⟨plain, stops_of_next? found⟩
  | _ => rfl

theorem laid_scanFrom (start : Nat) (input : List Char) :
    Laid (fun _ => False) Fits start input (scanFrom start input) := by
  fun_induction scanFrom start input with
  | case1 start input none =>
      obtain rfl := eq_nil_of_next? none
      exact .last nofun
  | case2 start input token rest found stop ih =>
      obtain ⟨text, rfl, fits⟩ := fits_next? found
      have same : stop = start + bytes ([] ++ text) := by simp [stop]
      rw [same] at ih ⊢
      exact .next nofun fits.1.ne_nil fits ih

/-- No text follows a text. -/
theorem apart_of_laid {tokens : List (Placed Token)} (laid : Laid (fun _ => False) Fits start input tokens) :
    tokens.IsChain fun s t => s.token.isText → ¬ t.token.isText := by
  induction laid with
  | last => exact .nil
  | @next start gap text rest token tokens _ _ here later ih =>
      cases later with
      | last => exact .singleton _
      | @next _ gap' text' rest' token' tokens skipped some there later =>
          refine .cons_cons (fun isText isText' => ?_) ih
          obtain rfl := List.eq_nil_iff_forall_not_mem.mpr skipped
          obtain ⟨c, tail, rfl⟩ := List.exists_cons_of_ne_nil some
          have stops := (if_pos isText ▸ here.2).2
          have plain := (if_pos isText' ▸ there.2).1
          exact plain (stops c rfl ▸ List.mem_cons_self)

end Token

/-! ## Inside an opening tag -/

namespace TagToken

/-- The characters that may be skipped between the parts of a tag. -/
def gaps : List Char := [' ', '\t', '\r', '\n', '\x0c']

theorem isGap_iff : isGap c = true ↔ c ∈ gaps := by
  simp only [isGap, isAsciiBlank, gaps, Bool.or_eq_true, beq_iff_eq, List.mem_cons, List.not_mem_nil, or_false]
  tauto

theorem laid_scanFrom (start : Nat) (input : List Char) :
    Laid (· ∈ gaps) Spelled start input (scanFrom start input) := by
  have skipped : ∀ input : List Char, ∀ c ∈ input.takeWhile isGap, c ∈ gaps := fun _ c mem =>
    isGap_iff.mp (List.mem_takeWhile_imp mem)
  fun_induction scanFrom start input with
  | case1 start input none =>
      have whole := List.takeWhile_append_dropWhile (p := isGap) (l := input)
      rw [dropWhile_of_next?_eq_none none, List.append_nil] at whole
      exact .last (whole ▸ skipped input)
  | case2 start input token rest found gap stop ih =>
      obtain ⟨text, dropped, spelled⟩ := spelled_next? found
      have whole : input.takeWhile isGap ++ (text ++ rest) = input := by
        rw [← dropped, List.takeWhile_append_dropWhile]
      have same : stop = start + bytes (input.takeWhile isGap ++ text) := by
        have size := congrArg bytes whole
        simp only [bytes_append] at size ⊢
        omega
      have laid := Laid.next (skipped input) spelled.ne_nil spelled (same ▸ ih)
      rwa [whole, ← same] at laid

end TagToken

/-- The tokens of every text cover it, and there are no more of them than characters. Between tags they tile the text
from its start to its end, so every byte is in exactly one of them; character data takes all up to the next `<` and never
follows character data, and everything else starts with `<`. Inside a tag they are in order, and a byte that is in none
of them is one of the five blanks. -/
theorem tokens_cover (source : String) :
    (Covers (fun _ => False) Token.Fits source.toList (Token.scan source) ∧
      Tiles 0 source.utf8ByteSize (Token.scan source) ∧
      (Token.scan source).IsChain fun s t => s.token.isText → ¬ t.token.isText) ∧
    Covers (· ∈ TagToken.gaps) TagToken.Spelled source.toList (TagToken.scan source) := by
  have between := Token.laid_scanFrom 0 source.toList
  have inside := TagToken.laid_scanFrom 0 source.toList
  have size : source.utf8ByteSize = 0 + bytes source.toList := by
    rw [← utf8ByteSize_ofList, String.ofList_toList, Nat.zero_add]
  refine ⟨⟨between.covers, ?_, Token.apart_of_laid between⟩, inside.covers⟩
  rw [size]
  exact between.tiles

-- a comment that is not closed is given up behind its four characters, a closing tag only at the end
example : (Token.scan "a<!--é</b").map (fun t => (t.start, t.stop)) = [(0, 1), (1, 5), (5, 7), (7, 10)] := by
  decide +kernel

end Inlay.Markup
