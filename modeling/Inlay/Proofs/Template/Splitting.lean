/-
# Proofs.Template.Splitting — the texts with placeholders that can be read

The source of a path can be read exactly if it is made of segments between dots,
blanks around each aside, and gives those segments (`Path.read?_eq_ok`). A text
can be read exactly if it splits, without a rest, into literals and placeholders
whose sources can (`read_eq_ok`). The reader cuts at the first `${` and at the
next `}`; no other way of splitting a text is one, since a literal holds no `${`
and the source of a path no `}`.

No source of a path holds a brace. So the two ways of reading a comment agree:
it is an anchor exactly if its trimmed text reads as a single placeholder
(`anchors_iff`).
-/
import Inlay.Proofs.Template.Places
import Mathlib.Data.List.Forall2
import Mathlib.Data.List.TakeWhile

namespace Inlay.Text

set_option autoImplicit false

variable {mark : Char} {text piece : List Char} {pieces : List (List Char)}

/-! ## Cutting at a character -/

theorem splitAt_ne_nil (mark : Char) : ∀ text : List Char, splitAt mark text ≠ []
  | [] => List.cons_ne_nil _ _
  | c :: text => by
      rw [splitAt]
      split
      · exact List.cons_ne_nil _ _
      · split <;> exact List.cons_ne_nil _ _

theorem splitAt_of_absent : ∀ {text : List Char}, mark ∉ text → splitAt mark text = [text]
  | [], _ => rfl
  | c :: text, absent => by
      obtain ⟨ne, absent⟩ := not_or.mp (List.mem_cons.not.mp absent)
      rw [splitAt, if_neg (Ne.symm ne), splitAt_of_absent absent]

theorem splitAt_append (rest : List Char) : ∀ {piece : List Char}, mark ∉ piece →
    splitAt mark (piece ++ mark :: rest) = piece :: splitAt mark rest
  | [], _ => by rw [List.nil_append, splitAt, if_pos rfl]
  | c :: piece, absent => by
      obtain ⟨ne, absent⟩ := not_or.mp (List.mem_cons.not.mp absent)
      rw [List.cons_append, splitAt, if_neg (Ne.symm ne), splitAt_append rest absent]

/-- The pieces with the character between two neighbours are the text. -/
theorem intercalate_splitAt (mark : Char) : ∀ text : List Char,
    [mark].intercalate (splitAt mark text) = text
  | [] => rfl
  | c :: text => by
      have others := intercalate_splitAt mark text
      obtain ⟨piece, pieces, split⟩ := List.exists_cons_of_ne_nil (splitAt_ne_nil mark text)
      rw [splitAt, split]
      rw [split] at others
      split
      · next same => rw [List.intercalate_cons_cons, others, same, List.nil_append, List.singleton_append]
      · cases pieces with
        | nil => simpa using others
        | cons next pieces => simpa [List.intercalate_cons_cons] using others

theorem absent_of_mem_splitAt (mark : Char) : ∀ text : List Char, ∀ piece ∈ splitAt mark text, mark ∉ piece
  | [], piece, mem => by
      rw [splitAt, List.mem_singleton] at mem
      rw [mem]
      exact List.not_mem_nil
  | c :: text, piece, mem => by
      have others := absent_of_mem_splitAt mark text
      obtain ⟨first, pieces, split⟩ := List.exists_cons_of_ne_nil (splitAt_ne_nil mark text)
      rw [split] at others
      rw [splitAt, split] at mem
      split at mem
      · rcases List.mem_cons.mp mem with rfl | mem
        · exact List.not_mem_nil
        · exact others piece mem
      · next ne =>
        rcases List.mem_cons.mp mem with rfl | mem
        · exact List.mem_cons.not.mpr (not_or.mpr ⟨Ne.symm ne, others first List.mem_cons_self⟩)
        · exact others piece (List.mem_cons_of_mem _ mem)

theorem splitAt_intercalate : ∀ {pieces : List (List Char)}, pieces ≠ [] → (∀ piece ∈ pieces, mark ∉ piece) →
    splitAt mark ([mark].intercalate pieces) = pieces
  | [], some_, _ => absurd rfl some_
  | [piece], _, absent => by
      rw [List.intercalate_singleton]
      exact splitAt_of_absent (absent piece List.mem_cons_self)
  | piece :: next :: pieces, _, absent => by
      obtain ⟨here, others⟩ := List.forall_mem_cons.mp absent
      rw [List.intercalate_cons_cons, List.append_assoc, List.singleton_append, splitAt_append _ here,
        splitAt_intercalate (List.cons_ne_nil _ _) others]

/-- The only way to write a text as pieces without a character, and the character between them. -/
theorem splitAt_eq_iff : splitAt mark text = pieces ↔
    pieces ≠ [] ∧ text = [mark].intercalate pieces ∧ ∀ piece ∈ pieces, mark ∉ piece := by
  constructor
  · rintro rfl
    exact ⟨splitAt_ne_nil mark text, (intercalate_splitAt mark text).symm, absent_of_mem_splitAt mark text⟩
  · rintro ⟨some_, rfl, absent⟩
    exact splitAt_intercalate some_ absent

/-! ## Trimming -/

/-- Trimming leaves out blanks only. -/
theorem mem_of_mem_trim_or_blank {c : Char} (mem : c ∈ text) : c ∈ trim text ∨ isBlank c = true := by
  have start : ∀ {list : List Char}, c ∈ list → c ∈ list.dropWhile isBlank ∨ isBlank c = true := by
    intro list here
    rw [← List.takeWhile_append_dropWhile (p := isBlank) (l := list), List.mem_append] at here
    exact here.symm.imp_right List.mem_takeWhile_imp
  rcases start mem with kept | blank
  · rcases start (List.mem_reverse.mpr kept) with kept | blank
    · exact .inl (List.mem_reverse.mpr kept)
    · exact .inr blank
  · exact .inr blank

end Inlay.Text

namespace Inlay

set_option autoImplicit false

open Inlay.Text

/-- A list is mapped when every item is. -/
theorem mapM_eq_ok {ε α β : Type} {f : α → Except ε β} : ∀ {list : List α} {out : List β},
    list.mapM f = .ok out ↔ List.Forall₂ (fun a b => f a = .ok b) list out
  | [], out => by
      rw [List.mapM_nil, List.forall₂_nil_left_iff]
      exact ⟨fun done => (Except.ok.inj done).symm, fun done => done ▸ rfl⟩
  | a :: rest, out => by
      rw [List.mapM_cons, List.forall₂_cons_left_iff]
      constructor
      · intro done
        cases here : f a with
        | error fault => simp [here, bind, Except.bind] at done
        | ok b =>
            cases others : rest.mapM f with
            | error fault => simp [here, others, bind, Except.bind] at done
            | ok more =>
                simp only [here, others, bind, Except.bind, pure, Except.pure, Except.ok.injEq] at done
                exact ⟨b, more, rfl, mapM_eq_ok.mp others, done.symm⟩
      · rintro ⟨b, more, here, others, rfl⟩
        simp [here, mapM_eq_ok.mpr others, bind, Except.bind, pure, Except.pure]

namespace Path

variable {source : List Char} {path : Path} {flaw : Flaw}

/-! ## Paths -/

/-- The text is the path: segments between dots, with blanks around each. -/
def Spells (source : List Char) (path : Path) : Prop :=
  ∃ pieces : List (List Char), pieces ≠ [] ∧ trim source = ['.'].intercalate pieces ∧
    (∀ piece ∈ pieces, '.' ∉ piece) ∧
      List.Forall₂ (fun piece segment => String.ofList (trim piece) = segment ∧ isSegment (trim piece) = true)
        pieces path.segments

theorem readSegment_eq_ok {piece : List Char} {segment : String} : readSegment piece = .ok segment ↔
    String.ofList (trim piece) = segment ∧ isSegment (trim piece) = true := by
  rw [readSegment]
  cases trimmed : trim piece with
  | nil => simp [isSegment]
  | cons c rest => cases isSegment (c :: rest) <;> simp

/-- A path is read from a text that spells it. -/
theorem read?_eq_ok : Path.read? source = .ok path ↔ Spells source path := by
  have pieces : ((splitAt '.' (trim source)).mapM readSegment).map Path.mk = .ok path ↔
      Spells source path := by
    have read : ((splitAt '.' (trim source)).mapM readSegment).map Path.mk = .ok path ↔
        (splitAt '.' (trim source)).mapM readSegment = .ok path.segments := by
      cases (splitAt '.' (trim source)).mapM readSegment with
      | error flaw => simp [Except.map]
      | ok segments =>
          simp only [Except.map, Except.ok.injEq]
          exact ⟨fun same => by rw [← same], fun same => by rw [same]⟩
    rw [read, mapM_eq_ok]
    simp only [readSegment_eq_ok]
    constructor
    · intro all
      obtain ⟨some_, whole, absent⟩ := splitAt_eq_iff.mp (rfl : splitAt '.' (trim source) = _)
      exact ⟨_, some_, whole, absent, all⟩
    · rintro ⟨pieces, some_, whole, absent, all⟩
      rwa [splitAt_eq_iff.mpr ⟨some_, whole, absent⟩]
  rw [read?]
  cases blank : (trim source).isEmpty with
  | false => exact pieces
  | true =>
      -- an empty text is one piece, which is no segment
      rw [← pieces, List.isEmpty_iff.mp blank]
      simp [splitAt, readSegment, trim, trimStart, trimEnd, Except.map, bind, Except.bind]

theorem not_segmentChar_brace {c : Char} (brace : c = '\x7b' ∨ c = '\x7d') :
    Char.isDigit c = false ∧ isHeadChar c = false ∧ isTailChar c = false ∧ isBlank c = false ∧ c ≠ '.' := by
  rcases brace with rfl | rfl <;> decide +kernel

/-- No source of a path holds a brace. -/
theorem Spells.no_brace (spells : Spells source path) {c : Char} (brace : c = '\x7b' ∨ c = '\x7d') : c ∉ source := by
  obtain ⟨pieces, -, whole, -, all⟩ := spells
  obtain ⟨digit, head, tail, blank, dot⟩ := not_segmentChar_brace brace
  have segment : ∀ piece : List Char, isSegment piece = true → c ∉ piece := by
    rintro (_ | ⟨first, rest⟩) ok mem
    · cases mem
    · simp only [isSegment, Bool.or_eq_true, Bool.and_eq_true, List.all_eq_true] at ok
      rcases ok with digits | ⟨heads, tails⟩
      · rw [digits c mem] at digit
        cases digit
      · rcases List.mem_cons.mp mem with rfl | later
        · rw [heads] at head
          cases head
        · rw [tails c later] at tail
          cases tail
  have absent : ∀ (pieces : List (List Char)) (segments : List String), List.Forall₂
      (fun piece segment => String.ofList (trim piece) = segment ∧ isSegment (trim piece) = true) pieces segments →
        c ∉ ['.'].intercalate pieces := by
    intro pieces segments all
    induction all with
    | nil => exact List.not_mem_nil
    | @cons piece _ pieces _ here others ih =>
        have inner : c ∉ piece := by
          intro mem
          rcases mem_of_mem_trim_or_blank mem with kept | isBlank
          · exact segment _ here.2 kept
          · rw [isBlank] at blank
            cases blank
        cases pieces with
        | nil => rwa [List.intercalate_singleton]
        | cons next pieces =>
            rw [List.intercalate_cons_cons, List.append_assoc, List.mem_append, List.mem_append, List.mem_singleton]
            rintro (mem | rfl | mem)
            · exact inner mem
            · exact dot rfl
            · exact ih mem
  intro mem
  rcases mem_of_mem_trim_or_blank mem with kept | isBlank
  · rw [whole] at kept
    exact absent _ _ all kept
  · rw [isBlank] at blank
    cases blank

end Path

namespace Template

open Inlay.Path

/-! ## Texts -/

/-- The part of a literal, unless it is empty. -/
def literalParts (literal : List Char) : List Part :=
  if literal.isEmpty then [] else [.literal (String.ofList literal)]

/-- The text splits into the parts, without a rest. -/
inductive Splits : List Char → List Part → Prop
  | literal {literal : List Char} : ¬ opener <:+: literal → Splits literal (literalParts literal)
  | place {literal body rest : List Char} {path : Path} {parts : List Part} : ¬ opener <:+: literal →
      ¬ closer <:+: body → Spells body path → Splits rest parts →
      Splits (literal ++ opener ++ body ++ closer ++ rest) (literalParts literal ++ .place path :: parts)

theorem unbordered_opener : Unbordered opener := unbordered_of_head (by decide)

theorem unbordered_closer : Unbordered closer := unbordered_of_head List.not_mem_nil

theorem scan_literal {text : List Char} (uncut : cutAt? opener text = none) :
    Chunk.scan text = Chunk.literals text := by
  rw [Chunk.scan]
  split
  · rfl
  · next opened => simp [uncut] at opened

theorem scan_place {text before inside body rest : List Char} (opened : cutAt? opener text = some (before, inside))
    (closed : cutAt? closer inside = some (body, rest)) :
    Chunk.scan text = Chunk.literals before ++ .place body :: Chunk.scan rest := by
  rw [Chunk.scan]
  split
  · next uncut => simp [opened] at uncut
  · next here =>
    cases opened.symm.trans here
    split
    · next unclosed => simp [closed] at unclosed
    · next here' =>
      cases closed.symm.trans here'
      rfl

theorem readPath_eq_ok {source : List Char} {path : Path} :
    Pattern.readPath source = .ok path ↔ Spells source path := by
  rw [← read?_eq_ok, Pattern.readPath]
  cases Path.read? source <;> simp

theorem mapM_literals {text : String} (literal : List Char) (more : List Chunk) :
    (Chunk.literals literal ++ more).mapM (Pattern.readChunk text) =
      (more.mapM (Pattern.readChunk text)).map (literalParts literal ++ ·) := by
  rw [Chunk.literals, literalParts]
  generalize found : more.mapM (Pattern.readChunk text) = parts
  cases literal.isEmpty <;> cases parts <;>
    simp [found, Pattern.readChunk, bind, Except.bind, pure, Except.pure, Except.map]

/-- The chunks of a text can be read exactly if it splits. -/
theorem mapM_scan_eq_ok {whole : String} {text : List Char} {parts : List Part} :
    (Chunk.scan text).mapM (Pattern.readChunk whole) = .ok parts ↔ Splits text parts := by
  constructor
  · fun_induction Chunk.scan text generalizing parts with
    | case1 text uncut =>
        intro done
        rw [← List.append_nil (Chunk.literals text), mapM_literals] at done
        simp only [List.mapM_nil, pure, Except.pure, Except.map, List.append_nil, Except.ok.injEq] at done
        exact done ▸ .literal (not_infix_of_cutAt?_eq_none uncut)
    | case2 text before inside opened unclosed =>
        intro done
        rw [mapM_literals] at done
        cases done
    | case3 text before inside opened body rest closed ih =>
        intro done
        rw [mapM_literals, List.mapM_cons] at done
        cases here : Pattern.readPath body with
        | error fault => simp [Pattern.readChunk, here, bind, Except.bind, Except.map] at done
        | ok path =>
            cases others : (Chunk.scan rest).mapM (Pattern.readChunk whole) with
            | error fault => simp [Pattern.readChunk, here, others, bind, Except.bind, Except.map] at done
            | ok more =>
                simp only [Pattern.readChunk, here, others, bind, Except.bind, Except.map, pure, Except.pure,
                  Except.ok.injEq] at done
                rw [← done, eq_append_of_cutAt? opened, eq_append_of_cutAt? closed, ← List.append_assoc,
                  ← List.append_assoc]
                exact .place (not_infix_of_cutAt? (List.cons_ne_nil _ _) opened)
                  (not_infix_of_cutAt? (List.cons_ne_nil _ _) closed) (readPath_eq_ok.mp here) (ih others)
  · intro splits
    induction splits with
    | @literal literal absent =>
        cases cut : cutAt? opener literal with
        | none =>
            rw [scan_literal cut, ← List.append_nil (Chunk.literals literal), mapM_literals]
            simp [pure, Except.pure, Except.map]
        | some halves => exact absurd (occurs_iff.mp (by rw [occurs, cut]; rfl)) absent
    | @place literal body rest path parts absent inner spells _ ih =>
        have opened : cutAt? opener (literal ++ opener ++ body ++ closer ++ rest) =
            some (literal, body ++ (closer ++ rest)) := by
          simp only [List.append_assoc]
          exact cutAt?_append unbordered_opener (List.cons_ne_nil _ _) _ absent
        have closed := cutAt?_append unbordered_closer (List.cons_ne_nil _ _) rest inner
        rw [scan_place opened closed, mapM_literals, List.mapM_cons, ih]
        simp [Pattern.readChunk, readPath_eq_ok.mpr spells, bind, Except.bind, pure, Except.pure, Except.map]

/-- A pattern is read from a text that splits into its parts. -/
theorem read_eq_ok {text : String} {pattern : Pattern} :
    Pattern.read text = .ok pattern ↔ Splits text.toList pattern.parts := by
  rw [← mapM_scan_eq_ok, Pattern.read]
  cases (Chunk.scan text.toList).mapM (Pattern.readChunk text) with
  | error fault => simp [Except.map]
  | ok parts =>
      simp only [Except.map, Except.ok.injEq]
      exact ⟨fun same => by rw [← same], fun same => by rw [same]⟩

/-- A text can be read if it holds no placeholder or splits. -/
theorem readable_iff {text : String} : (∃ found, Pattern.read? text = .ok found) ↔
    (opener <:+: text.toList → ∃ parts, Splits text.toList parts) := by
  rw [Pattern.read?]
  cases here : hasPlaceholder text with
  | false =>
      have absent : ¬ opener <:+: text.toList := fun holds => by
        rw [hasPlaceholder_iff.mpr holds] at here
        cases here
      simp [absent]
  | true =>
      have holds := hasPlaceholder_iff.mp here
      constructor
      · rintro ⟨found, read⟩ -
        cases whole : Pattern.read text with
        | error fault => simp [whole, Except.map] at read
        | ok pattern => exact ⟨_, read_eq_ok.mp whole⟩
      · intro splits
        obtain ⟨parts, splits⟩ := splits holds
        exact ⟨some ⟨parts⟩, by simp [read_eq_ok.mpr splits, Except.map]⟩

/-! ## Comments -/

/-- A text that splits into one place is a placeholder and nothing else. -/
theorem splits_single {text : List Char} {path : Path} :
    Splits text [.place path] ↔
      ∃ body, text = opener ++ body ++ closer ∧ ¬ closer <:+: body ∧ Spells body path := by
  constructor
  · intro splits
    generalize parts : [Part.place path] = parts at splits
    cases splits with
    | @literal literal _ =>
        rw [literalParts] at parts
        split at parts <;> cases parts
    | @place literal body rest path' more absent inner spells others =>
        cases literal with
        | cons c literal => simp [literalParts] at parts
        | nil =>
            simp only [literalParts, List.isEmpty_nil, if_true, List.nil_append, List.cons.injEq] at parts
            obtain ⟨same, none⟩ := parts
            cases same
            subst none
            generalize empty : ([] : List Part) = more at others
            cases others with
            | literal =>
                cases rest with
                | nil => exact ⟨body, by simp, inner, spells⟩
                | cons c rest => simp [literalParts] at empty
            | place => simp at empty
  · rintro ⟨body, rfl, inner, spells⟩
    have bare : ¬ opener <:+: ([] : List Char) := by decide
    have splits := Splits.place bare inner spells (.literal bare)
    simpa [literalParts] using splits

/-- Read as a text, blanks around it aside, the comment is one placeholder of the path. -/
def Anchors (body : String) (path : Path) : Prop :=
  ∃ pattern, Pattern.read? (String.ofList (trim body.toList)) = .ok (some pattern) ∧ pattern.whole? = some path

/-- Both ways of reading a comment take the same ones for anchors, with the same paths. -/
theorem anchors_iff {body : String} {path : Path} : Anchors body path ↔
    ∃ source, anchorSource? body = some source ∧ Pattern.readPath source = .ok path := by
  simp only [Anchors, anchorSource?_eq_some, readPath_eq_ok, read?_eq_some, read_eq_ok, String.toList_ofList]
  constructor
  · rintro ⟨⟨parts⟩, ⟨-, splits⟩, single⟩
    have one : parts = [.place path] := by
      unfold Pattern.whole? at single
      split at single
      · next here =>
        cases single
        exact here
      · cases single
    rw [one] at splits
    obtain ⟨source, whole, unclosed, spells⟩ := splits_single.mp splits
    refine ⟨source, ⟨whole, unclosed, fun opened => ?_⟩, spells⟩
    exact spells.no_brace (.inl rfl) (opened.subset (by simp [opener]))
  · rintro ⟨source, ⟨whole, unclosed, -⟩, spells⟩
    have splits := splits_single.mpr ⟨source, whole, unclosed, spells⟩
    have holds : opener <:+: trim body.toList := ⟨[], source ++ closer, by rw [whole]; simp⟩
    exact ⟨⟨[.place path]⟩, ⟨holds, splits⟩, rfl⟩

end Template

end Inlay
