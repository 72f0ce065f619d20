/-
# Proofs.Template.Interleaving — texts as literals between placeholders

Reading a text with placeholders loses nothing and makes nothing up (`read?_interleaves`). The
chunks of the scan, written one behind the other, are the text; each part of the pattern says
what its chunk does. No literal is empty or holds a `${`, and no two stand side by side. Parts of
this kind, with the paths in their written form, are again a text, and they are what is read from it
(`Canonical.splits`): what a literal ends with and the `${` behind it cannot make a placeholder of
their own, since the last character of `${` is not its first.

A text with a `${` that gives no pattern fails at the first placeholder of the scan that does not
end or is no path (`Reaches`).
-/
import Inlay.Proofs.Template.Spelling
import Mathlib.Data.List.Chain

namespace Inlay

set_option autoImplicit false

open Inlay.Text Inlay.Path

namespace Template

/-! ## Written parts -/

/-- The stretch of text that is the chunk. -/
def Chunk.written : Chunk → List Char
  | .literal content => content
  | .place body => opener ++ body ++ closer
  | .unclosed rest => opener ++ rest

/-- The part says what the chunk does: a literal its characters, a placeholder its path. -/
inductive Chunk.Reads : Chunk → Part → Prop
  | literal {content : List Char} : Reads (.literal content) (.literal (String.ofList content))
  | place {body : List Char} {path : Path} : Spells body path → Reads (.place body) (.place path)

/-- The written form of a part: a literal as it is, and a path without blanks in a placeholder. -/
def Part.text : Part → String
  | .literal content => content
  | .place path => "$\x7b" ++ path.text ++ "\x7d"

/-- The part is a literal. -/
def Part.IsLiteral (part : Part) : Prop := ∃ content, part = .literal content

end Template

open Inlay.Template

/-- The written form of a pattern. -/
def Pattern.text (pattern : Pattern) : String := String.join (pattern.parts.map Part.text)

namespace Template

variable {text literal body rest left : List Char} {parts : List Part} {part : Part} {path : Path}

theorem flatMap_literals (content : List Char) : (Chunk.literals content).flatMap Chunk.written = content := by
  cases content <;> simp [Chunk.literals, Chunk.written]

/-- The scan of a text loses nothing. -/
theorem flatMap_scan (text : List Char) : (Chunk.scan text).flatMap Chunk.written = text := by
  fun_induction Chunk.scan text with
  | case1 text uncut => exact flatMap_literals text
  | case2 text before inside opened unclosed =>
      rw [List.flatMap_append, flatMap_literals, eq_append_of_cutAt? opened, List.append_assoc]
      simp [Chunk.written]
  | case3 text before inside opened body rest closed ih =>
      rw [List.flatMap_append, flatMap_literals, List.flatMap_cons, ih, eq_append_of_cutAt? opened,
        eq_append_of_cutAt? closed]
      simp [Chunk.written]

theorem readChunk_eq_ok {text : String} {chunk : Chunk} :
    Pattern.readChunk text chunk = .ok part ↔ chunk.Reads part := by
  cases chunk with
  | literal content =>
      constructor
      · intro read
        cases read
        exact .literal
      · rintro ⟨⟩
        rfl
  | unclosed inside =>
      constructor
      · intro read
        cases read
      · rintro ⟨⟩
  | place body =>
      constructor
      · intro read
        cases found : Pattern.readPath body with
        | error fault => simp [Pattern.readChunk, found, Except.map] at read
        | ok path =>
            simp only [Pattern.readChunk, found, Except.map, Except.ok.injEq] at read
            exact read ▸ .place (readPath_eq_ok.mp found)
      · rintro (_ | spells)
        simp [Pattern.readChunk, readPath_eq_ok.mpr spells, Except.map]

/-! ## Parts side by side -/

theorem mem_literalParts : part ∈ literalParts literal ↔ literal ≠ [] ∧ part = .literal (String.ofList literal) := by
  cases literal <;> simp [literalParts]

theorem place_notMem_literalParts : .place path ∉ literalParts literal := fun mem => by
  cases (mem_literalParts.mp mem).2

/-- A literal of a text is not empty and holds no `${`. -/
theorem Splits.literals (splits : Splits text parts) {content : String} (mem : .literal content ∈ parts) :
    content ≠ "" ∧ ¬ opener <:+: content.toList := by
  have solid : ∀ {literal : List Char}, ¬ opener <:+: literal → Part.literal content ∈ literalParts literal →
      content ≠ "" ∧ ¬ opener <:+: content.toList := by
    intro literal absent here
    obtain ⟨some_, same⟩ := mem_literalParts.mp here
    cases same
    rw [String.toList_ofList]
    exact ⟨fun empty => some_ (by simpa using congrArg String.toList empty), absent⟩
  induction splits with
  | literal absent => exact solid absent mem
  | place absent _ _ _ ih =>
      rcases List.mem_append.mp mem with here | later
      · exact solid absent here
      · rcases List.mem_cons.mp later with same | later
        · cases same
        · exact ih later

/-- Of two parts side by side one is a placeholder. -/
theorem Splits.apart (splits : Splits text parts) : parts.IsChain fun a b => ¬ (a.IsLiteral ∧ b.IsLiteral) := by
  have placed : ∀ path : Path, ¬ (Part.place path).IsLiteral := by
    rintro path ⟨content, same⟩
    cases same
  induction splits with
  | @literal literal absent => cases literal <;> simp [literalParts]
  | @place literal body rest path parts absent _ _ _ ih =>
      have behind : (Part.place path :: parts).IsChain fun a b => ¬ (a.IsLiteral ∧ b.IsLiteral) :=
        List.isChain_cons.mpr ⟨fun part _ both => placed path both.1, ih⟩
      cases literal with
      | nil => exact behind
      | cons c literal =>
          refine List.isChain_cons.mpr ⟨fun part first both => ?_, behind⟩
          cases first
          exact placed path both.2

/-- A text holds a `${` exactly if a placeholder is among its parts. -/
theorem Splits.holds_iff (splits : Splits text parts) : opener <:+: text ↔ ∃ path, .place path ∈ parts := by
  cases splits with
  | literal absent =>
      exact ⟨fun holds => absurd holds absent, fun ⟨_, mem⟩ => absurd mem place_notMem_literalParts⟩
  | @place literal body rest path parts =>
      refine ⟨fun _ => ⟨path, List.mem_append_right _ List.mem_cons_self⟩, fun _ => ?_⟩
      exact ⟨literal, body ++ closer ++ rest, by simp only [List.append_assoc]⟩

/-- Parts as they come out of a text: the literals are solid and apart, and the paths can be written. -/
structure Canonical (parts : List Part) : Prop where
  literals : ∀ content, .literal content ∈ parts → content ≠ "" ∧ ¬ opener <:+: content.toList
  apart : parts.IsChain fun a b => ¬ (a.IsLiteral ∧ b.IsLiteral)
  paths : ∀ path, .place path ∈ parts → path.Valid

theorem Splits.canonical (splits : Splits text parts) : Canonical parts := by
  refine ⟨fun _ => splits.literals, splits.apart, fun path mem => ?_⟩
  induction splits with
  | literal => exact absurd mem place_notMem_literalParts
  | place _ _ spells _ ih =>
      rcases List.mem_append.mp mem with here | later
      · exact absurd here place_notMem_literalParts
      · rcases List.mem_cons.mp later with same | later
        · cases same
          exact spells.valid
        · exact ih later

theorem Canonical.tail (canonical : Canonical (part :: parts)) : Canonical parts :=
  ⟨fun content mem => canonical.literals content (List.mem_cons_of_mem _ mem), canonical.apart.of_cons,
    fun path mem => canonical.paths path (List.mem_cons_of_mem _ mem)⟩

theorem literalParts_toList {content : String} (some_ : content ≠ "") : literalParts content.toList = [.literal content] := by
  simp [literalParts, some_]

/-- A literal and a placeholder in front of a text of parts. -/
theorem Splits.cons_place (valid : path.Valid) (absent : ¬ opener <:+: literal) (splits : Splits rest parts) :
    Splits (literal ++ (Part.place path).text.toList ++ rest) (literalParts literal ++ .place path :: parts) := by
  have shape : literal ++ (Part.place path).text.toList ++ rest =
      literal ++ opener ++ path.text.toList ++ closer ++ rest := by
    simp [Part.text, opener, closer]
  rw [shape]
  exact .place absent valid.unclosed valid.spells_text splits

/-- Canonical parts in their written form are a text of just these parts: no literal makes a
placeholder together with what stands next to it. -/
theorem Canonical.splits : ∀ {parts : List Part}, Canonical parts →
    Splits (parts.flatMap fun part => part.text.toList) parts
  | [], _ => .literal (by decide : ¬ opener <:+: ([] : List Char))
  | .place path :: rest, canonical =>
      .cons_place (canonical.paths path List.mem_cons_self) (by decide : ¬ opener <:+: ([] : List Char))
        canonical.tail.splits
  | .literal content :: [], canonical => by
      obtain ⟨some_, absent⟩ := canonical.literals content List.mem_cons_self
      simpa [Part.text, literalParts_toList some_] using Splits.literal absent
  | .literal content :: .place path :: rest, canonical => by
      obtain ⟨some_, absent⟩ := canonical.literals content List.mem_cons_self
      have valid := canonical.tail.paths path List.mem_cons_self
      have whole := canonical.tail.tail.splits.cons_place valid absent
      rw [literalParts_toList some_] at whole
      simpa [Part.text] using whole
  | .literal content :: .literal next :: rest, canonical =>
      absurd ⟨⟨content, rfl⟩, ⟨next, rfl⟩⟩ (List.isChain_cons_cons.mp canonical.apart).1

/-! ## Texts that cannot be read -/

/-- Behind some placeholders of the text, all of them paths, the scan comes to what is left. -/
inductive Reaches : List Char → List Char → Prop
  | start {text : List Char} : Reaches text text
  | next {literal body rest left : List Char} {path : Path} : ¬ opener <:+: literal → ¬ closer <:+: body →
      Spells body path → Reaches rest left → Reaches (literal ++ opener ++ body ++ closer ++ rest) left

/-- The scan comes to a `${` without a `}` behind it. -/
def Unterminated (text : List Char) : Prop :=
  ∃ literal inside, Reaches text (literal ++ opener ++ inside) ∧ ¬ opener <:+: literal ∧ ¬ closer <:+: inside

/-- The scan comes to a placeholder with a source that is no path. -/
def Misspelt (text body : List Char) : Prop :=
  ∃ literal rest, Reaches text (literal ++ opener ++ body ++ closer ++ rest) ∧ ¬ opener <:+: literal ∧
    ¬ closer <:+: body ∧ ¬ ∃ path, Spells body path

/-- The fault of a text that the scan cannot go through; `whole` is what is quoted. -/
def Stuck (whole : String) (text : List Char) (fault : Fault) : Prop :=
  (Unterminated text ∧ fault = .openPlaceholder whole) ∨
    ∃ body flaw, Misspelt text body ∧ Path.read? body = .error flaw ∧ fault = .badPath (String.ofList body) flaw

variable {whole : String} {fault : Fault} {inside : List Char}

theorem Stuck.next (absent : ¬ opener <:+: literal) (unclosed : ¬ closer <:+: body) (spells : Spells body path)
    (stuck : Stuck whole rest fault) : Stuck whole (literal ++ opener ++ body ++ closer ++ rest) fault := by
  rcases stuck with ⟨⟨before, inside, reaches, open_⟩, rfl⟩ | ⟨bad, flaw, ⟨before, after, reaches, closed⟩, same⟩
  · exact .inl ⟨⟨before, inside, .next absent unclosed spells reaches, open_⟩, rfl⟩
  · exact .inr ⟨bad, flaw, ⟨before, after, .next absent unclosed spells reaches, closed⟩, same⟩

theorem readPath_eq_error : Pattern.readPath body = .error fault ↔
    ∃ flaw, Path.read? body = .error flaw ∧ fault = .badPath (String.ofList body) flaw := by
  rw [Pattern.readPath]
  cases Path.read? body <;> simp [eq_comm]

theorem no_path_of_error {flaw : Flaw} (failed : Path.read? body = .error flaw) : ¬ ∃ path, Spells body path := by
  rintro ⟨path, spells⟩
  rw [read?_eq_ok.mpr spells] at failed
  cases failed

theorem scan_unclosed (absent : ¬ opener <:+: literal) (unclosed : ¬ closer <:+: inside) :
    Chunk.scan (literal ++ opener ++ inside) = Chunk.literals literal ++ [.unclosed inside] := by
  have opened : cutAt? opener (literal ++ opener ++ inside) = some (literal, inside) := by
    rw [List.append_assoc]
    exact cutAt?_append unbordered_opener (List.cons_ne_nil _ _) inside absent
  have open_ : cutAt? closer inside = none := by
    cases cut : cutAt? closer inside with
    | none => rfl
    | some halves => exact absurd (occurs_iff.mp (by rw [occurs, cut]; rfl)) unclosed
  rw [Chunk.scan]
  split
  · next uncut => cases opened.symm.trans uncut
  · next here =>
    cases opened.symm.trans here
    split
    · rfl
    · next closed => cases open_.symm.trans closed

theorem scan_closed (absent : ¬ opener <:+: literal) (unclosed : ¬ closer <:+: body) (rest : List Char) :
    Chunk.scan (literal ++ opener ++ body ++ closer ++ rest) =
      Chunk.literals literal ++ .place body :: Chunk.scan rest := by
  simp only [List.append_assoc]
  exact scan_place (cutAt?_append unbordered_opener (List.cons_ne_nil _ _) _ absent)
    (cutAt?_append unbordered_closer (List.cons_ne_nil _ _) rest unclosed)

/-- What the scan comes to fails, and so does the text. -/
theorem Reaches.error (reaches : Reaches text left)
    (failed : (Chunk.scan left).mapM (Pattern.readChunk whole) = .error fault) :
    (Chunk.scan text).mapM (Pattern.readChunk whole) = .error fault := by
  induction reaches with
  | start => exact failed
  | next absent unclosed spells _ ih =>
      rw [scan_closed absent unclosed, mapM_literals, List.mapM_cons, ih failed]
      simp [Pattern.readChunk, readPath_eq_ok.mpr spells, bind, Except.bind, Except.map]

theorem mapM_scan_eq_error :
    (Chunk.scan text).mapM (Pattern.readChunk whole) = .error fault ↔ Stuck whole text fault := by
  constructor
  · fun_induction Chunk.scan text with
    | case1 text uncut =>
        intro failed
        rw [← List.append_nil (Chunk.literals text), mapM_literals] at failed
        cases failed
    | case2 text before inside opened unclosed =>
        intro failed
        rw [mapM_literals] at failed
        cases failed
        refine .inl ⟨⟨before, inside, ?_, not_infix_of_cutAt? (List.cons_ne_nil _ _) opened,
          not_infix_of_cutAt?_eq_none unclosed⟩, rfl⟩
        rw [eq_append_of_cutAt? opened]
        exact .start
    | case3 text before inside opened body rest closed ih =>
        intro failed
        have absent := not_infix_of_cutAt? (List.cons_ne_nil _ _) opened
        have unclosed := not_infix_of_cutAt? (List.cons_ne_nil _ _) closed
        have split : text = before ++ opener ++ body ++ closer ++ rest := by
          rw [eq_append_of_cutAt? opened, eq_append_of_cutAt? closed]
          simp only [List.append_assoc]
        rw [mapM_literals, List.mapM_cons] at failed
        rw [split]
        cases here : Pattern.readPath body with
        | ok path =>
            refine .next absent unclosed (readPath_eq_ok.mp here) (ih ?_)
            cases others : (Chunk.scan rest).mapM (Pattern.readChunk whole) with
            | error other => simpa [Pattern.readChunk, here, others, bind, Except.bind, Except.map] using failed
            | ok parts => simp [Pattern.readChunk, here, others, bind, Except.bind, Except.map, pure, Except.pure] at failed
        | error other =>
            simp only [Pattern.readChunk, here, bind, Except.bind, Except.map, Except.error.injEq] at failed
            obtain ⟨flaw, read, same⟩ := readPath_eq_error.mp here
            exact .inr ⟨body, flaw, ⟨before, rest, .start, absent, unclosed, no_path_of_error read⟩, read,
              failed ▸ same⟩
  · rintro (⟨⟨literal, inside, reaches, absent, unclosed⟩, rfl⟩ |
      ⟨body, flaw, ⟨literal, rest, reaches, absent, unclosed, -⟩, read, rfl⟩)
    · refine reaches.error ?_
      rw [scan_unclosed absent unclosed, mapM_literals]
      rfl
    · refine reaches.error ?_
      rw [scan_closed absent unclosed, mapM_literals, List.mapM_cons]
      simp [Pattern.readChunk, readPath_eq_error.mpr ⟨flaw, read, rfl⟩, bind, Except.bind, Except.map]

theorem Stuck.holds (stuck : Stuck whole text fault) : opener <:+: text := by
  have reached : ∀ {text left : List Char}, Reaches text left → opener <:+: left → opener <:+: text := by
    intro text left reaches holds
    cases reaches with
    | start => exact holds
    | @next literal body rest _ _ =>
        exact ⟨literal, body ++ closer ++ rest, by simp only [List.append_assoc]⟩
  rcases stuck with ⟨⟨literal, inside, reaches, -⟩, -⟩ | ⟨body, -, ⟨literal, rest, reaches, -⟩, -⟩
  · exact reached reaches ⟨literal, inside, rfl⟩
  · exact reached reaches ⟨literal, body ++ closer ++ rest, by simp only [List.append_assoc]⟩

/-- A text gives a fault if the scan cannot go through it. -/
theorem read?_eq_error {text : String} : Pattern.read? text = .error fault ↔ Stuck text text.toList fault := by
  have read : Pattern.read text = .error fault ↔ Stuck text text.toList fault := by
    rw [← mapM_scan_eq_error, Pattern.read]
    cases (Chunk.scan text.toList).mapM (Pattern.readChunk text) <;> simp [Except.map]
  rw [Pattern.read?]
  cases here : hasPlaceholder text with
  | true =>
      rw [if_pos rfl, ← read]
      cases Pattern.read text <;> simp [Except.map]
  | false =>
      refine ⟨(by rintro ⟨⟩), fun stuck => ?_⟩
      rw [hasPlaceholder_iff.mpr stuck.holds] at here
      cases here

/-! ## All of it -/

theorem toList_text (pattern : Pattern) : pattern.text.toList = pattern.parts.flatMap fun part => part.text.toList := by
  rw [Pattern.text, String.toList_join, List.flatMap_map]

/-- Canonical parts with a placeholder are read from their written form. -/
theorem Canonical.read? {pattern : Pattern} (canonical : Canonical pattern.parts)
    (placed : ∃ path, .place path ∈ pattern.parts) : Pattern.read? pattern.text = .ok (some pattern) := by
  have splits := canonical.splits
  rw [← toList_text] at splits
  exact read?_eq_some.mpr ⟨splits.holds_iff.mpr placed, read_eq_ok.mpr splits⟩

/-- The pattern is the text, cut at its placeholders. -/
structure Interleaves (text : String) (pattern : Pattern) : Prop where
  canonical : Canonical pattern.parts
  /-- Chunk by chunk the parts are the text as it stands. -/
  reads : List.Forall₂ Chunk.Reads (Chunk.scan text.toList) pattern.parts
  whole : String.ofList ((Chunk.scan text.toList).flatMap Chunk.written) = text
  again : Pattern.read? pattern.text = .ok (some pattern)
  renders : ∀ found, Pattern.read? pattern.text = .ok (some found) → ∀ {α : Type} (context : ValueOf α),
    found.render context = pattern.render context

theorem interleaves_of_read? {text : String} {pattern : Pattern} (read : Pattern.read? text = .ok (some pattern)) :
    Interleaves text pattern := by
  obtain ⟨holds, whole⟩ := read?_eq_some.mp read
  have splits := read_eq_ok.mp whole
  have again := splits.canonical.read? (splits.holds_iff.mp holds)
  refine ⟨splits.canonical, ?_, ?_, again, fun found read' α context => ?_⟩
  · have done : (Chunk.scan text.toList).mapM (Pattern.readChunk text) = .ok pattern.parts := mapM_scan_eq_ok.mpr splits
    exact (mapM_eq_ok.mp done).imp fun _ _ => readChunk_eq_ok.mp
  · rw [flatMap_scan, String.ofList_toList]
  · cases again.symm.trans read'
    rfl

theorem read?_eq_none_iff {text : String} : Pattern.read? text = .ok none ↔ ¬ opener <:+: text.toList := by
  refine ⟨read?_eq_none, fun absent => ?_⟩
  rw [Pattern.read?, if_neg (mt hasPlaceholder_iff.mp absent)]

/-- A text without `${` is no pattern. A pattern that is read is the text cut at its placeholders,
and is read again from its written form. A text with `${` that cannot be read has a placeholder that
does not end or is no path, and no such text can be read. -/
theorem read?_interleaves (text : String) :
    (Pattern.read? text = .ok none ↔ ¬ opener <:+: text.toList) ∧
    (∀ pattern, Pattern.read? text = .ok (some pattern) → Interleaves text pattern) ∧
    ∀ fault, Pattern.read? text = .error fault ↔
      (Unterminated text.toList ∧ fault = .openPlaceholder text) ∨
        ∃ body flaw, Misspelt text.toList body ∧ Path.read? body = .error flaw ∧
          fault = .badPath (String.ofList body) flaw :=
  ⟨read?_eq_none_iff, fun _ => interleaves_of_read?, fun _ => read?_eq_error⟩

/-- A `$` in front of a placeholder stays what it is, and so do braces behind it. -/
theorem read?_interleaves_braces :
    Pattern.read? "a$$\x7b x . y \x7d\x7d\x7b" =
      .ok (some ⟨[.literal "a$", .place ⟨["x", "y"]⟩, .literal "\x7d\x7b"]⟩) ∧
    Interleaves "a$$\x7b x . y \x7d\x7d\x7b" ⟨[.literal "a$", .place ⟨["x", "y"]⟩, .literal "\x7d\x7b"]⟩ ∧
    Pattern.text ⟨[.literal "a$", .place ⟨["x", "y"]⟩, .literal "\x7d\x7b"]⟩ = "a$$\x7bx.y\x7d\x7d\x7b" ∧
    Unterminated "$\x7bx\x7d$\x7by".toList := by
  have read : Pattern.read? "a$$\x7b x . y \x7d\x7d\x7b" =
      .ok (some ⟨[.literal "a$", .place ⟨["x", "y"]⟩, .literal "\x7d\x7b"]⟩) := by decide +kernel
  have failed : Pattern.read? "$\x7bx\x7d$\x7by" = .error (.openPlaceholder "$\x7bx\x7d$\x7by") := by decide +kernel
  refine ⟨read, (read?_interleaves _).2.1 _ read, by decide, ?_⟩
  obtain ⟨unterminated, -⟩ | ⟨_, _, -, -, same⟩ := ((read?_interleaves _).2.2 _).mp failed
  · exact unterminated
  · cases same

end Template

end Inlay
