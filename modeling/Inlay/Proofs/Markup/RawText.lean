/-
# Proofs.Markup.RawText — where raw content ends

A raw element is complete behind its opening tag: its content goes up to the first `</` with
the tag in any case of its letters, whatever comes next, and its closing tag up to the next
`>`. What follows is read as if it stood alone (`forest?_raw_iff`), because positions do not
matter for pieces (`Reading.readFrom_congr`) and a finished tree only comes in front of the
trees that are built later (`Growth.finish_behind`).

So a content between the two tags comes back whole exactly when it does not hold `</` and the
tag (`parse_raw`); else it is cut short at a `<`, and decoding cannot hide that, because no
reference reaches over a `<` (`decode_append_less`).
-/
import Inlay.Proofs.Markup.Canonical
import Inlay.Proofs.Markup.Decoding

namespace Inlay.Markup

set_option autoImplicit false

open Inlay.Text

variable {tag : String} {text content rest : List Char} {trees : List Tree}

/-! ## Trees in front of all others -/

namespace Growth

/-- Open elements with more trees in front of the outermost. -/
def openedBehind (front : List Tree) : List OpenElement → List OpenElement
  | [] => []
  | [element] => [{ element with before := element.before ++ front.reverse }]
  | element :: next :: outer => element :: openedBehind front (next :: outer)

/-- The growth with more trees in front of all that it has. -/
def behind (front : List Tree) : Growth → Growth
  | ⟨[], children, gathered⟩ => ⟨[], children ++ front.reverse, gathered⟩
  | ⟨element :: outer, children, gathered⟩ => ⟨openedBehind front (element :: outer), children, gathered⟩

variable {front : List Tree} {growth : Growth}

theorem map_tag_openedBehind (front : List Tree) : ∀ opened : List OpenElement,
    (openedBehind front opened).map (·.tag) = opened.map (·.tag)
  | [] => rfl
  | [_] => rfl
  | element :: next :: outer => congrArg (element.tag :: ·) (map_tag_openedBehind front (next :: outer))

@[simp] theorem behind_gathered : (growth.behind front).gathered = growth.gathered := by
  obtain ⟨_ | _, _, _⟩ := growth <;> rfl

@[simp] theorem behind_tags : (growth.behind front).opened.map (·.tag) = growth.opened.map (·.tag) := by
  obtain ⟨_ | _, _, _⟩ := growth
  · rfl
  · exact map_tag_openedBehind front _

theorem flush_behind : (growth.behind front).flush = growth.flush.behind front := by
  unfold flush
  rw [behind_gathered]
  split
  · rfl
  · obtain ⟨_ | _, _, _⟩ := growth <;> rfl

theorem add_behind (tree : Tree) : (growth.behind front).add tree = (growth.add tree).behind front := by
  rw [add, flush_behind, add]
  obtain ⟨_ | _, _, _⟩ := growth.flush <;> rfl

theorem close_behind : ∀ (count : Nat) (growth : Growth),
    (growth.behind front).close count = (growth.close count).behind front
  | 0, _ => rfl
  | _ + 1, ⟨[], _, _⟩ => rfl
  | count + 1, ⟨[element], children, gathered⟩ => close_behind count
      ⟨[], .element element.tag element.attributes children.reverse :: element.before, gathered⟩
  | count + 1, ⟨element :: next :: outer, children, gathered⟩ => close_behind count
      ⟨next :: outer, .element element.tag element.attributes children.reverse :: element.before, gathered⟩

theorem findIdx?_behind (tag : String) :
    (growth.behind front).opened.findIdx? (·.tag = tag) = growth.opened.findIdx? (·.tag = tag) := by
  have found : ∀ opened : List OpenElement,
      opened.findIdx? (·.tag = tag) = (opened.map (·.tag)).findIdx? (· = tag) := by
    intro opened
    rw [List.findIdx?_map]
    rfl
  rw [found, found, behind_tags]

theorem step_behind (piece : Piece) : (growth.behind front).step piece = (growth.step piece).behind front := by
  cases piece with
  | text content => obtain ⟨_ | _, _, _⟩ := growth <;> rfl
  | comment | empty | raw => exact add_behind _
  | opening tag attributes =>
      simp only [step, flush_behind]
      obtain ⟨_ | _, _, _⟩ := growth.flush <;> rfl
  | closing tag =>
      simp only [step, flush_behind, findIdx?_behind]
      split
      · exact close_behind _ _
      · rfl

theorem foldl_behind (pieces : List Piece) :
    pieces.foldl step (growth.behind front) = (pieces.foldl step growth).behind front := by
  induction pieces generalizing growth with
  | nil => rfl
  | cons piece rest ih => rw [List.foldl_cons, step_behind, ih, List.foldl_cons]

theorem rawChildren_inj {one other : String} (same : rawChildren one = rawChildren other) : one = other := by
  unfold rawChildren at same
  split at same <;> split at same <;> simp_all

theorem opened_close : ∀ (count : Nat) (growth : Growth), (growth.close count).opened = growth.opened.drop count
  | 0, _ => rfl
  | _ + 1, ⟨[], _, _⟩ => rfl
  | count + 1, ⟨_ :: _, _, _⟩ => opened_close count _

theorem finish_behind : (growth.behind front).finish = front ++ growth.finish := by
  have count : (growth.flush.behind front).opened.length = growth.flush.opened.length := by
    rw [← List.length_map (·.tag), behind_tags, List.length_map]
  have ended := opened_close growth.flush.opened.length growth.flush
  rw [List.drop_length] at ended
  rw [finish, flush_behind, count, close_behind, finish]
  generalize growth.flush.close growth.flush.opened.length = closed at ended
  obtain ⟨opened, children, gathered⟩ := closed
  subst ended
  simp [behind]

end Growth

/-- What is complete where it stands comes in front of what follows it. -/
theorem forestOf_raw (tag : String) (attributes : List Attribute) (content : String) (pieces : List Piece) :
    forestOf (.raw tag attributes content :: pieces) =
      .element tag attributes (Growth.rawChildren content) :: forestOf pieces := by
  have first : Growth.start.step (.raw tag attributes content) =
      Growth.start.behind [.element tag attributes (Growth.rawChildren content)] := rfl
  rw [forestOf, List.foldl_cons, first, Growth.foldl_behind, Growth.finish_behind]
  rfl

/-! ## Positions -/

/-- Where a tag stands does not matter for what it says. -/
theorem OpenTag.readFrom_congr {size start : Nat} {tag : String} {pending : Option String} {attributes : List Attribute}
    {input : List Char} {opened : OpenTag} (size' start' : Nat)
    (done : readFrom size start tag pending attributes input = .ok opened) :
    readFrom size' start' tag pending attributes input = .ok opened := by
  fun_induction readFrom size start tag pending attributes input with
  | case1 => cases done
  | case2 _ _ _ _ found => exact (readFrom_of_finish found).trans done
  | case3 _ _ _ _ found => exact (readFrom_of_selfFinish found).trans done
  | case4 _ _ _ _ found ih => exact (readFrom_of_slash found).trans (ih done)
  | case5 _ _ _ _ _ found ih => exact (readFrom_of_word found).trans (ih done)
  | case6 => cases done
  | case7 => cases done
  | case8 _ _ _ found _ _ _ valued ih => exact (readFrom_of_value found valued).trans (ih done)
  | case9 => cases done
  | case10 => cases done

theorem OpenTag.read_congr {size start : Nat} {input : List Char} {opened : OpenTag} (size' start' : Nat)
    (done : read size start tag input = .ok opened) : read size' start' tag input = .ok opened :=
  readFrom_congr size' start' done

namespace Reading

variable {input : List Char} {size : Nat}

theorem readFrom_of_less (found : Token.next? input = some (.less, rest)) :
    readFrom size input = (readFrom size rest).behind [.text "<"] := by
  rw [readFrom]
  split <;> simp_all [push, behind]

theorem readFrom_of_declaration (found : Token.next? input = some (.declaration, rest)) :
    readFrom size input = readFrom size rest := by
  rw [readFrom]
  split <;> simp_all

theorem readFrom_of_broken {slice : List Char} (found : Token.next? input = some (.broken slice, rest)) :
    readFrom size input = ⟨[], some (brokenFault (size - bytes input) slice)⟩ := by
  rw [readFrom]
  split <;> simp_all

theorem readFrom_of_refused {name : List Char} {fault : Fault} (found : Token.next? input = some (.opening name, rest))
    (refused : OpenTag.read size (size - bytes input) (String.ofList (lower name)) rest = .error fault) :
    readFrom size input = ⟨[], some fault⟩ := by
  rw [readFrom]
  split <;> simp_all
  split <;> simp_all

/-- Where a text stands does not matter for its pieces, nor for whether it has a fault. -/
theorem readFrom_congr (size size' : Nat) (input : List Char) :
    (readFrom size input).pieces = (readFrom size' input).pieces ∧
      ((readFrom size input).fault = none ↔ (readFrom size' input).fault = none) := by
  have behind_congr : ∀ {one other : Reading} (front : List Piece),
      one.pieces = other.pieces ∧ (one.fault = none ↔ other.fault = none) →
      (one.behind front).pieces = (other.behind front).pieces ∧
        ((one.behind front).fault = none ↔ (other.behind front).fault = none) := by
    intro one other front ⟨pieces, faults⟩
    exact ⟨congrArg (front ++ ·) pieces, faults⟩
  fun_induction readFrom size input with
  | case1 input found =>
      have none : readFrom size' input = ⟨[], none⟩ := by
        rw [readFrom]
        split <;> simp_all
      simp [none]
  | case2 _ _ _ found ih =>
      rw [readFrom_of_text found]
      exact behind_congr [_] ih
  | case3 _ _ found ih =>
      rw [readFrom_of_less found]
      exact behind_congr [_] ih
  | case4 _ _ found ih =>
      rw [readFrom_of_declaration found]
      exact ih
  | case5 _ _ _ found ih =>
      rw [readFrom_of_comment found]
      exact behind_congr [_] ih
  | case6 _ _ _ found ih =>
      rw [readFrom_of_closing found]
      exact behind_congr [_] ih
  | case7 _ _ _ _ found => simp [readFrom_of_broken found]
  | case8 input _ _ rest found tag _ refused =>
      cases again : OpenTag.read size' (size' - bytes input) tag rest with
      | error => simp [readFrom_of_refused found again]
      | ok =>
          rw [OpenTag.read_congr _ _ again] at refused
          cases refused
  | case9 _ _ _ _ found _ _ read ih =>
      rw [readFrom_of_opening found fun start => OpenTag.read_congr _ start read]
      exact behind_congr [_] ih

end Reading

/-! ## Raw elements -/

theorem tagName_of_isRaw (raw : isRaw tag = true) : TagName tag ∧ isVoid tag = false := by
  have each : ∀ tag ∈ rawTags, TagName tag ∧ isVoid tag = false := by decide
  exact each tag (List.contains_iff_mem.mp raw)

theorem forest?_eq_ok_iff {source : String} :
    forest? source = .ok trees ↔ (Reading.ofSource source).fault = none ∧ forestOf (Reading.ofSource source).pieces = trees := by
  simp only [forest?]
  cases (Reading.ofSource source).fault with
  | none => simp
  | some fault => simp

/-- A raw element is complete behind its opening tag, and what follows it is read as if it stood
alone. -/
theorem forest?_raw_iff (raw : isRaw tag = true) (text : String) :
    forest? ("<" ++ tag ++ ">" ++ text) = .ok trees ↔
      ∃ others, forest? (String.ofList (rawContent tag text.toList).2) = .ok others ∧
        trees = .element tag [] (Growth.rawChildren (rawText tag (rawContent tag text.toList).1)) :: others := by
  obtain ⟨name, notVoid⟩ := tagName_of_isRaw raw
  generalize size : ("<" ++ tag ++ ">" ++ text).utf8ByteSize = n
  have written : ("<" ++ tag ++ ">" ++ text).toList =
      '<' :: (tag.toList ++ ((Tree.writeAttributes []).toList ++ '>' :: text.toList)) := by
    simp [Tree.writeAttributes]
  have complete : Reading.ofOpenTag tag ⟨[], false, text.toList⟩ =
      (.raw tag [] (rawText tag (rawContent tag text.toList).1), (rawContent tag text.toList).2) := by
    simp [Reading.ofOpenTag, notVoid, raw]
  have distinct : DistinctNames [] := List.nodup_nil
  have read : Reading.readFrom n ("<" ++ tag ++ ">" ++ text).toList =
      (Reading.readFrom n (rawContent tag text.toList).2).behind
        [.raw tag [] (rawText tag (rawContent tag text.toList).1)] := by
    rw [written, readFrom_openTag name (by simp) distinct text.toList, complete]
  obtain ⟨pieces, faults⟩ := Reading.readFrom_congr n (String.ofList (rawContent tag text.toList).2).utf8ByteSize
    (rawContent tag text.toList).2
  simp only [forest?_eq_ok_iff, Reading.ofSource, size, read, Reading.behind, List.singleton_append, forestOf_raw,
    String.toList_ofList, pieces, faults]
  constructor
  · rintro ⟨none, rfl⟩
    exact ⟨_, ⟨none, rfl⟩, rfl⟩
  · rintro ⟨_, ⟨none, rfl⟩, rfl⟩
    exact ⟨none, rfl⟩

theorem eq_less_of_toLower {c : Char} (lowered : c.toLower = '<') : c = '<' := by
  have mem : '<' ∈ lower [c] := by simp [lower, lowered]
  exact (List.mem_singleton.mp (less_mem_of_lower mem)).symm

/-- Raw content is all there is, or a `<` stands behind it. -/
theorem rawContent_split (tag : String) (input : List Char) :
    (rawContent tag input).1 = input ∨ ∃ behind, input = (rawContent tag input).1 ++ '<' :: behind := by
  unfold rawContent
  split
  · next before after cut =>
    right
    have whole := eq_append_of_cutAt? cut
    have behind : (input.drop before.length).map Char.toLower = '<' :: '/' :: (tag.toList ++ after) := by
      rw [List.map_drop]
      change (lower input).drop before.length = _
      rw [whole, List.append_assoc, List.drop_left]
      rfl
    obtain ⟨c, tail, dropped, lowered, -⟩ := List.map_eq_cons_iff.mp behind
    rw [eq_less_of_toLower lowered] at dropped
    exact ⟨tail, by rw [← dropped, List.take_append_drop]⟩
  · exact .inl rfl

/-- Content that holds what closes it is cut short at a `<`. -/
theorem rawContent_cut (holds : '<' :: '/' :: tag.toList <:+: lower content) (more : List Char) :
    ∃ behind, content = (rawContent tag (content ++ more)).1 ++ '<' :: behind := by
  have unclosed := rawContent_unclosed tag (content ++ more)
  have short : ¬ content <+: (rawContent tag (content ++ more)).1 := by
    rintro ⟨tail, same⟩
    rw [← same, lower, List.map_append] at unclosed
    exact unclosed (holds.trans (List.prefix_append _ _).isInfix)
  rcases rawContent_split tag (content ++ more) with whole | ⟨behind, split⟩
  · refine absurd ?_ short
    rw [whole]
    exact List.prefix_append _ _
  · rcases List.append_eq_append_iff.mp split with ⟨tail, same, -⟩ | ⟨tail, same, less⟩
    · exact absurd ⟨tail, same.symm⟩ short
    · cases tail with
      | nil => exact absurd ⟨[], by simpa using same⟩ short
      | cons c tail =>
          obtain ⟨rfl, -⟩ := List.cons.inj less
          exact ⟨tail, same⟩

/-! ## References do not reach over a `<` -/

theorem Refers.of_append_less {c : Char} {front behind : List Char}
    (refers : Refers (Denotes Signed) (front ++ '<' :: behind) c rest) :
    ∃ rest', Refers (Denotes Signed) front c rest' := by
  obtain ⟨body, same, ends, short, denotes⟩ := refers
  have less : '<' ∉ body := fun mem => absurd (denotes.mem_bodyChars mem) (by decide)
  cases front with
  | nil => cases same
  | cons mark front =>
      rw [List.cons_append] at same
      obtain ⟨rfl, tails⟩ := List.cons.inj same
      rcases List.append_eq_append_iff.mp tails with ⟨tail, rfl, split⟩ | ⟨tail, rfl, split⟩
      · cases tail with
        | nil => cases split
        | cons x tail =>
            obtain ⟨rfl, -⟩ := List.cons.inj split
            exact absurd (by simp) less
      · cases tail with
        | nil => cases split
        | cons x tail =>
            obtain ⟨rfl, -⟩ := List.cons.inj split
            exact ⟨tail, body, rfl, ends, short, denotes⟩

theorem Replaced.append_less {front out behind out' : List Char} (first : Replaced (Denotes Signed) front out)
    (later : Replaced (Denotes Signed) behind out') :
    Replaced (Denotes Signed) (front ++ '<' :: behind) (out ++ '<' :: out') := by
  induction first with
  | nil =>
      refine .verbatim (fun r rest refers => ?_) later
      obtain ⟨_, same, -⟩ := refers
      cases same
  | reference refers _ ih =>
      obtain ⟨body, rfl, ends, short, denotes⟩ := refers
      exact .reference ⟨body, by simp, ends, short, denotes⟩ ih
  | @verbatim text out c none _ ih =>
      refine .verbatim (fun r rest refers => ?_) ih
      have whole : Refers (Denotes Signed) (c :: text ++ '<' :: behind) r rest := refers
      obtain ⟨rest', refers⟩ := whole.of_append_less
      exact none r rest' refers

theorem decode_append_less (front behind : List Char) :
    decode (front ++ '<' :: behind) = decode front ++ '<' :: decode behind :=
  decode_iff.mpr ((replaced_decode front).append_less (replaced_decode behind))

theorem rawText_ne {front behind : List Char} (cut : text = front ++ '<' :: behind) :
    rawText tag front ≠ rawText tag text := by
  intro same
  rw [cut] at same
  have length := congrArg (fun text => text.toList.length) same
  unfold rawText at length
  split at length
  · simp at length
  · simp [decode_append_less] at length

end Inlay.Markup

namespace Inlay.Document

set_option autoImplicit false

open Inlay.Markup

variable {d d' : Document} {tag : String} {fragment : NodeId}

/-- Behind the opening tag of a raw element, a content and a closing tag, the rest of a source is read
as if it stood alone, and the element has the whole content, decoded or not as it is for its tag,
exactly when the content does not hold `</` and the tag in any case of its letters. -/
theorem parse_raw (run : List Operation) (raw : isRaw tag = true) (content rest : String) {alone : NodeId}
    {d₁ : Document} (parsed : parse rest (new.performAll run) = .ok (.ok alone) d₁) :
    (∃ whole d', parse ("<" ++ tag ++ ">" ++ content ++ "</" ++ tag ++ ">" ++ rest) (new.performAll run) =
        .ok (.ok whole) d' ∧
      d'.forest whole =
        .element tag [] (Growth.rawChildren (rawText tag content.toList)) :: d₁.forest alone) ↔
    ¬ '<' :: '/' :: tag.toList <:+: Text.lower content.toList := by
  have wf := wellFormed_new.performAll run
  generalize new.performAll run = d at wf parsed
  have source : "<" ++ tag ++ ">" ++ content ++ "</" ++ tag ++ ">" ++ rest =
      "<" ++ tag ++ ">" ++ (content ++ "</" ++ tag ++ ">" ++ rest) := by simp only [String.append_assoc]
  have text : (content ++ "</" ++ tag ++ ">" ++ rest).toList =
      content.toList ++ '<' :: '/' :: (tag.toList ++ '>' :: rest.toList) := by simp
  rw [source]
  obtain ⟨trees, read, same⟩ : ∃ trees, forest? rest = .ok trees ∧ d₁.forest alone = trees := by
    cases read : forest? rest with
    | error fault =>
        obtain ⟨_, refused, -⟩ := parse_error wf read
        cases refused.symm.trans parsed
    | ok trees => exact ⟨trees, rfl, (forest_of_parse wf read parsed).2⟩
  rw [same]
  constructor
  · rintro ⟨whole, d', done, forest⟩ holds
    cases found : forest? ("<" ++ tag ++ ">" ++ (content ++ "</" ++ tag ++ ">" ++ rest)) with
    | error fault =>
        obtain ⟨_, refused, -⟩ := parse_error wf found
        cases refused.symm.trans done
    | ok trees' =>
        rw [(forest_of_parse wf found done).2] at forest
        obtain ⟨others, -, rfl⟩ := (forest?_raw_iff raw _).mp found
        have children := (Tree.element.inj (List.cons.inj forest).1).2.2
        rw [text] at children
        obtain ⟨behind, cut⟩ := rawContent_cut holds ('<' :: '/' :: (tag.toList ++ '>' :: rest.toList))
        exact rawText_ne cut (Growth.rawChildren_inj children)
  · intro unclosed
    have reached := rawContent_append (tagName_of_isRaw raw).1 unclosed rest.toList
    have found : forest? ("<" ++ tag ++ ">" ++ (content ++ "</" ++ tag ++ ">" ++ rest)) = .ok _ :=
      (forest?_raw_iff raw _).mpr ⟨trees, by rw [text, reached, String.ofList_toList]; exact read, rfl⟩
    obtain ⟨whole, _, d', done, -⟩ := parse_ok wf found
    refine ⟨whole, d', done, ?_⟩
    rw [(forest_of_parse wf found done).2, text, reached]

/-- The content of a textarea that comes close to closing it, twice. -/
theorem parse_raw_near : ∃ whole d,
    parse "<textarea>é</textare>&lt;</TextAre></textarea><b>x</b>y" new = .ok (.ok whole) d ∧
      d.forest whole = [.element "textarea" [] [.text "é</textare><</TextAre>"], .element "b" [] [.text "x"], .text "y"] := by
  have read : forest? "<b>x</b>y" = .ok [.element "b" [] [.text "x"], .text "y"] :=
    forest?_writeAll (by decide : CleanAll [.element "b" [] [.text "x"], .text "y"])
  obtain ⟨alone, _, d₁, parsed, -⟩ := parse_ok wellFormed_new read
  have same := (forest_of_parse wellFormed_new read parsed).2
  have raw : isRaw "textarea" = true := by decide
  obtain ⟨whole, d, done, forest⟩ :=
    (parse_raw [] raw "é</textare>&lt;</TextAre>" "<b>x</b>y" parsed).mpr (by decide +kernel)
  have decoded : rawText "textarea" "é</textare>&lt;</TextAre>".toList = "é</textare><</TextAre>" := by decide +kernel
  rw [same, decoded] at forest
  exact ⟨whole, d, done, forest⟩

/-- The content holds a closing tag of the element: `</`, the tag in any case of its letters, and
then white space, `/` or `>`. -/
def HoldsCloseTag (tag : String) (content : List Char) : Prop :=
  ∃ c ∈ Text.lower content, (Text.isBlank c = true ∨ c = '/' ∨ c = '>') ∧
    '<' :: '/' :: (tag.toList ++ [c]) <:+: Text.lower content

/-- The closing tag of another element, whose name is longer, ends raw content. -/
theorem parse_raw_longer_name : ¬ HoldsCloseTag "script" "a</scripts>b".toList ∧
    ∃ whole d, parse "<script>a</scripts>b</script>c" new = .ok (.ok whole) d ∧
      d.forest whole = [.element "script" [] [.text "a"], .text "b", .text "c"] ∧
      d.forest whole ≠ [.element "script" [] [.text "a</scripts>b"], .text "c"] := by
  have read : forest? "<script>a</scripts>b</script>c" = .ok [.element "script" [] [.text "a"], .text "b", .text "c"] := by
    have pieces : (Reading.ofSource "<script>a</scripts>b</script>c").pieces =
        [.raw "script" [] "a", .text "b", .closing "script", .text "c"] := by decide +kernel
    exact forest?_eq_ok_iff.mpr ⟨by decide +kernel, pieces ▸ rfl⟩
  obtain ⟨whole, _, d, done, -⟩ := parse_ok wellFormed_new read
  have forest := (forest_of_parse wellFormed_new read done).2
  have kept : ¬ HoldsCloseTag "script" "a</scripts>b".toList := by
    rintro ⟨c, mem, ends, inside⟩
    -- the name goes on where the closing tag would end
    have goesOn : (Text.lower "a</scripts>b".toList).all (fun c =>
        !Text.occurs ('<' :: '/' :: ("script".toList ++ [c])) (Text.lower "a</scripts>b".toList) || c == 's') = true := by
      decide +kernel
    have last := List.all_eq_true.mp goesOn c mem
    rw [Text.occurs_iff.mpr inside] at last
    obtain rfl : c = 's' := by simpa using last
    exact absurd ends (by decide)
  refine ⟨kept, whole, d, done, forest, ?_⟩
  rw [forest]
  simp

end Inlay.Document
