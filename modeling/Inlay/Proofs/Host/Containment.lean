/-
# Proofs.Host.Containment — template files and the template directory

A path is a way of steps (`Location.steps`). Of the pieces between its slashes the empty
ones and single dots lead nowhere, two dots lead up, and any other piece leads into what
it names; a path may start at the root, or at a dot in front. Joining a relative path to
a directory goes the way of the directory and then on (`Location.steps_join`).

The first step from the template directory to the file of a template is into something
named by the template and the extension up to its first slash (`Shelf.steps_of_path?`).
A name is checked for separators. An extension is only checked for a dot in front, so the
way ends with that step exactly if the extension has no slash, and no two templates have
the same way (`shelf_confines`). With a slash in the extension the way may lead out of
the directory (`shelf_leads_out`).
-/
import Inlay.Host.Settings
import Inlay.Proofs.Template.Splitting

namespace Inlay.Text

set_option autoImplicit false

variable {mark : Char} {piece text first : List Char} {pieces : List (List Char)}

/-! ## Pieces of texts that are put together -/

/-- A mark between two texts separates their pieces. -/
theorem splitAt_append_cons (mark : Char) (front behind : List Char) :
    splitAt mark (front ++ mark :: behind) = splitAt mark front ++ splitAt mark behind := by
  induction front with
  | nil =>
      rw [List.nil_append, splitAt.eq_2, if_pos rfl]
      rfl
  | cons c front ih =>
      obtain ⟨piece, pieces, split⟩ := List.exists_cons_of_ne_nil (splitAt_ne_nil mark front)
      rw [split] at ih
      by_cases here : c = mark
      · rw [List.cons_append, splitAt, if_pos here, ih, splitAt, if_pos here, split]
        rfl
      · rw [List.cons_append, splitAt, if_neg here, ih, splitAt, if_neg here, split]
        rfl

/-- A text without the mark lengthens the first piece of what follows. -/
theorem splitAt_append_of_absent (absent : mark ∉ piece) (split : splitAt mark text = first :: pieces) :
    splitAt mark (piece ++ text) = (piece ++ first) :: pieces := by
  induction piece with
  | nil => exact split
  | cons c piece ih =>
      obtain ⟨other, absent⟩ := not_or.mp (List.mem_cons.not.mp absent)
      rw [List.cons_append, splitAt, if_neg (Ne.symm other), ih absent]
      rfl

end Inlay.Text

namespace Inlay.Host

set_option autoImplicit false

open Inlay.Text

namespace Location

/-! ## Ways -/

/-- One step on the way of a path. -/
inductive Step where
  | root
  /-- The directory itself, at the start of a relative path. -/
  | here
  | up
  | into (name : String)
  deriving DecidableEq

/-- The step of a piece between slashes, if it leads anywhere. -/
def step? (piece : List Char) : Option Step :=
  if piece = [] ∨ piece = ['.'] then none
  else if piece = ['.', '.'] then some .up
  else some (.into (String.ofList piece))

/-- Where a path starts, if it says so. -/
def origin (path : List Char) : List Step :=
  if path.head? = some '/' then [.root]
  else if (splitAt '/' path).head? = some ['.'] then [.here]
  else []

/-- The way of a path. -/
def steps (path : List Char) : List Step := origin path ++ (splitAt '/' path).filterMap step?

variable {front behind : List Char}

/-- The way of a path goes on behind a slash. -/
theorem steps_append_cons (some_ : front ≠ []) (behind : List Char) :
    steps (front ++ '/' :: behind) = steps front ++ (splitAt '/' behind).filterMap step? := by
  have start : origin (front ++ '/' :: behind) = origin front := by
    obtain ⟨c, front, rfl⟩ := List.exists_cons_of_ne_nil some_
    obtain ⟨piece, pieces, split⟩ := List.exists_cons_of_ne_nil (splitAt_ne_nil '/' (c :: front))
    unfold origin
    rw [splitAt_append_cons, split]
    rfl
  rw [steps, start, splitAt_append_cons, List.filterMap_append, ← List.append_assoc]
  rfl

/-- A path that starts at the root goes on with what is behind the slash. -/
theorem steps_cons_slash (behind : List Char) :
    steps ('/' :: behind) = .root :: (splitAt '/' behind).filterMap step? := by
  rw [steps, splitAt, if_pos rfl]
  rfl

/-- A slash at the end of a path adds nothing to its way. -/
theorem steps_append_slash (front : List Char) (some_ : front ≠ []) (behind : List Char) :
    steps (front ++ '/' :: behind) = steps (front ++ ['/']) ++ (splitAt '/' behind).filterMap step? := by
  rw [steps_append_cons some_, steps_append_cons some_]
  simp [splitAt, step?]

/-- The way of a joined path is that of the directory and then that of the other path, when
this is relative and does not start with a dot piece. -/
theorem steps_join (directory : String) {path : String} (relative : path.toList.head? ≠ some '/')
    (inside : (splitAt '/' path.toList).head? ≠ some ['.']) :
    steps (join directory path).toList =
      steps directory.toList ++ (splitAt '/' path.toList).filterMap step? := by
  unfold join
  rw [if_neg relative]
  by_cases empty : directory = ""
  · subst empty
    rw [if_pos (.inl rfl), String.toList_append]
    have start : origin path.toList = [] := by rw [origin, if_neg relative, if_neg inside]
    rw [show "".toList = [] from rfl, List.nil_append, steps, start]
    rfl
  have some_ : directory.toList ≠ [] := fun none => empty (String.toList_eq_nil_iff.mp none)
  by_cases closed : directory.toList.getLast? = some '/'
  · rw [if_pos (.inr closed), String.toList_append]
    obtain ⟨front, split⟩ := List.getLast?_eq_some_iff.mp closed
    rw [split, List.append_assoc, List.singleton_append]
    cases front with
    | nil =>
        rw [List.nil_append, List.nil_append, steps_cons_slash, steps_cons_slash]
        simp [splitAt, step?]
    | cons c front => exact steps_append_slash _ (List.cons_ne_nil c front) _
  · rw [if_neg (not_or.mpr ⟨empty, closed⟩), String.toList_append, String.toList_append,
      List.append_assoc]
    exact steps_append_cons some_ _

end Location

open Location (steps)

/-! ## Files on a shelf -/

namespace Shelf

variable {shelf : Shelf} {name path : String}

theorem name_of_isName (valid : isName name = true) :
    name.toList ≠ [] ∧ name.toList ≠ ['.'] ∧ '/' ∉ name.toList := by
  simp only [isName, Bool.and_eq_true, bne_iff_ne, ne_eq, Bool.not_eq_true', List.any_eq_false] at valid
  obtain ⟨⟨⟨some_, dot⟩, -⟩, plain⟩ := valid
  refine ⟨fun none => some_ (String.toList_eq_nil_iff.mp none), fun same => dot ?_, fun slash => ?_⟩
  · exact String.toList_inj.mp same
  · exact plain '/' slash rfl

theorem eq_of_path? (found : shelf.path? name = some path) :
    isName name = true ∧ path = Location.join shelf.directory (name ++ "." ++ shelf.extension) := by
  unfold path? at found
  split at found
  · next valid => exact ⟨valid, (Option.some.inj found).symm⟩
  · cases found

/-- The way to a template's file. -/
theorem steps_of_path? {first : List Char} {pieces : List (List Char)}
    (split : splitAt '/' shelf.extension.toList = first :: pieces) (found : shelf.path? name = some path) :
    steps path.toList = steps shelf.directory.toList ++
      .into (name ++ "." ++ String.ofList first) :: pieces.filterMap Location.step? := by
  obtain ⟨valid, rfl⟩ := eq_of_path? found
  obtain ⟨some_, dot, slash⟩ := name_of_isName valid
  have spelled : (name ++ "." ++ shelf.extension).toList = (name.toList ++ ['.']) ++ shelf.extension.toList := by
    rw [String.toList_append, String.toList_append]
    rfl
  have absent : '/' ∉ name.toList ++ ['.'] := by simpa using slash
  have cut := splitAt_append_of_absent absent split
  obtain ⟨c, rest, chars⟩ := List.exists_cons_of_ne_nil some_
  -- the name is neither empty nor a dot, so what stands in front of the first slash is no dots
  have apart : name.toList ++ ['.'] ++ first ≠ [] ∧ name.toList ++ ['.'] ++ first ≠ ['.'] ∧
      name.toList ++ ['.'] ++ first ≠ ['.', '.'] := by
    rw [chars] at dot ⊢
    refine ⟨by simp, by simp, fun same => dot ?_⟩
    cases rest with
    | nil => simp_all
    | cons c' rest => simp at same
  have step : Location.step? (name.toList ++ ['.'] ++ first) = some (.into (name ++ "." ++ String.ofList first)) := by
    rw [Location.step?, if_neg (not_or.mpr ⟨apart.1, apart.2.1⟩), if_neg apart.2.2]
    congr 2
    rw [← String.toList_inj]
    simp
  rw [Location.steps_join, spelled, cut, List.filterMap_cons, step]
  · rw [spelled, chars]
    rintro ⟨⟩
    exact slash (chars ▸ List.mem_cons_self)
  · rw [spelled, cut, List.head?_cons]
    exact fun same => apart.2.1 (Option.some.inj same)

end Shelf

namespace Settings

variable {content name path : String} {settings : Settings} {workingDirectory : String}

/-- Settings that are read have an extension, without a dot in front. -/
theorem extension_of_read (accepted : read content = .ok settings) :
    settings.extension ≠ "" ∧ settings.extension.toList.head? ≠ some '.' := by
  unfold read at accepted
  split at accepted
  · cases accepted
  · next json _ =>
    cases values : ofJson json with
    | error flaw => simp [values, bind, Except.bind] at accepted
    | ok found =>
        simp only [values, bind, Except.bind, checked] at accepted
        split at accepted
        · cases accepted
        · next good =>
          cases accepted
          exact not_or.mp good

theorem extension_shelf (accepted : read content = .ok settings) (workingDirectory : String) :
    (settings.shelf workingDirectory).extension = settings.extension := by
  obtain ⟨-, undotted⟩ := extension_of_read accepted
  have kept : settings.extension.toList.dropWhile (· = '.') = settings.extension.toList := by
    cases chars : settings.extension.toList with
    | nil => rfl
    | cons c rest =>
        rw [chars, List.head?_cons, ne_eq, Option.some.injEq] at undotted
        rw [List.dropWhile_cons_of_neg (by simpa using undotted)]
  rw [shelf, Shelf.withExtension, kept, String.ofList_toList]

theorem directory_shelf : (settings.shelf workingDirectory).directory = settings.directory workingDirectory := rfl

theorem path?_of_path (found : (settings.shelf workingDirectory).path name = .ok path) :
    (settings.shelf workingDirectory).path? name = some path := by
  unfold Shelf.path at found
  split at found
  · next here => rw [here, Except.ok.inj found]
  · cases found

/-- Of settings that are read, the path of a template's file is the template directory joined
with the template's name and extension. It is one step from the directory, into a file of
that name, exactly if the extension has no slash, and the ways to the files of two
templates are never the same. -/
theorem shelf_confines (accepted : read content = .ok settings) (workingDirectory : String) :
    (∀ name path, (settings.shelf workingDirectory).path name = .ok path →
      path = Location.join (settings.directory workingDirectory) (name ++ "." ++ settings.extension) ∧
      (steps path.toList = steps (settings.directory workingDirectory).toList ++
          [.into (name ++ "." ++ settings.extension)] ↔ '/' ∉ settings.extension.toList)) ∧
    (∀ name other path path', (settings.shelf workingDirectory).path name = .ok path →
      (settings.shelf workingDirectory).path other = .ok path' →
      steps path.toList = steps path'.toList → name = other) := by
  have extension := extension_shelf accepted workingDirectory
  obtain ⟨first, pieces, split⟩ :=
    List.exists_cons_of_ne_nil (splitAt_ne_nil '/' settings.extension.toList)
  have way : ∀ name path, (settings.shelf workingDirectory).path name = .ok path →
      steps path.toList = steps (settings.directory workingDirectory).toList ++
        .into (name ++ "." ++ String.ofList first) :: pieces.filterMap Location.step? := by
    intro name path found
    have cut : splitAt '/' (settings.shelf workingDirectory).extension.toList = first :: pieces := by
      rw [extension, split]
    rw [← directory_shelf]
    exact Shelf.steps_of_path? cut (path?_of_path found)
  refine ⟨fun name path found => ⟨?_, ?_⟩, fun name other path path' found found' same => ?_⟩
  · rw [← extension, ← directory_shelf]
    exact (Shelf.eq_of_path? (path?_of_path found)).2
  · rw [way name path found, List.append_cancel_left_eq]
    constructor
    · intro single
      obtain ⟨step, -⟩ := List.cons.inj single
      have whole : first = settings.extension.toList := by
        have spelled := congrArg String.toList (Location.Step.into.inj step)
        simpa using spelled
      exact whole ▸ absent_of_mem_splitAt '/' _ first (split ▸ List.mem_cons_self)
    · intro absent
      rw [splitAt_of_absent absent] at split
      obtain ⟨rfl, rfl⟩ := List.cons.inj split
      rw [String.ofList_toList]
      rfl
  · rw [way name path found, way other path' found', List.append_cancel_left_eq] at same
    have spelled := congrArg String.toList (Location.Step.into.inj (List.cons.inj same).1)
    exact String.toList_inj.mp (by simpa using spelled)

theorem read_eq_ok (value : (read content).toOption = some settings) : read content = .ok settings := by
  cases outcome : read content with
  | error flaw => rw [outcome] at value; cases value
  | ok found => rw [outcome] at value; exact congrArg Except.ok (Option.some.inj value)

/-- `shelf_confines` for settings whose extension has no slash: the file is in the directory. -/
theorem shelf_confines_views :
    read "[\"views\",\"tpl\"]" = .ok ⟨"views", "tpl", 16⟩ ∧
    steps "/srv/app/views/card.tpl".toList = steps "/srv/app/views".toList ++ [.into "card.tpl"] := by
  have accepted : read "[\"views\",\"tpl\"]" = .ok ⟨"views", "tpl", 16⟩ := read_eq_ok (by decide +kernel)
  refine ⟨accepted, ?_⟩
  have inside := ((shelf_confines accepted "/srv/app").1 "card" "/srv/app/views/card.tpl" rfl).2
  exact inside.mpr (by decide)

/-- With a slash in the extension the file of a template may be outside the template directory. -/
theorem shelf_leads_out :
    read "\x7b\"extension\":\"d/../../page\"\x7d" = .ok ⟨"templates", "d/../../page", 16⟩ ∧
    (Settings.shelf ⟨"templates", "d/../../page", 16⟩ "/srv/app").path "page" =
      .ok "/srv/app/templates/page.d/../../page" ∧
    steps "/srv/app/templates/page.d/../../page".toList =
      [.root, .into "srv", .into "app", .into "templates", .into "page.d", .up, .up, .into "page"] ∧
    steps "/srv/app/templates/page.d/../../page".toList ≠
      steps (Settings.directory ⟨"templates", "d/../../page", 16⟩ "/srv/app").toList ++
        [.into ("page" ++ "." ++ "d/../../page")] := by
  refine ⟨read_eq_ok (by decide +kernel), rfl, ?_, ?_⟩ <;> decide +kernel

end Settings

end Inlay.Host
