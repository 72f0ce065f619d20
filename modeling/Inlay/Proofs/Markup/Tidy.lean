/-
# Proofs.Markup.Tidy — attributes of one element have distinct names

The reader keeps the first attribute of a name, so in every tree that is read no
element has two attributes of one name (`tidy_of_forest?`).
-/
import Inlay.Proofs.Markup.Everywhere
import Mathlib.Data.List.Nodup

namespace Inlay.Markup

set_option autoImplicit false

/-- No two attributes have one name. -/
def DistinctNames (attributes : List Attribute) : Prop := (attributes.map (·.name)).Nodup

mutual

/-- No element has two attributes of one name. -/
def Tidy : Tree → Prop
  | .element _ attributes children => DistinctNames attributes ∧ TidyAll children
  | .text _ => True
  | .comment _ => True

def TidyAll : List Tree → Prop
  | [] => True
  | tree :: rest => Tidy tree ∧ TidyAll rest

end

/-- The attributes of an element have distinct names. -/
def Distinct (_ : String) (attributes : List Attribute) (_ : Nat) : Prop := DistinctNames attributes

mutual

theorem tidy_iff : ∀ tree : Tree, Tidy tree ↔ Everywhere Distinct tree
  | .element _ _ children => and_congr_right' (tidyAll_iff children)
  | .text _ => Iff.rfl
  | .comment _ => Iff.rfl

theorem tidyAll_iff : ∀ trees : List Tree, TidyAll trees ↔ EverywhereAll Distinct trees
  | [] => Iff.rfl
  | tree :: rest => and_congr (tidy_iff tree) (tidyAll_iff rest)

end

/-! ## Pieces -/

theorem distinctNames_add {attributes : List Attribute} (distinct : DistinctNames attributes)
    (name value : String) : DistinctNames (Attribute.add attributes name value) := by
  unfold Attribute.add
  split
  · exact distinct
  · next absent =>
      simp only [List.any_eq_true, decide_eq_true_eq, not_exists, not_and] at absent
      rw [DistinctNames, List.map_append]
      refine List.nodup_append.mpr ⟨distinct, List.nodup_singleton _, ?_⟩
      rintro x mem y last rfl
      obtain ⟨a, there, named⟩ := List.mem_map.mp mem
      rw [List.map_singleton, List.mem_singleton] at last
      exact absent a there (named.trans last)

theorem distinctNames_settle {attributes : List Attribute} (distinct : DistinctNames attributes)
    (pending : Option String) : DistinctNames (OpenTag.settle pending attributes) := by
  cases pending with
  | none => exact distinct
  | some name => exact distinctNames_add distinct name ""

theorem distinctNames_of_readFrom {size start : Nat} {tag : String} {pending : Option String}
    {attributes : List Attribute} {input : List Char} {result : OpenTag}
    (distinct : DistinctNames attributes)
    (done : OpenTag.readFrom size start tag pending attributes input = .ok result) :
    DistinctNames result.attributes := by
  fun_induction OpenTag.readFrom size start tag pending attributes input with
  | case1 => cases done
  | case2 => cases done; exact distinctNames_settle distinct _
  | case3 => cases done; exact distinctNames_settle distinct _
  | case4 _ _ _ _ _ ih => exact ih distinct done
  | case5 _ _ _ _ _ _ ih => exact ih (distinctNames_settle distinct _) done
  | case6 => cases done
  | case7 => cases done
  | case8 _ _ _ _ _ _ _ _ ih => exact ih (distinctNames_add distinct _ _) done
  | case9 => cases done
  | case10 => cases done

theorem tidy_ofOpenTag {tag : String} {opened : OpenTag} (distinct : DistinctNames opened.attributes) :
    (Reading.ofOpenTag tag opened).1.Has Distinct := by
  unfold Reading.ofOpenTag
  split
  · exact distinct
  split
  · exact fun _ _ => distinct
  · exact fun _ => distinct

theorem tidy_of_readFrom (size : Nat) (input : List Char) :
    ∀ piece ∈ (Reading.readFrom size input).pieces, piece.Has Distinct := by
  have push : ∀ {piece : Piece} {reading : Reading}, piece.Has Distinct →
      (∀ p ∈ reading.pieces, p.Has Distinct) → ∀ p ∈ (reading.push piece).pieces, p.Has Distinct := by
    intro piece reading here others p mem
    rcases List.mem_cons.mp mem with rfl | mem
    · exact here
    · exact others p mem
  fun_induction Reading.readFrom size input with
  | case1 => intro piece mem; cases mem
  | case2 _ _ _ _ ih => exact push trivial ih
  | case3 _ _ _ ih => exact push trivial ih
  | case4 _ _ _ ih => exact ih
  | case5 _ _ _ _ ih => exact push trivial ih
  | case6 _ _ _ _ ih => exact push trivial ih
  | case7 => intro piece mem; cases mem
  | case8 => intro piece mem; cases mem
  | case9 _ _ _ _ _ _ _ opened ih =>
      have none : DistinctNames [] := List.nodup_nil
      exact push (tidy_ofOpenTag (distinctNames_of_readFrom none opened)) ih

theorem tidy_of_forest? {source : String} {forest : List Tree} (read : forest? source = .ok forest) :
    TidyAll forest :=
  (tidyAll_iff forest).mpr (everywhere_of_forest? tidy_of_readFrom read)

end Inlay.Markup
