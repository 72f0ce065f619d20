/-
# Proofs.Markup.Bytes — the length of a text in bytes

Positions count bytes, while texts are lists of characters. Every character has at least one byte, so a
position between two characters tells what stands in front of it (`eq_of_bytes`), and a position that is
not between characters is inside one (`bytes_concat_le`).
-/
import Inlay.Text.Cut
import Mathlib.Data.List.Infix

namespace Inlay.Text

set_option autoImplicit false

variable {source front behind : List Char} {c : Char}

@[simp] theorem bytes_nil : bytes [] = 0 := rfl

@[simp] theorem bytes_cons (c : Char) (text : List Char) : bytes (c :: text) = c.utf8Size + bytes text := rfl

@[simp] theorem bytes_append (front behind : List Char) : bytes (front ++ behind) = bytes front + bytes behind := by
  induction front with
  | nil => simp
  | cons c front ih => rw [List.cons_append, bytes_cons, ih, bytes_cons, Nat.add_assoc]

theorem utf8ByteSize_ofList (text : List Char) : (String.ofList text).utf8ByteSize = bytes text := by
  induction text with
  | nil => rfl
  | cons c text ih =>
      rw [← List.singleton_append, String.ofList_append, String.utf8ByteSize_append, ih, ← String.singleton_eq_ofList,
        String.utf8ByteSize_singleton]
      rfl

theorem utf8Size_toLower (c : Char) : c.toLower.utf8Size = c.utf8Size := by
  by_cases capital : c.val ≥ 'A'.val ∧ c.val ≤ 'Z'.val
  · have lowered : c.toLower.val = c.val + ('a'.val - 'A'.val) := congrArg Char.val (dif_pos capital)
    obtain ⟨least, most⟩ := capital
    rw [ge_iff_le, UInt32.le_iff_toNat_le] at least
    rw [UInt32.le_iff_toNat_le] at most
    change 65 ≤ c.val.toNat at least
    change c.val.toNat ≤ 90 at most
    have code : c.toLower.val.toNat = c.val.toNat + 32 := by
      rw [lowered, UInt32.toNat_add]
      change (c.val.toNat + 32) % 4294967296 = _
      omega
    have one : ∀ {x : Char}, x.val.toNat ≤ 127 → x.utf8Size = 1 := fun ascii =>
      Char.utf8Size_eq_one_iff.mpr (UInt32.le_iff_toNat_le.mpr ascii)
    rw [one (by omega), one (by omega)]
  · have lowered : c.toLower = c := dif_neg capital
    rw [lowered]

theorem bytes_lower (text : List Char) : bytes (lower text) = bytes text := by
  induction text with
  | nil => rfl
  | cons c text ih => exact congrArg₂ (· + ·) (utf8Size_toLower c) ih

theorem eq_nil_of_bytes (none : bytes front = 0) : front = [] := by
  cases front with
  | nil => rfl
  | cons c front =>
      have := c.utf8Size_pos
      simp only [bytes_cons] at none
      omega

theorem max_bytes (some : front ≠ []) : max (bytes front) 1 = bytes front :=
  max_eq_left (Nat.one_le_iff_ne_zero.mpr fun none => some (eq_nil_of_bytes none))

theorem bytes_le_of_start (start : front <+: behind) : bytes front ≤ bytes behind := by
  obtain ⟨tail, rfl⟩ := start
  rw [bytes_append]
  exact Nat.le_add_right _ _

/-- Of two texts at the start of a source, the one that reaches into a character ends behind it. -/
theorem bytes_concat_le (start : front ++ [c] <+: source) (other : behind <+: source) (into : bytes front < bytes behind) :
    bytes (front ++ [c]) ≤ bytes behind := by
  rcases List.prefix_or_prefix_of_prefix start other with within | without
  · exact bytes_le_of_start within
  · rcases List.prefix_concat_iff.mp without with same | shorter
    · rw [same]
    · exact absurd (bytes_le_of_start shorter) (Nat.not_le.mpr into)

theorem eq_of_bytes (start : front <+: source) (other : behind <+: source) (same : bytes front = bytes behind) :
    front = behind := by
  have equal : ∀ {one two : List Char}, one <+: two → bytes one = bytes two → one = two := by
    rintro one _ ⟨tail, rfl⟩ same
    rw [bytes_append] at same
    rw [eq_nil_of_bytes (by omega : bytes tail = 0), List.append_nil]
  rcases List.prefix_or_prefix_of_prefix start other with shorter | longer
  · exact equal shorter same
  · exact (equal longer same.symm).symm

end Inlay.Text
