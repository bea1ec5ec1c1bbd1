import LineConsole.Text.Utf8
import LineConsole.Value
import Mathlib.Data.List.Basic

/-!
The texts of numbers. All of their characters are printable and take one byte each, and there
are few of them: at most eleven for an integer, and at most 47 for a float.
-/
namespace LineConsole

namespace Utf8

def IsPrintable (c : Char) : Prop := 0x20 ≤ c.toNat ∧ c.toNat < 0x80

instance (c : Char) : Decidable (IsPrintable c) :=
  inferInstanceAs (Decidable (0x20 ≤ c.toNat ∧ c.toNat < 0x80))

theorem IsPrintable.encodeChar {c : Char} (h : IsPrintable c) :
    String.utf8EncodeChar c = [UInt8.ofNat c.toNat] := by
  have hval : c.val.toNat ≤ 0x7F := Nat.le_of_lt_succ h.2
  rw [String.utf8EncodeChar]
  simp only [if_pos hval]
  rfl

/-- A printable text has one byte for each character. -/
theorem encode_printable {text : String} (h : ∀ c ∈ text.toList, IsPrintable c) :
    encode text = text.toList.map fun c => UInt8.ofNat c.toNat := by
  rw [encode, List.map_eq_flatMap]
  exact List.flatMap_congr fun c hc => (h c hc).encodeChar

theorem isPrintable_of_isDigit {c : Char} (h : c.isDigit) : IsPrintable c := by
  obtain ⟨hlow, hhigh⟩ := Char.isDigit_iff_toNat.mp h
  have hzero : '0'.toNat = 0x30 := rfl
  have hnine : '9'.toNat = 0x39 := rfl
  constructor <;> omega

end Utf8

open Utf8

namespace Rounding

theorem nearest_le (num den : Nat) : nearest num den ≤ num / den + 1 := by
  unfold nearest
  dsimp only
  split
  · omega
  · split
    · exact Nat.le_refl _
    · omega

/-- Empty parts need not be written. -/
theorem join_filter (parts : List (List Char)) :
    String.join ((parts.filter fun part => !part.isEmpty).map String.ofList) =
      String.ofList parts.flatten := by
  induction parts with
  | nil => rfl
  | cons part parts ih =>
    cases part with
    | nil => simp [ih]
    | cons c cs => simp [String.join_cons, String.ofList_append, ih, String.append_assoc]

theorem toList_fixedText (places num den : Nat) :
    (fixedText places num den).toList =
      let n := nearest (num * Nat.pow 10 places) den
      Nat.toDigits 10 (n / Nat.pow 10 places) ++ '.' :: placeDigits places n := by
  unfold fixedText fixedPieces
  dsimp only
  generalize nearest (num * Nat.pow 10 places) den = n
  split
  · simp [String.join_cons]
  · next hwhole =>
    rw [String.join_cons, join_filter, Nat.eq_zero_of_not_pos hwhole]
    simp [List.takeWhile_append_dropWhile]

theorem isPrintable_of_mem_toDigits {n : Nat} {c : Char} (h : c ∈ Nat.toDigits 10 n) :
    IsPrintable c :=
  isPrintable_of_isDigit (Nat.isDigit_of_mem_toDigits (by decide) (by decide) h)

theorem isPrintable_of_mem_fixedText {places num den : Nat} {c : Char}
    (h : c ∈ (fixedText places num den).toList) : IsPrintable c := by
  rw [toList_fixedText] at h
  rcases List.mem_append.mp h with hwhole | hrest
  · exact isPrintable_of_mem_toDigits hwhole
  · rcases List.mem_cons.mp hrest with rfl | hfraction
    · decide
    · rcases List.mem_append.mp hfraction with hzero | hdigit
      · rw [List.eq_of_mem_replicate hzero]
        decide
      · exact isPrintable_of_mem_toDigits hdigit

/-- The digits in front of the point, the point, and the places. -/
theorem length_fixedText_le {places num den width : Nat} (hplaces : 0 < places)
    (hwidth : 0 < width)
    (h : nearest (num * Nat.pow 10 places) den / Nat.pow 10 places < Nat.pow 10 width) :
    (fixedText places num den).toList.length ≤ width + 1 + places := by
  have hwhole := (Nat.length_toDigits_le_iff (b := 10) (by decide) hwidth).mpr h
  have hmod : nearest (num * Nat.pow 10 places) den % Nat.pow 10 places < Nat.pow 10 places :=
    Nat.mod_lt _ (Nat.pow_pos (by decide))
  have hfraction := (Nat.length_toDigits_le_iff (b := 10) (by decide) hplaces).mpr hmod
  rw [toList_fixedText]
  simp only [List.length_append, List.length_cons, placeDigits, List.length_replicate]
  omega

end Rounding

namespace Single

theorem exponent_le (x : Single) : x.exponent ≤ 255 := by
  unfold exponent
  omega

/-- Finite magnitudes are below 2^128. -/
theorem units_lt (x : Single) (h : x.exponent ≠ 255) : x.units < Nat.pow 2 128 * one := by
  have hexponent := x.exponent_le
  have hfraction : x.fraction < 2 ^ 23 := Nat.mod_lt _ (by decide)
  unfold units
  split
  · have hone : 0 < one := Nat.pow_pos (by decide)
    calc x.fraction < 2 ^ 128 := Nat.lt_trans hfraction (by decide)
      _ ≤ 2 ^ 128 * one := Nat.le_mul_of_pos_right _ hone
  · have hsignificand : 0x800000 + x.fraction < 2 ^ 24 := by omega
    have hpower : 2 ^ (x.exponent - 1) ≤ 2 ^ 253 :=
      Nat.pow_le_pow_right (by decide) (by omega)
    calc (0x800000 + x.fraction) * Nat.pow 2 (x.exponent - 1)
        < 2 ^ 24 * 2 ^ (x.exponent - 1) :=
          Nat.mul_lt_mul_of_pos_right hsignificand (Nat.pow_pos (by decide))
      _ ≤ 2 ^ 24 * 2 ^ 253 := Nat.mul_le_mul_left _ hpower
      _ = 2 ^ 128 * one := by decide +kernel

/-- At most 39 digits, the point and six places. -/
theorem length_fixedText_units (x : Single) (h : x.exponent ≠ 255) :
    (Rounding.fixedText 6 x.units one).toList.length ≤ 46 := by
  have hquotient : x.units * 10 ^ 6 / one < 2 ^ 128 * 10 ^ 6 := by
    apply Nat.div_lt_of_lt_mul
    have hscaled := Nat.mul_lt_mul_of_pos_right (x.units_lt h) (show 0 < 10 ^ 6 by decide)
    have hswap : one * (2 ^ 128 * 10 ^ 6) = 2 ^ 128 * one * 10 ^ 6 := by ac_rfl
    rwa [hswap]
  have hnearest := Rounding.nearest_le (x.units * 10 ^ 6) one
  have hwhole : Rounding.nearest (x.units * 10 ^ 6) one / 10 ^ 6 < 10 ^ 39 := by
    apply Nat.div_lt_of_lt_mul
    have hbound : 2 ^ 128 * 10 ^ 6 < 10 ^ 6 * 10 ^ 39 := by decide
    exact Nat.lt_of_le_of_lt (Nat.le_trans hnearest hquotient) hbound
  exact Rounding.length_fixedText_le (by decide) (by decide) hwhole

end Single

/-- All characters are printable, and there are no more of them than the width. -/
structure Narrow (width : Nat) (text : String) : Prop where
  printable : ∀ c ∈ text.toList, IsPrintable c
  length_le : text.toList.length ≤ width

instance (width : Nat) (text : String) : Decidable (Narrow width text) :=
  decidable_of_iff ((text.toList.all fun c => IsPrintable c) ∧ text.toList.length ≤ width)
    ⟨fun h => ⟨by simpa using h.1, h.2⟩, fun h => ⟨by simpa using h.printable, h.length_le⟩⟩

namespace Narrow

theorem append {m n : Nat} {a b : String} (ha : Narrow m a) (hb : Narrow n b) :
    Narrow (m + n) (a ++ b) where
  printable c hc := by
    rw [String.toList_append] at hc
    rcases List.mem_append.mp hc with hin | hin
    · exact ha.printable c hin
    · exact hb.printable c hin
  length_le := by
    have hm := ha.length_le
    have hn := hb.length_le
    rw [String.toList_append, List.length_append]
    omega

theorem mono {m n : Nat} {text : String} (h : Narrow m text) (hmn : m ≤ n) : Narrow n text :=
  ⟨h.printable, Nat.le_trans h.length_le hmn⟩

/-- A sign may stand in front. -/
theorem signed {n : Nat} {pieces : List String} (h : Narrow n (String.join pieces))
    (negative : Prop) [Decidable negative] :
    Narrow (n + 1) (String.join ((if negative then ["-"] else []) ++ pieces)) := by
  have hsign : Narrow 1 "-" := by decide +kernel
  split
  · rw [List.singleton_append, String.join_cons]
    exact (hsign.append h).mono (Nat.le_of_eq (Nat.add_comm 1 n))
  · exact h.mono (Nat.le_succ n)

end Narrow

namespace Value

theorem narrow_int (n : Int32) : Narrow 11 (int n).text := by
  have hnatAbs : n.toInt.natAbs < 10 ^ 10 := by
    have hlow := n.le_toInt
    have hhigh := n.toInt_lt
    omega
  have hdigits : Narrow 10 (Nat.repr n.toInt.natAbs) := by
    constructor
    · intro c hc
      rw [Nat.toList_repr] at hc
      exact Rounding.isPrintable_of_mem_toDigits hc
    · rw [Nat.toList_repr]
      exact (Nat.length_toDigits_le_iff (by decide) (by decide)).mpr hnatAbs
  have hpieces : Narrow 10 (String.join [Nat.repr n.toInt.natAbs]) := by
    simpa [String.join_cons] using hdigits
  exact hpieces.signed (n < 0)

theorem narrow_float (x : Single) : Narrow 47 (float x).text := by
  rw [text, pieces]
  by_cases hnan : x.isNaN
  · rw [if_pos hnan]
    decide +kernel
  · rw [if_neg hnan]
    by_cases hinfinite : x.isInfinite
    · rw [if_pos hinfinite]
      split <;> decide +kernel
    · rw [if_neg hinfinite]
      have hfinite : x.exponent ≠ 255 := by
        intro h
        by_cases hfraction : x.fraction = 0
        · exact hinfinite (by simp [Single.isInfinite, h, hfraction])
        · exact hnan (by simp [Single.isNaN, h, hfraction])
      have hdigits : Narrow 46 (Rounding.fixedText 6 x.units Single.one) :=
        ⟨fun c hc => Rounding.isPrintable_of_mem_fixedText hc, x.length_fixedText_units hfinite⟩
      exact hdigits.signed x.isNegative

end Value

end LineConsole
