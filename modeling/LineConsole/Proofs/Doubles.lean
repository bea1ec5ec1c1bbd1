import LineConsole.Proofs.ShortestDecimals
import LineConsole.Json.Number
import Mathlib.Algebra.Order.Floor.Semifield

/-!
The double nearest to a decimal. It depends on the value of the decimal only, it is close to that
value in relation to its size, and it is the value itself if the significand fits.
-/
namespace LineConsole

/-! Relative errors -/

def Within (ε a b : ℚ) : Prop := |a - b| ≤ ε * b

namespace Within

variable {ε δ a b s : ℚ}

theorem mono (h : Within ε a b) (hle : ε ≤ δ) (hb : 0 ≤ b) : Within δ a b :=
  le_trans h (mul_le_mul_of_nonneg_right hle hb)

/-- The error relative to the other value is hardly greater. -/
theorem symm (h : Within ε a b) (hε : 0 ≤ ε) (hε' : ε < 1) : Within (ε / (1 - ε)) b a := by
  have hless : 0 < 1 - ε := sub_pos.mpr hε'
  have ha : (1 - ε) * b ≤ a := by
    obtain ⟨hle, -⟩ := abs_le.mp h
    linarith
  unfold Within at h ⊢
  rw [abs_sub_comm, div_mul_eq_mul_div, le_div_iff₀ hless]
  calc |a - b| * (1 - ε) ≤ ε * b * (1 - ε) := mul_le_mul_of_nonneg_right h hless.le
    _ = ε * ((1 - ε) * b) := by ring
    _ ≤ ε * a := mul_le_mul_of_nonneg_left ha hε

theorem mul_right (h : Within ε a b) (hs : 0 ≤ s) : Within ε (a * s) (b * s) := by
  unfold Within at h ⊢
  rw [← sub_mul, abs_mul, abs_of_nonneg hs, ← mul_assoc]
  exact mul_le_mul_of_nonneg_right h hs

end Within

namespace Rounding

/-- Rounding depends on the value of a quotient only. -/
theorem significant_congr {p num den num' den' : ℕ} (hden : 0 < den) (hden' : 0 < den')
    (h : (num / den : ℚ) = num' / den') : significant p num den = significant p num' den' := by
  have hwhole : num / den = num' / den' := by
    rw [← Nat.floor_div_eq_div (K := ℚ), ← Nat.floor_div_eq_div (K := ℚ), h]
  unfold significant
  dsimp only
  rw [hwhole, Nat.pow_eq]
  generalize excess p (num' / den') = e
  have hnearest : IsNearest (num / (den * 2 ^ e : ℕ)) (nearest num (den * 2 ^ e)) :=
    isNearest_nearest (Nat.mul_pos hden (Nat.two_pow_pos e))
  have hnearest' : IsNearest (num' / (den' * 2 ^ e : ℕ)) (nearest num' (den' * 2 ^ e)) :=
    isNearest_nearest (Nat.mul_pos hden' (Nat.two_pow_pos e))
  rw [Nat.cast_mul, ← div_div] at hnearest hnearest'
  rw [h] at hnearest
  rw [hnearest.unique hnearest']

end Rounding

open Rounding

namespace Json.Double

/-- Doubles reach much further down than singles. -/
theorem exists_cast_one_eq : ∃ k, 52 ≤ k ∧ (one : ℚ) = Single.one * 2 * 2 ^ k := by
  obtain ⟨k, hk, hone⟩ : ∃ k, 52 ≤ k ∧ one = Single.one * 2 * 2 ^ k :=
    ⟨924, by decide, by decide +kernel⟩
  refine ⟨k, hk, ?_⟩
  rw [hone]
  push_cast
  rfl

theorem cast_one_pos : (0 : ℚ) < one := by
  obtain ⟨k, -, hone⟩ := exists_cast_one_eq
  rw [hone]
  exact mul_pos (mul_pos Single.cast_one_pos two_pos) (by positivity)

theorem one_pos : 0 < one := Nat.cast_pos.mp cast_one_pos

end Json.Double

namespace Decimal

open Json

def value (d : Decimal) : ℚ := d.digits * 10 ^ d.exponent

/-- The magnitude of the nearest double. -/
def double (d : Decimal) : ℕ :=
  significant 53 (d.digits * 10 ^ d.exponent.toNat * Double.one) (10 ^ (-d.exponent).toNat)

variable {d : Decimal}

theorem units_eq (d : Decimal) : d.digits * gridStep d.exponent = d.value * Single.one :=
  (mul_assoc _ _ _).symm

/-- The value in other units. -/
theorem value_mul (d : Decimal) (one : ℕ) :
    ((d.digits * 10 ^ d.exponent.toNat * one : ℕ) : ℚ) / (10 ^ (-d.exponent).toNat : ℕ) =
      d.value * one := by
  rw [value, ten_zpow]
  push_cast
  ring

theorem double_congr {d' : Decimal} (h : d.value = d'.value) : d.double = d'.double :=
  significant_congr (Nat.pow_pos (by decide)) (Nat.pow_pos (by decide))
    (by rw [value_mul, value_mul, h])

/-- A value with a short significand is a double. -/
theorem double_exact {m k : ℕ} (hm : m < 2 ^ 53) (h : d.value * Double.one = m * 2 ^ k) :
    d.double = m * 2 ^ k := by
  have hquotient : ((d.digits * 10 ^ d.exponent.toNat * Double.one : ℕ) : ℚ) /
      (10 ^ (-d.exponent).toNat : ℕ) = (m * 2 ^ k * 1 : ℕ) / (1 : ℕ) := by
    rw [value_mul, h]
    push_cast
    ring
  rw [double, significant_congr (Nat.pow_pos (by decide)) Nat.one_pos hquotient,
    significant_exact hm k Nat.one_pos]

/-- The double of a decimal in units of the singles. -/
theorem within_double (h : 1 / 2 ≤ d.value * Single.one) :
    Within (1 / 2 ^ 53) ((d.double * Single.one : ℕ) / Double.one) (d.value * Single.one) := by
  have hpower : 0 < 10 ^ (-d.exponent).toNat := Nat.pow_pos (by decide)
  have hlarge : (2 : ℚ) ^ 52 ≤ d.value * Double.one := by
    obtain ⟨k, hk, hone⟩ := Double.exists_cast_one_eq
    have hmany : (2 : ℚ) ^ 52 ≤ 2 ^ k := pow_le_pow_right₀ (by norm_num) hk
    rw [hone, ← mul_assoc, ← mul_assoc]
    exact hmany.trans (le_mul_of_one_le_left (by positivity) (by linarith))
  have hsize : 2 ^ 52 * 10 ^ (-d.exponent).toNat ≤
      d.digits * 10 ^ d.exponent.toNat * Double.one := by
    rw [← Nat.cast_le (α := ℚ), Nat.cast_mul, ← le_div_iff₀ (Nat.cast_pos.mpr hpower), value_mul]
    exact_mod_cast hlarge
  have herror : Within (1 / 2 ^ 53) d.double (d.value * Double.one) := by
    have hround := abs_significant_sub_le hpower hsize
    rw [value_mul] at hround
    rw [Within, one_div, inv_mul_eq_div]
    exact hround
  have hone := Double.cast_one_pos
  have hscaled := herror.mul_right (div_nonneg Single.cast_one_pos.le hone.le)
  generalize d.double = f at hscaled ⊢
  generalize (Double.one : ℚ) = one at hone hscaled ⊢
  rwa [mul_div_assoc', mul_assoc, mul_div_cancel₀ _ hone.ne', ← Nat.cast_mul] at hscaled

end Decimal

end LineConsole
