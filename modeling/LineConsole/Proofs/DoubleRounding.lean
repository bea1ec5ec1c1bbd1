import LineConsole.Proofs.NearMisses

/-!
The shortest decimal of a single, rounded to a double and then to a single. If the double left the
rounding interval, the decimal would be next to an end of it. Then it is this end, where no rounding
takes place, or it is harmless, or it is the one decimal that is lost.
-/
namespace LineConsole

open Rounding

namespace Single

variable {x : Single} {d : Decimal} {w : ℚ}

/-- If a value next to a short decimal is rounded to another single, an end of the interval is next
to the decimal, and the grid is not much finer than a half step of this end. -/
theorem IsShortest.exists_end (h : x.isFinite) (hpos : 0 < x.units) (hd : x.IsShortest d)
    (hclose : Within (1 / 2 ^ 53) w (d.digits * gridStep d.exponent)) (hout : ¬ x.Rounds w) :
    ∃ n j : ℕ, n < 2 ^ 25 ∧ j < 254 ∧ 7 / 8 * (2 ^ j / 2) ≤ gridStep d.exponent ∧
      Within (5 / 2 ^ 54) (d.digits * gridStep d.exponent) (n * 2 ^ j / 2) ∧
      (gridStep d.exponent < 15 / 8 * (2 ^ j / 2) → n = 2 ^ 24 + 1) := by
  obtain ⟨m, hm, hless⟩ := hd.rounds.exists_end hout
  obtain ⟨n, j, hn, hj, hend, hhalf, hreach⟩ := exists_end_eq h hpos hm
  have hstep : (0 : ℚ) < 2 ^ j / 2 := by positivity
  have hnear : Within (5 / 2 ^ 54) (d.digits * gridStep d.exponent) m := by
    have hother : Within (1 / 2 ^ 53) m (d.digits * gridStep d.exponent) := by
      rw [Within, abs_sub_comm]
      exact hless.trans hclose
    refine (hother.symm (by norm_num) (by norm_num)).mono (by norm_num) ?_
    rw [hend]
    positivity
  have hsmall : |d.digits * gridStep d.exponent - m| ≤ 1 / 32 * (2 ^ j / 2) := by
    have hcast : (n : ℚ) ≤ 2 ^ 25 := by exact_mod_cast hn.le
    have hsize := mul_le_mul_of_nonneg_right hcast hstep.le
    refine hnear.trans ?_
    rw [hend, mul_div_assoc]
    linarith
  have hdistance := abs_sub_le (x.units : ℚ) (d.digits * gridStep d.exponent) m
  rw [hhalf, abs_sub_comm (x.units : ℚ)] at hdistance
  have hgrid := hd.near
  refine ⟨n, j, hn, hj, by linarith, hend ▸ hnear, fun hfine => ?_⟩
  by_contra hother
  obtain ⟨opposite, hopposite⟩ := hd.exists_opposite hpos
  have hnearest := hd.nearest opposite (hreach hother _ (by linarith))
  linarith

end Single

namespace Json.Double

open Single

variable {x : Single} {d : Decimal}

/-- A decimal at an end is read without an error. -/
theorem double_of_end {m j : ℕ} (hm : m < 2 ^ 25)
    (h : d.digits * gridStep d.exponent = (m * 2 ^ j / 2 : ℚ)) :
    ((d.double * Single.one : ℕ) : ℚ) / one = d.digits * gridStep d.exponent := by
  obtain ⟨k, -, hone⟩ := exists_cast_one_eq
  have hone' := cast_one_pos
  rw [Decimal.units_eq] at h ⊢
  have hvalue : d.value * one = m * 2 ^ (j + k) := by
    rw [hone, ← mul_assoc, ← mul_assoc, h, pow_add]
    ring
  rw [Nat.cast_mul, Decimal.double_exact (hm.trans (by decide)) hvalue]
  push_cast
  rw [← hvalue, mul_right_comm, mul_div_cancel_right₀ _ hone'.ne']

theorem significant_decimal {x : Single} (hd : x.Rounds (d.digits * gridStep d.exponent)) :
    significant 24 (d.digits * 10 ^ d.exponent.toNat * Single.one) (10 ^ (-d.exponent).toNat) =
      x.units := by
  refine Single.Rounds.significant_eq (Nat.pow_pos (by decide)) ?_
  rw [Decimal.value_mul, ← Decimal.units_eq]
  exact hd

/-- The double of a decimal is close to it. -/
theorem within_of_rounds (hpos : 0 < x.units) (hd : x.Rounds (d.digits * gridStep d.exponent)) :
    Within (1 / 2 ^ 53) ((d.double * Single.one : ℕ) / one : ℚ)
      (d.digits * gridStep d.exponent) := by
  have hhalf := (half_le_low hpos).trans hd.low_le
  rw [Decimal.units_eq] at hhalf ⊢
  exact Decimal.within_double hhalf

theorem significant_double (h : x.isFinite) (hpos : 0 < x.units) (hd : x.IsShortest d) :
    significant 24 (d.double * Single.one) one = x.units ∨ d = lost := by
  by_cases hin : x.Rounds ((d.double * Single.one : ℕ) / one)
  · exact Or.inl (hin.significant_eq one_pos)
  obtain ⟨n, j, hn, hj, hgrid, hnear, hfine⟩ :=
    hd.exists_end h hpos (within_of_rounds hpos hd.rounds) hin
  obtain hend | ⟨hexponent, hinnocuous | hlost | ⟨hstep, hpower⟩⟩ :=
    eq_end_or_accounted hj hn (hd.digits_pos hpos) hgrid hnear
  · rw [double_of_end hn hend] at hin
    exact absurd hd.rounds hin
  · exact Or.inl (hinnocuous.trans (significant_decimal hd.rounds))
  · exact Or.inr hlost
  · -- The grid is too fine for its nearest point to be at an end.
    refine absurd (hfine ?_) hpower
    have hden : (0 : ℚ) < gridDen j := Nat.cast_pos.mpr (gridDen_pos j)
    have hhalf : (0 : ℚ) < 2 ^ j / 2 := by positivity
    have hcast : (8 * gridNum j : ℚ) < 15 * gridDen j := by exact_mod_cast hstep
    refine lt_of_mul_lt_mul_right ?_ hden.le
    rw [hexponent, gridStep_finest]
    have hscaled := mul_lt_mul_of_pos_right hcast hhalf
    linarith

/-! The single whose decimal is lost -/

/-- The magnitude next to an end of its interval. -/
def IsNearMiss (x : Single) : Prop := x.bits = 0x15AE43FD ∨ x.bits = 0x95AE43FD

instance (x : Single) : Decidable (IsNearMiss x) :=
  inferInstanceAs (Decidable (_ ∨ _))

theorem IsNearMiss.units_eq (h : IsNearMiss x) :
    x.units = 11420669 * 2 ^ 42 ∧ x.gapBelow = 4 * 2 ^ 42 ∧ x.gapAbove = 4 * 2 ^ 42 := by
  obtain ⟨bits⟩ := x
  rcases h with rfl | rfl <;> decide +kernel

theorem isNearMiss_of_rounds (h : x.isFinite)
    (hlost : x.Rounds (lost.digits * gridStep lost.exponent)) : IsNearMiss x := by
  have hunits : x.units = 11420669 * 2 ^ 42 :=
    (significant_decimal hlost).symm.trans (by decide +kernel)
  rw [← Single.ofUnits_units h, hunits]
  cases x.isNegative <;> decide +kernel

theorem IsNearMiss.rounds_lost (h : IsNearMiss x) :
    x.Rounds (lost.digits * gridStep lost.exponent) := by
  obtain ⟨bits⟩ := x
  rcases h with rfl | rfl
  · exact (admits_gridPoint (by decide +kernel) _ _).mp (by decide +kernel)
  · exact (admits_gridPoint (by decide +kernel) _ _).mp (by decide +kernel)

/-- The interval is shorter than a step of the grid of the lost decimal. -/
theorem IsNearMiss.ends (h : IsNearMiss x) :
    (lost.digits - 1) * gridStep lost.exponent < x.low ∧
      x.high < (lost.digits + 1) * gridStep lost.exponent := by
  obtain ⟨hunits, hbelow, habove⟩ := h.units_eq
  rw [low, high, hunits, hbelow, habove, gridStep, cast_one, lost]
  constructor <;> norm_num

/-- A decimal with as few digits lies on that grid, which has no second point in the interval. -/
theorem IsNearMiss.value_eq (h : IsNearMiss x) (hd : x.IsShortest d) : d.value = lost.value := by
  obtain ⟨hlow, hhigh⟩ := h.ends
  have hstep := gridStep_pos lost.exponent
  have hlength : d.digits < 10 ^ 7 :=
    (Nat.length_toDigits_le_iff (by decide) (by decide)).mp (hd.fewest lost h.rounds_lost)
  have hcoarse : lost.exponent ≤ d.exponent := by
    by_contra! hlt
    have hfine : gridStep d.exponent ≤ gridStep (-33) := gridStep_mono (Int.le_of_lt_add_one hlt)
    have hten : gridStep lost.exponent = 10 * gridStep (-33) := by
      rw [← gridStep_succ]
      rfl
    have hpoint := hlow.trans_le hd.rounds.low_le
    have hcast : (d.digits : ℚ) ≤ 10 ^ 7 := by exact_mod_cast hlength.le
    have hsize := mul_le_mul hcast hfine (gridStep_pos _).le (by norm_num)
    have hdigits : (lost.digits : ℚ) = 7038531 := by
      rw [lost]
      norm_num
    rw [hdigits] at hpoint
    linarith
  obtain ⟨t, -, hvalue⟩ := exists_on_finer hcoarse d.digits
  have hbelow := hlow.trans_le hd.rounds.low_le
  have habove := hd.rounds.le_high.trans_lt hhigh
  rw [hvalue] at hbelow habove
  generalize d.digits * 10 ^ t = n at hvalue hbelow habove
  have hmore := lt_of_mul_lt_mul_right hbelow hstep.le
  have hless := lt_of_mul_lt_mul_right habove hstep.le
  obtain rfl : n = lost.digits := by
    have hmore' : (lost.digits : ℚ) < n + 1 := by linarith
    have hmore : lost.digits < n + 1 := by exact_mod_cast hmore'
    have hless : n < lost.digits + 1 := by exact_mod_cast hless
    omega
  rw [Decimal.units_eq, Decimal.units_eq lost] at hvalue
  exact mul_right_cancel₀ Single.cast_one_pos.ne' hvalue

/-- The single that is read in the place of the one that was written. -/
theorem IsNearMiss.ofUnits_lost (h : IsNearMiss x) :
    ofUnits x.isNegative (significant 24 (lost.double * Single.one) one) = ⟨x.bits + 1⟩ := by
  obtain ⟨bits⟩ := x
  rcases h with rfl | rfl <;> decide +kernel

/-- Written as its shortest decimal and read by way of a double, a magnitude comes back, but for
one that becomes the next one. -/
theorem ofUnits_significant_double (h : x.isFinite) (hpos : 0 < x.units) (hd : x.IsShortest d) :
    ofUnits x.isNegative (significant 24 (d.double * Single.one) one) =
      if IsNearMiss x then ⟨x.bits + 1⟩ else x := by
  split
  · next hmiss =>
    rw [Decimal.double_congr (hmiss.value_eq hd)]
    exact hmiss.ofUnits_lost
  · next hmiss =>
    obtain hunits | rfl := significant_double h hpos hd
    · rw [hunits, ofUnits_units h]
    · exact absurd (isNearMiss_of_rounds h hd.rounds) hmiss

/-- No decimal of a single is too large for a double. -/
theorem double_lt_limit (h : x.isFinite) (hpos : 0 < x.units)
    (hd : x.Rounds (d.digits * gridStep d.exponent)) : d.double < limit := by
  have hless : (d.digits * gridStep d.exponent : ℚ) < 2 ^ 277 := by
    have hscale := scale_le h
    exact hd.lt_two_pow.trans_le (pow_le_pow_right₀ (by norm_num) (by omega))
  obtain ⟨-, hhigh⟩ := abs_le.mp (within_of_rounds hpos hd)
  have hunits : ((d.double * Single.one : ℕ) : ℚ) / one < 2 ^ 278 := by
    have htop : (0 : ℚ) < 2 ^ 277 := by positivity
    rw [pow_succ]
    generalize (2 : ℚ) ^ 277 = top at hless htop ⊢
    linarith
  rw [div_lt_iff₀ cast_one_pos] at hunits
  have hwhole : d.double * Single.one < 2 ^ 278 * one := by exact_mod_cast hunits
  have hlimit : 2 ^ 278 * one ≤ limit := by decide +kernel
  calc d.double ≤ d.double * Single.one := Nat.le_mul_of_pos_right _ Single.one_pos
    _ < 2 ^ 278 * one := hwhole
    _ ≤ limit := hlimit

end Json.Double

end LineConsole
