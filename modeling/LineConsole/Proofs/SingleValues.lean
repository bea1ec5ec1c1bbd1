import LineConsole.Proofs.NumberTexts
import Mathlib.Data.Rat.Floor
import Mathlib.Order.WithBot
import Mathlib.Tactic.Ring

/-!
The values of singles. A finite magnitude has at most 24 significant binary digits, and every
magnitude with so few digits has a bit pattern of its own. So an integer with few digits becomes a
single without rounding, and to compare singles is to compare their values.
-/
namespace LineConsole

namespace Rounding

/-- At most 24 significant binary digits. -/
def Short (n : Nat) : Prop := ∃ m k, m < 2 ^ 24 ∧ n = m * 2 ^ k

theorem binaryLength_le_iff (n k : Nat) : binaryLength n ≤ k ↔ n < 2 ^ k := by
  unfold binaryLength
  split
  · next h => simp [h]
  · next h => exact (Nat.log2_lt h)

theorem lt_two_pow_binaryLength (n : Nat) : n < 2 ^ binaryLength n :=
  (binaryLength_le_iff n _).mp (Nat.le_refl _)

/-- What is left of a number without its low digits is below 2^24. -/
theorem div_excess_lt (n : Nat) : n / 2 ^ excess 24 n < 2 ^ 24 := by
  have hlt := lt_two_pow_binaryLength n
  have hlength : binaryLength n ≤ excess 24 n + 24 := by
    unfold excess
    omega
  apply Nat.div_lt_of_lt_mul
  rw [← Nat.pow_add]
  exact Nat.lt_of_lt_of_le hlt (Nat.pow_le_pow_right (by decide) hlength)

/-- If digits are cut off, the leading digit is the 24th. -/
theorem le_div_excess {n : Nat} (h : 0 < excess 24 n) : 2 ^ 23 ≤ n / 2 ^ excess 24 n := by
  rw [Nat.le_div_iff_mul_le (Nat.two_pow_pos _), ← Nat.pow_add]
  by_contra hlt
  have hlength := (binaryLength_le_iff n _).mpr (Nat.lt_of_not_le hlt)
  unfold excess at h hlength
  omega

/-- A significand that fits the precision keeps all of its digits. -/
theorem two_pow_excess_dvd {p m : Nat} (hm : m < 2 ^ p) (k : Nat) :
    2 ^ excess p (m * 2 ^ k) ∣ m * 2 ^ k := by
  have hlength : binaryLength (m * 2 ^ k) ≤ p + k := by
    rw [binaryLength_le_iff, Nat.pow_add]
    exact Nat.mul_lt_mul_of_pos_right hm (Nat.two_pow_pos k)
  have hexcess : excess p (m * 2 ^ k) ≤ k := by
    unfold excess
    omega
  exact Nat.dvd_trans (Nat.pow_dvd_pow 2 hexcess) (Nat.dvd_mul_left _ _)

/-- A quotient whose significand fits the precision is not rounded. -/
theorem significant_exact {p m : Nat} (hm : m < 2 ^ p) (k : Nat) {den : Nat} (hden : 0 < den) :
    significant p (m * 2 ^ k * den) den = m * 2 ^ k := by
  have hdvd := two_pow_excess_dvd hm k
  unfold significant
  dsimp only
  rw [Nat.mul_div_cancel _ hden, Nat.pow_eq, Nat.mul_comm den,
    nearest_of_dvd (Nat.mul_pos (Nat.two_pow_pos _) hden) (Nat.mul_dvd_mul_right hdvd den),
    Nat.mul_div_mul_right _ _ hden, Nat.div_mul_cancel hdvd]

theorem Short.dvd {n : Nat} (h : Short n) : 2 ^ excess 24 n ∣ n := by
  obtain ⟨m, k, hm, rfl⟩ := h
  exact two_pow_excess_dvd hm k

/-- A number that is short enough is not rounded. -/
theorem significant_of_short {n : Nat} (h : Short n) : significant 24 n 1 = n := by
  obtain ⟨m, k, hm, rfl⟩ := h
  have hexact := significant_exact hm k Nat.one_pos
  rwa [Nat.mul_one] at hexact

end Rounding

open Rounding

namespace Single

/-- The absolute value that exponent and fraction of a finite single stand for. -/
def magnitude (x : Single) : ℚ :=
  if x.exponent = 0 then x.fraction / 2 ^ 23 * (2 : ℚ) ^ (-126 : ℤ)
  else (1 + x.fraction / 2 ^ 23) * (2 : ℚ) ^ ((x.exponent : ℤ) - 127)

def value (x : Single) : ℚ := if x.isNegative then -x.magnitude else x.magnitude

theorem one_pos : 0 < one := Nat.two_pow_pos 149

theorem cast_one_pos : (0 : ℚ) < one := Nat.cast_pos.mpr one_pos

theorem cast_one : (one : ℚ) = 2 ^ 149 := by
  unfold one
  norm_num

theorem magnitude_eq (x : Single) : x.magnitude = x.units / one := by
  unfold magnitude units
  rw [cast_one]
  split
  · norm_num
    ring
  · next h =>
    obtain ⟨e, he⟩ := Nat.exists_eq_succ_of_ne_zero h
    have hpower : (2 : ℚ) ^ ((e.succ : ℤ) - 127) = 2 ^ e / 2 ^ 126 := by
      rw [Nat.cast_succ, show (e : ℤ) + 1 - 127 = (e : ℤ) - (126 : ℕ) by omega,
        zpow_sub₀ (by norm_num), zpow_natCast, zpow_natCast]
    rw [he, Nat.succ_sub_one, Nat.pow_eq, hpower]
    push_cast
    ring

theorem value_eq (x : Single) : x.value = x.scaled / one := by
  unfold value scaled
  rw [magnitude_eq]
  split
  · push_cast
    ring
  · push_cast
    rfl

/-! Bit patterns -/

theorem fraction_lt (x : Single) : x.fraction < 2 ^ 23 := Nat.mod_lt _ (by decide)

theorem short_units (x : Single) : Short x.units := by
  have hfraction := x.fraction_lt
  unfold units
  split
  · exact ⟨x.fraction, 0, by omega, (Nat.mul_one _).symm⟩
  · exact ⟨0x800000 + x.fraction, x.exponent - 1, by omega, rfl⟩

/-- Sign, exponent and fraction of a pattern whose lower 31 bits are `m`. -/
theorem fields_ofNat {m : Nat} (hm : m < 0x80000000) (negative : Bool) :
    let x : Single := ⟨UInt32.ofNat (if negative then 0x80000000 + m else m)⟩
    x.isNegative = negative ∧ x.exponent = m / 0x800000 ∧ x.fraction = m % 0x800000 := by
  intro x
  have hbits : x.bits.toNat = if negative then 0x80000000 + m else m := by
    apply UInt32.toNat_ofNat_of_lt'
    rw [UInt32.size]
    split <;> omega
  unfold isNegative exponent fraction
  rw [hbits]
  cases negative with
  | false =>
    rw [if_neg Bool.false_ne_true, decide_eq_false_iff_not]
    omega
  | true =>
    rw [if_pos rfl, decide_eq_true_iff]
    omega

/-- A magnitude with few digits is the magnitude of its pattern. -/
theorem fields_ofUnits {u : Nat} (h : Short u) (hu : u < 2 ^ 128 * one) (negative : Bool) :
    (ofUnits negative u).isNegative = negative ∧ (ofUnits negative u).exponent ≠ 255 ∧
      (ofUnits negative u).units = u := by
  have hlength : binaryLength u ≤ 128 + 149 := by
    rw [binaryLength_le_iff, Nat.pow_add]
    exact hu
  have hexcess : excess 24 u ≤ 253 := by
    unfold excess
    omega
  have hlt := div_excess_lt u
  have hwhole : u / 2 ^ excess 24 u * 2 ^ excess 24 u = u := Nat.div_mul_cancel h.dvd
  have htop : 2 ^ 128 * one ≤ Nat.pow 2 277 := by decide +kernel
  have hmin : min u (Nat.pow 2 277) = u :=
    Nat.min_eq_left (Nat.le_trans (Nat.le_of_lt hu) htop)
  unfold ofUnits
  dsimp only
  rw [hmin, Nat.pow_eq]
  obtain ⟨hsign, hexponent, hfraction⟩ := fields_ofNat
    (m := excess 24 u * 0x800000 + u / 2 ^ excess 24 u) (by omega) negative
  refine ⟨hsign, by rw [hexponent]; omega, ?_⟩
  unfold units
  rw [hexponent, hfraction]
  generalize hq : u / 2 ^ excess 24 u = q at hlt hwhole
  by_cases hsmall : q < 2 ^ 23
  · -- Nothing was cut off, and the exponent is that of the smallest singles.
    have hzero : excess 24 u = 0 := by
      by_contra hpos
      have hle := le_div_excess (Nat.pos_of_ne_zero hpos)
      omega
    rw [hzero, Nat.pow_zero, Nat.mul_one] at hwhole
    rw [hzero, if_pos (by omega), ← hwhole]
    omega
  · have hlead : (excess 24 u * 0x800000 + q) / 0x800000 = excess 24 u + 1 := by omega
    have hrest : 0x800000 + (excess 24 u * 0x800000 + q) % 0x800000 = q := by omega
    rw [hlead, hrest, if_neg (Nat.succ_ne_zero _), Nat.add_sub_cancel]
    exact hwhole

theorem excess_units (x : Single) : excess 24 x.units = x.exponent - 1 := by
  have hfraction := x.fraction_lt
  unfold units
  split
  · next hzero =>
    have hlength : binaryLength x.fraction ≤ 24 := (binaryLength_le_iff _ _).mpr (by omega)
    unfold excess
    omega
  · generalize x.exponent - 1 = e
    rw [Nat.pow_eq]
    have hhigh : binaryLength ((0x800000 + x.fraction) * 2 ^ e) ≤ 24 + e := by
      rw [binaryLength_le_iff, Nat.pow_add]
      exact Nat.mul_lt_mul_of_pos_right (by omega) (Nat.two_pow_pos e)
    have hlow : ¬ binaryLength ((0x800000 + x.fraction) * 2 ^ e) ≤ 23 + e := by
      rw [binaryLength_le_iff, Nat.pow_add, Nat.not_lt]
      exact Nat.mul_le_mul_right _ (by omega)
    unfold excess
    omega

theorem toNat_bits (x : Single) :
    x.bits.toNat =
      if x.isNegative then 0x80000000 + (x.exponent * 0x800000 + x.fraction)
      else x.exponent * 0x800000 + x.fraction := by
  have hbits := x.bits.toNat_lt
  unfold isNegative exponent fraction
  simp only [decide_eq_true_eq]
  split <;> omega

/-- Sign and magnitude determine a finite single. -/
theorem ofUnits_units {x : Single} (h : x.isFinite) : ofUnits x.isNegative x.units = x := by
  have hlimit : min x.units (Nat.pow 2 277) = x.units := by
    have hlt : x.units < 2 ^ 128 * one := x.units_lt (by simpa [isFinite] using h)
    have htop : 2 ^ 128 * one ≤ Nat.pow 2 277 := by decide +kernel
    exact Nat.min_eq_left (hlt.le.trans htop)
  have hmagnitude : (x.exponent - 1) * 0x800000 + x.units / 2 ^ (x.exponent - 1) =
      x.exponent * 0x800000 + x.fraction := by
    unfold units
    split
    · next hzero => simp [hzero]
    · rw [Nat.pow_eq, Nat.mul_div_cancel _ (Nat.two_pow_pos _)]
      omega
  unfold ofUnits
  dsimp only
  rw [hlimit, excess_units, Nat.pow_eq, hmagnitude, ← toNat_bits, UInt32.ofNat_toNat]

/-! Integers as singles -/

/-- An integer with few digits becomes a single without rounding. -/
theorem scaled_ofInt {n : Int} (h : Short (n.natAbs * one)) (hn : n.natAbs < 2 ^ 128) :
    (ofInt n).isNaN = false ∧ (ofInt n).scaled = n * one := by
  have hlt : n.natAbs * one < 2 ^ 128 * one := Nat.mul_lt_mul_of_pos_right hn one_pos
  obtain ⟨hsign, hexponent, hunits⟩ := fields_ofUnits h hlt (n < 0)
  rw [ofInt, ofQuotient, significant_of_short h, isNaN, scaled, hsign, hunits]
  constructor
  · simp [hexponent]
  · by_cases hneg : n < 0
    · rw [if_pos (decide_eq_true hneg), Nat.cast_mul, Int.ofNat_natAbs_of_nonpos (by omega)]
      ring
    · rw [if_neg (by simpa using hneg), Nat.cast_mul, Int.natAbs_of_nonneg (by omega)]

theorem natAbs_scaled (x : Single) : x.scaled.natAbs = x.units := by
  unfold scaled
  split
  · rw [Int.natAbs_neg, Int.natAbs_natCast]
  · rw [Int.natAbs_natCast]

/-- The whole part of a single has few digits too. -/
theorem short_truncate (x : Single) : Short (x.truncate.natAbs * one) := by
  obtain ⟨m, k, hm, hunits⟩ := x.short_units
  rw [truncate, Int.natAbs_tdiv, natAbs_scaled, Int.natAbs_natCast, hunits]
  by_cases hk : 149 ≤ k
  · refine ⟨m, k, hm, Nat.div_mul_cancel ?_⟩
    exact Nat.dvd_mul_left_of_dvd (Nat.pow_dvd_pow 2 hk) m
  · refine ⟨m * 2 ^ k / one, 149, ?_, rfl⟩
    have hpower : 2 ^ k ≤ one := Nat.pow_le_pow_right (by decide) (by omega)
    apply Nat.div_lt_of_lt_mul
    calc m * 2 ^ k ≤ m * one := Nat.mul_le_mul_left m hpower
      _ < 2 ^ 24 * one := Nat.mul_lt_mul_of_pos_right hm one_pos
      _ = one * 2 ^ 24 := Nat.mul_comm _ _

/-! Comparison -/

section Comparison

variable {x y : Single}

theorem isFinite_iff : x.isFinite ↔ x.isNaN = false ∧ x.isInfinite = false := by
  unfold isNaN isInfinite isFinite
  by_cases hexponent : x.exponent = 255
  · by_cases hfraction : x.fraction = 0 <;> simp [hexponent, hfraction]
  · simp [hexponent]

theorem isInfinite_iff : x.isInfinite ↔ x.exponent = 255 ∧ x.fraction = 0 := by
  simp [isInfinite]

theorem not_isNaN_of_isInfinite (h : x.isInfinite) : x.isNaN = false := by
  simp [isNaN, isInfinite_iff.mp h]

theorem isFinite_of_not_isInfinite (hx : x.isNaN = false) (h : ¬ x.isInfinite) : x.isFinite :=
  isFinite_iff.mpr ⟨hx, Bool.eq_false_of_not_eq_true h⟩

theorem lt_iff (hx : x.isNaN = false) (hy : y.isNaN = false) :
    x.lt y ↔ x.scaled < y.scaled := by
  simp [lt, hx, hy]

theorem le_iff (hx : x.isNaN = false) (hy : y.isNaN = false) :
    x.le y ↔ x.scaled ≤ y.scaled := by
  simp [le, hx, hy]

theorem value_lt_intCast (n : Int) : x.value < n ↔ x.scaled < n * one := by
  rw [value_eq, div_lt_iff₀ cast_one_pos]
  exact_mod_cast Iff.rfl

theorem floor_value (x : Single) : ⌊x.value⌋ = x.scaled / one := by
  rw [value_eq, Rat.floor_intCast_div_natCast]

/-- The value of a single that is a number, infinities included. -/
def extended (x : Single) : WithBot (WithTop ℚ) :=
  if x.isInfinite then (if x.isNegative then ⊥ else ⊤) else ((x.value : WithTop ℚ) : WithBot _)

/-- The magnitude that stands for an infinity. -/
def top : Int := ((2 ^ 128 * one : Nat) : Int)

theorem top_pos : 0 < top := Int.natCast_pos.mpr (Nat.mul_pos (Nat.two_pow_pos 128) one_pos)

theorem scaled_of_isInfinite (h : x.isInfinite) :
    x.scaled = if x.isNegative then -top else top := by
  obtain ⟨hexponent, hfraction⟩ := isInfinite_iff.mp h
  have hunits : x.units = 2 ^ 128 * one := by
    rw [units, hexponent, hfraction]
    decide +kernel
  rw [scaled, hunits, top]

/-- What a single that is a number stands for, and its place among all singles. -/
theorem extended_cases (h : x.isNaN = false) :
    (x.extended = ⊥ ∧ x.scaled = -top) ∨ (x.extended = ⊤ ∧ x.scaled = top) ∨
      (x.extended = ((x.value : WithTop ℚ) : WithBot _) ∧ -top < x.scaled ∧ x.scaled < top) := by
  by_cases hinfinite : x.isInfinite
  · rw [extended, if_pos hinfinite, scaled_of_isInfinite hinfinite]
    cases x.isNegative with
    | true => exact Or.inl ⟨rfl, rfl⟩
    | false => exact Or.inr (Or.inl ⟨rfl, rfl⟩)
  · have hfinite := isFinite_of_not_isInfinite h hinfinite
    have hlt : x.units < 2 ^ 128 * one := x.units_lt (by simpa [isFinite] using hfinite)
    rw [extended, if_neg hinfinite]
    refine Or.inr (Or.inr ⟨rfl, ?_⟩)
    unfold top scaled
    generalize 2 ^ 128 * one = limit at hlt ⊢
    split <;> omega

/-- The order of singles is that of their values. -/
theorem le_iff_extended (hx : x.isNaN = false) (hy : y.isNaN = false) :
    x.le y ↔ x.extended ≤ y.extended := by
  have htop := top_pos
  have hvalue : x.value ≤ y.value ↔ x.scaled ≤ y.scaled := by
    rw [value_eq, value_eq, div_le_div_iff_of_pos_right cast_one_pos, Int.cast_le]
  rw [le_iff hx hy]
  obtain ⟨hx, hxs⟩ | ⟨hx, hxs⟩ | ⟨hx, hxs⟩ := extended_cases hx
  · rw [hx]
    refine iff_of_true ?_ bot_le
    obtain ⟨-, hys⟩ | ⟨-, hys⟩ | ⟨-, hys⟩ := extended_cases hy <;> omega
  · rw [hx, top_le_iff]
    obtain ⟨hy, hys⟩ | ⟨hy, hys⟩ | ⟨hy, hys⟩ := extended_cases hy
    · exact iff_of_false (by omega) (by rw [hy]; exact bot_ne_top)
    · exact iff_of_true (by omega) hy
    · refine iff_of_false (by omega) ?_
      rw [hy]
      exact fun h => WithTop.coe_ne_top (WithBot.coe_injective h)
  · obtain ⟨hy, hys⟩ | ⟨hy, hys⟩ | ⟨hy, hys⟩ := extended_cases hy
    · refine iff_of_false (by omega) ?_
      rw [hx, hy, le_bot_iff]
      exact WithBot.coe_ne_bot
    · refine iff_of_true (by omega) ?_
      rw [hy]
      exact le_top
    · rw [hx, hy, WithBot.coe_le_coe, WithTop.coe_le_coe, hvalue]

end Comparison

end Single

end LineConsole
