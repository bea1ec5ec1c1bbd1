import LineConsole.Proofs.Doubles
import Mathlib.Tactic.LinearCombination

/-!
Decimals next to an end of a rounding interval. Being read as a double and then rounded to a single,
such a decimal might end up on the other side. Whether an end is that close is a question about
small values of a linear form in two whole numbers, the significands of decimal and end: two
neighbouring fractions answer it for each power of two. They leave a handful of decimals. Most of
these are on their own side after both roundings, one is not, and one is not the nearest on its grid.
-/
namespace LineConsole

/-! Small values of a linear form -/

/-- A combination of two positive numbers between zero and the second one, which is not a multiple
of the first, has coefficients of opposite signs. -/
theorem mul_neg_of_between {i k r r' : ℤ} (hr : 0 < r) (hlow : 0 < i * r + k * r')
    (hhigh : i * r + k * r' < r') (hk : k ≠ 0) : i * k < 0 := by
  have hr' : 0 < r' := hlow.trans hhigh
  rcases lt_or_gt_of_ne hk with hneg | hpos
  · refine mul_neg_of_pos_of_neg ?_ hneg
    by_contra! hi
    have hleft := mul_nonpos_of_nonpos_of_nonneg hi hr.le
    have hright := mul_neg_of_neg_of_pos hneg hr'
    omega
  · refine mul_neg_of_neg_of_pos ?_ hpos
    by_contra! hi
    have hleft := mul_nonneg hi hr.le
    have hright := le_mul_of_one_le_left hr'.le (Int.add_one_le_of_lt hpos)
    omega

/-- Two fractions around the quotient `b / a` are neighbours. Then only multiples of the first one
come closer than both of them together, up to the denominator of the second. -/
theorem exists_eq_mul_of_small {a b r p r' p' s m : ℤ} (hdet : (r * p' - p * r').natAbs = 1)
    (hsides : (r * a - p * b) * (r' * a - p' * b) ≤ 0) (hr : 0 < r) (hs : 0 < s) (hs' : s < r')
    (hsmall : |s * a - m * b| < |r * a - p * b| + |r' * a - p' * b|) :
    ∃ i, 0 < i ∧ s = i * r ∧ m = i * p := by
  -- Both fractions together span the pairs of whole numbers.
  obtain ⟨i, k, rfl, rfl⟩ : ∃ i k, s = i * r + k * r' ∧ m = i * p + k * p' := by
    rcases Int.natAbs_eq (r * p' - p * r') with h | h <;> rw [hdet] at h
    · exact ⟨s * p' - m * r', m * r - s * p, by linear_combination -s * h,
        by linear_combination -m * h⟩
    · exact ⟨m * r' - s * p', s * p - m * r, by linear_combination s * h,
        by linear_combination m * h⟩
  rcases eq_or_ne k 0 with rfl | hk
  · rw [zero_mul, add_zero] at hs ⊢
    exact ⟨i, pos_of_mul_pos_left hs hr.le, rfl, by rw [zero_mul, add_zero]⟩
  · -- The coefficients have opposite signs, and so the distances add up.
    have hik := mul_neg_of_between hr hs hs' hk
    have hi : 1 ≤ |i| := Int.one_le_abs (left_ne_zero_of_mul hik.ne)
    have hform : (i * r + k * r') * a - (i * p + k * p') * b =
        i * (r * a - p * b) + k * (r' * a - p' * b) := by ring
    rw [hform] at hsmall
    have hsame : 0 ≤ i * (r * a - p * b) * (k * (r' * a - p' * b)) := by
      rw [mul_mul_mul_comm]
      exact mul_nonneg_of_nonpos_of_nonpos hik.le hsides
    have hsum := (abs_add_eq_add_abs_iff _ _).mpr (mul_nonneg_iff.mp hsame)
    have hleft := le_mul_of_one_le_left (abs_nonneg (r * a - p * b)) hi
    have hright := le_mul_of_one_le_left (abs_nonneg (r' * a - p' * b)) (Int.one_le_abs hk)
    rw [hsum, abs_mul, abs_mul] at hsmall
    exact absurd hsmall (not_lt.mpr (add_le_add hleft hright))

/-! The certificate -/

namespace Json.Double

open Rounding

/-- Reading a decimal as a double and rounding that to a single gives the same as rounding the
decimal itself. -/
def Innocuous (d : Decimal) : Prop :=
  significant 24 (d.double * Single.one) one =
    significant 24 (d.digits * 10 ^ d.exponent.toNat * Single.one) (10 ^ (-d.exponent).toNat)

instance (d : Decimal) : Decidable (Innocuous d) :=
  inferInstanceAs (Decidable (_ = _))

/-- The decimal that is rounded to another single by way of its double. -/
def lost : Decimal := ⟨7038531, -32⟩

/-- Two neighbouring fractions `p / r` and `p' / r'`. -/
structure Neighbours where
  r : ℕ
  p : ℕ
  r' : ℕ
  p' : ℕ

/-- The finest grid of decimals that have an end of half steps `2 ^ j / 2` next to them. -/
def finest (j : ℕ) : ℤ := (1233 * j - 181090) / 4096

/-- The step of that grid in half steps is `gridNum j / gridDen j`. -/
def gridNum (j : ℕ) : ℕ := 10 ^ (finest j).toNat * 2 ^ 150

def gridDen (j : ℕ) : ℕ := 2 ^ j * 10 ^ (-finest j).toNat

/-- How far `s` steps of the grid are from `m` half steps. -/
def offset (j s m : ℕ) : ℤ := s * gridNum j - m * gridDen j

/-- Euclid's algorithm on the distances `x` and `y` of two neighbouring fractions. It stops at the
first fraction whose denominator reaches the bound. -/
def approach (bound : ℕ) : (fuel x y : ℕ) → Neighbours → Neighbours
  | 0, _, _, n => n
  | fuel + 1, x, y, n =>
      if y = 0 ∨ bound ≤ n.r' + x / y * n.r then
        let t := (bound - n.r' + n.r - 1) / n.r
        ⟨n.r, n.p, n.r' + t * n.r, n.p' + t * n.p⟩
      else approach bound fuel y (x % y) ⟨n.r' + x / y * n.r, n.p' + x / y * n.p, n.r, n.p⟩

def neighbours (j : ℕ) : Neighbours :=
  let a := gridNum j
  let b := gridDen j
  approach (2 ^ 26 * b / a + 1) 64 b (a % b) ⟨1, a / b, 0, 1⟩

/-- The decimal is close to the end of `m` half steps. Either that is harmless or it is the one that
is lost, or its grid is so fine that a point on the other side of the single would be nearer. -/
def Accounted (d : Decimal) (j m : ℕ) : Prop :=
  Innocuous d ∨ d = lost ∨ (8 * gridNum j < 15 * gridDen j ∧ m ≠ 2 ^ 24 + 1)

instance (d : Decimal) (j m : ℕ) : Decidable (Accounted d j m) :=
  inferInstanceAs (Decidable (_ ∨ _))

/-- What the fractions have to satisfy. The only decimals that come close to an end are multiples of
the first fraction, and these are too far away, or equal to the end, or too long, or accounted for.
-/
@[mk_iff]
structure Settles (n : Neighbours) (j : ℕ) : Prop where
  grid : 8 * gridNum j < 70 * gridDen j
  det : (n.r * n.p' - n.p * n.r' : ℤ).natAbs = 1
  sides : offset j n.r n.p * offset j n.r' n.p' ≤ 0
  pos : 0 < n.r
  size : 2 ^ 26 * gridDen j ≤ n.r' * gridNum j
  apart : 5 * gridDen j < (|offset j n.r n.p| + |offset j n.r' n.p'|) * 2 ^ 29
  first : n.r * gridNum j = n.p * gridDen j ∨
    5 * (n.p * gridDen j) < |offset j n.r n.p| * 2 ^ 54 ∨
    2 ^ 25 ≤ n.p ∨ (2 ^ 24 ≤ n.p ∧ ¬ 10 ∣ n.r ∧ Accounted ⟨n.r, finest j⟩ j n.p)

instance (n : Neighbours) (j : ℕ) : Decidable (Settles n j) :=
  decidable_of_iff' _ (settles_iff n j)

theorem settles_neighbours : ∀ j < 254, Settles (neighbours j) j := by
  decide +kernel

theorem gridDen_pos (j : ℕ) : 0 < gridDen j :=
  Nat.mul_pos (Nat.two_pow_pos j) (Nat.pow_pos (by decide))

/-- The step of the grid, as a multiple of half steps. -/
theorem gridStep_finest (j : ℕ) :
    gridStep (finest j) * gridDen j = gridNum j * (2 ^ j / 2) := by
  have hpower : (0 : ℚ) < 10 ^ (-finest j).toNat := by positivity
  rw [gridStep, ten_zpow, Single.cast_one, gridDen, gridNum]
  push_cast
  field_simp
  ring

theorem offset_mul (i j s m : ℕ) : offset j (i * s) (i * m) = i * offset j s m := by
  unfold offset
  push_cast
  ring

variable {s m j : ℕ} {exponent : ℤ}

/-- Only multiples of the first fraction are close to an end. -/
theorem Settles.exists_multiple {n : Neighbours} (h : Settles n j) (hm : m < 2 ^ 25) (hs : 0 < s)
    (hclose : |offset j s m| * 2 ^ 54 ≤ 5 * (m * gridDen j)) :
    ∃ i : ℕ, 0 < i ∧ s = i * n.r ∧ m = i * n.p := by
  have hend : m * gridDen j < 2 ^ 25 * gridDen j := Nat.mul_lt_mul_of_pos_right hm (gridDen_pos j)
  have hshort : s < n.r' := by
    have hsize := h.size
    have hle := le_abs_self (offset j s m)
    have hlt : s * gridNum j < n.r' * gridNum j := by
      unfold offset at *
      omega
    exact Nat.lt_of_mul_lt_mul_right hlt
  have hsmall : |offset j s m| < |offset j n.r n.p| + |offset j n.r' n.p'| := by
    have hapart := h.apart
    omega
  obtain ⟨i, hi, hsi, hmi⟩ := exists_eq_mul_of_small h.det h.sides (Nat.cast_pos.mpr h.pos)
    (Nat.cast_pos.mpr hs) (Nat.cast_lt.mpr hshort) hsmall
  lift i to ℕ using hi.le
  exact ⟨i, by exact_mod_cast hi, by exact_mod_cast hsi, by exact_mod_cast hmi⟩

/-- A decimal of the grid that is close to an end is equal to it or accounted for. -/
theorem Settles.eq_or_accounted {n : Neighbours} (h : Settles n j) (hm : m < 2 ^ 25) (hs : 0 < s)
    (hclose : |offset j s m| * 2 ^ 54 ≤ 5 * (m * gridDen j)) :
    s * gridNum j = m * gridDen j ∨ (¬ 10 ∣ s ∧ Accounted ⟨s, finest j⟩ j m) := by
  obtain ⟨i, hi, rfl, rfl⟩ := h.exists_multiple hm hs hclose
  rw [offset_mul, abs_mul, Nat.abs_cast, mul_assoc] at hclose
  have hfirst : |offset j n.r n.p| * 2 ^ 54 ≤ 5 * (n.p * gridDen j) := by
    refine le_of_mul_le_mul_left (hclose.trans_eq ?_) (Nat.cast_pos.mpr hi)
    push_cast
    ring
  rcases h.first with heq | hfar | hlong | ⟨hlong, hdigit, haccounted⟩
  · left
    rw [Nat.mul_assoc, heq, Nat.mul_assoc]
  · exact absurd hfirst (not_le.mpr hfar)
  · have hle := Nat.le_mul_of_pos_left n.p hi
    omega
  · -- The end has no room for a multiple of the fraction.
    obtain rfl : i = 1 := by
      by_contra hone
      have hle := Nat.mul_le_mul_right n.p (show 2 ≤ i by omega)
      omega
    rw [Nat.one_mul, Nat.one_mul]
    exact Or.inr ⟨hdigit, haccounted⟩

/-- Grids with a step of about a half step are no finer than the one of the certificate. -/
theorem finest_le (hj : j < 254) (h : 7 / 8 * (2 ^ j / 2) ≤ gridStep exponent) :
    finest j ≤ exponent := by
  by_contra! hlt
  have hden : (0 : ℚ) < gridDen j := Nat.cast_pos.mpr (gridDen_pos j)
  have hgrid : (8 * gridNum j : ℚ) < 70 * gridDen j := by
    exact_mod_cast (settles_neighbours j hj).grid
  have hcoarser : 10 * gridStep exponent ≤ gridStep (finest j) := by
    rw [← gridStep_succ]
    exact mul_le_mul_of_nonneg_right (zpow_le_zpow_right₀ (by norm_num) hlt)
      Single.cast_one_pos.le
  have hstep : 70 / 8 * (2 ^ j / 2) ≤ gridStep (finest j) := by linarith
  have hscaled := mul_le_mul_of_nonneg_right hstep hden.le
  have hfinest := gridStep_finest j
  have hhalf : (0 : ℚ) < 2 ^ j / 2 := by positivity
  have hless := mul_lt_mul_of_pos_right hgrid hhalf
  linarith

/-- A decimal on a grid with a step of about a half step, next to an end in relation to its size, is
equal to the end or accounted for. -/
theorem eq_end_or_accounted {d : Decimal} (hj : j < 254) (hm : m < 2 ^ 25) (hd : 0 < d.digits)
    (hgrid : 7 / 8 * (2 ^ j / 2) ≤ gridStep d.exponent)
    (hnear : Within (5 / 2 ^ 54) (d.digits * gridStep d.exponent) (m * 2 ^ j / 2)) :
    d.digits * gridStep d.exponent = (m * 2 ^ j / 2 : ℚ) ∨
      (d.exponent = finest j ∧ Accounted d j m) := by
  obtain ⟨s, exponent⟩ := d
  dsimp only at *
  obtain ⟨t, rfl, hvalue⟩ := exists_on_finer (finest_le hj hgrid) s
  have hden : (0 : ℚ) < gridDen j := Nat.cast_pos.mpr (gridDen_pos j)
  have hfinest := gridStep_finest j
  have hhalf : (0 : ℚ) < 2 ^ j / 2 := by positivity
  rw [mul_div_assoc] at hnear ⊢
  rw [hvalue] at hnear ⊢
  generalize (2 : ℚ) ^ j / 2 = half at hnear hfinest hhalf ⊢
  have hclose : |(offset j (s * 10 ^ t) m : ℚ)| * 2 ^ 54 ≤ 5 * (m * gridDen j) := by
    refine le_of_mul_le_mul_right ?_ hhalf
    have hscaled := mul_le_mul_of_nonneg_right hnear hden.le
    have hdistance : ((s * 10 ^ t : ℕ) * gridStep (finest j) - m * half) * gridDen j =
        offset j (s * 10 ^ t) m * half := by
      rw [sub_mul, mul_assoc, hfinest, offset]
      push_cast
      ring
    rw [← abs_of_pos hden, ← abs_mul, abs_of_pos hden, hdistance, abs_mul, abs_of_pos hhalf]
      at hscaled
    linarith
  have hpos : 0 < s * 10 ^ t := Nat.mul_pos hd (Nat.pow_pos (by decide))
  obtain heq | ⟨hdigit, haccounted⟩ :=
    (settles_neighbours j hj).eq_or_accounted hm hpos (by exact_mod_cast hclose)
  · left
    refine mul_right_cancel₀ hden.ne' ?_
    have hcast : ((s * 10 ^ t : ℕ) * gridNum j : ℚ) = m * gridDen j := by exact_mod_cast heq
    rw [mul_assoc, hfinest, ← mul_assoc, hcast]
    ring
  · right
    cases t with
    | zero =>
      simp only [pow_zero, mul_one, Nat.cast_zero, add_zero] at haccounted ⊢
      exact ⟨trivial, haccounted⟩
    | succ t => exact absurd (Dvd.intro_left _ (by rw [pow_succ, mul_assoc])) hdigit

end Json.Double

end LineConsole
