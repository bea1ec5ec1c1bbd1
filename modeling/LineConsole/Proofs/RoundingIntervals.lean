import LineConsole.Number.Shortest
import LineConsole.Proofs.FixedTexts

/-!
The rounding interval of a single: the magnitudes that are rounded to its own. It reaches half way
to the neighbours on both sides, and its ends belong to it if the significand is even. Every end is
a whole number of half steps, with at most 25 binary digits. All magnitudes are in units of 2^-149.
-/
namespace LineConsole

namespace Rounding

/-- Half way between two whole numbers only one of them is nearest, the even one. -/
theorem IsNearest.not_succ {q : ℚ} {n : ℕ} (h : IsNearest q n) : ¬ IsNearest q (n + 1) := by
  intro hsucc
  obtain ⟨-, hhigh⟩ := abs_le.mp h.near
  obtain ⟨hlow, -⟩ := abs_le.mp hsucc.near
  have hhalf : q = n + 1 / 2 := by
    push_cast at hlow
    linarith
  have heven := h.even (by rw [hhalf, add_sub_cancel_left, abs_of_pos (by norm_num)])
  have hdistance : q - (n + 1 : ℕ) = -(1 / 2) := by
    rw [hhalf]
    push_cast
    ring
  have hodd := hsucc.even (by rw [hdistance, abs_neg, abs_of_pos (by norm_num)])
  exact absurd hodd (by simpa [Nat.even_add_one] using heven)

/-- There is only one nearest whole number. -/
theorem IsNearest.unique {q : ℚ} {m n : ℕ} (hm : IsNearest q m) (hn : IsNearest q n) : m = n := by
  obtain ⟨hmlow, hmhigh⟩ := abs_le.mp hm.near
  obtain ⟨hnlow, hnhigh⟩ := abs_le.mp hn.near
  have hmn : (m : ℚ) < n + 2 := by linarith
  have hnm : (n : ℚ) < m + 2 := by linarith
  norm_cast at hmn hnm
  rcases lt_trichotomy m n with hlt | heq | hlt
  · obtain rfl : n = m + 1 := by omega
    exact absurd hn hm.not_succ
  · exact heq
  · obtain rfl : m = n + 1 := by omega
    exact absurd hm hn.not_succ

/-- No other whole number is nearer. -/
theorem IsNearest.distance_le {q : ℚ} {n : ℕ} (h : IsNearest q n) (m : ℕ) : |q - n| ≤ |q - m| := by
  rcases eq_or_ne m n with rfl | hne
  · exact le_refl _
  · have hapart : (1 : ℚ) ≤ |(m : ℚ) - n| := by
      have hone := Int.one_le_abs (sub_ne_zero.mpr (Nat.cast_injective.ne hne : (m : ℤ) ≠ n))
      exact_mod_cast hone
    have htriangle := abs_sub_le (m : ℚ) q n
    have hnear := h.near
    rw [abs_sub_comm (m : ℚ) q] at htriangle
    linarith

theorem IsNearest.of_bounds {q : ℚ} {n : ℕ} (hlow : (n : ℚ) - 1 / 2 ≤ q)
    (hhigh : q ≤ n + 1 / 2) (heven : q = n - 1 / 2 ∨ q = n + 1 / 2 → Even n) : IsNearest q n := by
  refine ⟨abs_le.mpr ⟨by linarith, by linarith⟩, fun hdistance => heven ?_⟩
  rcases (abs_eq (by norm_num)).mp hdistance with h | h
  · exact Or.inr (by linarith)
  · exact Or.inl (by linarith)

/-- The number of digits that are cut off a quotient, from its size. -/
theorem excess_div {p e num den : ℕ} (hden : 0 < den) (hlt : (num / den : ℚ) < 2 ^ (p + 1 + e))
    (hle : 0 < e → (2 : ℚ) ^ (p + e) ≤ num / den) : excess (p + 1) (num / den) = e := by
  have hpos : (0 : ℚ) < den := Nat.cast_pos.mpr hden
  have hlength : binaryLength (num / den) ≤ p + 1 + e := by
    rw [binaryLength_le_iff, Nat.div_lt_iff_lt_mul hden]
    rw [div_lt_iff₀ hpos] at hlt
    exact_mod_cast hlt
  unfold excess
  rcases Nat.eq_zero_or_pos e with rfl | he
  · omega
  · have hlonger : ¬ binaryLength (num / den) ≤ p + e := by
      rw [binaryLength_le_iff, Nat.not_lt, Nat.le_div_iff_mul_le hden]
      have hle := hle he
      rw [le_div_iff₀ hpos] at hle
      exact_mod_cast hle
    omega

/-- A quotient of known size is rounded to the nearest multiple of its step. -/
theorem significant_eq {p e n num den : ℕ} (hden : 0 < den)
    (hlt : (num / den : ℚ) < 2 ^ (p + 1 + e)) (hle : 0 < e → (2 : ℚ) ^ (p + e) ≤ num / den)
    (h : IsNearest (num / den / 2 ^ e) n) : significant (p + 1) num den = n * 2 ^ e := by
  have hnearest : IsNearest (num / (den * 2 ^ e : ℕ)) (nearest num (den * 2 ^ e)) :=
    isNearest_nearest (Nat.mul_pos hden (Nat.two_pow_pos e))
  rw [Nat.cast_mul, Nat.cast_pow, Nat.cast_ofNat, ← div_div] at hnearest
  unfold significant
  dsimp only
  rw [excess_div hden hlt hle, Nat.pow_eq, hnearest.unique h]

/-- A quotient that is not too small is rounded with an error relative to its size. -/
theorem abs_significant_sub_le {p num den : ℕ} (hden : 0 < den) (h : 2 ^ p * den ≤ num) :
    |(significant (p + 1) num den : ℚ) - num / den| ≤ num / den / 2 ^ (p + 1) := by
  have hpos : (0 : ℚ) < den := Nat.cast_pos.mpr hden
  unfold significant
  dsimp only
  rw [Nat.pow_eq]
  generalize he : excess (p + 1) (num / den) = e
  have hsize : 2 ^ (p + e) * den ≤ num := by
    rw [← Nat.le_div_iff_mul_le hden] at h ⊢
    rcases Nat.eq_zero_or_pos e with hzero | hcut
    · rwa [hzero]
    · by_contra hlt
      have hlength := (binaryLength_le_iff (num / den) (p + e)).mpr (Nat.lt_of_not_le hlt)
      unfold excess at he
      omega
  have hstep : (2 : ℚ) ^ e / 2 ≤ num / den / 2 ^ (p + 1) := by
    rw [div_div, div_le_div_iff₀ two_pos (by positivity)]
    have hcast : ((2 ^ (p + e) * den : ℕ) : ℚ) ≤ num := Nat.cast_le.mpr hsize
    push_cast at hcast
    calc (2 : ℚ) ^ e * (den * 2 ^ (p + 1)) = 2 ^ (p + e) * den * 2 := by ring
      _ ≤ num * 2 := by linarith
  have hnear : |(num / (den * 2 ^ e : ℕ) - nearest num (den * 2 ^ e) : ℚ)| ≤ 1 / 2 :=
    (isNearest_nearest (Nat.mul_pos hden (Nat.two_pow_pos e))).near
  generalize nearest num (den * 2 ^ e) = n at hnear ⊢
  push_cast at hnear ⊢
  rw [← div_div] at hnear
  calc |(n : ℚ) * 2 ^ e - num / den|
      = |(num : ℚ) / den / 2 ^ e - n| * 2 ^ e := by
        rw [← abs_of_pos (show (0 : ℚ) < 2 ^ e by positivity), ← abs_mul, sub_mul,
          abs_of_pos (show (0 : ℚ) < 2 ^ e by positivity), div_mul_cancel₀ _ (by positivity),
          abs_sub_comm]
    _ ≤ 1 / 2 * 2 ^ e := mul_le_mul_of_nonneg_right hnear (by positivity)
    _ = 2 ^ e / 2 := by ring
    _ ≤ num / den / 2 ^ (p + 1) := hstep

end Rounding

open Rounding

namespace Single

variable (x : Single)

/-- The number of low binary digits of the magnitude that are zero because of its size. -/
def scale : ℕ := excess 24 x.units

def significand : ℕ := x.units / 2 ^ x.scale

theorem significand_mul : x.significand * 2 ^ x.scale = x.units :=
  Nat.div_mul_cancel x.short_units.dvd

theorem significand_lt : x.significand < 2 ^ 24 := div_excess_lt x.units

variable {x}

theorem le_significand (h : 0 < x.scale) : 2 ^ 23 ≤ x.significand := le_div_excess h

theorem scale_le (h : x.isFinite) : x.scale ≤ 253 := by
  have hlt : x.units < 2 ^ 128 * one := x.units_lt (by simpa [isFinite] using h)
  have hlength : binaryLength x.units ≤ 128 + 149 := by
    rw [binaryLength_le_iff, Nat.pow_add]
    exact hlt
  unfold scale excess
  omega

theorem hasEvenSignificand_iff : x.hasEvenSignificand ↔ Even x.significand := by
  rw [hasEvenSignificand, decide_eq_true_iff, Nat.even_iff]
  rfl

variable (x)

def low : ℚ := x.units - x.gapBelow / 8

def high : ℚ := x.units + x.gapAbove / 8

/-- Whether `v` units are rounded to the magnitude of `x`. -/
def Rounds (v : ℚ) : Prop :=
  if x.hasEvenSignificand then x.low ≤ v ∧ v ≤ x.high else x.low < v ∧ v < x.high

variable {x} {v w : ℚ}

theorem Rounds.low_le (h : x.Rounds v) : x.low ≤ v := by
  unfold Rounds at h
  split at h
  · exact h.1
  · exact h.1.le

theorem Rounds.le_high (h : x.Rounds v) : v ≤ x.high := by
  unfold Rounds at h
  split at h
  · exact h.2
  · exact h.2.le

/-- What lies between two values of the interval lies in it. -/
theorem Rounds.convex {u : ℚ} (hv : x.Rounds v) (hw : x.Rounds w) (hvu : v ≤ u) (huw : u ≤ w) :
    x.Rounds u := by
  unfold Rounds at *
  split at hv
  · next heven =>
    rw [if_pos heven] at hw ⊢
    exact ⟨hv.1.trans hvu, huw.trans hw.2⟩
  · next hodd =>
    rw [if_neg hodd] at hw ⊢
    exact ⟨hv.1.trans_le hvu, huw.trans_lt hw.2⟩

/-- The ends belong to an even significand. -/
theorem Rounds.even (h : x.Rounds v) (hend : v = x.low ∨ v = x.high) : Even x.significand := by
  rw [← hasEvenSignificand_iff]
  unfold Rounds at h
  split at h
  · next heven => exact heven
  · rcases hend with rfl | rfl
    · exact absurd h.1 (lt_irrefl _)
    · exact absurd h.2 (lt_irrefl _)

/-- A value outside is separated by an end from a value inside. -/
theorem Rounds.exists_end (h : x.Rounds v) (hw : ¬ x.Rounds w) :
    ∃ m, (m = x.low ∨ m = x.high) ∧ |v - m| ≤ |w - v| := by
  have hlow := h.low_le
  have hhigh := h.le_high
  have hout : w ≤ x.low ∨ x.high ≤ w := by
    by_contra! hin
    apply hw
    unfold Rounds
    split
    · exact ⟨hin.1.le, hin.2.le⟩
    · exact hin
  rcases hout with hout | hout
  · refine ⟨x.low, Or.inl rfl, ?_⟩
    rw [abs_of_nonneg (sub_nonneg.mpr hlow), abs_sub_comm]
    exact le_trans (sub_le_sub_left hout v) (le_abs_self _)
  · refine ⟨x.high, Or.inr rfl, ?_⟩
    rw [abs_of_nonpos (sub_nonpos.mpr hhigh), neg_sub]
    exact le_trans (sub_le_sub_right hout v) (le_abs_self _)

/-! The ends in numbers -/

theorem cast_units : (x.units : ℚ) = x.significand * 2 ^ x.scale := by
  rw [← x.significand_mul]
  push_cast
  rfl

theorem high_eq : x.high = (x.significand + 1 / 2) * 2 ^ x.scale := by
  rw [high, cast_units, gapAbove, Nat.pow_eq]
  push_cast
  rw [← scale]
  ring

/-- A power of two, which has closer singles below than above. -/
def IsLeast (x : Single) : Prop := x.significand = 2 ^ 23 ∧ 0 < x.scale

instance (x : Single) : Decidable x.IsLeast :=
  inferInstanceAs (Decidable (x.significand = 2 ^ 23 ∧ 0 < x.scale))

theorem gapBelow_eq (x : Single) :
    x.gapBelow = if x.IsLeast then 2 * 2 ^ x.scale else 4 * 2 ^ x.scale := by
  have hleast : (x.units = 0x800000 * 2 ^ x.scale ∧ 0 < x.scale) ↔ x.IsLeast := by
    rw [IsLeast, and_congr_left_iff]
    intro _
    nth_rewrite 1 [← x.significand_mul]
    rw [Nat.mul_left_inj (Nat.two_pow_pos _).ne']
    rfl
  exact if_congr hleast rfl rfl

theorem low_eq (h : ¬ x.IsLeast) : x.low = (x.significand - 1 / 2) * 2 ^ x.scale := by
  rw [low, cast_units, gapBelow_eq, if_neg h]
  push_cast
  ring

theorem IsLeast.cast_units (h : x.IsLeast) : (x.units : ℚ) = 2 ^ 24 * 2 ^ (x.scale - 1) := by
  obtain ⟨e, he⟩ := Nat.exists_eq_add_one_of_ne_zero h.2.ne'
  rw [Single.cast_units, h.1, he, Nat.add_sub_cancel, pow_succ]
  push_cast
  ring

theorem IsLeast.low_eq (h : x.IsLeast) : x.low = (2 ^ 24 - 1 / 2) * 2 ^ (x.scale - 1) := by
  obtain ⟨e, he⟩ := Nat.exists_eq_add_one_of_ne_zero h.2.ne'
  rw [low, h.cast_units, gapBelow_eq, if_pos h, he, Nat.add_sub_cancel, pow_succ]
  push_cast
  ring

theorem rounds_of_abs_lt {r : ℚ} (hlow : x.low ≤ x.units - r) (hhigh : x.units + r ≤ x.high)
    (hv : |v - x.units| < r) : x.Rounds v := by
  obtain ⟨hbelow, habove⟩ := abs_lt.mp hv
  unfold Rounds
  split
  · exact ⟨by linarith, by linarith⟩
  · exact ⟨by linarith, by linarith⟩

def Reaches (x : Single) (r : ℚ) : Prop := ∀ v : ℚ, |v - x.units| < r → x.Rounds v

theorem reaches_of_not_isLeast (h : ¬ x.IsLeast) : x.Reaches (2 ^ x.scale / 2) := by
  refine fun v hv => rounds_of_abs_lt ?_ ?_ hv
  · rw [low_eq h, cast_units]
    linarith
  · rw [high_eq, cast_units]
    linarith

theorem IsLeast.reaches (h : x.IsLeast) : x.Reaches (2 ^ (x.scale - 1) / 2) := by
  refine fun v hv => rounds_of_abs_lt ?_ ?_ hv
  · rw [h.low_eq, h.cast_units]
    linarith
  · have hstep : (2 : ℚ) ^ (x.scale - 1) ≤ 2 ^ x.scale :=
      pow_le_pow_right₀ (by norm_num) (Nat.sub_le _ _)
    rw [high_eq, Single.cast_units]
    linarith

/-- An end is a whole number of half steps, and half a step away from the single. On the other side
of the single the interval ends earlier only if this is the end above a power of two. -/
theorem exists_end_eq (h : x.isFinite) (hpos : 0 < x.units) {m : ℚ}
    (hm : m = x.low ∨ m = x.high) :
    ∃ n j : ℕ, n < 2 ^ 25 ∧ j < 254 ∧ m = n * 2 ^ j / 2 ∧ |(x.units : ℚ) - m| = 2 ^ j / 2 ∧
      (n ≠ 2 ^ 24 + 1 → x.Reaches (2 ^ j / 2)) := by
  have hscale := scale_le h
  have hlt := x.significand_lt
  have hone : 0 < x.significand := by
    by_contra hzero
    rw [← x.significand_mul, Nat.eq_zero_of_not_pos hzero, Nat.zero_mul] at hpos
    exact lt_irrefl 0 hpos
  rcases hm with rfl | rfl
  · by_cases hleast : x.IsLeast
    · refine ⟨2 ^ 25 - 1, x.scale - 1, by norm_num, by omega, ?_, ?_, fun _ => hleast.reaches⟩
      · rw [hleast.low_eq]
        norm_num
        ring
      · rw [hleast.low_eq, hleast.cast_units, ← sub_mul, sub_sub_cancel, abs_of_pos (by positivity)]
        ring
    · refine ⟨2 * x.significand - 1, x.scale, by omega, by omega, ?_, ?_,
        fun _ => reaches_of_not_isLeast hleast⟩
      · rw [low_eq hleast, Nat.cast_sub (by omega)]
        push_cast
        ring
      · rw [low_eq hleast, cast_units, ← sub_mul, sub_sub_cancel, abs_of_pos (by positivity)]
        ring
  · refine ⟨2 * x.significand + 1, x.scale, by omega, by omega, ?_, ?_, fun hn => ?_⟩
    · rw [high_eq]
      push_cast
      ring
    · rw [high_eq, cast_units, ← sub_mul, sub_add_cancel_left, abs_mul, abs_neg,
        abs_of_pos (by norm_num), abs_of_pos (by positivity)]
      ring
    · refine reaches_of_not_isLeast fun hleast => hn ?_
      rw [hleast.1]
      norm_num

/-- Below a power of two the next digit counts. -/
theorem IsLeast.significant_eq (h : x.IsLeast) {num den : ℕ} (hden : 0 < den)
    (hlow : x.low ≤ num / den) (hless : (num / den : ℚ) < x.units) :
    significant 24 num den = x.units := by
  have hstep : (0 : ℚ) < 2 ^ (x.scale - 1) := by positivity
  have hunits := h.cast_units
  rw [h.low_eq] at hlow
  rw [hunits] at hless
  have hnearest : IsNearest ((num : ℚ) / den / 2 ^ (x.scale - 1)) (2 ^ 24) := by
    refine .of_bounds ?_ ?_ fun _ => by decide
    · rw [le_div_iff₀ hstep]
      exact_mod_cast hlow
    · rw [div_le_iff₀ hstep]
      push_cast
      linarith
  have hsize : (2 : ℚ) ^ (23 + (x.scale - 1)) ≤ num / den := by
    rw [pow_add]
    linarith
  rw [Rounding.significant_eq (p := 23) hden (by rwa [pow_add]) (fun _ => hsize) hnearest]
  exact_mod_cast hunits.symm

theorem Rounds.lt_two_pow (h : x.Rounds v) : v < 2 ^ (24 + x.scale) := by
  have hlt : (x.significand : ℚ) + 1 ≤ 2 ^ 24 := by exact_mod_cast x.significand_lt
  have hhigh := h.le_high
  rw [high_eq] at hhigh
  rw [pow_add]
  exact hhigh.trans_lt (mul_lt_mul_of_pos_right (by linarith) (by positivity))

section Regular

/-! Where the singles on both sides are equally far away. -/

variable (h : x.Rounds v) (hside : ¬ x.IsLeast ∨ (x.units : ℚ) ≤ v)
include h hside

theorem Rounds.sub_half_le : ((x.significand : ℚ) - 1 / 2) * 2 ^ x.scale ≤ v := by
  rcases hside with hregular | habove
  · rw [← low_eq hregular]
    exact h.low_le
  · rw [cast_units] at habove
    refine le_trans (mul_le_mul_of_nonneg_right ?_ (by positivity)) habove
    linarith

theorem Rounds.two_pow_le (hscale : 0 < x.scale) : (2 : ℚ) ^ (23 + x.scale) ≤ v := by
  have hfull := le_significand hscale
  rw [pow_add]
  rcases hside with hregular | habove
  · have hmore : 2 ^ 23 + 1 ≤ x.significand :=
      Nat.lt_of_le_of_ne hfull fun heq => hregular ⟨heq.symm, hscale⟩
    have hcast : (2 : ℚ) ^ 23 + 1 ≤ x.significand := by exact_mod_cast hmore
    refine le_trans (mul_le_mul_of_nonneg_right ?_ (by positivity)) (h.sub_half_le (.inl hregular))
    linarith
  · have hcast : (2 : ℚ) ^ 23 ≤ x.significand := by exact_mod_cast hfull
    rw [cast_units] at habove
    exact le_trans (mul_le_mul_of_nonneg_right hcast (by positivity)) habove

theorem Rounds.isNearest : IsNearest (v / 2 ^ x.scale) x.significand := by
  have hstep : (0 : ℚ) < 2 ^ x.scale := by positivity
  have hhigh := h.le_high
  rw [high_eq] at hhigh
  refine .of_bounds ?_ ?_ ?_
  · rw [le_div_iff₀ hstep]
    exact h.sub_half_le hside
  · rwa [div_le_iff₀ hstep]
  · rintro (hend | hend) <;> rw [div_eq_iff hstep.ne'] at hend
    · rcases hside with hregular | habove
      · exact h.even (Or.inl (by rw [hend, low_eq hregular]))
      · rw [cast_units] at habove
        linarith
    · exact h.even (Or.inr (by rw [hend, high_eq]))

end Regular

/-- The interval is the set of magnitudes that are rounded to that of the single. -/
theorem Rounds.significant_eq {num den : ℕ} (hden : 0 < den) (h : x.Rounds (num / den)) :
    significant 24 num den = x.units := by
  by_cases hbelow : x.IsLeast ∧ (num / den : ℚ) < x.units
  · exact hbelow.1.significant_eq hden h.low_le hbelow.2
  · rw [not_and_or, not_lt] at hbelow
    rw [Rounding.significant_eq (p := 23) hden h.lt_two_pow (h.two_pow_le hbelow)
      (h.isNearest hbelow), x.significand_mul]

end Single

end LineConsole
