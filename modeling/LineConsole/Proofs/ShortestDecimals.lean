import LineConsole.Proofs.RoundingIntervals

/-!
The shortest decimal of a single. It lies in the rounding interval, on a grid of powers of ten that
is at least as fine as needed and no finer: the next coarser grid misses the interval. So its digits
are few, and from the single it is at most one grid step away.
-/
namespace LineConsole

open Rounding

/-- The step of the grid of multiples of `10 ^ exponent`, in units of 2^-149. -/
def gridStep (exponent : ℤ) : ℚ := 10 ^ exponent * Single.one

theorem gridStep_pos (exponent : ℤ) : 0 < gridStep exponent :=
  mul_pos (zpow_pos (by norm_num) exponent) Single.cast_one_pos

theorem gridStep_succ (exponent : ℤ) : gridStep (exponent + 1) = 10 * gridStep exponent := by
  rw [gridStep, gridStep, zpow_add_one₀ (by norm_num)]
  ring

theorem gridStep_mono {exponent exponent' : ℤ} (h : exponent ≤ exponent') :
    gridStep exponent ≤ gridStep exponent' :=
  mul_le_mul_of_nonneg_right (zpow_le_zpow_right₀ (by norm_num) h) Single.cast_one_pos.le

/-- Powers of ten as quotients of natural numbers. -/
theorem ten_zpow (exponent : ℤ) :
    (10 : ℚ) ^ exponent = 10 ^ exponent.toNat / 10 ^ (-exponent).toNat := by
  rcases le_total 0 exponent with h | h
  · obtain ⟨n, rfl⟩ := Int.eq_ofNat_of_zero_le h
    simp
  · obtain ⟨n, hn⟩ := Int.eq_ofNat_of_zero_le (Int.neg_nonneg.mpr h)
    obtain rfl : exponent = -(n : ℤ) := by omega
    simp

/-- A grid point is also a point of the finer grids. -/
theorem exists_on_finer {exponent finer : ℤ} (h : finer ≤ exponent) (n : ℕ) :
    ∃ t : ℕ, exponent = finer + t ∧
      (n * gridStep exponent : ℚ) = (n * 10 ^ t : ℕ) * gridStep finer := by
  obtain ⟨t, ht⟩ := Int.eq_ofNat_of_zero_le (sub_nonneg.mpr h)
  obtain rfl : exponent = finer + t := by omega
  refine ⟨t, rfl, ?_⟩
  rw [gridStep, gridStep, zpow_add₀ (by norm_num), zpow_natCast]
  push_cast
  ring

theorem Decimal.length_digitChars_pos (d : Decimal) : 0 < d.digitChars.length :=
  List.length_pos_of_ne_nil Nat.toDigits_ne_nil

theorem Rounding.nearest_eq_or (num den : ℕ) :
    nearest num den = num / den ∨ nearest num den = num / den + 1 := by
  unfold nearest
  dsimp only
  split
  · exact Or.inl rfl
  · split
    · exact Or.inr rfl
    · rcases Nat.mod_two_eq_zero_or_one (num / den) with h | h <;> rw [h] <;> simp

namespace Single

variable {x : Single}

/-! The interval in quarter units -/

theorem le_gapBelow (x : Single) : 4 ≤ x.gapBelow := by
  rw [gapBelow_eq]
  split
  · next hleast =>
    obtain ⟨e, he⟩ := Nat.exists_eq_add_one_of_ne_zero hleast.2.ne'
    have hhalf := Nat.one_le_two_pow (n := e)
    rw [he, Nat.pow_succ]
    omega
  · have hstep := Nat.one_le_two_pow (n := x.scale)
    omega

theorem gapBelow_le (hpos : 0 < x.units) : x.gapBelow ≤ 4 * x.units := by
  have hle : 2 ^ x.scale ≤ x.units := Nat.le_of_dvd hpos x.short_units.dvd
  rw [gapBelow_eq]
  split <;> omega

theorem half_le_low (hpos : 0 < x.units) : 1 / 2 ≤ x.low := by
  have hgap : (x.gapBelow : ℚ) ≤ 4 * x.units := by exact_mod_cast gapBelow_le hpos
  have hunits : (1 : ℚ) ≤ x.units := by exact_mod_cast hpos
  rw [low]
  linarith

theorem not_rounds_zero (hpos : 0 < x.units) : ¬ x.Rounds 0 := fun h => by
  have hlow := (half_le_low hpos).trans h.low_le
  norm_num at hlow

section Quarters

variable {bound num den : ℕ} {m : ℚ}

/-- A comparison with an end, which is given in eighths. -/
theorem mul_le_two_mul_iff (hden : 0 < den) (hend : (bound : ℚ) = 8 * m) :
    bound * den ≤ 2 * num ↔ m ≤ num / den / 4 := by
  have hpos : (0 : ℚ) < den := Nat.cast_pos.mpr hden
  rw [div_div, le_div_iff₀ (by positivity), ← Nat.cast_le (α := ℚ)]
  push_cast
  rw [hend]
  constructor <;> intro h <;> linarith

theorem two_mul_le_mul_iff (hden : 0 < den) (hend : (bound : ℚ) = 8 * m) :
    2 * num ≤ bound * den ↔ num / den / 4 ≤ m := by
  have hpos : (0 : ℚ) < den := Nat.cast_pos.mpr hden
  rw [div_div, div_le_iff₀ (by positivity), ← Nat.cast_le (α := ℚ)]
  push_cast
  rw [hend]
  constructor <;> intro h <;> linarith

end Quarters

theorem admits_iff (hpos : 0 < x.units) {num den : ℕ} (hden : 0 < den) :
    x.admits num den ↔ x.Rounds (num / den / 4) := by
  have hgap : x.gapBelow ≤ 2 * x.quarters := by
    have hle := gapBelow_le hpos
    unfold quarters
    omega
  have hlow : ((2 * x.quarters - x.gapBelow : ℕ) : ℚ) = 8 * x.low := by
    rw [Nat.cast_sub hgap, low, quarters]
    push_cast
    ring
  have hhigh : ((2 * x.quarters + x.gapAbove : ℕ) : ℚ) = 8 * x.high := by
    rw [high, quarters]
    push_cast
    ring
  unfold admits Rounds
  dsimp only
  split
  · rw [Bool.and_eq_true, decide_eq_true_iff, decide_eq_true_iff, mul_le_two_mul_iff hden hlow,
      two_mul_le_mul_iff hden hhigh]
  · rw [Bool.and_eq_true, decide_eq_true_iff, decide_eq_true_iff,
      lt_iff_lt_of_le_iff_le (two_mul_le_mul_iff hden hlow),
      lt_iff_lt_of_le_iff_le (mul_le_two_mul_iff hden hhigh)]

theorem low_lt_units (x : Single) : x.low < x.units := by
  have hgap : (4 : ℚ) ≤ x.gapBelow := by exact_mod_cast x.le_gapBelow
  rw [low]
  linarith

theorem units_lt_high (x : Single) : (x.units : ℚ) < x.high := by
  rw [high_eq, cast_units]
  exact mul_lt_mul_of_pos_right (by linarith) (by positivity)

theorem rounds_of_lt_of_le {v : ℚ} (hlow : x.low < v) (hle : v ≤ x.units) : x.Rounds v := by
  have hhigh := hle.trans_lt x.units_lt_high
  unfold Rounds
  split
  · exact ⟨hlow.le, hhigh.le⟩
  · exact ⟨hlow, hhigh⟩

theorem rounds_units (x : Single) : x.Rounds x.units :=
  rounds_of_lt_of_le x.low_lt_units (le_refl _)

/-! Grids -/

/-- The greatest grid point that is not above the single. -/
def gridFloor (x : Single) (exponent : ℤ) : ℕ :=
  x.quarters * 10 ^ (-exponent).toNat / (10 ^ exponent.toNat * (4 * one))

theorem admits_gridPoint (hpos : 0 < x.units) (n : ℕ) (exponent : ℤ) :
    x.admits (n * (10 ^ exponent.toNat * (4 * one))) (10 ^ (-exponent).toNat) ↔
      x.Rounds (n * gridStep exponent) := by
  have hvalue : ((n * (10 ^ exponent.toNat * (4 * one)) : ℕ) : ℚ) /
      (10 ^ (-exponent).toNat : ℕ) / 4 = n * gridStep exponent := by
    rw [gridStep, ten_zpow]
    push_cast
    ring
  rw [admits_iff hpos (Nat.pow_pos (by decide)), hvalue]

theorem gridFloor_le (x : Single) (exponent : ℤ) :
    x.gridFloor exponent * gridStep exponent ≤ x.units ∧
      x.units < (x.gridFloor exponent + 1) * gridStep exponent := by
  have hden : (0 : ℚ) < 10 ^ (-exponent).toNat := by positivity
  have hstep : 0 < 10 ^ exponent.toNat * (4 * one) :=
    Nat.mul_pos (Nat.pow_pos (by decide)) (Nat.mul_pos (by decide) one_pos)
  have hle := Nat.div_mul_le_self (x.quarters * 10 ^ (-exponent).toNat)
    (10 ^ exponent.toNat * (4 * one))
  have hlt := Nat.lt_div_mul_add hstep (a := x.quarters * 10 ^ (-exponent).toNat)
  rw [← gridFloor] at hle hlt
  rw [← Nat.cast_le (α := ℚ), quarters] at hle
  rw [← Nat.cast_lt (α := ℚ), quarters] at hlt
  push_cast at hle hlt
  rw [gridStep, ten_zpow]
  constructor
  · rw [div_mul_eq_mul_div, mul_div_assoc', div_le_iff₀ hden]
    linarith
  · rw [div_mul_eq_mul_div, mul_div_assoc', lt_div_iff₀ hden]
    linarith

/-- A grid point of the interval is separated from the single by a point next to it. -/
theorem rounds_gridFloor {n : ℕ} {exponent : ℤ} (h : x.Rounds (n * gridStep exponent)) :
    (n ≤ x.gridFloor exponent ∧ x.Rounds (x.gridFloor exponent * gridStep exponent)) ∨
      (x.gridFloor exponent < n ∧ x.Rounds ((x.gridFloor exponent + 1 : ℕ) * gridStep exponent)) := by
  have hstep := gridStep_pos exponent
  obtain ⟨hle, hlt⟩ := x.gridFloor_le exponent
  rcases Nat.lt_or_ge (x.gridFloor exponent) n with hn | hn
  · refine Or.inr ⟨hn, x.rounds_units.convex h ?_ ?_⟩
    · exact_mod_cast hlt.le
    · exact mul_le_mul_of_nonneg_right (Nat.cast_le.mpr hn) hstep.le
  · refine Or.inl ⟨hn, h.convex x.rounds_units ?_ hle⟩
    exact mul_le_mul_of_nonneg_right (Nat.cast_le.mpr hn) hstep.le

theorem abs_gridFloor_le {n : ℕ} {exponent : ℤ} (hn : n ≤ x.gridFloor exponent) :
    |x.gridFloor exponent * gridStep exponent - x.units| ≤ |n * gridStep exponent - x.units| := by
  obtain ⟨hle, -⟩ := x.gridFloor_le exponent
  have hpoint := mul_le_mul_of_nonneg_right (Nat.cast_le (α := ℚ).mpr hn) (gridStep_pos exponent).le
  rw [abs_of_nonpos (sub_nonpos.mpr hle), abs_of_nonpos (by linarith)]
  linarith

theorem abs_gridFloor_succ_le {n : ℕ} {exponent : ℤ} (hn : x.gridFloor exponent < n) :
    |(x.gridFloor exponent + 1 : ℕ) * gridStep exponent - x.units| ≤
      |n * gridStep exponent - x.units| := by
  obtain ⟨-, hlt⟩ := x.gridFloor_le exponent
  have hpoint := mul_le_mul_of_nonneg_right (Nat.cast_le (α := ℚ).mpr hn) (gridStep_pos exponent).le
  push_cast at hpoint ⊢
  rw [abs_of_pos (by linarith), abs_of_pos (by linarith)]
  linarith

/-- No other grid point is nearer than the one that the single is rounded to. -/
theorem abs_nearest_le (x : Single) (exponent : ℤ) (n : ℕ) :
    |nearest (x.quarters * 10 ^ (-exponent).toNat) (10 ^ exponent.toNat * (4 * one)) *
      gridStep exponent - x.units| ≤ |n * gridStep exponent - x.units| := by
  have hstep := gridStep_pos exponent
  have hden : 0 < 10 ^ exponent.toNat * (4 * one) :=
    Nat.mul_pos (Nat.pow_pos (by decide)) (Nat.mul_pos (by decide) one_pos)
  have hquotient : ((x.quarters * 10 ^ (-exponent).toNat : ℕ) : ℚ) /
      (10 ^ exponent.toNat * (4 * one) : ℕ) = x.units / gridStep exponent := by
    rw [gridStep, ten_zpow, quarters]
    push_cast
    field_simp
  have hrounded : IsNearest (x.units / gridStep exponent)
      (nearest (x.quarters * 10 ^ (-exponent).toNat) (10 ^ exponent.toNat * (4 * one))) :=
    hquotient ▸ isNearest_nearest hden
  have hnearest := hrounded.distance_le n
  have hscaled := mul_le_mul_of_nonneg_right hnearest hstep.le
  rwa [← abs_of_pos hstep, ← abs_mul, ← abs_mul, abs_of_pos hstep, sub_mul, sub_mul,
    div_mul_cancel₀ _ hstep.ne', abs_sub_comm, abs_sub_comm (x.units : ℚ)] at hscaled

/-- A search on a grid finds the nearest of the points that lie in the interval. -/
theorem onGrid_of_some (hpos : 0 < x.units) {digits : ℕ} {exponent : ℤ}
    (h : x.onGrid exponent = some digits) :
    x.Rounds (digits * gridStep exponent) ∧
      ∀ n : ℕ, x.Rounds (n * gridStep exponent) →
        |digits * gridStep exponent - x.units| ≤ |n * gridStep exponent - x.units| := by
  have hfloor := x.admits_gridPoint hpos (x.gridFloor exponent) exponent
  have hnext := x.admits_gridPoint hpos (x.gridFloor exponent + 1) exponent
  unfold onGrid at h
  dsimp only at h
  rw [Nat.pow_eq, Nat.pow_eq, ← gridFloor] at h
  split at h
  · next hlow hhigh =>
    cases h
    refine ⟨?_, fun n _ => x.abs_nearest_le exponent n⟩
    rcases nearest_eq_or (x.quarters * 10 ^ (-exponent).toNat)
      (10 ^ exponent.toNat * (4 * one)) with heq | heq <;> rw [← gridFloor] at heq <;> rw [heq]
    · exact hfloor.mp hlow
    · exact hnext.mp hhigh
  · next hlow hhigh =>
    cases h
    refine ⟨hfloor.mp hlow, fun n hn => ?_⟩
    obtain ⟨hle, -⟩ | ⟨-, hin⟩ := rounds_gridFloor hn
    · exact abs_gridFloor_le hle
    · rw [hnext.mpr hin] at hhigh
      cases hhigh
  · next hlow hhigh =>
    cases h
    refine ⟨hnext.mp hhigh, fun n hn => ?_⟩
    obtain ⟨-, hin⟩ | ⟨hlt, -⟩ := rounds_gridFloor hn
    · rw [hfloor.mpr hin] at hlow
      cases hlow
    · exact abs_gridFloor_succ_le hlt
  · cases h

/-- If the search finds nothing, no point of the grid lies in the interval. -/
theorem onGrid_of_none (hpos : 0 < x.units) {exponent : ℤ} (h : x.onGrid exponent = none)
    (n : ℕ) : ¬ x.Rounds (n * gridStep exponent) := by
  intro hn
  have hfloor := x.admits_gridPoint hpos (x.gridFloor exponent) exponent
  have hnext := x.admits_gridPoint hpos (x.gridFloor exponent + 1) exponent
  unfold onGrid at h
  dsimp only at h
  rw [Nat.pow_eq, Nat.pow_eq, ← gridFloor] at h
  split at h
  iterate 3 cases h
  next hlow hhigh =>
    obtain ⟨-, hin⟩ | ⟨-, hin⟩ := rounds_gridFloor hn
    · rw [hfloor.mpr hin] at hlow
      cases hlow
    · rw [hnext.mpr hin] at hhigh
      cases hhigh

/-- On a grid as fine as `10 ^ -46` every single has a point. -/
theorem onGrid_finest_ne_none (hpos : 0 < x.units) : x.onGrid (-46) ≠ none := by
  intro hnone
  apply onGrid_of_none hpos hnone (x.gridFloor (-46))
  obtain ⟨hle, hlt⟩ := x.gridFloor_le (-46)
  have hgap : (4 : ℚ) ≤ x.gapBelow := by exact_mod_cast x.le_gapBelow
  have hfine : gridStep (-46) < 1 / 2 := by
    rw [gridStep, cast_one]
    norm_num
  refine x.rounds_of_lt_of_le ?_ hle
  rw [low]
  linarith

/-! The search -/

theorem shortestFrom_of_some {n digits : ℕ} (h : x.onGrid ((n : ℤ) + 1 - 149) = some digits) :
    x.shortestFrom (n + 1) = ⟨digits, (n : ℤ) + 1 - 149⟩ := by
  rw [shortestFrom, h]

theorem shortestFrom_of_none {n : ℕ} (h : x.onGrid ((n : ℤ) + 1 - 149) = none) :
    x.shortestFrom (n + 1) = x.shortestFrom n := by
  rw [shortestFrom, h]

/-- The search ends on a grid that has a point, and the one before it has none. -/
theorem shortestFrom_spec (hpos : 0 < x.units) {n : ℕ} (hn : 103 ≤ n) :
    let d := x.shortestFrom n
    x.onGrid d.exponent = some d.digits ∧
      (d.exponent = n - 149 ∨ x.onGrid (d.exponent + 1) = none) := by
  induction n, hn using Nat.le_induction with
  | base =>
    obtain ⟨digits, hdigits⟩ := Option.ne_none_iff_exists'.mp (onGrid_finest_ne_none hpos)
    have hfinest : ((102 : ℕ) : ℤ) + 1 - 149 = -46 := by norm_num
    have hfirst : x.shortestFrom 103 = ⟨digits, -46⟩ := by
      rw [← hfinest] at hdigits ⊢
      exact shortestFrom_of_some hdigits
    rw [hfirst]
    exact ⟨hdigits, Or.inl (by norm_num)⟩
  | succ n hn ih =>
    cases hfound : x.onGrid ((n : ℤ) + 1 - 149) with
    | some digits =>
      rw [shortestFrom_of_some hfound]
      exact ⟨hfound, Or.inl (by push_cast; rfl)⟩
    | none =>
      rw [shortestFrom_of_none hfound]
      obtain ⟨hdigits, hend⟩ := ih
      refine ⟨hdigits, Or.inr ?_⟩
      rcases hend with heq | hcoarser
      · rw [heq, sub_add_eq_add_sub]
        exact hfound
      · exact hcoarser

/-- The decimal is rounded to the single. None that is has fewer digits, and none with the same
power of ten that is lies nearer to the single. -/
structure IsShortest (x : Single) (d : Decimal) : Prop where
  rounds : x.Rounds (d.digits * gridStep d.exponent)
  fewest : ∀ d' : Decimal, x.Rounds (d'.digits * gridStep d'.exponent) →
    d.digitChars.length ≤ d'.digitChars.length
  nearest : ∀ n : ℕ, x.Rounds (n * gridStep d.exponent) →
    |d.digits * gridStep d.exponent - x.units| ≤ |n * gridStep d.exponent - x.units|

/-- All singles end before the first point of the grid `10 ^ 39`. -/
theorem not_rounds_beyond (h : x.isFinite) (hpos : 0 < x.units) (n : ℕ) :
    ¬ x.Rounds (n * gridStep 39) := by
  intro hn
  have hone : (1 : ℚ) ≤ n := by
    rw [Nat.one_le_cast, Nat.one_le_iff_ne_zero]
    rintro rfl
    rw [Nat.cast_zero, zero_mul] at hn
    exact not_rounds_zero hpos hn
  have hend : (2 : ℚ) ^ (24 + x.scale) ≤ 2 ^ 128 * one := by
    rw [cast_one, ← pow_add]
    have hscale := scale_le h
    exact pow_le_pow_right₀ (by norm_num) (by omega)
  have hstep : (2 : ℚ) ^ 128 * one ≤ gridStep 39 :=
    mul_le_mul_of_nonneg_right (by norm_num) cast_one_pos.le
  have hpoint := le_mul_of_one_le_left (gridStep_pos 39).le hone
  have hless := hn.lt_two_pow
  linarith

/-- The interval has no point on the grid in front of the one where the search ends. -/
theorem not_rounds_coarser (h : x.isFinite) (hpos : 0 < x.units) (n : ℕ) :
    ¬ x.Rounds (n * gridStep (x.shortest.exponent + 1)) := by
  obtain ⟨-, hend⟩ := shortestFrom_spec hpos (show 103 ≤ 38 + 149 by decide)
  rw [← shortest] at hend
  rcases hend with heq | hnone
  · have hlast : x.shortest.exponent + 1 = 39 := by
      rw [heq]
      norm_num
    rw [hlast]
    exact not_rounds_beyond h hpos n
  · exact onGrid_of_none hpos hnone n

/-- A decimal with fewer digits than the shortest one would have a power of ten between them. -/
theorem isShortest_shortest (h : x.isFinite) (hpos : 0 < x.units) : x.IsShortest x.shortest := by
  obtain ⟨hfound, -⟩ := shortestFrom_spec hpos (show 103 ≤ 38 + 149 by decide)
  rw [← shortest] at hfound
  obtain ⟨hrounds, hnearest⟩ := onGrid_of_some hpos hfound
  refine ⟨hrounds, fun d hd => ?_, hnearest⟩
  have hcoarser := not_rounds_coarser h hpos
  generalize x.shortest = s at hrounds hcoarser ⊢
  have hexponent : d.exponent ≤ s.exponent := by
    by_contra! hlt
    obtain ⟨t, -, hvalue⟩ := exists_on_finer (Int.add_one_le_of_lt hlt) d.digits
    rw [hvalue] at hd
    exact hcoarser _ hd
  by_contra! hshort
  obtain ⟨k, hk⟩ : ∃ k, s.digitChars.length = k + 1 + 1 :=
    ⟨s.digitChars.length - 2, by have hone := d.length_digitChars_pos; omega⟩
  rw [hk] at hshort
  have hless : d.digits < 10 ^ (k + 1) :=
    (Nat.length_toDigits_le_iff (by decide) k.succ_pos).mp (Nat.le_of_lt_succ hshort)
  have hmore : 10 ^ (k + 1) ≤ s.digits := by
    by_contra! hlt
    have hlength : s.digitChars.length ≤ k + 1 :=
      (Nat.length_toDigits_le_iff (by decide) k.succ_pos).mpr hlt
    omega
  apply hcoarser (10 ^ k)
  refine hd.convex hrounds ?_ ?_
  · calc (d.digits * gridStep d.exponent : ℚ)
        ≤ 10 ^ (k + 1) * gridStep s.exponent :=
          mul_le_mul (by exact_mod_cast hless.le) (gridStep_mono hexponent)
            (gridStep_pos _).le (by positivity)
      _ = (10 ^ k : ℕ) * gridStep (s.exponent + 1) := by
          rw [gridStep_succ]
          push_cast
          ring
  · rw [gridStep_succ]
    have hscaled := mul_le_mul_of_nonneg_right (Nat.cast_le (α := ℚ).mpr hmore)
      (gridStep_pos s.exponent).le
    push_cast at hscaled ⊢
    rw [pow_succ] at hscaled
    linarith

section IsShortest

variable {d : Decimal}

theorem IsShortest.digits_pos (hd : x.IsShortest d) (hpos : 0 < x.units) : 0 < d.digits := by
  by_contra hzero
  have hrounds := hd.rounds
  rw [Nat.eq_zero_of_not_pos hzero, Nat.cast_zero, zero_mul] at hrounds
  exact not_rounds_zero hpos hrounds

/-- From the single the decimal is at most one grid step away. -/
theorem IsShortest.near (hd : x.IsShortest d) :
    |d.digits * gridStep d.exponent - x.units| ≤ gridStep d.exponent := by
  obtain ⟨hle, hlt⟩ := x.gridFloor_le d.exponent
  obtain ⟨-, hin⟩ | ⟨-, hin⟩ := rounds_gridFloor hd.rounds
  · refine (hd.nearest _ hin).trans ?_
    rw [abs_of_nonpos (sub_nonpos.mpr hle)]
    linarith
  · refine (hd.nearest _ hin).trans ?_
    push_cast
    rw [abs_of_pos (sub_pos.mpr hlt)]
    linarith

/-- The grid point on the other side of the single. -/
theorem IsShortest.exists_opposite (hd : x.IsShortest d) (hpos : 0 < x.units) :
    ∃ n : ℕ, |n * gridStep d.exponent - x.units| =
      gridStep d.exponent - |d.digits * gridStep d.exponent - x.units| := by
  have hnear := hd.near
  rcases le_total (x.units : ℚ) (d.digits * gridStep d.exponent) with hside | hside
  · refine ⟨d.digits - 1, ?_⟩
    rw [abs_of_nonneg (sub_nonneg.mpr hside)] at hnear ⊢
    rw [Nat.cast_pred (hd.digits_pos hpos), abs_of_nonpos (by linarith)]
    ring
  · refine ⟨d.digits + 1, ?_⟩
    rw [abs_of_nonpos (sub_nonpos.mpr hside)] at hnear ⊢
    rw [Nat.cast_succ, abs_of_nonneg (by linarith)]
    ring

end IsShortest

end Single

end LineConsole
