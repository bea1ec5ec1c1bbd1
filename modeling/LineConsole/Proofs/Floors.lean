import LineConsole.Number.Floor
import LineConsole.Proofs.SingleValues
import Mathlib.Data.Int.ConditionallyCompleteOrder

/-!
Floors of singles. The whole part of a single in range is an integer with few digits, so turning it
back into a single is exact, and the comparison with it says whether cutting off went up. The floor
that stops at the ends of the range is the floor of the extended value clamped to the range, and so
it keeps the order.
-/
namespace LineConsole

open Rounding

def IsInt32 (z : Int) : Prop := -2147483648 ≤ z ∧ z ≤ 2147483647

instance (z : Int) : Decidable (IsInt32 z) :=
  inferInstanceAs (Decidable (-2147483648 ≤ z ∧ z ≤ 2147483647))

theorem IsInt32.toInt_ofInt {z : Int} (h : IsInt32 z) : (Int32.ofInt z).toInt = z := by
  unfold IsInt32 at h
  exact Int32.toInt_ofInt_of_le (by omega) (by omega)

namespace Single

/-! Cutting off -/

theorem tdiv_of_dvd_or_nonneg {s d : Int} (h : 0 ≤ s ∨ d ∣ s) : s.tdiv d = s / d := by
  rw [Int.tdiv_eq_ediv, if_pos h, add_zero]

theorem tdiv_of_neg {s d : Int} (hd : 0 < d) (h : ¬ (0 ≤ s ∨ d ∣ s)) :
    s.tdiv d = s / d + 1 := by
  rw [Int.tdiv_eq_ediv, if_neg h, Int.sign_eq_one_of_pos hd]

/-- Cutting off goes up exactly if the result is above. -/
theorem lt_tdiv_iff {s d : Int} (hd : 0 < d) : s < s.tdiv d * d ↔ ¬ (0 ≤ s ∨ d ∣ s) := by
  have hle := Int.ediv_mul_le s (ne_of_gt hd)
  by_cases h : 0 ≤ s ∨ d ∣ s
  · rw [tdiv_of_dvd_or_nonneg h]
    exact iff_of_false (not_lt.mpr hle) (not_not_intro h)
  · have hlt := Int.lt_ediv_add_one_mul_self s hd
    rw [tdiv_of_neg hd h]
    exact iff_of_true hlt h

/-- One step down from there is the floor. -/
theorem ediv_eq_tdiv {s d : Int} (hd : 0 < d) :
    s / d = if s < s.tdiv d * d then s.tdiv d - 1 else s.tdiv d := by
  by_cases h : 0 ≤ s ∨ d ∣ s
  · rw [if_neg (by rw [lt_tdiv_iff hd]; exact not_not_intro h), tdiv_of_dvd_or_nonneg h]
  · rw [if_pos ((lt_tdiv_iff hd).mpr h), tdiv_of_neg hd h, Int.add_sub_cancel]

variable {x : Single}

theorem one_pos_int : (0 : Int) < one := Int.natCast_pos.mpr one_pos

theorem floor_eq_truncate (x : Single) :
    ⌊x.value⌋ = if x.value < x.truncate then x.truncate - 1 else x.truncate := by
  rw [floor_value, ediv_eq_tdiv one_pos_int]
  exact if_congr (value_lt_intCast x.truncate).symm rfl rfl

/-- The whole part is in range if the floor is. -/
theorem isInt32_truncate (h : IsInt32 ⌊x.value⌋) : IsInt32 x.truncate := by
  rw [floor_value] at h
  unfold truncate
  by_cases hexact : 0 ≤ x.scaled ∨ (one : Int) ∣ x.scaled
  · rwa [tdiv_of_dvd_or_nonneg hexact]
  · have hneg : x.scaled / one < 0 := Int.ediv_neg_of_neg_of_pos (by omega) one_pos_int
    rw [tdiv_of_neg one_pos_int hexact]
    unfold IsInt32 at h ⊢
    omega

/-- Turned into a 32-bit integer and back, the whole part of a single compares as before, and
where a step down is due there is room for it. -/
theorem cut_exact (hx : x.isNaN = false) (h : IsInt32 ⌊x.value⌋) :
    (Int32.ofInt x.truncate).toInt = x.truncate ∧
    (x.lt (ofInt (Int32.ofInt x.truncate).toInt) ↔ x.value < x.truncate) ∧
    (x.value < x.truncate → (Int32.ofInt x.truncate - 1).toInt = x.truncate - 1) := by
  have htruncate := isInt32_truncate h
  have hcut := htruncate.toInt_ofInt
  refine ⟨hcut, ?_, ?_⟩
  · have hsmall : x.truncate.natAbs < 2 ^ 128 := by
      unfold IsInt32 at htruncate
      omega
    obtain ⟨hnumber, hscaled⟩ := scaled_ofInt x.short_truncate hsmall
    rw [hcut, lt_iff hx hnumber, hscaled, value_lt_intCast]
  · intro hup
    rw [floor_eq_truncate, if_pos hup] at h
    have hone : Int32.ofInt x.truncate - 1 = Int32.ofInt (x.truncate - 1) :=
      (Int32.ofInt_sub x.truncate 1).symm
    rw [hone, h.toInt_ofInt]

/-! The floor in range -/

theorem scaled_ofInt_bound (n : Int) (hn : n.natAbs = 2 ^ 31) :
    (ofInt n).isNaN = false ∧ (ofInt n).scaled = n * one := by
  apply scaled_ofInt
  · exact ⟨1, 31 + 149, by decide, by rw [hn, Nat.one_mul, Nat.pow_add]; rfl⟩
  · rw [hn]
    decide

theorem inIntRange_iff (hx : x.isNaN = false) : x.inIntRange ↔ IsInt32 ⌊x.value⌋ := by
  obtain ⟨hlow, hlows⟩ := scaled_ofInt_bound (-0x80000000) rfl
  obtain ⟨hhigh, hhighs⟩ := scaled_ofInt_bound 0x80000000 rfl
  have hbelow : x.scaled < 0x80000000 * one ↔ x.scaled / one ≤ 2147483647 := by
    rw [← Int.ediv_lt_iff_lt_mul one_pos_int]
    omega
  rw [inIntRange, Bool.and_eq_true, le_iff hlow hx, lt_iff hx hhigh, hlows, hhighs, hbelow,
    ← Int.le_ediv_iff_mul_le one_pos_int, floor_value, IsInt32]

/-- The step down from the whole part leads to the floor. -/
theorem cut_eq_floor (hx : x.isNaN = false) (h : IsInt32 ⌊x.value⌋) :
    let cut := Int32.ofInt x.truncate
    (if x.lt (ofInt cut.toInt) then cut - 1 else cut) = Int32.ofInt ⌊x.value⌋ := by
  intro cut
  obtain ⟨hcut, hlt, hdown⟩ := cut_exact hx h
  rw [← Int32.toInt_inj, h.toInt_ofInt, floor_eq_truncate]
  by_cases hup : x.value < x.truncate
  · rw [if_pos (hlt.mpr hup), if_pos hup, hdown hup]
  · rw [if_neg (fun h => hup (hlt.mp h)), if_neg hup, hcut]

theorem floor_of_finite (h : x.isFinite) :
    x.floor = if IsInt32 ⌊x.value⌋ then .ok (Int32.ofInt ⌊x.value⌋) else .error .outOfRange := by
  obtain ⟨hnan, hinfinite⟩ := isFinite_iff.mp h
  rw [floor, hnan, hinfinite, if_neg Bool.false_ne_true, if_neg Bool.false_ne_true]
  by_cases hrange : IsInt32 ⌊x.value⌋
  · rw [if_pos hrange, (inIntRange_iff hnan).mpr hrange, ← cut_eq_floor hnan hrange]
    rfl
  · have hout : x.inIntRange = false := by
      rwa [← Bool.not_eq_true, inIntRange_iff hnan]
    rw [if_neg hrange, hout]
    rfl

theorem floor_of_isNaN (h : x.isNaN) : x.floor = .error .notANumber := if_pos h

theorem floor_of_isInfinite (h : x.isInfinite) : x.floor = .error .infinite := by
  rw [floor, not_isNaN_of_isInfinite h, if_neg Bool.false_ne_true, if_pos h]

/-- A single is no number, infinite or finite, and each has its own outcome. -/
theorem floor_cases (x : Single) :
    (x.isNaN ∧ x.floor = .error .notANumber) ∨
    (x.isInfinite ∧ x.floor = .error .infinite) ∨
    (x.isFinite ∧ IsInt32 ⌊x.value⌋ ∧ x.floor = .ok (Int32.ofInt ⌊x.value⌋)) ∨
    (x.isFinite ∧ ¬ IsInt32 ⌊x.value⌋ ∧ x.floor = .error .outOfRange) := by
  by_cases hnan : x.isNaN
  · exact Or.inl ⟨hnan, floor_of_isNaN hnan⟩
  by_cases hinfinite : x.isInfinite
  · exact Or.inr (Or.inl ⟨hinfinite, floor_of_isInfinite hinfinite⟩)
  have hfinite := isFinite_of_not_isInfinite (Bool.eq_false_of_not_eq_true hnan) hinfinite
  have hfloor := floor_of_finite hfinite
  by_cases hrange : IsInt32 ⌊x.value⌋
  · rw [if_pos hrange] at hfloor
    exact Or.inr (Or.inr (Or.inl ⟨hfinite, hrange, hfloor⟩))
  · rw [if_neg hrange] at hfloor
    exact Or.inr (Or.inr (Or.inr ⟨hfinite, hrange, hfloor⟩))

/-- The floor of a single is exact: there is one exactly if the single is finite and the floor of
its value is a 32-bit integer, and then it is this integer. On the way, turning the whole part into
a single again does not change the comparison with it, and the step down stays in range. -/
theorem floor_is_exact (x : Single) :
    (x.floor = .error .notANumber ↔ x.isNaN) ∧
    (x.floor = .error .infinite ↔ x.isInfinite) ∧
    (x.isFinite →
      ((∃ n, x.floor = .ok n ∧ n.toInt = ⌊x.value⌋) ↔ IsInt32 ⌊x.value⌋) ∧
      (∀ n, x.floor = .ok n → n.toInt = ⌊x.value⌋) ∧
      (x.floor = .error .outOfRange ↔ ¬ IsInt32 ⌊x.value⌋)) ∧
    (x.isFinite → IsInt32 ⌊x.value⌋ →
      let cut := Int32.ofInt x.truncate
      (x.lt (ofInt cut.toInt) ↔ x.value < cut.toInt) ∧
      (x.lt (ofInt cut.toInt) → (cut - 1).toInt = cut.toInt - 1)) := by
  refine ⟨⟨fun h => ?_, floor_of_isNaN⟩, ⟨fun h => ?_, floor_of_isInfinite⟩, ?_, ?_⟩
  · obtain ⟨hnan, -⟩ | ⟨-, hfloor⟩ | ⟨-, -, hfloor⟩ | ⟨-, -, hfloor⟩ := x.floor_cases
    · exact hnan
    all_goals cases hfloor.symm.trans h
  · obtain ⟨-, hfloor⟩ | ⟨hinfinite, -⟩ | ⟨-, -, hfloor⟩ | ⟨-, -, hfloor⟩ := x.floor_cases
    · cases hfloor.symm.trans h
    · exact hinfinite
    all_goals cases hfloor.symm.trans h
  · intro hfinite
    rw [floor_of_finite hfinite]
    by_cases hrange : IsInt32 ⌊x.value⌋
    · rw [if_pos hrange]
      refine ⟨iff_of_true ⟨_, rfl, hrange.toInt_ofInt⟩ hrange, ?_, ?_⟩
      · rintro n ⟨⟩
        exact hrange.toInt_ofInt
      · exact iff_of_false nofun (not_not_intro hrange)
    · rw [if_neg hrange]
      refine ⟨iff_of_false ?_ hrange, nofun, iff_of_true rfl hrange⟩
      rintro ⟨n, ⟨⟩, -⟩
  · intro hfinite hrange cut
    obtain ⟨hcut, hlt, hdown⟩ := cut_exact (isFinite_iff.mp hfinite).1 hrange
    have hcompare : x.lt (ofInt cut.toInt) ↔ x.value < cut.toInt := hlt.trans (by rw [hcut])
    refine ⟨hcompare, fun hup => ?_⟩
    rw [hcut]
    exact hdown (hlt.mp hup)

/-- A half below zero: cutting off goes up to zero, and the step down leads to minus one. -/
theorem floor_of_minus_half :
    let x : Single := ⟨0xBF000000⟩
    x.isFinite ∧ IsInt32 ⌊x.value⌋ ∧ (∃ n, x.floor = .ok n ∧ n.toInt = ⌊x.value⌋) ∧
      ((Int32.ofInt x.truncate) - 1).toInt = (Int32.ofInt x.truncate).toInt - 1 := by
  intro x
  have hfinite : x.isFinite := by decide +kernel
  have hrange : IsInt32 ⌊x.value⌋ := by
    rw [floor_value]
    decide +kernel
  have hup : x.lt (ofInt (Int32.ofInt x.truncate).toInt) := by decide +kernel
  obtain ⟨-, -, hfloor, hdown⟩ := floor_is_exact x
  exact ⟨hfinite, hrange, (hfloor hfinite).1.mpr hrange, (hdown hfinite hrange).2 hup⟩

/-! The floor that stops at the ends of the range -/

/-- The floor of an extended value, brought into the range of 32-bit integers. -/
def clampedFloor (v : WithBot (WithTop ℚ)) : WithBot (WithTop ℤ) :=
  max ((-2147483648 : ℤ) : WithTop ℤ)
    (min (v.map (WithTop.map Int.floor)) ((2147483647 : ℤ) : WithTop ℤ))

theorem clampedFloor_le {v w : WithBot (WithTop ℚ)} (h : v ≤ w) :
    clampedFloor v ≤ clampedFloor w := by
  have hfloor := (Int.floor_mono (R := ℚ)).withTop_map.withBot_map h
  exact max_le_max_left _ (min_le_min_right _ hfloor)

theorem clampedFloor_bot : clampedFloor ⊥ = ((-2147483648 : ℤ) : WithTop ℤ) := by
  rw [clampedFloor, WithBot.map_bot, min_eq_left bot_le, max_eq_left bot_le]

theorem clampedFloor_top : clampedFloor ⊤ = ((2147483647 : ℤ) : WithTop ℤ) := by
  have htop : (⊤ : WithBot (WithTop ℚ)).map (WithTop.map Int.floor) = ⊤ := rfl
  rw [clampedFloor, htop, min_eq_right le_top]
  rfl

theorem clampedFloor_coe (q : ℚ) :
    clampedFloor ((q : WithTop ℚ) : WithBot _) =
      ((max (-2147483648) (min ⌊q⌋ 2147483647) : ℤ) : WithTop ℤ) := by
  rw [WithTop.coe_max, WithTop.coe_min, WithBot.coe_max, WithBot.coe_min]
  rfl

theorem floorSaturating_of_ok {n : Int32} (h : x.floor = .ok n) : x.floorSaturating = n := by
  rw [floorSaturating, h]

theorem floorSaturating_of_isNaN (h : x.isNaN) : x.floorSaturating = 0 := by
  rw [floorSaturating, floor_of_isNaN h]

theorem zero_lt_iff (hx : x.isNaN = false) : (ofInt 0).lt x ↔ 0 < x.scaled := by
  obtain ⟨hzero, hscaled⟩ := scaled_ofInt (n := 0) ⟨0, 0, by decide, rfl⟩ (by decide)
  rw [lt_iff hzero hx, hscaled, Int.zero_mul]

/-- Without a floor the sign decides which end of the range it is. -/
theorem floorSaturating_of_error (hx : x.isNaN = false)
    (h : x.floor = .error .infinite ∨ x.floor = .error .outOfRange) :
    x.floorSaturating.toInt = if 0 < x.scaled then 2147483647 else -2147483648 := by
  unfold floorSaturating
  obtain h | h := h <;>
  · rw [h]
    dsimp only
    rw [if_congr (zero_lt_iff hx) rfl rfl]
    split <;> rfl

theorem floorSaturating_of_isInfinite (h : x.isInfinite) :
    ((x.floorSaturating.toInt : WithTop ℤ) : WithBot _) = clampedFloor x.extended := by
  have hnan := not_isNaN_of_isInfinite h
  have htop := top_pos
  rw [floorSaturating_of_error hnan (Or.inl (floor_of_isInfinite h)), scaled_of_isInfinite h,
    extended, if_pos h]
  cases x.isNegative with
  | true => rw [if_pos rfl, if_neg (by omega), if_pos rfl, clampedFloor_bot]
  | false =>
    rw [if_neg Bool.false_ne_true, if_pos htop, if_neg Bool.false_ne_true, clampedFloor_top]

theorem floorSaturating_of_isFinite (h : x.isFinite) :
    x.floorSaturating.toInt = max (-2147483648) (min ⌊x.value⌋ 2147483647) := by
  have hnan := (isFinite_iff.mp h).1
  have hfloor := floor_of_finite h
  by_cases hrange : IsInt32 ⌊x.value⌋
  · rw [if_pos hrange] at hfloor
    rw [floorSaturating_of_ok hfloor, hrange.toInt_ofInt]
    unfold IsInt32 at hrange
    omega
  · rw [if_neg hrange] at hfloor
    rw [floorSaturating_of_error hnan (Or.inr hfloor)]
    -- The floor is off the range on the side that the sign says.
    unfold IsInt32 at hrange
    have hsign : 0 ≤ ⌊x.value⌋ ↔ 0 ≤ x.scaled := by
      rw [floor_value, Int.le_ediv_iff_mul_le one_pos_int, Int.zero_mul]
    have hzero : x.scaled = 0 → ⌊x.value⌋ = 0 := by
      intro h
      rw [floor_value, h, Int.zero_ediv]
    split <;> omega

/-- The floor that stops at the ends of the range is that of the extended value. -/
theorem floorSaturating_eq_clampedFloor (hx : x.isNaN = false) :
    ((x.floorSaturating.toInt : WithTop ℤ) : WithBot _) = clampedFloor x.extended := by
  by_cases hinfinite : x.isInfinite
  · exact floorSaturating_of_isInfinite hinfinite
  · have hfinite := isFinite_of_not_isInfinite hx hinfinite
    rw [extended, if_neg hinfinite, clampedFloor_coe, floorSaturating_of_isFinite hfinite]

theorem not_isNaN_of_le {y : Single} (h : x.le y) : x.isNaN = false ∧ y.isNaN = false := by
  have hle : (x.isNaN = false ∧ y.isNaN = false) ∧ x.scaled ≤ y.scaled := by
    simpa [le] using h
  exact hle.1

/-- The floor that stops at the ends of the range extends the exact floor to every single and
keeps the order: it is zero for what is no number, and the floor of the extended value, brought
into the range, for everything else. -/
theorem floorSaturating_is_monotone_extension (x : Single) :
    (x.isNaN → x.floorSaturating = 0) ∧
    (x.isNaN = false →
      ((x.floorSaturating.toInt : WithTop ℤ) : WithBot _) = clampedFloor x.extended) ∧
    (∀ n, x.floor = .ok n → x.floorSaturating = n) ∧
    (∀ y, x.isNaN = false → y.isNaN = false → (x.le y ↔ x.extended ≤ y.extended)) ∧
    (∀ y, x.le y → x.floorSaturating ≤ y.floorSaturating) := by
  refine ⟨floorSaturating_of_isNaN, floorSaturating_eq_clampedFloor,
    fun n => floorSaturating_of_ok, fun y => le_iff_extended, fun y hle => ?_⟩
  obtain ⟨hx, hy⟩ := not_isNaN_of_le hle
  have hclamped := clampedFloor_le ((le_iff_extended hx hy).mp hle)
  rw [← floorSaturating_eq_clampedFloor hx, ← floorSaturating_eq_clampedFloor hy] at hclamped
  rw [Int32.le_iff_toInt_le]
  exact WithTop.coe_le_coe.mp (WithBot.coe_le_coe.mp hclamped)

/-- From the last single below the range over a subnormal below zero to the infinity. -/
theorem floorSaturating_over_the_range :
    let huge : Single := ⟨0xCF000001⟩
    let tiny : Single := ⟨0x80000001⟩
    let infinity : Single := ⟨0x7F800000⟩
    let nan : Single := ⟨0x7FC00000⟩
    nan.floorSaturating = 0 ∧ huge.le tiny ∧ tiny.le infinity ∧
      huge.floorSaturating ≤ tiny.floorSaturating ∧
      tiny.floorSaturating ≤ infinity.floorSaturating ∧
      tiny.floor = .ok (-1) ∧ tiny.floorSaturating = -1 ∧
      ((huge.floorSaturating.toInt : WithTop ℤ) : WithBot _) = clampedFloor huge.extended := by
  intro huge tiny infinity nan
  have hlow : huge.le tiny := by decide +kernel
  have hhigh : tiny.le infinity := by decide +kernel
  have hfloor : tiny.floor = .ok (-1) := by decide +kernel
  obtain ⟨-, hclamped, -, -, hbelow⟩ := floorSaturating_is_monotone_extension huge
  obtain ⟨-, -, hextends, -, habove⟩ := floorSaturating_is_monotone_extension tiny
  exact ⟨(floorSaturating_is_monotone_extension nan).1 (by decide +kernel), hlow, hhigh,
    hbelow tiny hlow, habove infinity hhigh, hfloor, hextends (-1) hfloor,
    hclamped (by decide +kernel)⟩

end Single

end LineConsole
