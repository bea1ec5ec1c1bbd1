import LineConsole.Proofs.SingleValues

/-!
The texts of floats with a fixed number of places. They show the exact value of the float, rounded
once to the last place, and a half goes to the even neighbour. A sign stands in front exactly if
the sign bit is set, so also in front of zero. A serial monitor shows two places, up to the last
single below 2^32.
-/
namespace LineConsole

namespace Rounding

structure IsNearest (q : ℚ) (n : ℕ) : Prop where
  near : |q - n| ≤ 1 / 2
  even : |q - n| = 1 / 2 → Even n

theorem IsNearest.of_lt {q : ℚ} {n : ℕ} (h : |q - n| < 1 / 2) : IsNearest q n :=
  ⟨h.le, fun heq => absurd heq h.ne⟩

theorem IsNearest.of_even {q : ℚ} {n : ℕ} (h : |q - n| = 1 / 2) (heven : Even n) :
    IsNearest q n :=
  ⟨h.le, fun _ => heven⟩

theorem isNearest_nearest {num den : ℕ} (hden : 0 < den) :
    IsNearest (num / den) (nearest num den) := by
  have hpos : (0 : ℚ) < den := Nat.cast_pos.mpr hden
  have hquotient : (num : ℚ) / den = (num / den : ℕ) + (num % den : ℕ) / den := by
    rw [div_eq_iff hpos.ne', add_mul, div_mul_cancel₀ _ hpos.ne']
    exact_mod_cast (Nat.div_add_mod' num den).symm
  have hmod : num % den < den := Nat.mod_lt _ hden
  rw [hquotient, nearest]
  generalize num / den = whole at *
  generalize num % den = rest at *
  have hrest : (0 : ℚ) ≤ rest / den := by positivity
  split
  · next hlow =>
    apply IsNearest.of_lt
    rw [add_sub_cancel_left, abs_of_nonneg hrest, div_lt_div_iff₀ hpos two_pos]
    exact_mod_cast (by omega : rest * 2 < 1 * den)
  · split
    · next hhigh =>
      have hhalf : 1 / 2 < (rest : ℚ) / den := by
        rw [div_lt_div_iff₀ two_pos hpos]
        exact_mod_cast (by omega : 1 * den < rest * 2)
      have hone : (rest : ℚ) / den < 1 := by
        rw [div_lt_one hpos]
        exact_mod_cast hmod
      apply IsNearest.of_lt
      rw [abs_lt]
      push_cast
      constructor <;> linarith
    · -- Halfway between two whole numbers.
      have hhalf : (rest : ℚ) / den = 1 / 2 := by
        rw [div_eq_div_iff hpos.ne' two_ne_zero]
        exact_mod_cast (by omega : rest * 2 = 1 * den)
      rw [hhalf]
      rcases Nat.mod_two_eq_zero_or_one whole with heven | hodd
      · rw [heven, add_zero]
        refine .of_even ?_ (Nat.even_iff.mpr heven)
        rw [add_sub_cancel_left, abs_of_pos (by norm_num)]
      · rw [hodd]
        refine .of_even ?_ (Nat.even_iff.mpr (by omega))
        have hdistance : (whole : ℚ) + 1 / 2 - (whole + 1 : ℕ) = -(1 / 2) := by
          push_cast
          ring
        rw [hdistance, abs_neg, abs_of_pos (by norm_num)]

/-- Decimal digits with a point among them, `places` of them behind it. Without the point they are
the digits of `n`, and the part in front of the point has no superfluous zero. -/
inductive ShowsFixed (places n : ℕ) : List Char → Prop
  | mk {whole fraction : List Char} (digits : ∀ c ∈ whole ++ fraction, c.isDigit)
      (nonempty : whole ≠ []) (lead : whole.head? = some '0' → whole = ['0'])
      (length : fraction.length = places)
      (value : Nat.ofDigitChars 10 (whole ++ fraction) 0 = n) :
      ShowsFixed places n (whole ++ '.' :: fraction)

theorem digitChar_eq_zero : ∀ n < 10, Nat.digitChar n = '0' → n = 0 := by decide

/-- The first digit of a number other than zero is no zero. -/
theorem head_toDigits {n : ℕ} (h : (Nat.toDigits 10 n).head? = some '0') : n = 0 := by
  induction n using Nat.strongRecOn with
  | ind n ih =>
    by_cases hsmall : n < 10
    · rw [Nat.toDigits_of_lt_base hsmall, List.head?_cons, Option.some.injEq] at h
      exact digitChar_eq_zero n hsmall h
    · rw [Nat.toDigits_of_base_le (by decide) (Nat.le_of_not_lt hsmall),
        List.head?_append_of_ne_nil _ Nat.toDigits_ne_nil] at h
      have hzero := ih (n / 10) (by omega) h
      omega

theorem length_placeDigits {places : ℕ} (hplaces : 0 < places) (n : ℕ) :
    (placeDigits places n).length = places := by
  have hlength : (Nat.toDigits 10 (n % 10 ^ places)).length ≤ places :=
    (Nat.length_toDigits_le_iff (by decide) hplaces).mpr (Nat.mod_lt _ (Nat.pow_pos (by decide)))
  unfold placeDigits
  dsimp only
  rw [Nat.pow_eq, List.length_append, List.length_replicate]
  omega

theorem isDigit_of_mem_placeDigits {places n : ℕ} : ∀ c ∈ placeDigits places n, c.isDigit := by
  intro c hc
  rcases List.mem_append.mp hc with hzero | hdigit
  · rw [List.eq_of_mem_replicate hzero]
    decide
  · exact Nat.isDigit_of_mem_toDigits (by decide) (by decide) hdigit

/-- The padded digits have the value of the digits alone. -/
theorem ofDigitChars_placeDigits (places n : ℕ) :
    Nat.ofDigitChars 10 (placeDigits places n) 0 = n % 10 ^ places := by
  unfold placeDigits
  dsimp only
  rw [Nat.ofDigitChars_append, Nat.ofDigitChars_replicate_zero, Nat.mul_zero,
    Nat.ofDigitChars_toDigits (by decide) (by decide), Nat.pow_eq]

theorem showsFixed_fixedText {places num den : ℕ} (hplaces : 0 < places) :
    ShowsFixed places (nearest (num * 10 ^ places) den) (fixedText places num den).toList := by
  rw [toList_fixedText, Nat.pow_eq]
  dsimp only
  generalize nearest (num * 10 ^ places) den = n
  refine .mk ?_ Nat.toDigits_ne_nil ?_ (length_placeDigits hplaces n) ?_
  · intro c hc
    rcases List.mem_append.mp hc with hwhole | hfraction
    · exact Nat.isDigit_of_mem_toDigits (by decide) (by decide) hwhole
    · exact isDigit_of_mem_placeDigits c hfraction
  · intro hhead
    rw [head_toDigits hhead]
    rfl
  · rw [Nat.ofDigitChars_append, Nat.ofDigitChars_toDigits (by decide) (by decide),
      Nat.ofDigitChars_eq_ofDigitChars_zero, ofDigitChars_placeDigits, length_placeDigits hplaces]
    exact Nat.div_add_mod n _

end Rounding

open Rounding

namespace Single

variable {x : Single}

/-- The sign, if the sign bit is set, and the digits behind it. -/
theorem toList_join_fixedPieces (places : ℕ) (x : Single) :
    (String.join (x.fixedPieces places)).toList =
      (if x.isNegative then ['-'] else []) ++ (fixedText places x.units one).toList := by
  unfold fixedPieces fixedText
  cases x.isNegative <;> simp [String.join_cons]

theorem isNearest_units (places : ℕ) (x : Single) :
    IsNearest (x.magnitude * 10 ^ places) (nearest (x.units * 10 ^ places) one) := by
  have hscaled : x.magnitude * 10 ^ places = (x.units * 10 ^ places : ℕ) / one := by
    rw [magnitude_eq]
    push_cast
    ring
  rw [hscaled]
  exact isNearest_nearest one_pos

/-- The text of the sign and the digits of the magnitude, rounded once to its last place. -/
structure Displays (places : ℕ) (x : Single) (text : String) (n : ℕ) : Prop where
  nearest : IsNearest (x.magnitude * 10 ^ places) n
  shows : ∃ digits, text.toList = (if x.isNegative then ['-'] else []) ++ digits ∧
    ShowsFixed places n digits

theorem displays_fixedPieces {places : ℕ} (hplaces : 0 < places) (x : Single) :
    Displays places x (String.join (x.fixedPieces places))
      (Rounding.nearest (x.units * 10 ^ places) one) where
  nearest := x.isNearest_units places
  shows := ⟨_, x.toList_join_fixedPieces places, showsFixed_fixedText hplaces⟩

theorem text_of_isFinite (h : x.isFinite) :
    (Value.float x).text = String.join (x.fixedPieces 6) := by
  obtain ⟨hnan, hinfinite⟩ := isFinite_iff.mp h
  simp [Value.text, Value.pieces, hnan, hinfinite]

/-- A number displayed with `places` places is off by at most half of the last one. -/
theorem Displays.error_le {places n : ℕ} {text : String} (h : Displays places x text n) :
    |(if x.isNegative then -(n / 10 ^ places : ℚ) else n / 10 ^ places) - x.value| ≤
      1 / 2 / 10 ^ places := by
  have hpower : (0 : ℚ) < 10 ^ places := by positivity
  have hmagnitude : |(n / 10 ^ places : ℚ) - x.magnitude| ≤ 1 / 2 / 10 ^ places := by
    rw [le_div_iff₀ hpower, ← abs_of_pos hpower, ← abs_mul, sub_mul, abs_of_pos hpower,
      div_mul_cancel₀ _ hpower.ne', abs_sub_comm]
    exact h.nearest.near
  unfold value
  split
  · rwa [neg_sub_neg, abs_sub_comm]
  · exact hmagnitude

/-! The serial monitor -/

theorem short_serialLimit : Short (4294967040 * one) :=
  ⟨0xFFFFFF, 8 + 149, by decide, by rw [one, Nat.pow_eq, Nat.pow_add, ← Nat.mul_assoc]⟩

theorem units_serialLimit : serialLimit.units = 4294967040 * one := by
  obtain ⟨-, hscaled⟩ := scaled_ofInt (n := 4294967040) short_serialLimit (by decide)
  rw [← natAbs_scaled, serialLimit, hscaled, Int.natAbs_mul]
  rfl

/-- Between the last single that is written out and 2^32 there is no other. -/
theorem serialLimit_lt_iff (x : Single) :
    serialLimit.units < x.units ↔ 2 ^ 32 * one ≤ x.units := by
  rw [units_serialLimit]
  refine ⟨fun hlt => ?_, fun hle => ?_⟩
  · by_contra hbelow
    have htop : 2 ^ 180 ≤ 4294967040 * one := by decide +kernel
    have hlength : ¬ binaryLength x.units ≤ 180 := by
      rw [binaryLength_le_iff]
      omega
    have hexcess : 157 ≤ excess 24 x.units := by
      unfold excess
      omega
    obtain ⟨k, hk⟩ := Nat.dvd_trans (Nat.pow_dvd_pow 2 hexcess) x.short_units.dvd
    have hone : one = 2 ^ 149 := rfl
    rw [hk, hone] at hlt hbelow
    omega
  · have hless : 4294967040 * one < 2 ^ 32 * one :=
      Nat.mul_lt_mul_of_pos_right (by decide) one_pos
    omega

theorem serialText_of_isFinite (h : x.isFinite) :
    x.serialText = if 2 ^ 32 ≤ x.magnitude then "ovf" else String.join (x.fixedPieces 2) := by
  obtain ⟨hnan, hinfinite⟩ := isFinite_iff.mp h
  have hlimit : serialLimit.units < x.units ↔ 2 ^ 32 ≤ x.magnitude := by
    rw [serialLimit_lt_iff, magnitude_eq, le_div_iff₀ cast_one_pos]
    exact_mod_cast Iff.rfl
  rw [serialText, serialPieces, hnan, hinfinite, if_neg Bool.false_ne_true,
    if_neg Bool.false_ne_true]
  by_cases hlarge : 2 ^ 32 ≤ x.magnitude
  · rw [if_pos hlarge, if_pos (hlimit.mpr hlarge)]
    rfl
  · rw [if_neg hlarge, if_neg (fun hlt => hlarge (hlimit.mp hlt))]

theorem Displays.ne_ovf {places n : ℕ} (h : Displays places x "ovf" n) : False := by
  obtain ⟨-, digits, htext, hshows⟩ := h
  have hpoint : '.' ∈ "ovf".toList := by
    rw [htext]
    cases hshows
    simp
  exact absurd hpoint (by decide)

/-- The text of a finite float is its exact value, rounded once to six places with halves to even,
behind a sign exactly if the sign bit is set. So it is off by at most half a millionth, and it has
at most 47 bytes. A serial monitor shows in the same way two places of every magnitude below 2^32,
and `ovf` for every other one. -/
theorem text_is_rounded_once (x : Single) (h : x.isFinite) :
    (∃ n, Displays 6 x (Value.float x).text n ∧
      |(if x.isNegative then -(n / 10 ^ 6 : ℚ) else n / 10 ^ 6) - x.value| ≤ 5 / 10 ^ 7) ∧
    (Utf8.encode (Value.float x).text).length ≤ 47 ∧
    ((∃ n, Displays 2 x x.serialText n) ↔ x.magnitude < 2 ^ 32) ∧
    (x.serialText = "ovf" ↔ 2 ^ 32 ≤ x.magnitude) := by
  have hnarrow := Value.narrow_float x
  have hdisplays := displays_fixedPieces (show 0 < 6 by decide) x
  have hserial := displays_fixedPieces (show 0 < 2 by decide) x
  have htext := serialText_of_isFinite h
  rw [← text_of_isFinite h] at hdisplays
  have hovf : x.serialText = "ovf" ↔ 2 ^ 32 ≤ x.magnitude := by
    refine ⟨fun heq => ?_, fun hlarge => by rw [htext, if_pos hlarge]⟩
    by_contra hsmall
    rw [if_neg hsmall, heq] at htext
    rw [← htext] at hserial
    exact hserial.ne_ovf
  refine ⟨⟨_, hdisplays, ?_⟩, ?_, ?_, hovf⟩
  · have herror := hdisplays.error_le
    norm_num at herror ⊢
    exact herror
  · rw [Utf8.encode_printable hnarrow.printable, List.length_map]
    exact hnarrow.length_le
  · constructor
    · rintro ⟨n, hn⟩
      by_contra hlarge
      rw [hovf.mpr (not_lt.mp hlarge)] at hn
      exact hn.ne_ovf
    · intro hsmall
      rw [htext, if_neg (not_le.mpr hsmall)]
      exact ⟨_, hserial⟩

/-- The last single that a serial monitor writes out, and the next one. -/
theorem text_around_serial_limit :
    let last : Single := ⟨0x4F7FFFFF⟩
    let next : Single := ⟨0xCF800000⟩
    last.isFinite ∧ next.isFinite ∧
      (∃ n, Displays 6 last (Value.float last).text n) ∧
      (∃ n, Displays 2 last last.serialText n) ∧ next.serialText = "ovf" ∧
      (∃ n, Displays 6 next (Value.float next).text n) := by
  intro last next
  have hlast : last.isFinite := by decide +kernel
  have hnext : next.isFinite := by decide +kernel
  have hbelow : last.magnitude < 2 ^ 32 := by
    have hexponent : last.exponent = 158 := by decide +kernel
    have hfraction : last.fraction = 2 ^ 23 - 1 := by decide +kernel
    norm_num [magnitude, hexponent, hfraction]
  have habove : (2 : ℚ) ^ 32 ≤ next.magnitude := by
    have hexponent : next.exponent = 159 := by decide +kernel
    have hfraction : next.fraction = 0 := by decide +kernel
    norm_num [magnitude, hexponent, hfraction]
  obtain ⟨⟨n, hn, -⟩, -, hserial, -⟩ := text_is_rounded_once last hlast
  obtain ⟨⟨m, hm, -⟩, -, -, hovf⟩ := text_is_rounded_once next hnext
  exact ⟨hlast, hnext, ⟨n, hn⟩, hserial.mpr hbelow, hovf.mpr habove, m, hm⟩

end Single

end LineConsole
