import LineConsole.Proofs.DoubleRounding
import LineConsole.Proofs.JsonTexts

/-!
Floats that are written as JSON and read again, by a library that writes the shortest decimal of a
float and reads a number as the nearest double, of which it takes the nearest single. Rounding twice
goes wrong for a single magnitude. All other finite floats come back with all of their bits.
-/
namespace LineConsole

open Rounding

open Json Json.Double

/-! What is known of a library -/

structure Single.IsWrittenAs (x : Single) (t : Numeral) : Prop where
  sign : t.negative = x.isNegative
  zero : x.units = 0 → t.significand = 0
  shortest : 0 < x.units → ∃ d, x.IsShortest d ∧ t.decimal.value = d.value

namespace Json.Library

variable (json : Library)

def WritesShortest : Prop :=
  ∀ x : Single, x.isFinite → ∃ t, json.writeFloat x = t.chars ∧ x.IsWrittenAs t

/-- Of a number the nearest double is taken, and of that the nearest single. -/
def ReadsDoubles : Prop :=
  ∀ t : Numeral, t.decimal.double < limit →
    json.readFloat t.chars = some (.ofQuotient t.negative t.decimal.double Double.one)

end Json.Library

/-! Both roundings -/

theorem Json.Double.limit_pos : 0 < limit := by
  decide +kernel

theorem Decimal.double_of_digits_zero {d : Decimal} (h : d.digits = 0) : d.double = 0 := by
  have hvalue : d.value = 0 := by rw [value, h, Nat.cast_zero, zero_mul]
  have hexact : d.double = 0 * 2 ^ 0 :=
    double_exact (by decide) (by rw [hvalue, Nat.cast_zero, zero_mul, zero_mul])
  rw [hexact, Nat.zero_mul]

namespace Single.IsWrittenAs

variable {x : Single} {t : Numeral}

theorem double_lt_limit (h : x.isFinite) (ht : x.IsWrittenAs t) : t.decimal.double < limit := by
  rcases Nat.eq_zero_or_pos x.units with hzero | hpos
  · rw [Decimal.double_of_digits_zero (ht.zero hzero)]
    exact limit_pos
  · obtain ⟨d, hd, hvalue⟩ := ht.shortest hpos
    rw [Decimal.double_congr hvalue]
    exact Double.double_lt_limit h hpos hd.rounds

theorem ofQuotient_double (h : x.isFinite) (ht : x.IsWrittenAs t) :
    ofQuotient t.negative t.decimal.double Double.one =
      if IsNearMiss x then ⟨x.bits + 1⟩ else x := by
  rw [ht.sign, ofQuotient]
  rcases Nat.eq_zero_or_pos x.units with hzero | hpos
  · have hmiss : ¬ IsNearMiss x := fun hmiss => by
      rw [hmiss.units_eq.1] at hzero
      exact absurd hzero (by decide)
    rw [Decimal.double_of_digits_zero (ht.zero hzero), if_neg hmiss, Nat.zero_mul]
    have hexact := significant_exact (show 0 < 2 ^ 24 by decide) 0 Double.one_pos
    rw [Nat.zero_mul, Nat.zero_mul] at hexact
    rw [hexact, ← hzero, ofUnits_units h]
  · obtain ⟨d, hd, hvalue⟩ := ht.shortest hpos
    rw [Decimal.double_congr hvalue]
    exact ofUnits_significant_double h hpos hd

end Single.IsWrittenAs

/-- The text is a number with this sign and with the digits and the power of ten of `d`. -/
def Json.IsTextOf (negative : Bool) (d : Decimal) (cs : List Char) : Prop :=
  ∃ t : Numeral, cs = t.chars ∧ t.negative = negative ∧ t.decimal = d

namespace Json

def Numeral.ofWhole (negative : Bool) (n : ℕ) : Numeral where
  negative := negative
  whole := Nat.toDigits 10 n
  fraction := some ['0']
  exponent := none
  whole_digits _ hc := Nat.isDigit_of_mem_toDigits (by decide) (by decide) hc
  whole_ne := Nat.toDigits_ne_nil
  whole_lead h := by
    rw [head_toDigits h]
    rfl
  fraction_digits := by
    rintro f ⟨⟩
    exact ⟨List.cons_ne_nil _ _, List.forall_mem_singleton.mpr rfl⟩
  exponent_digits := Numeral.no_exponent

theorem isTextOf_whole (negative : Bool) (n : ℕ) :
    IsTextOf negative ⟨10 * n, -1⟩
      ((if negative then ['-'] else []) ++ (Nat.toDigits 10 n ++ ['.', '0'])) := by
  refine ⟨.ofWhole negative n, rfl, rfl, ?_⟩
  have hdigits : (Numeral.ofWhole negative n).significand = 10 * n := by
    rw [Numeral.significand, Numeral.ofWhole, Option.getD_some, Nat.ofDigitChars_append,
      Nat.ofDigitChars_toDigits (by decide) (by decide)]
    rfl
  rw [Numeral.decimal, hdigits]
  rfl

end Json

namespace Decimal

variable (d : Decimal)

theorem isDigit_of_mem_digitChars : ∀ c ∈ d.digitChars, c.isDigit := fun _ hc =>
  Nat.isDigit_of_mem_toDigits (by decide) (by decide) hc

theorem digitChars_ne_nil : d.digitChars ≠ [] := Nat.toDigits_ne_nil

theorem ofDigitChars_digitChars : Nat.ofDigitChars 10 d.digitChars 0 = d.digits :=
  Nat.ofDigitChars_toDigits (by decide) (by decide)

variable {d}

theorem head_digitChars (hpos : 0 < d.digits) : d.digitChars.head? ≠ some '0' := fun h =>
  hpos.ne' (head_toDigits h)

def split (d : Decimal) : ℕ := d.digitChars.length - (-d.exponent).toNat

def fixedNumeral (negative : Bool) (d : Decimal) (hpos : 0 < d.digits) (h : d.exponent < 0) :
    Numeral where
  negative := negative
  whole := if 0 < d.split then d.digitChars.take d.split else ['0']
  fraction := some (if 0 < d.split then d.digitChars.drop d.split
    else List.replicate ((-d.exponent).toNat - d.digitChars.length) '0' ++ d.digitChars)
  exponent := none
  whole_digits := by
    split
    · exact fun c hc => d.isDigit_of_mem_digitChars c (List.mem_of_mem_take hc)
    · exact List.forall_mem_singleton.mpr rfl
  whole_ne := by
    split
    · next hsplit => simp [d.digitChars_ne_nil, hsplit.ne']
    · exact List.cons_ne_nil _ _
  whole_lead := by
    split
    · next hsplit =>
      intro hhead
      rw [List.head?_take, if_neg hsplit.ne'] at hhead
      exact absurd hhead (head_digitChars hpos)
    · exact fun _ => rfl
  fraction_digits := by
    rintro f ⟨⟩
    split
    · next hsplit =>
      refine ⟨?_, fun c hc => d.isDigit_of_mem_digitChars c (List.mem_of_mem_drop hc)⟩
      have hlength := d.length_digitChars_pos
      rw [ne_eq, List.drop_eq_nil_iff, not_le, Decimal.split]
      omega
    · refine ⟨by simp [d.digitChars_ne_nil], fun c hc => ?_⟩
      rcases List.mem_append.mp hc with hzero | hdigit
      · rw [List.eq_of_mem_replicate hzero]
        decide
      · exact d.isDigit_of_mem_digitChars c hdigit
  exponent_digits := Numeral.no_exponent

theorem isTextOf_positional (negative : Bool) (hpos : 0 < d.digits) (h : d.exponent < 0)
    (whole : List Char) :
    IsTextOf negative d ((if negative then ['-'] else []) ++ d.positional whole) := by
  have hsplit : (-d.exponent).toNat < d.digitChars.length ↔ 0 < d.split := by
    unfold split
    omega
  refine ⟨d.fixedNumeral negative hpos h, ?_, rfl, ?_⟩
  · rw [positional, if_neg (not_le.mpr h)]
    dsimp only
    rw [if_congr hsplit rfl rfl, Numeral.chars]
    simp only [fixedNumeral, Numeral.signChars, Numeral.fractionChars, Numeral.exponentChars,
      List.append_nil]
    by_cases hin : 0 < d.split
    · simp only [if_pos hin]
      rfl
    · simp only [if_neg hin]
      rfl
  · have hdigits : (d.fixedNumeral negative hpos h).significand = d.digits := by
      simp only [Numeral.significand, fixedNumeral, Option.getD_some]
      split
      · rw [List.take_append_drop, ofDigitChars_digitChars]
      · rw [Nat.ofDigitChars_append, Nat.ofDigitChars_append, Nat.ofDigitChars_replicate_zero]
        exact ofDigitChars_digitChars d
    have hplaces : (d.fixedNumeral negative hpos h).places = (-d.exponent).toNat := by
      simp only [Numeral.places, fixedNumeral, Option.getD_some]
      split
      · rw [List.length_drop]
        unfold split at *
        omega
      · rw [List.length_append, List.length_replicate]
        unfold split at *
        omega
    have hexponent : (d.fixedNumeral negative hpos h).power - (-d.exponent).toNat = d.exponent := by
      show (0 : ℤ) - (-d.exponent).toNat = d.exponent
      omega
    rw [Numeral.decimal, hdigits, hplaces, hexponent]

def scientificNumeral (negative : Bool) (d : Decimal) (hpos : 0 < d.digits) : Numeral where
  negative := negative
  whole := d.digitChars.take 1
  fraction := if d.digitChars.length = 1 then none else some (d.digitChars.drop 1)
  exponent := some ⟨false, some (d.magnitude < 0), Nat.toDigits 10 d.magnitude.natAbs⟩
  whole_digits c hc := d.isDigit_of_mem_digitChars c (List.mem_of_mem_take hc)
  whole_ne := by simp [d.digitChars_ne_nil]
  whole_lead h := by
    rw [List.head?_take, if_neg one_ne_zero] at h
    exact absurd h (head_digitChars hpos)
  fraction_digits := by
    intro f hf
    split at hf
    · cases hf
    · next hlength =>
      cases hf
      refine ⟨?_, fun c hc => d.isDigit_of_mem_digitChars c (List.mem_of_mem_drop hc)⟩
      have hpositive := d.length_digitChars_pos
      rw [ne_eq, List.drop_eq_nil_iff]
      omega
  exponent_digits := by
    rintro e ⟨⟩
    exact ⟨Nat.toDigits_ne_nil, fun c hc => Nat.isDigit_of_mem_toDigits (by decide) (by decide) hc⟩

theorem isTextOf_scientific (negative : Bool) (hpos : 0 < d.digits) :
    IsTextOf negative d ((if negative then ['-'] else []) ++ d.scientific) := by
  refine ⟨d.scientificNumeral negative hpos, ?_, rfl, ?_⟩
  · simp only [Numeral.chars, Numeral.signChars, Numeral.fractionChars, Numeral.exponentChars,
      Numeral.Exponent.chars, Numeral.Exponent.signChars, scientificNumeral, scientific,
      decide_eq_true_eq]
    obtain ⟨c, rest, hdigits⟩ := List.exists_cons_of_ne_nil d.digitChars_ne_nil
    rw [hdigits]
    cases rest with
    | nil => rfl
    | cons c' rest => rfl
  · have hvalue := d.ofDigitChars_digitChars
    have hlength := d.length_digitChars_pos
    have hdigits : (d.scientificNumeral negative hpos).significand = d.digits := by
      simp only [Numeral.significand, scientificNumeral]
      split
      · next hone =>
        rw [Option.getD_none, List.append_nil, List.take_of_length_le hone.le, hvalue]
      · rw [Option.getD_some, List.take_append_drop, hvalue]
    have hplaces : (d.scientificNumeral negative hpos).places = d.digitChars.length - 1 := by
      simp only [Numeral.places, scientificNumeral]
      split
      · next hone =>
        rw [hone]
        rfl
      · rw [Option.getD_some, List.length_drop]
    have hpower : (d.scientificNumeral negative hpos).power = d.magnitude := by
      have hmagnitude : Nat.ofDigitChars 10 (Nat.toDigits 10 d.magnitude.natAbs) 0 =
          d.magnitude.natAbs := Nat.ofDigitChars_toDigits (by decide) (by decide)
      simp only [Numeral.power, Numeral.Exponent.value, scientificNumeral, hmagnitude,
        Option.getD_some, decide_eq_true_eq]
      split <;> omega
    have hexponent : d.magnitude - (d.digitChars.length - 1 : ℕ) = d.exponent := by
      rw [magnitude]
      omega
    rw [Numeral.decimal, hdigits, hplaces, hpower, hexponent]

/-- Zeros behind the digits. -/
theorem digitChars_append_zeros (hpos : 0 < d.digits) (n : ℕ) :
    d.digitChars ++ List.replicate n '0' = Nat.toDigits 10 (d.digits * 10 ^ n) := by
  induction n with
  | zero => simp [digitChars]
  | succ n ih =>
    have hbase : 10 ≤ d.digits * 10 ^ (n + 1) := by
      have hpower := Nat.mul_pos hpos (Nat.pow_pos (n := n) (show 0 < 10 by decide))
      rw [Nat.pow_succ, ← Nat.mul_assoc]
      omega
    rw [List.replicate_succ', ← List.append_assoc, ih, Nat.toDigits_of_base_le (by decide) hbase,
      Nat.pow_succ, ← Nat.mul_assoc, Nat.mul_div_cancel _ (by decide), Nat.mul_mod_left]
    rfl

end Decimal

namespace Single

variable {x : Single}

theorem IsShortest.exists_positional {d : Decimal} (hd : x.IsShortest d) (hpos : 0 < x.units) :
    ∃ t : Numeral, x.signChars ++ d.positional ['.', '0'] = t.chars ∧ x.IsWrittenAs t := by
  have hdigits := hd.digits_pos hpos
  rcases lt_or_ge d.exponent 0 with hexponent | hexponent
  · obtain ⟨t, htext, hsign, hdecimal⟩ :=
      d.isTextOf_positional x.isNegative hdigits hexponent ['.', '0']
    exact ⟨t, htext, hsign, fun h => absurd h hpos.ne', fun _ => ⟨d, hd, by rw [hdecimal]⟩⟩
  · obtain ⟨t, htext, hsign, hdecimal⟩ :=
      isTextOf_whole x.isNegative (d.digits * 10 ^ d.exponent.toNat)
    refine ⟨t, ?_, hsign, fun h => absurd h hpos.ne', fun _ => ⟨d, hd, ?_⟩⟩
    · rw [← htext, Decimal.positional, if_pos hexponent, Decimal.digitChars_append_zeros hdigits]
      rfl
    · rw [hdecimal, Decimal.value, Decimal.value, ten_zpow d.exponent,
        Int.toNat_of_nonpos (Int.neg_nonpos_of_nonneg hexponent)]
      push_cast
      ring

theorem exists_compactText (h : x.isFinite) :
    ∃ t : Numeral, x.compactText.toList = t.chars ∧ x.IsWrittenAs t := by
  rw [compactText, String.toList_ofList]
  split
  · next hzero =>
    obtain ⟨t, htext, hsign, hdecimal⟩ := isTextOf_whole x.isNegative 0
    refine ⟨t, htext, hsign, fun _ => congrArg Decimal.digits hdecimal, fun hpos => ?_⟩
    exact absurd hzero hpos.ne'
  · next hzero =>
    have hpos := Nat.pos_of_ne_zero hzero
    have hd := isShortest_shortest h hpos
    dsimp only
    split
    · exact hd.exists_positional hpos
    · obtain ⟨t, htext, hsign, hdecimal⟩ :=
        Decimal.isTextOf_scientific x.isNegative (hd.digits_pos hpos)
      exact ⟨t, htext, hsign, fun h => absurd h hzero, fun _ => ⟨_, hd, by rw [hdecimal]⟩⟩

end Single

/-! One library -/

namespace Json

def Parts.decimal (t : Parts) : Decimal where
  digits := (t.whole ++ t.fraction.getD []).foldl (fun n d => n * 10 + d) 0
  exponent := t.exponent.getD 0 - (t.fraction.getD []).length

/-- The number as a single, by way of its double. -/
def Parts.toSingle? (t : Parts) : Option Single :=
  if t.decimal.double < limit then some (.ofQuotient t.negative t.decimal.double Double.one) else none

/-- A library that finds the nearest double of every number. -/
def precise : Library := { common with
  readFloat := fun text => (readAll readParts text).bind Parts.toSingle? }

theorem Numeral.decimal_parts (t : Numeral) : t.parts.decimal = t.decimal := by
  have hdigits : digitValues t.whole ++ (t.fraction.map digitValues).getD [] =
      digitValues (t.whole ++ t.fraction.getD []) := by
    unfold digitValues
    cases t.fraction <;> simp
  have hplaces : ((t.fraction.map digitValues).getD []).length = t.places := by
    unfold places digitValues
    cases t.fraction <;> simp
  have hpower : (t.exponent.map Exponent.value).getD 0 = t.power := by
    unfold power
    cases t.exponent <;> rfl
  simp only [Parts.decimal, parts, hdigits, foldl_digitValues, hplaces, hpower]
  rfl

theorem precise_tagsExternally : precise.TagsExternally where
  written := common_tagsExternally.written
  read _ content h _ := readTagged_object h content

theorem precise_writesShortest : precise.WritesShortest := by
  intro x h
  show ∃ t : Numeral, (if x.isFinite then x.compactText.toList else null) = t.chars ∧ _
  rw [if_pos h]
  exact Single.exists_compactText h

theorem precise_readsDoubles : precise.ReadsDoubles := by
  intro t hlimit
  show (readAll readParts t.chars).bind Parts.toSingle? = _
  rw [t.readAll_parts, Option.bind_some, Parts.toSingle?, t.decimal_parts, if_pos hlimit]
  rfl

end Json

namespace Value

end Value

end LineConsole
