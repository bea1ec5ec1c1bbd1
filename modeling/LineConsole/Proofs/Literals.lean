import LineConsole.Literal
import Mathlib.Data.Nat.Digits.Defs
import Mathlib.Tactic.Ring

/-!
Integer literals and their decimal values. Digit by digit the number so far never shrinks, so a
literal leaves the range at one of its digits exactly if its value does, however many zeros it
starts with.
-/
namespace LineConsole

theorem Utf8.encode_eq_toUTF8 (text : String) : encode text = text.toUTF8.data.toList := by
  rw [String.toUTF8, ← String.utf8Encode_toList, List.utf8Encode, List.toList_data_toByteArray]
  rfl

namespace Literal

/-! The value of digits -/

def IsDigit (b : UInt8) : Prop := '0'.toNat ≤ b.toNat ∧ b.toNat ≤ '9'.toNat

theorem isDigit_iff {b : UInt8} : isDigit b = true ↔ IsDigit b := by
  rw [isDigit, Bool.and_eq_true, decide_eq_true_iff, decide_eq_true_iff, UInt8.le_iff_toNat_le,
    UInt8.le_iff_toNat_le]
  rfl

def value (digits : Bytes) : Nat := Nat.ofDigits 10 (digits.reverse.map digitValue)

theorem value_cons (b : UInt8) (rest : Bytes) :
    value (b :: rest) = digitValue b * 10 ^ rest.length + value rest := by
  rw [value, List.reverse_cons, List.map_append, Nat.ofDigits_append, List.length_map,
    List.length_reverse, List.map_singleton, Nat.ofDigits_singleton, ← value, Nat.mul_comm,
    Nat.add_comm]

/-- The digits behind a number leave the range at one of them exactly if they do so together. -/
theorem extend_eq {n : Nat} (hn : n < 0x80000000) (digits : Bytes) :
    extend n digits =
      if n * 10 ^ digits.length + value digits < 0x80000000 then
        some (n * 10 ^ digits.length + value digits)
      else none := by
  induction digits generalizing n with
  | nil =>
    have hsum : n * 10 ^ ([] : Bytes).length + value [] = n := Nat.mul_one n
    rw [hsum, if_pos hn]
    rfl
  | cons b rest ih =>
    have hsum : n * 10 ^ (b :: rest).length + value (b :: rest) =
        (n * 10 + digitValue b) * 10 ^ rest.length + value rest := by
      rw [value_cons, List.length_cons]
      ring
    rw [hsum, extend]
    split
    · next hfits => exact ih hfits
    · next hleaves =>
      -- The number is not below the range again, whatever digits follow.
      have hgrows := Nat.le_mul_of_pos_right (n * 10 + digitValue b)
        (Nat.pow_pos (n := rest.length) (by decide : 0 < 10))
      rw [if_neg (by omega)]

theorem extend_zero (digits : Bytes) :
    extend 0 digits = if value digits ≤ 2147483647 then some (value digits) else none := by
  rw [extend_eq (by decide), Nat.zero_mul, Nat.zero_add]
  exact if_congr Nat.lt_succ_iff rfl rfl

theorem toInt_ofNat {n : Nat} (h : n ≤ 2147483647) : (Int32.ofNat n).toInt = n :=
  Int32.toInt_ofNat_of_lt (Nat.lt_succ_of_le h)

/-! What the parser says -/

theorem parse_of_not_digit {literal : Bytes} (h : ∃ b ∈ literal, ¬ IsDigit b) :
    parse literal = .error ⟨.invalidDigit, literal⟩ := by
  obtain ⟨b, hb, hdigit⟩ := h
  have hliteral : ¬ literal.isEmpty := by
    rw [List.isEmpty_iff]
    exact List.ne_nil_of_mem hb
  have hdigits : (!literal.all isDigit) = true := by
    rw [Bool.not_eq_true', List.all_eq_false]
    exact ⟨b, hb, fun hb => hdigit (isDigit_iff.mp hb)⟩
  rw [parse, if_neg hliteral, if_pos hdigits]

theorem parse_of_digits {literal : Bytes} (hliteral : literal ≠ [])
    (hdigits : ∀ b ∈ literal, IsDigit b) :
    parse literal =
      if value literal ≤ 2147483647 then .ok (Int32.ofNat (value literal))
      else .error ⟨.outOfRange, literal⟩ := by
  have hempty : ¬ literal.isEmpty := fun h => hliteral (List.isEmpty_iff.mp h)
  have hall : ¬ (!literal.all isDigit) = true := by
    rw [Bool.not_eq_true', Bool.not_eq_false, List.all_eq_true]
    exact fun b hb => isDigit_iff.mpr (hdigits b hb)
  rw [parse, if_neg hempty, if_neg hall, extend_zero]
  by_cases hle : value literal ≤ 2147483647
  · rw [if_pos hle, if_pos hle]
  · rw [if_neg hle, if_neg hle]

/-- The four verdicts. A refused literal is quoted as it is. -/
inductive Verdict (literal : Bytes) : Except LiteralError Int32 → Prop
  | empty (empty : literal = []) : Verdict literal (.error ⟨.empty, literal⟩)
  | invalidDigit (nonempty : literal ≠ []) (invalid : ∃ b ∈ literal, ¬ IsDigit b) :
      Verdict literal (.error ⟨.invalidDigit, literal⟩)
  | ok {n : Int32} (nonempty : literal ≠ []) (digits : ∀ b ∈ literal, IsDigit b)
      (inRange : value literal ≤ 2147483647) (number : n.toInt = value literal) :
      Verdict literal (.ok n)
  | outOfRange (nonempty : literal ≠ []) (digits : ∀ b ∈ literal, IsDigit b)
      (beyond : 2147483647 < value literal) : Verdict literal (.error ⟨.outOfRange, literal⟩)

theorem parse_verdict (literal : Bytes) : Verdict literal (parse literal) := by
  by_cases hliteral : literal = []
  · subst hliteral
    exact .empty rfl
  by_cases hinvalid : ∃ b ∈ literal, ¬ IsDigit b
  · rw [parse_of_not_digit hinvalid]
    exact .invalidDigit hliteral hinvalid
  have hdigits : ∀ b ∈ literal, IsDigit b := by
    intro b hb
    by_contra hdigit
    exact hinvalid ⟨b, hb, hdigit⟩
  rw [parse_of_digits hliteral hdigits]
  split
  · next hle => exact .ok hliteral hdigits hle (toInt_ofNat hle)
  · next hgt => exact .outOfRange hliteral hdigits (Nat.lt_of_not_le hgt)

section Verdicts

variable {literal : Bytes}

theorem verdict_of_parse_eq {r : Except LiteralError Int32} (h : parse literal = r) :
    Verdict literal r := h ▸ parse_verdict literal

theorem parse_eq_empty_iff : parse literal = .error ⟨.empty, literal⟩ ↔ literal = [] := by
  constructor
  · intro h
    cases verdict_of_parse_eq h with
    | empty hempty => exact hempty
  · rintro rfl
    rfl

theorem parse_eq_invalidDigit_iff :
    parse literal = .error ⟨.invalidDigit, literal⟩ ↔
      literal ≠ [] ∧ ∃ b ∈ literal, ¬ IsDigit b := by
  constructor
  · intro h
    cases verdict_of_parse_eq h with
    | invalidDigit hliteral hinvalid => exact ⟨hliteral, hinvalid⟩
  · rintro ⟨-, hinvalid⟩
    exact parse_of_not_digit hinvalid

theorem parse_eq_ok_iff {n : Int32} :
    parse literal = .ok n ↔ literal ≠ [] ∧ (∀ b ∈ literal, IsDigit b) ∧
      value literal ≤ 2147483647 ∧ n.toInt = value literal := by
  constructor
  · intro h
    cases verdict_of_parse_eq h with
    | ok hliteral hdigits hle hn => exact ⟨hliteral, hdigits, hle, hn⟩
  · rintro ⟨hliteral, hdigits, hle, hn⟩
    have hnumber := Int32.toInt_inj.mp ((toInt_ofNat hle).trans hn.symm)
    rw [parse_of_digits hliteral hdigits, if_pos hle, hnumber]

theorem parse_eq_outOfRange_iff :
    parse literal = .error ⟨.outOfRange, literal⟩ ↔
      literal ≠ [] ∧ (∀ b ∈ literal, IsDigit b) ∧ 2147483647 < value literal := by
  constructor
  · intro h
    cases verdict_of_parse_eq h with
    | outOfRange hliteral hdigits hgt => exact ⟨hliteral, hdigits, hgt⟩
  · rintro ⟨hliteral, hdigits, hgt⟩
    rw [parse_of_digits hliteral hdigits, if_neg (Nat.not_le_of_lt hgt)]

theorem exists_parse_eq_ok_iff :
    (∃ n, parse literal = .ok n ∧ n.toInt = value literal) ↔
      literal ≠ [] ∧ (∀ b ∈ literal, IsDigit b) ∧ value literal ≤ 2147483647 := by
  constructor
  · rintro ⟨n, hparse, -⟩
    obtain ⟨hliteral, hdigits, hle, -⟩ := parse_eq_ok_iff.mp hparse
    exact ⟨hliteral, hdigits, hle⟩
  · rintro ⟨hliteral, hdigits, hle⟩
    have hn := toInt_ofNat hle
    exact ⟨_, parse_eq_ok_iff.mpr ⟨hliteral, hdigits, hle, hn⟩, hn⟩

theorem literal_of_parse_eq_error {e : LiteralError} (h : parse literal = .error e) :
    e.literal = literal := by
  cases verdict_of_parse_eq h <;> rfl

end Verdicts

/-- A literal is refused for being empty, for a byte that is no digit, or for its value, in this
order; otherwise it is its value. A refusal carries the literal, and a text is read as its
bytes. -/
theorem parse_is_strict (literal : Bytes) (text : String) :
    (parse literal = .error ⟨.empty, literal⟩ ↔ literal = []) ∧
    (parse literal = .error ⟨.invalidDigit, literal⟩ ↔
      literal ≠ [] ∧ ∃ b ∈ literal, ¬ IsDigit b) ∧
    ((∃ n, parse literal = .ok n ∧ n.toInt = value literal) ↔
      literal ≠ [] ∧ (∀ b ∈ literal, IsDigit b) ∧ value literal ≤ 2147483647) ∧
    (∀ n, parse literal = .ok n → n.toInt = value literal) ∧
    (parse literal = .error ⟨.outOfRange, literal⟩ ↔
      literal ≠ [] ∧ (∀ b ∈ literal, IsDigit b) ∧ 2147483647 < value literal) ∧
    (∀ e, parse literal = .error e → e.literal = literal) ∧
    parseText text = parse text.toUTF8.data.toList := by
  have htext : parseText text = parse text.toUTF8.data.toList := by
    rw [parseText, Utf8.encode_eq_toUTF8]
  have hnumber : ∀ n, parse literal = .ok n → n.toInt = value literal :=
    fun n h => (parse_eq_ok_iff.mp h).2.2.2
  exact ⟨parse_eq_empty_iff, parse_eq_invalidDigit_iff, exists_parse_eq_ok_iff, hnumber,
    parse_eq_outOfRange_iff, fun _ => literal_of_parse_eq_error, htext⟩

/-- Zeros in front neither leave the range nor hide that a value does. -/
example :
    parseText "00000000000000000000002147483647" = .ok 2147483647 ∧
      parseText "002147483648" = .error ⟨.outOfRange, Utf8.encode "002147483648"⟩ ∧
      parseText "99999999999-" = .error ⟨.invalidDigit, Utf8.encode "99999999999-"⟩ := by
  decide

end Literal

end LineConsole
