import LineConsole.Json.Library
import Mathlib.Data.Nat.Digits.Defs

/-!
Numbers in JSON texts. A number is written as digits, perhaps with a point among them and with an
exponent behind them, and a reader finds exactly these parts again, whatever stands behind the
number. The digits in front of the exponent make up the significand, and those behind the point
shift it.
-/
namespace LineConsole.Json

/-! Digits -/

theorem isDigit_iff {c : Char} : c.isDigit ↔ '0' ≤ c ∧ c ≤ '9' := by
  simp [Char.isDigit, Char.le_def]

def digitValues (cs : List Char) : List Nat := cs.map fun c => c.toNat - 48

def NoDigit (rest : List Char) : Prop := ∀ c ∈ rest.head?, c.isDigit = false

theorem spanDigits_append {cs rest : List Char} (hcs : ∀ c ∈ cs, c.isDigit) (hrest : NoDigit rest) :
    spanDigits (cs ++ rest) = (digitValues cs, rest) := by
  induction cs with
  | nil =>
    cases rest with
    | nil => rfl
    | cons c rest =>
      have hc : ¬ ('0' ≤ c ∧ c ≤ '9') := by
        rw [← isDigit_iff, hrest c rfl]
        exact Bool.false_ne_true
      rw [List.nil_append, spanDigits, if_neg hc]
      rfl
  | cons c cs ih =>
    have hc := isDigit_iff.mp (hcs c List.mem_cons_self)
    rw [List.cons_append, spanDigits, if_pos hc, ih fun d hd => hcs d (List.mem_cons_of_mem c hd)]
    rfl

theorem foldl_digitValues (cs : List Char) (n : Nat) :
    (digitValues cs).foldl (fun n d => n * 10 + d) n = Nat.ofDigitChars 10 cs n := by
  induction cs generalizing n with
  | nil => rfl
  | cons c cs ih =>
    rw [Nat.ofDigitChars_cons, ← ih, digitValues, List.map_cons, List.foldl_cons, Nat.mul_comm]
    rfl

theorem digitValues_eq_zero {c : Char} (hc : c.isDigit) (h : c.toNat - 48 = 0) : c = '0' := by
  obtain ⟨hlow, -⟩ := Char.isDigit_iff_toNat.mp hc
  apply Char.toNat_inj.mp
  have hzero : '0'.toNat = 48 := rfl
  omega

def NoLeadingZero (cs : List Char) : Prop := cs.head? = some '0' → cs = ['0']

theorem readWhole_append {cs rest : List Char} (hcs : ∀ c ∈ cs, c.isDigit) (hne : cs ≠ [])
    (hlead : NoLeadingZero cs) (hrest : NoDigit rest) :
    readWhole (cs ++ rest) = some (digitValues cs, rest) := by
  rw [readWhole, spanDigits_append hcs hrest]
  obtain ⟨c, cs, rfl⟩ := List.exists_cons_of_ne_nil hne
  cases cs with
  | nil => simp [digitValues]
  | cons d cs =>
    have hc : c.toNat - 48 ≠ 0 := by
      intro hzero
      obtain rfl := digitValues_eq_zero (hcs c List.mem_cons_self) hzero
      cases hlead rfl
    obtain ⟨n, hn⟩ := Nat.exists_eq_succ_of_ne_zero hc
    simp only [digitValues, List.map_cons, hn]

/-! Numerals -/

namespace Numeral

structure Exponent where
  capital : Bool
  minus : Option Bool
  digits : List Char

def Exponent.signChars (e : Exponent) : List Char :=
  match e.minus with
  | none => []
  | some minus => [if minus then '-' else '+']

def Exponent.chars (e : Exponent) : List Char :=
  (if e.capital then 'E' else 'e') :: (e.signChars ++ e.digits)

def Exponent.value (e : Exponent) : Int :=
  if e.minus.getD false then -(Nat.ofDigitChars 10 e.digits 0 : Int)
  else Nat.ofDigitChars 10 e.digits 0

end Numeral

structure Numeral where
  negative : Bool
  whole : List Char
  fraction : Option (List Char)
  exponent : Option Numeral.Exponent
  whole_digits : ∀ c ∈ whole, c.isDigit
  whole_ne : whole ≠ []
  whole_lead : NoLeadingZero whole
  fraction_digits : ∀ f ∈ fraction, f ≠ [] ∧ ∀ c ∈ f, c.isDigit
  exponent_digits : ∀ e ∈ exponent, e.digits ≠ [] ∧ ∀ c ∈ e.digits, c.isDigit

/-- What may stand behind a number: it neither goes on nor becomes another one. -/
def Ends (rest : List Char) : Prop :=
  ∀ c ∈ rest.head?, c.isDigit = false ∧ c ≠ '.' ∧ c ≠ 'e' ∧ c ≠ 'E'

theorem Ends.noDigit {rest : List Char} (h : Ends rest) : NoDigit rest := fun c hc => (h c hc).1

namespace Numeral

theorem no_exponent :
    ∀ e ∈ (none : Option Exponent), e.digits ≠ [] ∧ ∀ c ∈ e.digits, c.isDigit := nofun

def signChars (t : Numeral) : List Char := if t.negative then ['-'] else []

def fractionChars (t : Numeral) : List Char :=
  match t.fraction with
  | none => []
  | some digits => '.' :: digits

def exponentChars (t : Numeral) : List Char :=
  match t.exponent with
  | none => []
  | some e => e.chars

def chars (t : Numeral) : List Char :=
  t.signChars ++ (t.whole ++ (t.fractionChars ++ t.exponentChars))

/-- The value of all digits in front of the exponent, the point left out. -/
def significand (t : Numeral) : Nat := Nat.ofDigitChars 10 (t.whole ++ t.fraction.getD []) 0

def places (t : Numeral) : Nat := (t.fraction.getD []).length

def power (t : Numeral) : Int :=
  match t.exponent with
  | none => 0
  | some e => e.value

def decimal (t : Numeral) : Decimal := ⟨t.significand, t.power - t.places⟩

def IsWhole (t : Numeral) : Prop := t.fraction = none ∧ t.exponent = none

def parts (t : Numeral) : Parts where
  negative := t.negative
  whole := digitValues t.whole
  fraction := t.fraction.map digitValues
  exponent := t.exponent.map Exponent.value

variable (t : Numeral) {rest : List Char}

theorem isDigit_ne {c d : Char} (hc : c.isDigit) (hd : d.isDigit = false) : c ≠ d := by
  rintro rfl
  exact absurd hc (by rw [hd]; exact Bool.false_ne_true)

theorem takeMinus_cons_digit {c : Char} (hc : c.isDigit) (cs : List Char) :
    takeMinus (c :: cs) = (false, c :: cs) := by
  have hminus := isDigit_ne hc (show '-'.isDigit = false from rfl)
  unfold takeMinus
  split
  · next heq => exact absurd (List.cons.inj heq).1 hminus
  · rfl

theorem Exponent.takeSign_append (e : Exponent) (hne : e.digits ≠ [])
    (hdigits : ∀ c ∈ e.digits, c.isDigit) (rest : List Char) :
    takeSign (e.signChars ++ (e.digits ++ rest)) = (e.minus.getD false, e.digits ++ rest) := by
  unfold signChars
  obtain ⟨c, cs, hcs⟩ := List.exists_cons_of_ne_nil hne
  have hc : c.isDigit := hdigits c (hcs ▸ List.mem_cons_self)
  rw [hcs, List.cons_append]
  cases e.minus with
  | some minus => cases minus <;> rfl
  | none =>
    have hplus := isDigit_ne hc (show '+'.isDigit = false from rfl)
    rw [List.nil_append, takeSign]
    · exact takeMinus_cons_digit hc _
    · rintro rest ⟨⟩
      exact hplus rfl

theorem readExponent_append (hrest : Ends rest) :
    readExponent (t.exponentChars ++ rest) = some (t.exponent.map Exponent.value, rest) := by
  unfold exponentChars
  cases hexponent : t.exponent with
  | none =>
    cases rest with
    | nil => rfl
    | cons c rest =>
      obtain ⟨-, -, hlower, hupper⟩ := hrest c rfl
      simp [readExponent, hlower, hupper]
  | some e =>
    obtain ⟨hne, hdigits⟩ := t.exponent_digits e hexponent
    have hspan := spanDigits_append hdigits hrest.noDigit
    have hsign := e.takeSign_append hne hdigits rest
    have hmark : (if e.capital then 'E' else 'e') = 'e' ∨
        (if e.capital then 'E' else 'e') = 'E' := by
      cases e.capital <;> simp
    have hvalue := foldl_digitValues e.digits 0
    obtain ⟨c, cs, hcs⟩ := List.exists_cons_of_ne_nil hne
    dsimp only
    rw [Exponent.chars, List.cons_append, List.append_assoc, readExponent, if_pos hmark, hsign]
    dsimp only
    rw [hspan, Option.map_some, Exponent.value, ← hvalue, hcs]
    rfl

theorem noDigit_exponentChars (hrest : Ends rest) : NoDigit (t.exponentChars ++ rest) := by
  unfold exponentChars
  cases t.exponent with
  | none => exact hrest.noDigit
  | some e =>
    rintro c ⟨⟩
    cases e.capital <;> rfl

theorem readFraction_append (hrest : Ends rest) :
    readFraction (t.fractionChars ++ (t.exponentChars ++ rest)) =
      some (t.fraction.map digitValues, t.exponentChars ++ rest) := by
  unfold fractionChars
  cases hfraction : t.fraction with
  | none =>
    have hpoint : (t.exponentChars ++ rest).head? ≠ some '.' := by
      unfold exponentChars
      cases t.exponent with
      | none => exact fun h => (hrest '.' h).2.1 rfl
      | some e => cases hcapital : e.capital <;> simp [Exponent.chars, hcapital]
    rw [List.nil_append]
    generalize t.exponentChars ++ rest = behind at hpoint
    unfold readFraction
    split
    · exact absurd rfl hpoint
    · rfl
  | some digits =>
    obtain ⟨hne, hdigits⟩ := t.fraction_digits digits hfraction
    have hspan := spanDigits_append hdigits (t.noDigit_exponentChars hrest)
    obtain ⟨c, cs, rfl⟩ := List.exists_cons_of_ne_nil hne
    simp only [List.cons_append, readFraction] at hspan ⊢
    rw [hspan]
    rfl

theorem noDigit_fractionChars (hrest : Ends rest) :
    NoDigit (t.fractionChars ++ (t.exponentChars ++ rest)) := by
  unfold fractionChars
  cases t.fraction with
  | none => exact t.noDigit_exponentChars hrest
  | some digits =>
    rintro c ⟨⟩
    rfl

theorem isBlank_of_isDigit {c : Char} (hc : c.isDigit) : isBlank c = false := by
  unfold isBlank
  simp [isDigit_ne hc (show ' '.isDigit = false from rfl),
    isDigit_ne hc (show '\t'.isDigit = false from rfl),
    isDigit_ne hc (show '\n'.isDigit = false from rfl),
    isDigit_ne hc (show '\r'.isDigit = false from rfl)]

/-- In front of the digits there is a minus or nothing. -/
theorem takeMinus_signChars (behind : List Char) :
    takeMinus (skipBlanks (t.signChars ++ (t.whole ++ behind))) =
      (t.negative, t.whole ++ behind) := by
  unfold signChars
  cases t.negative with
  | true => rfl
  | false =>
    obtain ⟨c, cs, hwhole⟩ := List.exists_cons_of_ne_nil t.whole_ne
    have hc : c.isDigit := t.whole_digits c (hwhole ▸ List.mem_cons_self)
    rw [hwhole, if_neg Bool.false_ne_true, List.nil_append, List.cons_append, skipBlanks,
      List.dropWhile_cons_of_neg (by rw [isBlank_of_isDigit hc]; exact Bool.false_ne_true)]
    exact takeMinus_cons_digit hc _

/-- A number is read with its parts. -/
theorem readParts_chars (hrest : Ends rest) :
    readParts (t.chars ++ rest) = some (t.parts, rest) := by
  have hsign := t.takeMinus_signChars (t.fractionChars ++ (t.exponentChars ++ rest))
  have hwhole := readWhole_append t.whole_digits t.whole_ne t.whole_lead
    (t.noDigit_fractionChars hrest)
  have hfraction := t.readFraction_append hrest
  have hexponent := t.readExponent_append hrest
  simp only [readParts, chars, List.append_assoc, hsign, Option.bind_eq_bind, Option.bind_some,
    hwhole, hfraction, hexponent]
  rfl

theorem readAll_parts : readAll readParts t.chars = some t.parts := by
  have hread : readParts (t.chars ++ []) = some (t.parts, []) := t.readParts_chars nofun
  rw [List.append_nil] at hread
  rw [readAll, hread]
  rfl

end Numeral

end LineConsole.Json
