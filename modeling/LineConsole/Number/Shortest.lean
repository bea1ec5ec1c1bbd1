import LineConsole.Number.Single

/-!
The shortest decimal that rounds to a given single: the coarsest grid of powers of ten that
has a point in the single's rounding interval, and on it the point nearest to the value.
Two notations share these digits, one that is always positional and one that changes to an
exponent for very large and very small values.
-/
namespace LineConsole

structure Decimal where
  digits : Nat
  exponent : Int
  deriving DecidableEq

namespace Single

/-- A quarter unit is the finest step that a bound of a rounding interval needs. -/
def quarters (x : Single) : Nat := 4 * x.units

def gapAbove (x : Single) : Nat := 4 * Nat.pow 2 (Rounding.excess 24 x.units)

/-- Below a power of two the singles lie twice as close. -/
def gapBelow (x : Single) : Nat :=
  let e := Rounding.excess 24 x.units
  if x.units = 0x800000 * Nat.pow 2 e ∧ 0 < e then 2 * Nat.pow 2 e else 4 * Nat.pow 2 e

/-- The ends of the interval belong to the single with the even significand. -/
def hasEvenSignificand (x : Single) : Bool :=
  x.units / Nat.pow 2 (Rounding.excess 24 x.units) % 2 = 0

def admits (x : Single) (num den : Nat) : Bool :=
  let low := (2 * x.quarters - x.gapBelow) * den
  let high := (2 * x.quarters + x.gapAbove) * den
  if x.hasEvenSignificand then low ≤ 2 * num && 2 * num ≤ high
  else low < 2 * num && 2 * num < high

def onGrid (x : Single) (exponent : Int) : Option Nat :=
  let step := Nat.pow 10 exponent.toNat * (4 * one)
  let den := Nat.pow 10 (-exponent).toNat
  let below := x.quarters * den / step
  match x.admits (below * step) den, x.admits ((below + 1) * step) den with
  | true, true => some (Rounding.nearest (x.quarters * den) step)
  | true, false => some below
  | false, true => some (below + 1)
  | false, false => none

/-- Grids are tried from coarse to fine; on the finest, `10 ^ -149`, every single is exact. -/
def shortestFrom (x : Single) : Nat → Decimal
  | 0 => ⟨x.units * Nat.pow 5 149, -149⟩
  | n + 1 =>
      match x.onGrid ((n : Int) + 1 - 149) with
      | some digits => ⟨digits, (n : Int) + 1 - 149⟩
      | none => shortestFrom x n

def shortest (x : Single) : Decimal := shortestFrom x (38 + 149)

end Single

namespace Decimal

def digitChars (d : Decimal) : List Char := Nat.toDigits 10 d.digits

/-- The power of ten of the leading digit. -/
def magnitude (d : Decimal) : Int := d.digitChars.length - 1 + d.exponent

/-- `whole` is what a number without a fraction ends in. -/
def positional (whole : List Char) (d : Decimal) : List Char :=
  let digits := d.digitChars
  if 0 ≤ d.exponent then digits ++ List.replicate d.exponent.toNat '0' ++ whole
  else
    let places := (-d.exponent).toNat
    if places < digits.length then
      digits.take (digits.length - places) ++ '.' :: digits.drop (digits.length - places)
    else '0' :: '.' :: (List.replicate (places - digits.length) '0' ++ digits)

def scientific (d : Decimal) : List Char :=
  let mantissa := match d.digitChars with
    | [] => []
    | [digit] => [digit]
    | digit :: rest => digit :: '.' :: rest
  mantissa ++ 'e' :: (if d.magnitude < 0 then '-' else '+') :: Nat.toDigits 10 d.magnitude.natAbs

end Decimal

namespace Single

def signChars (x : Single) : List Char := if x.isNegative then ['-'] else []

def positionalText (x : Single) : String :=
  if x.isNaN then "NaN"
  else String.ofList (x.signChars ++
    if x.isInfinite then ['i', 'n', 'f']
    else if x.units = 0 then ['0']
    else x.shortest.positional [])

/-- Leading digits from 10^-6 to 10^12 are written in positional notation, with a `.0` for
whole numbers. Only meant for finite singles. -/
def compactText (x : Single) : String :=
  String.ofList (x.signChars ++
    if x.units = 0 then ['0', '.', '0']
    else
      let d := x.shortest
      if -6 ≤ d.magnitude ∧ d.magnitude ≤ 12 then d.positional ['.', '0'] else d.scientific)

end Single

end LineConsole
