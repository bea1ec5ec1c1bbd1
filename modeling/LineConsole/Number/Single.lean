import LineConsole.Number.Rounding

/-!
Single-precision binary floating point by its 32 bits: sign, eight bits of exponent, 23 bits
of fraction. Every finite magnitude is a whole number of units of 2^-149, so values are
compared and converted in exact integer arithmetic. An infinity reads as 2^277 units, one
step beyond the largest finite magnitude, which makes comparison uniform.
-/
namespace LineConsole

structure Single where
  bits : UInt32
  deriving DecidableEq

namespace Single

def one : Nat := Nat.pow 2 149

def isNegative (x : Single) : Bool := 0x80000000 ≤ x.bits.toNat

def exponent (x : Single) : Nat := x.bits.toNat / 0x800000 % 0x100

def fraction (x : Single) : Nat := x.bits.toNat % 0x800000

def isNaN (x : Single) : Bool := x.exponent = 255 && x.fraction ≠ 0

def isInfinite (x : Single) : Bool := x.exponent = 255 && x.fraction = 0

def isFinite (x : Single) : Bool := x.exponent ≠ 255

/-- The magnitude in units of 2^-149. -/
def units (x : Single) : Nat :=
  if x.exponent = 0 then x.fraction else (0x800000 + x.fraction) * Nat.pow 2 (x.exponent - 1)

def scaled (x : Single) : Int := if x.isNegative then -(x.units : Int) else x.units

/-- Zeros of both signs are equal, and a NaN equals nothing. -/
def equal (x y : Single) : Bool := !x.isNaN && !y.isNaN && x.scaled = y.scaled

def lt (x y : Single) : Bool := !x.isNaN && !y.isNaN && x.scaled < y.scaled

def le (x y : Single) : Bool := !x.isNaN && !y.isNaN && x.scaled ≤ y.scaled

/-- The bit pattern of a magnitude with at most 24 significant binary digits. The leading
digit of a normal significand carries into the exponent field, and everything from 2^277
units on becomes the infinity. -/
def ofUnits (negative : Bool) (units : Nat) : Single :=
  let units := min units (Nat.pow 2 277)
  let e := Rounding.excess 24 units
  let magnitude := e * 0x800000 + units / Nat.pow 2 e
  ⟨UInt32.ofNat (if negative then 0x80000000 + magnitude else magnitude)⟩

def ofQuotient (negative : Bool) (num den : Nat) : Single :=
  ofUnits negative (Rounding.significant 24 (num * one) den)

def ofInt (n : Int) : Single := ofQuotient (n < 0) n.natAbs 1

def truncate (x : Single) : Int := x.scaled.tdiv one

end Single

end LineConsole
