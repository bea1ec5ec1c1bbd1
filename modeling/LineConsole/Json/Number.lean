import LineConsole.Number.Single
import LineConsole.Json.Text

/-!
Numbers of JSON texts. Integers of up to 64 bits are read exactly. Every other number becomes
a double in two roundings: the digits that fit 64 bits are converted, then one multiplication
or division by a power of ten is rounded. Doubles are held as magnitudes in units of 2^-1074.
-/
namespace LineConsole.Json

/-- A number as it is read: an exact integer, or a double with its sign. -/
inductive Number
  | integer (n : Int)
  | double (negative : Bool) (units : Nat)
  deriving DecidableEq

namespace Double

def one : Nat := Nat.pow 2 1074

def limit : Nat := Nat.pow 2 2098

/-- A product or quotient of magnitudes, given as a quotient of units. -/
def round (num den : Nat) : Nat := Rounding.significant 53 num den

def ofNat (n : Nat) : Nat := round (n * one) 1

/-- Powers of ten are doubles up to the 308th. -/
def powerOfTen (n : Nat) : Nat := ofNat (Nat.pow 10 n)

def mul (a b : Nat) : Nat := round (a * b) one

def div (a b : Nat) : Nat := round (a * one) b

/-- Divides by `10 ^ e`, by at most 308 powers at a time; a magnitude that has reached zero
stays zero. -/
def scaleDown (f e : Nat) : Nat :=
  if h : e ≤ 308 then div f (powerOfTen e)
  else if f = 0 then 0
  else scaleDown (div f (powerOfTen 308)) (e - 308)
termination_by e
decreasing_by omega

/-- `significand * 10 ^ exponent`, or nothing if the doubles end before it. -/
def ofDecimal (significand : Nat) (exponent : Int) : Option Nat :=
  let f := ofNat significand
  if exponent < 0 then some (scaleDown f exponent.natAbs)
  else if exponent ≤ 308 then
    let product := mul f (powerOfTen exponent.natAbs)
    if limit ≤ product then none else some product
  else if f = 0 then some 0
  else none

end Double

def spanDigits : List Char → List Nat × List Char
  | [] => ([], [])
  | c :: rest =>
      if '0' ≤ c ∧ c ≤ '9' then
        let (ds, rest) := spanDigits rest
        ((c.toNat - 48) :: ds, rest)
      else ([], c :: rest)

/-- Appends digits to a significand while they fit 64 bits; the others are returned. -/
def absorb (significand : Nat) : List Nat → Nat × List Nat
  | [] => (significand, [])
  | d :: ds =>
      if significand * 10 + d < UInt64.size then absorb (significand * 10 + d) ds
      else (significand, d :: ds)

/-- The digits before a fraction: no superfluous zero in front, and at least one. -/
def readWhole (cs : List Char) : Option (List Nat × List Char) :=
  match spanDigits cs with
  | ([], _) => none
  | (0 :: _ :: _, _) => none
  | found => some found

def readFraction : Reader (Option (List Nat))
  | '.' :: cs =>
      match spanDigits cs with
      | ([], _) => none
      | (ds, rest) => some (some ds, rest)
  | cs => some (none, cs)

def takeMinus : List Char → Bool × List Char
  | '-' :: cs => (true, cs)
  | cs => (false, cs)

def takeSign : List Char → Bool × List Char
  | '+' :: cs => (false, cs)
  | cs => takeMinus cs

def readExponent : Reader (Option Int)
  | c :: cs =>
      if c = 'e' ∨ c = 'E' then
        let (negative, cs) := takeSign cs
        match spanDigits cs with
        | ([], _) => none
        | (ds, rest) =>
            let n : Nat := ds.foldl (fun n d => n * 10 + d) 0
            some (some (if negative then -(n : Int) else n), rest)
      else some (none, c :: cs)
  | [] => some (none, [])

structure Parts where
  negative : Bool
  whole : List Nat
  fraction : Option (List Nat)
  exponent : Option Int

def readParts : Reader Parts := fun cs => do
  let (negative, cs) := takeMinus (skipBlanks cs)
  let (whole, cs) ← readWhole cs
  let (fraction, cs) ← readFraction cs
  let (exponent, cs) ← readExponent cs
  return (⟨negative, whole, fraction, exponent⟩, cs)

/-- The number of a significand and an exponent that the text gives. An exponent of more than
31 bits is out of reach in both directions. -/
def Number.ofDecimal (negative : Bool) (significand : Nat) (shift : Int) (exponent : Int) :
    Option Number :=
  if exponent.natAbs < 0x80000000 then
    (Double.ofDecimal significand (max (-0x80000000) (min 0x7FFFFFFF (shift + exponent)))).map
      (.double negative)
  else if exponent < 0 ∨ significand = 0 then some (.double negative 0)
  else none

/-- An integer of 64 bits stays one. A negative zero and integers below the signed range are
doubles. -/
def Number.ofInteger (negative : Bool) (n : Nat) : Number :=
  if !negative then .integer n
  else if 0 < n ∧ n ≤ 0x8000000000000000 then .integer (-(n : Int))
  else .double true (Double.ofNat n)

def Number.ofParts (t : Parts) : Option Number :=
  let (significand, beyond) := absorb 0 t.whole
  if t.fraction.isNone ∧ t.exponent.isNone ∧ beyond.isEmpty then
    some (.ofInteger t.negative significand)
  else
    let places := t.fraction.getD []
    let (significand, dropped) := absorb significand places
    let shift : Int := beyond.length - (places.length - dropped.length : Nat)
    Number.ofDecimal t.negative significand shift (t.exponent.getD 0)

def readNumber (cs : List Char) : Option Number := do Number.ofParts (← readAll readParts cs)

namespace Number

def toInt32? : Number → Option Int32
  | .integer n => if -0x80000000 ≤ n ∧ n < 0x80000000 then some (Int32.ofInt n) else none
  | .double .. => none

/-- The nearest single; a double beyond the singles becomes an infinity. -/
def toSingle : Number → Single
  | .integer n => Single.ofInt n
  | .double negative units => Single.ofQuotient negative units Double.one

end Number

end LineConsole.Json
