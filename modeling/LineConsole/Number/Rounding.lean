/-!
Quotients of natural numbers rounded to whole numbers, to a number of binary digits, and
written with a fixed number of decimal places. Halves always go to the even neighbour.
-/
namespace LineConsole.Rounding

def nearest (num den : Nat) : Nat :=
  let twice := 2 * (num % den)
  if twice < den then num / den
  else if den < twice then num / den + 1
  else num / den + num / den % 2

theorem nearest_eq_div_of_lt {num den : Nat} (h : 2 * (num % den) < den) :
    nearest num den = num / den := by
  simp [nearest, h]

/-- A quotient that is whole is kept. -/
theorem nearest_of_dvd {num den : Nat} (hden : 0 < den) (h : den ∣ num) :
    nearest num den = num / den :=
  nearest_eq_div_of_lt (by rw [Nat.mod_eq_zero_of_dvd h]; omega)

/-- The position of the leading binary digit, counted from one; none for zero. -/
def binaryLength (n : Nat) : Nat := if n = 0 then 0 else n.log2 + 1

/-- The number of low binary digits that a significand of `precision` digits cannot hold. -/
def excess (precision n : Nat) : Nat := binaryLength n - precision

/-- The multiple of a power of two nearest to `num / den` among those with at most
`precision` significant binary digits. Quotients that are small enough round to whole
numbers. -/
def significant (precision num den : Nat) : Nat :=
  let e := excess precision (num / den)
  nearest num (den * Nat.pow 2 e) * Nat.pow 2 e

/-- The digits of `n` behind a point in front of the last `places` of them. -/
def placeDigits (places n : Nat) : List Char :=
  let digits := Nat.toDigits 10 (n % Nat.pow 10 places)
  List.replicate (places - digits.length) '0' ++ digits

/-- The digits of `num / den` with `places` decimal places, as they are written one after the
other: the whole part, the point and the places, or below one the zeros in front of the other
digits. -/
def fixedPieces (places num den : Nat) : List String :=
  let n := nearest (num * Nat.pow 10 places) den
  let whole := n / Nat.pow 10 places
  let digits := placeDigits places n
  if 0 < whole then [String.ofList (Nat.toDigits 10 whole), ".", String.ofList digits]
  else
    let parts := [digits.takeWhile (· = '0'), digits.dropWhile (· = '0')]
    "0." :: (parts.filter fun part => !part.isEmpty).map String.ofList

def fixedText (places num den : Nat) : String := String.join (fixedPieces places num den)

end LineConsole.Rounding
