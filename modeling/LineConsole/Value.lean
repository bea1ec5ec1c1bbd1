import LineConsole.Number.Single
import LineConsole.Number.Rounding

/-!
The values that a console prints, and their texts. Text is produced in pieces, and a sign is
a piece of its own: each piece is one write to the channel.
-/
namespace LineConsole

inductive Value
  | int (n : Int32)
  | float (x : Single)
  | str (text : String)
  deriving DecidableEq

namespace Single

/-- The digits of the exact value rounded to `places`, behind a `-` whenever the sign bit is
set, also for zero. -/
def fixedPieces (places : Nat) (x : Single) : List String :=
  (if x.isNegative then ["-"] else []) ++ Rounding.fixedPieces places x.units one

def serialLimit : Single := ofInt 4294967040

/-- A float as a serial monitor shows it: two places, no sign for infinities, and `ovf`
beyond the range of an unsigned 32-bit integer. -/
def serialPieces (x : Single) : List String :=
  if x.isNaN then ["nan"]
  else if x.isInfinite then ["inf"]
  else if serialLimit.units < x.units then ["ovf"]
  else x.fixedPieces 2

def serialText (x : Single) : String := String.join x.serialPieces

end Single

namespace Value

def pieces : Value → List String
  | .int n => (if n < 0 then ["-"] else []) ++ [Nat.repr n.toInt.natAbs]
  | .float x =>
      if x.isNaN then ["nan"]
      else if x.isInfinite then [if x.isNegative then "-inf" else "inf"]
      else x.fixedPieces 6
  | .str text => [text]

def text (v : Value) : String := String.join v.pieces

def equal : Value → Value → Bool
  | .int m, .int n => m = n
  | .float x, .float y => x.equal y
  | .str s, .str t => s = t
  | _, _ => false

end Value

end LineConsole
