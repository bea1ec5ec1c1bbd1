import LineConsole.Number.Single

/-!
The greatest 32-bit integer that is not above a single: as a conversion that fails outside
the integers' range, and as one that stops at the ends of the range.
-/
namespace LineConsole

inductive FloorError
  | notANumber
  | infinite
  | outOfRange
  deriving DecidableEq

namespace FloorError

def all : List FloorError := [.notANumber, .infinite, .outOfRange]

def name : FloorError → String
  | .notANumber => "NotANumber"
  | .infinite => "Infinite"
  | .outOfRange => "OutOfRange"

def message : FloorError → String
  | .notANumber => "cannot convert float NaN to integer"
  | .infinite => "cannot convert float infinity to integer"
  | .outOfRange => "float value out of int range"

end FloorError

namespace Single

def inIntRange (x : Single) : Bool := (ofInt (-0x80000000)).le x && x.lt (ofInt 0x80000000)

/-- Cutting off goes toward zero, so a negative fraction leaves an integer above the value,
and one step down is due. -/
def floor (x : Single) : Except FloorError Int32 :=
  if x.isNaN then .error .notANumber
  else if x.isInfinite then .error .infinite
  else if !x.inIntRange then .error .outOfRange
  else
    let cut := Int32.ofInt x.truncate
    .ok (if x.lt (ofInt cut.toInt) then cut - 1 else cut)

def floorSaturating (x : Single) : Int32 :=
  match x.floor with
  | .ok n => n
  | .error .notANumber => 0
  | .error _ => if (ofInt 0).lt x then Int32.maxValue else Int32.minValue

end Single

end LineConsole
