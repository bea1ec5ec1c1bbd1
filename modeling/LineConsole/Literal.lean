import LineConsole.Text.Utf8

/-!
Integer literals: one or more decimal digits whose value fits a 32-bit integer. Signs and
blanks are refused. A refused literal is kept, so that the diagnostic can quote it.
-/
namespace LineConsole

inductive LiteralFlaw
  | empty
  | invalidDigit
  | outOfRange
  deriving DecidableEq

namespace LiteralFlaw

def all : List LiteralFlaw := [.empty, .invalidDigit, .outOfRange]

def name : LiteralFlaw → String
  | .empty => "Empty"
  | .invalidDigit => "InvalidDigit"
  | .outOfRange => "OutOfRange"

def heading : LiteralFlaw → String
  | .empty | .invalidDigit => "ValueError: Invalid literal for int() with base 10: '"
  | .outOfRange => "OverflowError: int too large to convert to C int: '"

end LiteralFlaw

structure LiteralError where
  flaw : LiteralFlaw
  literal : Bytes
  deriving DecidableEq

namespace LiteralError

def pieces (e : LiteralError) : List String :=
  e.flaw.heading :: (Utf8.lossyPieces e.literal ++ ["'"])

def message (e : LiteralError) : String := String.join e.pieces

end LiteralError

namespace Literal

def isDigit (b : UInt8) : Bool := 0x30 ≤ b && b ≤ 0x39

def digitValue (b : UInt8) : Nat := b.toNat - 0x30

/-- Appends digits to the number `n`, and gives up at the first one that leaves the range. -/
def extend (n : Nat) : Bytes → Option Nat
  | [] => some n
  | b :: rest =>
      if n * 10 + digitValue b < 0x80000000 then extend (n * 10 + digitValue b) rest else none

def parse (literal : Bytes) : Except LiteralError Int32 :=
  if literal.isEmpty then .error ⟨.empty, literal⟩
  else if !literal.all isDigit then .error ⟨.invalidDigit, literal⟩
  else match extend 0 literal with
    | some n => .ok (Int32.ofNat n)
    | none => .error ⟨.outOfRange, literal⟩

def parseText (text : String) : Except LiteralError Int32 := parse (Utf8.encode text)

end Literal

end LineConsole
