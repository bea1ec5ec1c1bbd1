import LineConsole.LineBuffer
import LineConsole.Literal
import LineConsole.Number.Floor
import LineConsole.Value

/-!
The short descriptions that a device writes to its log instead of messages: names of errors,
contents of values, and floats as the eight digits of their bits.
-/
namespace LineConsole

def Single.description (x : Single) : String :=
  let digits := Nat.toDigits 16 x.bits.toNat
  "0x" ++ String.ofList (List.replicate (8 - digits.length) '0' ++ digits)

def Value.description : Value → String
  | .int n => s!"Int({n.toInt})"
  | .float x => s!"Float({x.description})"
  | .str text => s!"Str({text})"

def LiteralError.description (e : LiteralError) : String :=
  let bytes := ", ".intercalate (e.literal.map fun b => toString b.toNat)
  s!"IntLiteralError \x7b kind: {e.flaw.name}, literal: [{bytes}] \x7d"

def LineBuffer.description (b : LineBuffer) : String := s!"LineBuffer \x7b len: {b.length} \x7d"

namespace Device

inductive Subject
  | value (v : Value)
  | literal (bytes : Bytes)
  | floor (x : Single)
  | line (b : LineBuffer)

def Subject.description : Subject → String
  | .value v => v.description
  | .literal bytes =>
      match Literal.parse bytes with
      | .ok n => toString n.toInt
      | .error e => e.description
  | .floor x =>
      match x.floor with
      | .ok n => toString n.toInt
      | .error e => e.name
  | .line b => b.description

end Device

end LineConsole
