import LineConsole.Fault
import LineConsole.Text.Utf8
import LineConsole.Value

/-!
Values as callers in C pass them: a tag and one field for each kind. A string is a pointer
that may be null and that sees the bytes up to the first zero; an array is a pointer that may
be null, with a length.
-/
namespace LineConsole.Foreign

/-- The bytes behind a pointer, or `none` for the null pointer. -/
abbrev Pointer := Option Bytes

def upToZero (bytes : Bytes) : Bytes := bytes.takeWhile (· ≠ 0)

def string (p : Pointer) : Option Bytes := p.map upToZero

inductive Kind
  | int
  | float
  | str
  deriving DecidableEq

namespace Kind

def name : Kind → String
  | .int => "Int"
  | .float => "Float"
  | .str => "Str"

def tag : Kind → UInt8
  | .int => 0
  | .float => 1
  | .str => 2

def ofTag (tag : UInt8) : Except Fault Kind :=
  if tag = 0 then .ok .int
  else if tag = 1 then .ok .float
  else if tag = 2 then .ok .str
  else .error .invalidValue

theorem ofTag_tag (k : Kind) : ofTag k.tag = .ok k := by cases k <;> rfl

end Kind

/-- Only the field that the tag selects is ever read. -/
structure Raw where
  tag : UInt8
  int : Int32 := 0
  float : Single := ⟨0⟩
  str : Pointer := none

namespace Raw

def ofInt (n : Int32) : Raw := { tag := Kind.int.tag, int := n }

def ofFloat (x : Single) : Raw := { tag := Kind.float.tag, float := x }

def ofString (bytes : Bytes) : Raw := { tag := Kind.str.tag, str := some bytes }

def toValue (r : Raw) : Except Fault Value :=
  match Kind.ofTag r.tag with
  | .error e => .error e
  | .ok .int => .ok (.int r.int)
  | .ok .float => .ok (.float r.float)
  | .ok .str =>
      match string r.str with
      | none => .error .invalidValue
      | some bytes =>
          match Utf8.decode? bytes with
          | some text => .ok (.str text)
          | none => .error .invalidUtf8

end Raw

/-- An array of the given length. Behind a null pointer there are no elements. -/
structure Values where
  elements : Option (List Raw)
  length : Nat

namespace Values

def ofList (elements : List Raw) : Values := ⟨some elements, elements.length⟩

def visited (vs : Values) : Except Fault (List Raw) :=
  if vs.length = 0 then .ok []
  else match vs.elements with
    | none => .error .invalidValue
    | some elements => .ok (elements.take vs.length)

def convert : List Raw → Except Fault (List Value)
  | [] => .ok []
  | r :: rest =>
      match r.toValue with
      | .error e => .error e
      | .ok v => (convert rest).map (v :: ·)

/-- As `convert`, with room for `capacity` values. An element beyond them is converted before
it is found to have no room. -/
def convertWithin : (capacity : Nat) → List Raw → Except Fault (List Value)
  | _, [] => .ok []
  | capacity, r :: rest =>
      match r.toValue with
      | .error e => .error e
      | .ok v =>
          match capacity with
          | 0 => .error .invalidValue
          | capacity + 1 => (convertWithin capacity rest).map (v :: ·)

def collect (capacity : Nat) (vs : Values) : Except Fault (List Value) :=
  vs.visited.bind (convertWithin capacity)

end Values

def baudRate? (n : Int32) : Option Nat := if 0 < n then some n.toInt.toNat else none

inductive InputStatus
  | ok
  | endOfStream
  | error
  deriving DecidableEq

namespace InputStatus

def code : InputStatus → Int32
  | .ok => 0
  | .endOfStream => 1
  | .error => -1

def ofResult : Except Fault α → InputStatus
  | .ok _ => .ok
  | .error .endOfStream => .endOfStream
  | .error _ => .error

end InputStatus

end LineConsole.Foreign
