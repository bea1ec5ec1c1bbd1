import LineConsole.Foreign.Value

/-!
The calls that a program in C can make on every backend, and what they return.
-/
namespace LineConsole.Foreign

inductive Call
  | newline
  | printInt (n : Int32)
  | printFloat (x : Single)
  | printString (s : Pointer)
  | printValues (vs : Values)
  | input
  | inputPrompt (prompt : Pointer)
  | inputStatus
  /-- A literal that is refused ends the program. -/
  | parseInt (literal : Pointer)
  | floor (x : Single)

/-- The name under which a program links the call. -/
def Call.symbol : Call → String
  | .newline => "print_v"
  | .printInt _ => "print_i"
  | .printFloat _ => "print_f"
  | .printString _ => "print_p"
  | .printValues _ => "print_values"
  | .input => "input_v"
  | .inputPrompt _ => "input_p"
  | .inputStatus => "input_status"
  | .parseInt _ => "int_s"
  | .floor _ => "int_f"

inductive Reply
  | nothing
  | int (n : Int32)
  /-- What the caller reads from the returned pointer. -/
  | string (bytes : Bytes)
  deriving DecidableEq

/-- The null pointer counts as the empty string where a text is wanted. -/
def stringOrEmpty (p : Pointer) : Bytes := (string p).getD []

end LineConsole.Foreign
