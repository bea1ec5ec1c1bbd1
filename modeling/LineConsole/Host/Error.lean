import LineConsole.Fault
import LineConsole.Literal
import LineConsole.Number.Floor

/-!
What a native caller on the host gets instead of a result.
-/
namespace LineConsole.Host

inductive Setting
  | diagnosticStream
  | exitCode
  deriving DecidableEq

def Setting.variable : Setting → String
  | .diagnosticStream => "PYIO_DIAGNOSTIC_STREAM"
  | .exitCode => "PYIO_INVALID_LITERAL_EXIT_CODE"

inductive Error
  | console (fault : Fault)
  /-- The literal is text, with every part that is no text replaced. -/
  | invalidLiteral (flaw : LiteralFlaw) (literal : String)
  | floor (error : FloorError)
  | invalidSetting (setting : Setting) (value : String)
  deriving DecidableEq

namespace Error

def ofLiteral (e : LiteralError) : Error := .invalidLiteral e.flaw (Utf8.lossy e.literal)

def name : Error → String
  | .console fault => "Console." ++ fault.name
  | .invalidLiteral flaw _ => "InvalidLiteral." ++ flaw.name
  | .floor e => "FloatToInt." ++ e.name
  | .invalidSetting .. => "InvalidConfig"

/-- A refused literal is quoted through the same bytes as a diagnostic for callers in C. -/
def message : Error → String
  | .console fault => "console: " ++ fault.message
  | .invalidLiteral flaw literal => (LiteralError.mk flaw (Utf8.encode literal)).message
  | .floor e => "int(): " ++ e.message
  | .invalidSetting setting value =>
      "invalid value `" ++ value ++ "` for " ++ setting.variable

end Error

end LineConsole.Host
