import LineConsole.Foreign.Value
import LineConsole.Host.Settings
import LineConsole.Level
import LineConsole.Number.Shortest

/-!
What a host process logs. Calls from C have no way to return an error, so most events tell of
one; the texts belong to the output of the program.
-/
namespace LineConsole.Host

inductive Event
  | readFailed (reason : String)
  | settingIgnored (warning : SettingWarning)
  | outputFailed (symbol : String) (fault : Fault)
  | nullString
  | nullArray (length : Nat)
  | valueRefused (fault : Fault)
  | inputFailed (fault : Fault)
  | floorSaturated (x : Single) (error : FloorError)
  | literalRefused (flaw : LiteralFlaw) (code : ExitCode)
  /-- A message of the program that uses the console. -/
  | message (level : Level) (target text : String)
  deriving DecidableEq

namespace Event

def level : Event → Level
  | .readFailed _ | .floorSaturated .. => .trace
  | .inputFailed _ | .literalRefused .. => .debug
  | .settingIgnored _ | .outputFailed .. | .nullString | .nullArray _ | .valueRefused _ => .warn
  | .message level .. => level

/-- The part of the program that logs the event. -/
def target : Event → String
  | .readFailed _ => "pyio_host::console"
  | .settingIgnored _ => "pyio_host::config"
  | .literalRefused .. => "pyio_host::api"
  | .message _ target _ => target
  | _ => "pyio_host::ffi"

/-- A refused stream falls back visibly, a refused exit code silently. -/
def warningText (w : SettingWarning) : String :=
  let error : Error := .invalidSetting w.setting w.value
  match w.setting with
  | .diagnosticStream => error.message ++ ", using " ++ ({} : Settings).stream.name
  | .exitCode => error.message

def text : Event → String
  | .readFailed reason => "read failed: " ++ reason
  | .settingIgnored w => warningText w
  | .outputFailed symbol fault => symbol ++ ": " ++ fault.message
  | .nullString => "print_p: NULL string"
  | .nullArray length => s!"print_values: NULL array with len {length}"
  | .valueRefused fault => "print_values: " ++ fault.message
  | .inputFailed fault => "input: " ++ fault.message
  | .floorSaturated x error => s!"int_f({x.positionalText}): {error.message}, saturating"
  | .literalRefused flaw code => s!"invalid int literal ({flaw.name}), exiting with {code.val}"
  | .message _ _ text => text

end Event

end LineConsole.Host
