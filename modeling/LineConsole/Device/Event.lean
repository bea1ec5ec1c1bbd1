import LineConsole.Device.Description
import LineConsole.Level

/-!
What a device logs. The texts belong to the output of the device.
-/
namespace LineConsole.Device

inductive Event
  | outputFailed (symbol : String) (fault : Fault)
  /-- There is no console, or it is in use. -/
  | unavailable (symbol : String)
  | alreadyInstalled
  | nullString
  | valuesRefused (fault : Fault) (length : Nat)
  | readinessFailed (fault : Fault)
  | inputFailed (fault : Fault)
  | rateInvalid (n : Int32)
  | rateSet (rate : Nat)
  | rateRefused (rate : Nat)
  | literalRefused (e : LiteralError)
  | floorSaturated (x : Single) (error : FloorError)
  | started (rate : Nat)
  | roundFailed (fault : Fault)
  deriving DecidableEq

namespace Event

def level : Event → Level
  | .floorSaturated .. => .trace
  | .inputFailed _ => .debug
  | .rateSet _ | .started _ => .info
  | .rateInvalid _ | .rateRefused _ | .literalRefused _ => .error
  | _ => .warn

def text : Event → String
  | .outputFailed symbol fault => symbol ++ ": " ++ fault.name
  | .unavailable symbol => symbol ++ ": console not installed"
  | .alreadyInstalled => "install_console: console already installed"
  | .nullString => "print_p: NULL string"
  | .valuesRefused fault length => s!"print_values: {fault.name} ({length} values)"
  | .readinessFailed fault => "is_serial_available: " ++ fault.name
  | .inputFailed fault => "input: " ++ fault.name
  | .rateInvalid n => s!"serial_begin: invalid baudrate {n.toInt}"
  | .rateSet rate => s!"UART0 auf {rate} Baud"
  | .rateRefused rate => s!"serial_begin({rate}): BaudrateNotSupported"
  | .literalRefused e => "int_s: " ++ e.description
  | .floorSaturated x error => s!"int_f({x.description}): {error.name}, saturating"
  | .started rate => s!"pyio Konsole auf UART0, {rate} Baud"
  | .roundFailed fault => "fibonacci: " ++ fault.name

end Event

end LineConsole.Device
