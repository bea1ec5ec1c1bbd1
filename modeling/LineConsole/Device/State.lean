import LineConsole.Console
import LineConsole.Device.Event
import LineConsole.Device.Uart
import LineConsole.Foreign.Call

/-!
A device with one console over its serial line. The console is installed once, and lent to one
user at a time: while it is held, everyone else finds none.
-/
namespace LineConsole.Device

inductive Slot
  | absent
  | idle (line : LineBuffer)
  | held (line : LineBuffer)
  deriving DecidableEq

/-- The line of the console; an absent one counts as empty. -/
def Slot.line : Slot → LineBuffer
  | .absent => .empty
  | .idle line | .held line => line

structure State where
  uart : Uart := {}
  slot : Slot := .absent
  status : Foreign.InputStatus := .ok
  log : List Event := []

inductive Halt
  | invalidLiteral
  | rateRefused
  /-- The budget of the serial line is used up. -/
  | lineStopped
  deriving DecidableEq

def Halt.message : Halt → Option String
  | .invalidLiteral => some "invalid literal for int()"
  | .rateRefused => some "Failed to initialize UART0: BaudrateNotSupported"
  | .lineStopped => none

/-- A computation on the device, which may stop it. -/
abbrev Run : Type → Type := Fallible Halt State

namespace Run

def log (e : Event) : Run Unit := modify fun s => { s with log := s.log ++ [e] }

def use (keep : LineBuffer → Slot) (line : LineBuffer) (a : Action (Console Uart) α) :
    Run (Except Fault α) := fun s =>
  let (r, c) := a ⟨s.uart, line⟩
  (if c.channel.stopped then .error .lineStopped else .ok r,
    { s with uart := c.channel, slot := keep c.line })

def withConsole (a : Action (Console Uart) α) : Run (Option (Except Fault α)) := do
  match (← get).slot with
  | .idle line => return some (← use .idle line a)
  | _ => return none

def withHeld (a : Action (Console Uart) α) : Run (Option (Except Fault α)) := do
  match (← get).slot with
  | .held line => return some (← use .held line a)
  | _ => return none

def withUart (a : Action Uart α) : Run (Option (Except Fault α)) :=
  withConsole (Console.onChannel a)

/-- Only the first installation has an effect. -/
def install : Run Bool := do
  match (← get).slot with
  | .absent =>
      modify fun s => { s with slot := .idle .empty }
      return true
  | _ =>
      log .alreadyInstalled
      return false

def setRate (rate : Nat) : Run Bool := fun s =>
  let (accepted, uart) := s.uart.setRate rate
  (.ok accepted, { s with uart })

end Run

end LineConsole.Device
