import LineConsole.Demo.Program
import LineConsole.Device.Export

/-!
The demo program of the device: it installs the console and then asks for numbers in endless
rounds. A round that fails is logged, and the next one follows.
-/
namespace LineConsole.Demo

open Device

def rate : Nat := 115200

/-- The number that was asked for, or nothing after a literal that was refused with its
diagnostic. The copy of the line has room for every line that a console reads. -/
def ask : Action (Console Uart) (Option Int32) := do
  let line := Utf8.encode (← Console.inputPrompt question)
  if LineBuffer.capacity < line.length then throw .invalidValue
  match Literal.parse line with
  | .ok n => return some n
  | .error e =>
      Console.onChannel (Console.render (.ofPieces e.pieces))
      return none

/-- A console that cannot be had counts as one that cannot be written to. -/
def required (result : Option (Except Fault α)) : Except Fault α :=
  result.getD (.error .writeFailed)

def sendAll : List Int32 → Device.Run (Except Fault Unit)
  | [] => return .ok ()
  | n :: rest => do
      match required (← Run.withUart (Console.print (.int n))) with
      | .ok _ => sendAll rest
      | .error fault => return .error fault

def round : Device.Run (Except Fault Unit) := do
  match required (← Run.withConsole ask) with
  | .error fault => return .error fault
  | .ok none => return .ok ()
  | .ok (some n) => sendAll (Fibonacci.numbers n.toInt.toNat)

def rounds : Nat → Device.Run Unit
  | 0 => return
  | k + 1 => do
      match ← round with
      | .ok _ => pure ()
      | .error fault => Run.log (.roundFailed fault)
      rounds k

def boot : Device.Run Unit := do
  if ← Run.setRate rate then
    let _ ← Run.install
    Run.log (.started rate)
  else throw .rateRefused

/-- Each round takes room of the transmitter or a failing write, and a byte or an empty read
once its question is out, so this many rounds use up the line's budget. -/
def roundsUntilStop (u : Uart) : Nat :=
  u.receiver.queue.length + u.receiver.emptyReads.getD 0 + u.transmitter.room.getD 0 +
    u.transmitter.failedWrites.getD 0 + 1

def runDevice (u : Uart) : Option Halt × Device.State :=
  let program : Device.Run Unit := do
    boot
    rounds (roundsUntilStop u)
  match program { uart := u } with
  | (.ok _, s) => (none, s)
  | (.error halt, s) => (some halt, s)

end LineConsole.Demo
