import LineConsole.Device.State

/-!
The calls of C programs on the device: those that every backend has, and those of a serial
monitor.
-/
namespace LineConsole.Device

inductive SerialCall
  | printInt (n : Int32)
  | printFloat (x : Single)
  | printString (s : Foreign.Pointer)
  | printIntLine (n : Int32)
  | printFloatLine (x : Single)
  | printStringLine (s : Foreign.Pointer)
  | flush
  | available
  /-- A single byte, or -1 if none is pending. -/
  | receive
  | setRate (n : Int32)

def SerialCall.symbol : SerialCall → String
  | .printInt _ => "print__i__"
  | .printFloat _ => "print__f__"
  | .printString _ => "print__s__"
  | .printIntLine _ => "println__i__"
  | .printFloatLine _ => "println__f__"
  | .printStringLine _ => "println__s__"
  | .flush => "flush"
  | .available => "is_serial_available"
  | .receive => "input"
  | .setRate _ => "serial_begin"

/-- The most values that one call prints. -/
def maxValues : Nat := 16

namespace Run

def report (symbol : String) (result : Option (Except Fault Unit)) : Run Unit :=
  match result with
  | some (.ok _) => return
  | some (.error fault) => log (.outputFailed symbol fault)
  | none => log (.unavailable symbol)

def write (symbol : String) (a : Action Uart Unit) : Run Foreign.Reply := do
  report symbol (← withUart a)
  return .nothing

def skip (e : Event) : Run Foreign.Reply := do
  log e
  return .nothing

def setStatus (status : Foreign.InputStatus) : Run Unit := modify ({ · with status })

/-- Reads a line and keeps how that went; the pointer that is returned leads into the line of
the console. Without a console it leads to an empty string. -/
def readInto (read : Action (Console Uart) Bytes) : Run Foreign.Reply := do
  match ← withConsole read with
  | some result =>
      match result with
      | .ok _ => pure ()
      | .error fault => log (.inputFailed fault)
      setStatus (.ofResult result)
      return .string (← get).slot.line.pointee
  | none =>
      log (.unavailable "input")
      setStatus .error
      return .string []

def parseInt (literal : Bytes) : Run Int32 :=
  match Literal.parse literal with
  | .ok n => return n
  | .error e => do
      match ← withUart (Console.render (.ofPieces e.pieces)) with
      | some (.error fault) => log (.outputFailed "int_s" fault)
      | _ => pure ()
      log (.literalRefused e)
      throw .invalidLiteral

/-- An array is printed as a whole or not at all, and only up to `maxValues` elements. -/
def foreign (call : Foreign.Call) : Run Foreign.Reply :=
  match call with
  | .newline => write call.symbol Console.newline
  | .printInt n => write call.symbol (Console.print (.int n))
  | .printFloat x => write call.symbol (Console.print (.float x))
  | .printString s =>
      match Foreign.string s with
      | none => skip .nullString
      | some bytes => write call.symbol (Console.printBytes bytes true)
  | .printValues vs =>
      match vs.collect maxValues with
      | .ok values => write call.symbol (Console.printValues values)
      | .error fault => skip (.valuesRefused fault vs.length)
  | .input => readInto Console.readLine
  | .inputPrompt prompt => readInto (Console.prompt (Foreign.stringOrEmpty prompt))
  | .inputStatus => return .int (← get).status.code
  | .parseInt literal => return .int (← parseInt (Foreign.stringOrEmpty literal))
  | .floor x => do
      match x.floor with
      | .ok _ => pure ()
      | .error e => log (.floorSaturated x e)
      return .int x.floorSaturating

def begin (n : Int32) : Run Unit :=
  match Foreign.baudRate? n with
  | none => log (.rateInvalid n)
  | some rate => do
      match (← get).slot with
      | .idle _ => if ← setRate rate then log (.rateSet rate) else log (.rateRefused rate)
      | _ => log (.unavailable "serial_begin")

def serial (call : SerialCall) : Run Foreign.Reply :=
  match call with
  | .printInt n => write call.symbol (Console.printInline (.int n))
  | .printFloat x => write call.symbol (Console.renderInline (.ofPieces x.serialPieces))
  | .printString s => write call.symbol (Console.printBytes (Foreign.stringOrEmpty s) false)
  | .printIntLine n => foreign (.printInt n)
  | .printFloatLine x => write call.symbol (Console.render (.ofPieces x.serialPieces))
  | .printStringLine s => write call.symbol (Console.printBytes (Foreign.stringOrEmpty s) true)
  | .flush => write call.symbol Channel.flush
  | .available => do
      match ← withUart (fun u => (u.ready, u)) with
      | some (.ok ready) => return .int (if ready then 1 else 0)
      | some (.error fault) =>
          log (.readinessFailed fault)
          return .int 0
      | none => return .int 0
  | .receive => do
      match ← withUart Uart.poll with
      | some (.ok (some byte)) => return .int (Int32.ofNat byte.toNat)
      | some (.error fault) =>
          log (.inputFailed fault)
          return .int (-1)
      | _ => return .int (-1)
  | .setRate n => do
      begin n
      return .nothing

end Run

end LineConsole.Device
