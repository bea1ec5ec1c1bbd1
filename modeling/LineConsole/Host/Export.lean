import LineConsole.Foreign.Call
import LineConsole.Host.State

/-!
The calls of C programs on the host. They return no errors, so a fault is logged and the
program goes on.
-/
namespace LineConsole.Host.Run

variable {ω : Type}

def report (symbol : String) (result : Except Fault Unit) : Run ω Unit :=
  match result with
  | .ok _ => return
  | .error fault => log (.outputFailed symbol fault)

def write (symbol : String) (a : Action (Streams ω) Unit) : Run ω Foreign.Reply := do
  report symbol (← output a)
  return .nothing

def skip (e : Event) : Run ω Foreign.Reply := do
  log e
  return .nothing

/-- Reads a line and keeps how that went. The pointer that is returned leads into the line of
this thread. -/
def readInto (read : Action (Console (Streams ω)) Bytes) : Run ω Foreign.Reply := do
  let result ← console read
  match result with
  | .ok _ => pure ()
  | .error fault => log (.inputFailed fault)
  modify fun v => { v with thread.status := .ofResult result }
  return .string (← get).thread.line.pointee

/-- An array is printed as a whole or not at all. -/
def foreign [Sink ω] (call : Foreign.Call) : Run ω Foreign.Reply :=
  match call with
  | .newline => write call.symbol Console.newline
  | .printInt n => write call.symbol (Console.print (.int n))
  | .printFloat x => write call.symbol (Console.print (.float x))
  | .printString s =>
      match Foreign.string s with
      | none => skip .nullString
      | some bytes => write call.symbol (Console.printBytes bytes true)
  | .printValues vs =>
      match vs.visited with
      | .error _ => skip (.nullArray vs.length)
      | .ok raws =>
          match Foreign.Values.convert raws with
          | .error fault => skip (.valueRefused fault)
          | .ok values => write call.symbol (Console.printValues values)
  | .input => readInto Console.readLine
  | .inputPrompt prompt => readInto (Console.prompt (Foreign.stringOrEmpty prompt))
  | .inputStatus => return .int (← get).thread.status.code
  | .parseInt literal => return .int (← parseInt (Foreign.stringOrEmpty literal))
  | .floor x => do
      match x.floor with
      | .ok _ => pure ()
      | .error e => log (.floorSaturated x e)
      return .int x.floorSaturating

end LineConsole.Host.Run
