import LineConsole.Host.Export

/-!
Sessions of a host process: calls from C, calls of native programs, and calls that look at the
process or start threads. A session keeps a journal of its finished calls.
-/
namespace LineConsole.Host

inductive Call
  | foreign (call : Foreign.Call)
  | print (v : Value)
  | printValues (vs : List Value)
  | newline
  | input
  | inputPrompt (text : String)
  | parseInt (literal : String)
  | parseIntOrExit (literal : String)
  | floor (x : Single)
  | printInline (v : Value)
  | line
  | readByte
  /-- A prompt on a new console over the same streams. -/
  | freshPrompt (text : Bytes)
  /-- A use of the console within a use of the console. -/
  | nested
  | settings
  /-- Calls on a thread of their own. -/
  | thread (calls : List Call)

/-- What a native call returns. -/
inductive Answer
  | done
  | int (n : Int32)
  | text (text : String)

inductive Reply
  | nothing
  | foreign (reply : Foreign.Reply)
  | native (result : Except Error Answer)
  | int (n : Int32)
  | wrote (result : Except Fault Unit)
  | byte (result : Except Fault (Option UInt8))
  | bytes (result : Except Fault Bytes)
  | line (bytes : Bytes)
  /-- The call was refused, and nothing happened. -/
  | refused
  | settings (current builtIn : Settings)

namespace Run

def native (result : Except Fault α) (answer : α → Answer) : Reply :=
  .native ((result.map answer).mapError .console)

/-- A call that starts no thread. -/
def single {ω : Type} [Sink ω] : Call → Run ω Reply
  | .foreign call => return .foreign (← foreign call)
  | .print v => return native (← output (Console.print v)) fun _ => .done
  | .printValues vs => return native (← output (Console.printValues vs)) fun _ => .done
  | .newline => return native (← output Console.newline) fun _ => .done
  | .input => return native (← console Console.input) .text
  | .inputPrompt text => return native (← console (Console.inputPrompt text)) .text
  | .parseInt literal =>
      return .native (((Literal.parseText literal).map .int).mapError .ofLiteral)
  | .parseIntOrExit literal => return .int (← parseInt (Utf8.encode literal))
  | .floor x => return .native ((x.floor.map .int).mapError .floor)
  | .printInline v => return .wrote (← output (Console.printInline v))
  | .line => return .line (← get).thread.line.bytes
  | .readByte => return .byte (← console (Console.onChannel Channel.readByte))
  | .freshPrompt text => do
      let line := (← get).thread.line
      modify fun v => { v with thread.line := .empty }
      let result ← console (Console.prompt text)
      modify fun v => { v with thread.line := line }
      return .bytes result
  | .nested => return .refused
  | .settings => return .settings (← settings) {}
  | .thread _ => return .nothing

end Run

structure Finished (ω : Type) where
  call : Call
  reply : Reply
  after : Process ω

abbrev Entry := Finished Stdout

structure Session (ω : Type) where
  view : View ω
  journal : List (Finished ω) := []
  /-- The code of the call that ended the process. -/
  exit : Option ExitCode := none

namespace Session

variable {ω : Type}

def record (call : Call) (reply : Reply) (s : Session ω) : Session ω :=
  { s with journal := s.journal ++ [⟨call, reply, s.view.state⟩] }

def single [Sink ω] (call : Call) (s : Session ω) : Session ω :=
  match Run.single call s.view with
  | (.ok reply, view) => record call reply { s with view }
  | (.error code, view) => { s with view, exit := some code }

mutual

/-- A thread starts with a line and a status of its own, and its calls are finished before
it is. -/
def call [Sink ω] : Call → Session ω → Session ω
  | .thread calls, s =>
      let inner := callAll calls { s with view.thread := {} }
      if inner.exit.isSome then inner
      else record (.thread calls) .nothing { inner with view.thread := s.view.thread }
  | c, s => single c s

def callAll [Sink ω] : List Call → Session ω → Session ω
  | [], s => s
  | c :: rest, s =>
      let s := call c s
      if s.exit.isSome then s else callAll rest s

end

end Session

end LineConsole.Host
