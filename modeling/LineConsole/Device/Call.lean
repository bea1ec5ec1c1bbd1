import LineConsole.Console.Op
import LineConsole.Device.Export

/-!
Sessions of a device: calls from C, installations of the console, and users that hold the
console while other calls are made. A session keeps a journal of its finished calls.
-/
namespace LineConsole.Device

inductive Call
  | foreign (call : Foreign.Call)
  | serial (call : SerialCall)
  | install (rate : Nat)
  /-- The world changes the serial line. -/
  | adjust (change : Uart → Uart)
  | describe (subject : Subject)
  /-- Takes the console, makes the calls, and puts the console back. -/
  | hold (calls : List Call)
  /-- An operation of the user that holds the console. -/
  | held (op : Console.Op)

inductive Reply
  | nothing
  | foreign (reply : Foreign.Reply)
  | flag (answer : Bool)
  | rateRefused
  | text (text : String)
  | held (result : Option (Except Fault Console.Answer))

namespace Run

/-- A call that holds nothing. -/
def single : Call → Run Reply
  | .foreign call => return .foreign (← foreign call)
  | .serial call => return .foreign (← serial call)
  | .install rate => do
      if ← setRate rate then return .flag (← install) else return .rateRefused
  | .adjust change => do
      modify fun s => { s with uart := change s.uart }
      return .nothing
  | .describe subject => return .text subject.description
  | .hold _ => return .flag false
  | .held op => return .held (← withHeld op.run)

end Run

structure Entry where
  call : Call
  reply : Reply
  after : State

structure Session where
  state : State := {}
  journal : List Entry := []
  /-- Why the device stopped. -/
  halt : Option Halt := none

namespace Session

def record (call : Call) (reply : Reply) (s : Session) : Session :=
  { s with journal := s.journal ++ [⟨call, reply, s.state⟩] }

def single (call : Call) (s : Session) : Session :=
  match Run.single call s.state with
  | (.ok reply, state) => record call reply { s with state }
  | (.error halt, state) => { s with state, halt := some halt }

/-- Puts back the console that was held, with the line its user left. -/
def putBack (s : Session) : Session :=
  match s.state.slot with
  | .held line => { s with state.slot := .idle line }
  | _ => s

mutual

/-- Who wants to hold a console that cannot be had makes no calls. The inner calls are finished
before the outer one is. -/
def call : Call → Session → Session
  | .hold calls, s =>
      match s.state.slot with
      | .idle line =>
          let inner := callAll calls { s with state.slot := .held line }
          if inner.halt.isSome then inner
          else record (.hold calls) (.flag true) inner.putBack
      | _ => record (.hold calls) (.flag false) s
  | c, s => single c s

def callAll : List Call → Session → Session
  | [], s => s
  | c :: rest, s =>
      let s := call c s
      if s.halt.isSome then s else callAll rest s

end

end Session

end LineConsole.Device
