import LineConsole.Console
import LineConsole.Host.Streams

/-!
A host process. All threads share its streams and its settings; each thread has a line and an
input status of its own. A call either returns or ends the process. Any sink may stand behind
standard output.
-/
namespace LineConsole.Host

structure Process (ω : Type) where
  streams : Streams ω
  environment : Environment
  stderr : Bytes := []
  /-- Loaded when they are first needed. -/
  settings : Option Settings := none

abbrev State := Process Stdout

structure Thread where
  line : LineBuffer := .empty
  status : Foreign.InputStatus := .ok

/-- The process as one of its threads sees it. -/
structure View (ω : Type) where
  state : Process ω
  thread : Thread := {}

abbrev Run (ω : Type) : Type → Type := Fallible ExitCode (View ω)

namespace Run

variable {ω α : Type}

def log (e : Event) : Run ω Unit :=
  modify fun v => { v with state.streams.log := v.state.streams.log ++ [e] }

def console (a : Action (Console (Streams ω)) α) : Run ω (Except Fault α) := fun v =>
  let (r, c) := a ⟨v.state.streams, v.thread.line⟩
  (.ok r, { v with state.streams := c.channel, thread.line := c.line })

def output (a : Action (Streams ω) Unit) : Run ω (Except Fault Unit) :=
  console (Console.onChannel a)

def settings : Run ω Settings := do
  match (← get).state.settings with
  | some settings => return settings
  | none =>
      let (settings, warnings) := Settings.load (← get).state.environment
      modify fun v => { v with state.settings := some settings }
      warnings.forM fun w => log (.settingIgnored w)
      return settings

/-- Shows the diagnostic where the settings want it and ends the process. A diagnostic that
cannot be shown does not keep the process from ending. -/
def exitInvalid [Sink ω] (e : LiteralError) : Run ω α := do
  let settings ← settings
  log (.literalRefused e.flaw settings.exitCode)
  match settings.stream with
  | .stdout => let _ ← output (Console.render (.ofPieces e.pieces))
  | .stderr =>
      modify fun v =>
        { v with state.stderr := v.state.stderr ++ Utf8.encode (e.message ++ "\n") }
  throw settings.exitCode

def parseInt [Sink ω] (literal : Bytes) : Run ω Int32 :=
  match Literal.parse literal with
  | .ok n => return n
  | .error e => exitInvalid e

end Run

end LineConsole.Host
