import LineConsole.Demo.Logger
import LineConsole.Fibonacci
import LineConsole.Host.State

/-!
A program on the host's console: it asks for a number and prints as many Fibonacci numbers.
Its messages go to a logger, which writes to standard error.
-/
namespace LineConsole.Demo

open Host

def question : String := "Enter n: "

variable {ω : Type}

def say (level : Level) (text : String) : Run ω Unit := Run.log (.message level "pyio_fib" text)

def printAll [Sink ω] : List Int32 → Run ω (Except Fault Unit)
  | [] => return .ok ()
  | n :: rest => do
      match ← Run.output (Console.print (.int n)) with
      | .ok _ => printAll rest
      | .error fault => return .error fault

/-- The exit code, unless the literal that was read ends the process. -/
def program [Sink ω] : Run ω Nat := do
  match ← Run.console (Console.inputPrompt question) with
  | .error .endOfStream =>
      say .error "no input"
      return 2
  | .error fault =>
      say .error (Error.console fault).message
      return 2
  | .ok line =>
      let count := (← Run.parseInt (Utf8.encode line)).toInt.toNat
      say .info s!"printing {count} fibonacci numbers"
      let numbers := Fibonacci.numbers count
      match ← printAll numbers with
      | .error fault =>
          say .error (Error.console fault).message
          return 1
      | .ok _ =>
          if numbers.length < count then
            say .warn s!"only {numbers.length} fibonacci numbers fit into int"
          return 0

structure Outcome where
  exitCode : Nat
  stdout : Bytes
  stderr : Bytes

/-- A diagnostic comes after all messages, because nothing is logged behind it. -/
def stderr (logger : Logger) (p : State) : Bytes := logger p.streams.log ++ p.stderr

def outcome (logger : Logger) (p : State) : Outcome :=
  let (result, view) := program { state := p }
  let exitCode := match result with
    | .ok code => code
    | .error code => code.val
  ⟨exitCode, view.state.streams.output.written, stderr logger view.state⟩

def run (t : Threshold) (p : State) : Outcome := outcome t.logger p

end LineConsole.Demo
