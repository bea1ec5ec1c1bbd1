import LineConsole.Demo.Program

/-!
The demo program on real streams. All decisions are made in `Demo.run`; this reads standard
input and the environment, and writes what comes out.
-/
namespace LineConsole

partial def readToEnd (stream : IO.FS.Stream) (before : List Chunk) : IO (List Chunk) := do
  let chunk ← stream.read 4096
  if chunk.isEmpty then return before.reverse
  readToEnd stream (.data chunk.toList :: before)

def readScript : IO Script := do
  try return ⟨← readToEnd (← IO.getStdin) [], .endOfStream⟩
  catch e => return ⟨[], .failure (toString e)⟩

def writeTo (stream : IO.FS.Stream) (bytes : Bytes) : IO Unit := do
  stream.write ⟨bytes.toArray⟩
  stream.flush

def demoMain : IO UInt32 := do
  let stream ← IO.getEnv (Host.Setting.variable .diagnosticStream)
  let code ← IO.getEnv (Host.Setting.variable .exitCode)
  let environment : Host.Environment := fun
    | .diagnosticStream => stream
    | .exitCode => code
  let threshold := ((← IO.getEnv Demo.Threshold.setting).map Demo.Threshold.ofName).getD .default
  let input ← readScript
  let run (full : Bool) :=
    Demo.run threshold { streams := ⟨input, { full }, []⟩, environment }
  let outcome ← try
      writeTo (← IO.getStdout) (run false).stdout
      pure (run false)
    catch _ => pure (run true)
  try writeTo (← IO.getStderr) outcome.stderr
  catch _ => pure ()
  return UInt32.ofNat outcome.exitCode

end LineConsole

def main : IO UInt32 := LineConsole.demoMain
