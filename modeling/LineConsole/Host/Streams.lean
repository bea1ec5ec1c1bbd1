import LineConsole.Channel.Script
import LineConsole.LineBuffer
import LineConsole.Host.Event

/-!
The streams of a host process: scripted input, a sink for output, and the log, in which the
reason for every failed read is written down. Standard output is buffered by lines; it only
matters that it is when the device behind it has no space.
-/
namespace LineConsole.Host

structure Streams (ω : Type) where
  input : Script
  output : ω
  log : List Event := []

namespace Streams

def onOutput (a : Action ω α) : Action (Streams ω) α :=
  Fallible.on output (fun output s => { s with output }) a

instance [Sink ω] : Channel (Streams ω) where
  readByte s :=
    match s.input.read with
    | (.ok byte, input) => (.ok byte, { s with input })
    | (.error reason, input) =>
        (.error .readFailed, { s with input, log := s.log ++ [.readFailed reason] })
  writeAll bytes := onOutput (Sink.writeAll bytes)
  flush := onOutput Sink.flush

end Streams

/-- Standard output. On a full device nothing is ever written, and bytes that were buffered
stay stuck. -/
structure Stdout where
  written : Bytes := []
  full : Bool := false
  stuck : Bool := false
  deriving DecidableEq

namespace Stdout

def capacity : Nat := 1024

/-- Whole lines and texts that fill the buffer go to the device at once. -/
def isBuffered (bytes : Bytes) : Bool :=
  !bytes.contains LineBuffer.newline && bytes.length < capacity

instance : Sink Stdout where
  writeAll bytes s :=
    if !s.full then (.ok (), { s with written := s.written ++ bytes })
    else if isBuffered bytes then (.ok (), { s with stuck := s.stuck || !bytes.isEmpty })
    else (.error .writeFailed, s)
  flush s := (if s.full && s.stuck then .error .writeFailed else .ok (), s)

end Stdout

end LineConsole.Host
