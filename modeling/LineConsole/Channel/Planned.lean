import LineConsole.Channel

/-!
Channels with planned faults, in memory. The first pair fails at one planned read and at one
planned write. The second stands for the two halves of a serial line, either of which may be
broken as a whole.
-/
namespace LineConsole

/-- Every read is counted; the one that finds `failAt` reads counted fails and is not. -/
structure PlannedSource where
  unread : Bytes
  reads : Nat := 0
  failAt : Option Nat := none
  deriving DecidableEq

namespace PlannedSource

instance : Source PlannedSource where
  readByte s :=
    if s.failAt = some s.reads then (.error .readFailed, s)
    else match s.unread with
      | [] => (.ok none, { s with reads := s.reads + 1 })
      | b :: rest => (.ok (some b), { s with unread := rest, reads := s.reads + 1 })

def readable (s : PlannedSource) : Bytes :=
  match s.failAt with
  | none => s.unread
  | some n => if n < s.reads then s.unread else s.unread.take (n - s.reads)

end PlannedSource

/-- The next write fails and takes nothing if `failNext` is set, which it resets. -/
structure PlannedSink where
  written : Bytes := []
  flushes : Nat := 0
  failNext : Bool := false
  deriving DecidableEq

instance : Sink PlannedSink where
  writeAll bytes s :=
    if s.failNext then (.error .writeFailed, { s with failNext := false })
    else (.ok (), { s with written := s.written ++ bytes })
  flush s := (.ok (), { s with flushes := s.flushes + 1 })

/-- The receiving half of a serial line. It reports pending bytes even when it is broken. -/
structure Receiver where
  queue : Bytes
  broken : Bool := false
  deriving DecidableEq

instance : Source Receiver where
  readByte s :=
    if s.broken then (.error .readFailed, s)
    else match s.queue with
      | [] => (.ok none, s)
      | b :: rest => (.ok (some b), { s with queue := rest })

def Receiver.ready (s : Receiver) : Except Fault Bool := .ok (!s.queue.isEmpty)

/-- The sending half of a serial line. A write of no bytes does not touch it. -/
structure Transmitter where
  sent : Bytes := []
  flushes : Nat := 0
  broken : Bool := false
  deriving DecidableEq

instance : Sink Transmitter where
  writeAll bytes s :=
    if s.broken && !bytes.isEmpty then (.error .writeFailed, s)
    else (.ok (), { s with sent := s.sent ++ bytes })
  flush s := (.ok (), { s with flushes := s.flushes + 1 })

end LineConsole
