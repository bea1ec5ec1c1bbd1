import LineConsole.Channel

/-!
Input that is delivered in chunks, between which a read may be interrupted or fail, and output
to a store of bounded size. An interrupted read is tried again, so chunks and interruptions
are not visible to the reader; a failure is, once.
-/
namespace LineConsole

inductive Chunk
  | data (bytes : Bytes)
  | interrupted
  | failure (reason : String)
  deriving DecidableEq

inductive Ending
  | endOfStream
  | failure (reason : String)
  deriving DecidableEq

structure Script where
  chunks : List Chunk
  ending : Ending := .endOfStream
  deriving DecidableEq

namespace Script

def readFrom (ending : Ending) : List Chunk → Except String (Option UInt8) × List Chunk
  | [] =>
      match ending with
      | .endOfStream => (.ok none, [])
      | .failure reason => (.error reason, [])
  | .data [] :: rest => readFrom ending rest
  | .data (b :: bytes) :: rest => (.ok (some b), .data bytes :: rest)
  | .interrupted :: rest => readFrom ending rest
  | .failure reason :: rest => (.error reason, rest)

def read (s : Script) : Except String (Option UInt8) × Script :=
  let (r, chunks) := readFrom s.ending s.chunks
  (r, { s with chunks })

def Chunk.bytes : Chunk → Bytes
  | .data bytes => bytes
  | _ => []

/-- All bytes of the script, also those behind a failure. -/
def remaining (s : Script) : Bytes := s.chunks.flatMap Chunk.bytes

def readable (s : Script) : Bytes :=
  (s.chunks.takeWhile fun
    | .failure _ => false
    | _ => true).flatMap Chunk.bytes

end Script

/-- A write that does not fit stores what fits and fails. -/
structure Bounded where
  written : Bytes := []
  flushes : Nat := 0
  room : Option Nat := none
  failFlush : Bool := false
  deriving DecidableEq

instance : Sink Bounded where
  writeAll bytes s := match s.room with
    | none => (.ok (), { s with written := s.written ++ bytes })
    | some room =>
        let s := { s with written := s.written ++ bytes.take room, room := some (room - bytes.length) }
        (if bytes.length ≤ room then .ok () else .error .writeFailed, s)
  flush s :=
    if s.failFlush then (.error .writeFailed, s)
    else (.ok (), { s with flushes := s.flushes + 1 })

end LineConsole
