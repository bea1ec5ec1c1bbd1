import LineConsole.Channel

/-!
The serial line of a device. Each half has a rate of its own and may refuse a rate, and each
may fail independently of the other. For runs of a program without end, the line can be given
a budget of empty reads and of failing writes; when one is used up the line stops for good.
-/
namespace LineConsole.Device

structure UartReceiver where
  queue : Bytes := []
  broken : Bool := false
  readyBroken : Bool := false
  rate : Nat := 0
  /-- The highest rate that is accepted. -/
  limit : Option Nat := none
  /-- How many reads of the empty queue report the end of the input. -/
  emptyReads : Option Nat := none
  deriving DecidableEq

structure UartTransmitter where
  sent : Bytes := []
  /-- The number of bytes that are still taken. -/
  room : Option Nat := none
  flushes : Nat := 0
  flushBroken : Bool := false
  rate : Nat := 0
  limit : Option Nat := none
  /-- How many writes may fail. -/
  failedWrites : Option Nat := none
  deriving DecidableEq

structure Uart where
  receiver : UartReceiver := {}
  transmitter : UartTransmitter := {}
  stopped : Bool := false
  deriving DecidableEq

namespace Uart

/-- The outcome of an event that a budget limits. -/
def spend (budget : Option Nat) (onLeft : Option Nat → α) (onUsedUp : α) : α :=
  match budget with
  | none => onLeft none
  | some 0 => onUsedUp
  | some (n + 1) => onLeft (some n)

def readByte : Action Uart (Option UInt8) := fun u =>
  if u.stopped || u.receiver.broken then (.error .readFailed, u)
  else match u.receiver.queue with
    | b :: rest => (.ok (some b), { u with receiver.queue := rest })
    | [] =>
        spend u.receiver.emptyReads
          (fun left => (.ok none, { u with receiver.emptyReads := left }))
          (.error .readFailed, { u with stopped := true })

/-- What does not fit is cut off, and the write fails. A write of no bytes does not touch the
line. -/
def writeAll (bytes : Bytes) : Action Uart Unit := fun u =>
  if u.stopped then (.error .writeFailed, u)
  else match u.transmitter.room with
    | none => (.ok (), { u with transmitter.sent := u.transmitter.sent ++ bytes })
    | some room =>
        let u := { u with
          transmitter.sent := u.transmitter.sent ++ bytes.take room
          transmitter.room := some (room - bytes.length) }
        if bytes.length ≤ room then (.ok (), u)
        else
          spend u.transmitter.failedWrites
            (fun left => (.error .writeFailed, { u with transmitter.failedWrites := left }))
            (.error .writeFailed, { u with stopped := true })

def flush : Action Uart Unit := fun u =>
  if u.stopped || u.transmitter.flushBroken then (.error .writeFailed, u)
  else (.ok (), { u with transmitter.flushes := u.transmitter.flushes + 1 })

instance : Channel Uart := ⟨readByte, writeAll, flush⟩

/-- Whether a byte is pending. A broken receiver still knows. -/
def ready (u : Uart) : Except Fault Bool :=
  if u.receiver.readyBroken then .error .readFailed else .ok (!u.receiver.queue.isEmpty)

def poll : Action Uart (Option UInt8) := fun u =>
  match u.ready with
  | .error e => (.error e, u)
  | .ok false => (.ok none, u)
  | .ok true => readByte u

def accepts (limit : Option Nat) (rate : Nat) : Bool := limit.all (rate ≤ ·)

/-- Sets the rate of the transmitter and then of the receiver, up to the first refusal. A
receiver that refuses leaves the transmitter changed. -/
def setRate (rate : Nat) (u : Uart) : Bool × Uart :=
  if !accepts u.transmitter.limit rate then (false, u)
  else
    let u := { u with transmitter.rate := rate }
    if !accepts u.receiver.limit rate then (false, u)
    else (true, { u with receiver.rate := rate })

end Uart

end LineConsole.Device
