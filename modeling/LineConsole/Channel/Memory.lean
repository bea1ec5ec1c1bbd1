import LineConsole.Channel

/-!
Channels that hold their bytes in memory and never fail: a text to read, a record of what was
written, and a queue that returns what is written to it.
-/
namespace LineConsole

structure Unread where
  bytes : Bytes
  deriving DecidableEq

structure Written where
  bytes : Bytes := []
  deriving DecidableEq

instance : Source Unread where
  readByte s := match s.bytes with
    | [] => (.ok none, s)
    | b :: rest => (.ok (some b), ⟨rest⟩)

instance : Sink Written where
  writeAll bytes s := (.ok (), ⟨s.bytes ++ bytes⟩)
  flush s := (.ok (), s)

abbrev Memory := Duplex Unread Written

/-- Written bytes are read back in their order. -/
structure Loopback where
  queue : Bytes := []
  deriving DecidableEq

instance : Channel Loopback where
  readByte s := match s.queue with
    | [] => (.ok none, s)
    | b :: rest => (.ok (some b), ⟨rest⟩)
  writeAll bytes s := (.ok (), ⟨s.queue ++ bytes⟩)
  flush s := (.ok (), s)

end LineConsole
