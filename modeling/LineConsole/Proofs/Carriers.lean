import LineConsole.Channel.Planned
import LineConsole.Proofs.Chunking
import LineConsole.Proofs.Script

/-!
The channels behind a console. Its bytes may be held in memory, come and go with planned faults,
pass through a serial line or be delivered by a script. As long as no fault comes, each of these
channels does what the memory does that holds the same bytes, and no console can tell them apart.
A serial line reads and writes as much at a time as it likes; a byte is taken from it through a
buffer of one, and a text is written to it until nothing is left.
-/
namespace LineConsole

def Receiver.readInto (n : Nat) : Action Receiver Bytes := fun s =>
  if s.broken then (.error .readFailed, s)
  else (.ok (s.queue.take n), { s with queue := s.queue.drop n })

/-- The end of the input shows in a read that takes nothing. -/
def Receiver.readOne : Action Receiver (Option UInt8) := do
  let taken ← readInto 1
  return taken.head?

theorem Receiver.readOne_eq : readOne = Source.readByte := by
  funext s
  obtain ⟨queue, broken⟩ := s
  cases broken with
  | true => rfl
  | false => cases queue <;> rfl

def Transmitter.write (bytes : Bytes) : Action Transmitter Nat := fun s =>
  if s.broken then (.error .writeFailed, s)
  else (.ok bytes.length, { s with sent := s.sent ++ bytes })

/-- Writes what the last write has left, until nothing is left or a write fails. -/
inductive Writes {ω : Type} (write : Bytes → Action ω Nat) :
    Bytes → ω → Except Fault Unit × ω → Prop
  | done (s : ω) : Writes write [] s (.ok (), s)
  | failed {bytes : Bytes} {s t : ω} {e : Fault} (left : bytes ≠ [])
      (failed : write bytes s = (.error e, t)) : Writes write bytes s (.error e, t)
  | part {bytes : Bytes} {s t : ω} {n : Nat} {r : Except Fault Unit × ω} (left : bytes ≠ [])
      (wrote : write bytes s = (.ok n, t)) (rest : Writes write (bytes.drop n) t r) :
      Writes write bytes s r

theorem Writes.unique {ω : Type} {write : Bytes → Action ω Nat} {bytes : Bytes} {s : ω}
    {r r' : Except Fault Unit × ω} (h : Writes write bytes s r) (h' : Writes write bytes s r') :
    r = r' := by
  induction h with
  | done s =>
    cases h' with
    | done => rfl
    | failed left => exact absurd rfl left
    | part left => exact absurd rfl left
  | failed left failed =>
    cases h' with
    | done => exact absurd rfl left
    | failed left' failed' =>
      cases failed.symm.trans failed'
      rfl
    | part left' wrote' => cases failed.symm.trans wrote'
  | part left wrote rest ih =>
    cases h' with
    | done => exact absurd rfl left
    | failed left' failed' => cases wrote.symm.trans failed'
    | part left' wrote' rest' =>
      cases wrote.symm.trans wrote'
      exact ih rest'

/-- Nothing is written of an empty text, so a broken line does not show. -/
theorem Transmitter.writes (bytes : Bytes) (s : Transmitter) :
    Writes write bytes s (Sink.writeAll bytes s) := by
  obtain ⟨sent, flushes, broken⟩ := s
  cases bytes with
  | nil =>
    have hnothing : Sink.writeAll [] (⟨sent, flushes, broken⟩ : Transmitter) =
        (.ok (), ⟨sent, flushes, broken⟩) := by
      cases broken <;> simp [Sink.writeAll]
    rw [hnothing]
    exact .done _
  | cons byte rest =>
    cases broken with
    | true => exact .failed (List.cons_ne_nil _ _) rfl
    | false =>
      apply Writes.part (List.cons_ne_nil _ _) rfl
      rw [List.drop_length]
      exact .done _

/-- What is made of streams that read and write in parts is what their channels do. -/
structure Adapted : Prop where
  readOne : Receiver.readOne = Source.readByte
  writes : ∀ bytes s r, Writes Transmitter.write bytes s r ↔ r = Sink.writeAll bytes s
  loop : ∀ (s : Script) r, (∃ tries, Script.Loop s.ending s.chunks tries r) ↔
    r = (s.read.1, s.read.2.chunks)

theorem adapted : Adapted where
  readOne := Receiver.readOne_eq
  writes bytes s r := by
    constructor
    · intro h
      exact h.unique (Transmitter.writes bytes s)
    · rintro rfl
      exact Transmitter.writes bytes s
  loop s r := by
    obtain ⟨tries, -, hloop⟩ := Script.loop_readFrom s.ending s.chunks
    constructor
    · rintro ⟨_, h⟩
      exact h.unique hloop
    · rintro rfl
      exact ⟨tries, hloop⟩

/-- What can be told of a channel: whether no fault is to come, the bytes still to be read and
those written so far. -/
structure Carrier (σ : Type) where
  Intact : σ → Prop
  unread : σ → Bytes
  written : σ → Bytes

namespace Carrier

def memory : Carrier Memory where
  Intact _ := True
  unread d := d.source.bytes
  written d := d.sink.bytes

def planned : Carrier (Duplex PlannedSource PlannedSink) where
  Intact d := d.source.failAt = none ∧ d.sink.failNext = false
  unread d := d.source.unread
  written d := d.sink.written

def serial : Carrier (Duplex Receiver Transmitter) where
  Intact d := d.source.broken = false ∧ d.sink.broken = false
  unread d := d.source.queue
  written d := d.sink.sent

/-- Interruptions are no faults. -/
def scripted : Carrier (Host.Streams Bounded) where
  Intact s := s.input.Sound ∧ s.output.room = none ∧ s.output.failFlush = false
  unread s := s.input.remaining
  written s := s.output.written

variable {σ : Type}

structure Holds (v : Carrier σ) (s : σ) (m : Memory) : Prop where
  intact : v.Intact s
  unread : v.unread s = m.source.bytes
  written : v.written s = m.sink.bytes

theorem alike_planned : Channel.Alike planned.Holds where
  readByte := by
    rintro ⟨⟨bytes, reads, _⟩, sink⟩ ⟨⟨_⟩, ⟨_⟩⟩ ⟨⟨rfl, hsink⟩, rfl, rfl⟩
    cases bytes with
    | nil => exact ⟨_, _, _, rfl, rfl, ⟨rfl, hsink⟩, rfl, rfl⟩
    | cons byte rest => exact ⟨_, _, _, rfl, rfl, ⟨rfl, hsink⟩, rfl, rfl⟩
  writeAll bytes := by
    rintro ⟨source, ⟨written, flushes, _⟩⟩ ⟨⟨_⟩, ⟨_⟩⟩ ⟨⟨hsource, rfl⟩, rfl, rfl⟩
    exact ⟨_, _, _, rfl, rfl, ⟨hsource, rfl⟩, rfl, rfl⟩
  flush := by
    rintro s m ⟨hintact, hunread, hwritten⟩
    exact ⟨_, _, _, rfl, rfl, hintact, hunread, hwritten⟩

theorem alike_serial : Channel.Alike serial.Holds where
  readByte := by
    rintro ⟨⟨queue, _⟩, sink⟩ ⟨⟨_⟩, ⟨_⟩⟩ ⟨⟨rfl, hsink⟩, rfl, rfl⟩
    cases queue with
    | nil => exact ⟨_, _, _, rfl, rfl, ⟨rfl, hsink⟩, rfl, rfl⟩
    | cons byte rest => exact ⟨_, _, _, rfl, rfl, ⟨rfl, hsink⟩, rfl, rfl⟩
  writeAll bytes := by
    rintro ⟨source, ⟨sent, flushes, _⟩⟩ ⟨⟨_⟩, ⟨_⟩⟩ ⟨⟨hsource, rfl⟩, rfl, rfl⟩
    exact ⟨_, _, _, rfl, rfl, ⟨hsource, rfl⟩, rfl, rfl⟩
  flush := by
    rintro s m ⟨hintact, hunread, hwritten⟩
    exact ⟨_, _, _, rfl, rfl, hintact, hunread, hwritten⟩

theorem alike_scripted : Channel.Alike scripted.Holds where
  readByte := by
    rintro s ⟨⟨unread⟩, written⟩ ⟨⟨hsound, houtput⟩, hunread, hwritten⟩
    replace hunread : s.input.remaining = unread := hunread
    have hreads := s.input.read_reads
    have hread := Host.Streams.readByte_apply s
    generalize s.input.read = p at hread hreads
    obtain ⟨r, next⟩ := p
    cases hreads with
    | byte b next hreadable hremaining hnext =>
      obtain rfl := hremaining.symm.trans hunread
      exact ⟨_, _, _, hread, rfl, ⟨hnext.mp hsound, houtput⟩, rfl, hwritten⟩
    | ended hreadable hremaining hended =>
      obtain rfl := hremaining.symm.trans hunread
      exact ⟨_, _, _, hread, rfl, ⟨Script.sound_nil, houtput⟩, rfl, hwritten⟩
    | failed reason next hreadable hunsound => exact absurd hsound hunsound
  writeAll bytes := by
    rintro ⟨input, ⟨written, flushes, _, _⟩, log⟩ ⟨⟨_⟩, ⟨_⟩⟩ ⟨⟨hsound, rfl, rfl⟩, rfl, rfl⟩
    exact ⟨_, _, _, rfl, rfl, ⟨hsound, rfl, rfl⟩, rfl, rfl⟩
  flush := by
    rintro ⟨input, ⟨written, flushes, _, _⟩, log⟩ ⟨⟨_⟩, ⟨_⟩⟩ ⟨⟨hsound, rfl, rfl⟩, rfl, rfl⟩
    exact ⟨_, _, _, rfl, rfl, ⟨hsound, rfl, rfl⟩, rfl, rfl⟩

open Console

variable [Channel σ]

/-- What a history shows: after each operation its result, the line, all output so far and all
input that is left. -/
def shows (v : Carrier σ) (c : Console σ) (ops : List Op) :
    List (Option (Except Fault Answer) × LineBuffer × Bytes × Bytes) :=
  (replay c (ops.map .op)).map (Entry.seen fun s => (v.written s, v.unread s))

theorem shows_eq_memory {v : Carrier σ} (hv : Channel.Alike v.Holds) {s : σ} {m : Memory}
    (h : v.Holds s m) (line : LineBuffer) (ops : List Op) :
    v.shows ⟨s, line⟩ ops = memory.shows ⟨m, line⟩ ops := by
  apply replay_seen hv _ ⟨h, rfl⟩ ops
  intro t n ht
  rw [ht.unread, ht.written]
  rfl

/-- From the same input every history shows the same, be the channel a memory, one with planned
faults of which none comes, a serial line, or a script that delivers the input in any chunks. The
last two do what is made of their streams by buffers of one byte, by writes of what is left and by
looks at the input. -/
theorem shows_on_every_carrier (input : Bytes) (script : Script) (hsound : script.Sound)
    (hinput : script.remaining = input) (ops : List Op) :
    let expected := memory.shows { channel := ⟨⟨input⟩, {}⟩ } ops
    planned.shows { channel := ⟨{ unread := input }, {}⟩ } ops = expected ∧
      serial.shows { channel := ⟨{ queue := input }, {}⟩ } ops = expected ∧
      scripted.shows { channel := { input := script, output := {} } } ops = expected ∧
      Adapted := by
  have hscripted : scripted.Holds { input := script, output := {} } ⟨⟨input⟩, {}⟩ :=
    ⟨⟨hsound, rfl, rfl⟩, hinput, rfl⟩
  refine ⟨?_, ?_, ?_, adapted⟩
  · exact shows_eq_memory alike_planned ⟨⟨rfl, rfl⟩, rfl, rfl⟩ .empty ops
  · exact shows_eq_memory alike_serial ⟨⟨rfl, rfl⟩, rfl, rfl⟩ .empty ops
  · exact shows_eq_memory alike_scripted hscripted .empty ops

/-- Interruptions inside a line, and a read behind the end of the input. -/
theorem shows_on_interrupted_carrier :
    let input : Bytes := [0x61, 0x0A, 0x62]
    let script : Script :=
      ⟨[.interrupted, .data [0x61], .interrupted, .data [0x0A, 0x62]], .endOfStream⟩
    let ops : List Op := [.prompt [0x3E], .print (.int (-7)), .readByte, .input]
    let shown := scripted.shows { channel := { input := script, output := {} } } ops
    script.Sound ∧ script.remaining = input ∧
      shown = memory.shows { channel := ⟨⟨input⟩, {}⟩ } ops ∧
      shown.map (·.2.1) = [.ofBytes [0x61], .ofBytes [0x61], .ofBytes [0x61], .empty] ∧
      shown.map (·.2.2.2) = [[0x62], [0x62], [], []] := by
  intro input script ops shown
  have hsound : script.Sound := by decide
  have hshown := (shows_on_every_carrier input script hsound rfl ops).2.2.1
  exact ⟨hsound, rfl, hshown, by decide +kernel, by decide +kernel⟩

end Carrier

end LineConsole
