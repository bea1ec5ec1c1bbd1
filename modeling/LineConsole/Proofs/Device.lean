import LineConsole.Device.Call
import LineConsole.Proofs.Output

/-!
What calls from C do to a device, in one equation each. A call has the console only if it is
installed and nobody holds it; then the line in the slot is the one that the call leaves. A serial
line in working order stays so and takes all output.
-/
namespace LineConsole.Device

open Fallible

namespace Uart

/-- Nothing fails, and behind the last byte the input has ended for good. -/
structure Steady (u : Uart) : Prop where
  running : u.stopped = false
  received : u.receiver.broken = false
  ended : u.receiver.emptyReads = none
  taken : u.transmitter.room = none
  flushed : u.transmitter.flushBroken = false

/-- Bytes that come, bytes that are sent and flushes leave a line steady. -/
theorem Steady.of_traffic {u : Uart} (h : u.Steady) (queue sent : Bytes) (flushes : Nat) :
    Steady { u with
      receiver.queue := queue
      transmitter.sent := sent
      transmitter.flushes := flushes } :=
  ⟨h.running, h.received, h.ended, h.taken, h.flushed⟩

/-- Every read gives the next byte that was received, or the end of the input if there is none. -/
structure Supplies (u : Uart) : Prop where
  running : u.stopped = false
  received : u.receiver.broken = false
  ended : u.receiver.emptyReads = none

theorem Steady.supplies {u : Uart} (h : u.Steady) : u.Supplies := ⟨h.running, h.received, h.ended⟩

theorem Supplies.readByte_byte {u : Uart} (h : u.Supplies) {b : UInt8} {rest : Bytes}
    (hqueue : u.receiver.queue = b :: rest) :
    Channel.readByte u = (.ok (some b), { u with receiver.queue := rest }) := by
  show readByte u = _
  simp [readByte, h.running, h.received, hqueue]

theorem Supplies.readByte_end {u : Uart} (h : u.Supplies) (hqueue : u.receiver.queue = []) :
    Channel.readByte u = (.ok none, u) := by
  obtain ⟨⟨queue, broken, readyBroken, rate, limit, emptyReads⟩, transmitter, stopped⟩ := u
  obtain rfl : stopped = false := h.running
  obtain rfl : broken = false := h.received
  obtain rfl : emptyReads = none := h.ended
  obtain rfl : queue = [] := hqueue
  rfl

/-- Setting a rate changes nothing but rates. -/
theorem setRate_apply (rate : Nat) (u : Uart) :
    ∃ accepted r t, u.setRate rate =
      (accepted, { u with receiver.rate := r, transmitter.rate := t }) := by
  unfold setRate
  split
  · exact ⟨false, u.receiver.rate, u.transmitter.rate, rfl⟩
  · dsimp only
    split
    · exact ⟨false, u.receiver.rate, rate, rfl⟩
    · exact ⟨true, rate, rate, rfl⟩

/-- A steady line takes everything. -/
def outlet : Outlet Uart where
  Open := Steady
  put bytes u := { u with transmitter.sent := u.transmitter.sent ++ bytes }
  settle u := { u with transmitter.flushes := u.transmitter.flushes + 1 }
  open_put _ _ h := h.of_traffic _ _ _
  writeAll bytes u h := by
    show writeAll bytes u = _
    simp [writeAll, h.running, h.taken]
  flush u h := by
    show flush u = _
    simp [flush, h.running, h.flushed]
  put_nil u := by simp
  put_put a b u := by simp

end Uart

def Call.IsSingle (c : Call) : Prop := ∀ calls, c ≠ .hold calls

theorem Call.IsSingle.call {c : Call} (h : c.IsSingle) (s : Session) :
    Session.call c s = Session.single c s := by
  cases c with
  | hold calls => exact absurd rfl (h calls)
  | _ => rfl

def Slot.IsIdle (slot : Slot) : Prop := ∃ line, slot = .idle line

namespace Run

theorem withConsole_idle {α : Type} (a : Action (Console Uart) α) {s : State}
    {line : LineBuffer} (hslot : s.slot = .idle line) :
    withConsole a s = (some <$> use .idle line a) s := by
  rw [withConsole, bind_apply, get_apply, map_eq_pure_bind]
  simp only [hslot]

theorem withConsole_unavailable {α : Type} (a : Action (Console Uart) α) {s : State}
    (hslot : ¬ s.slot.IsIdle) : withConsole a s = (.ok none, s) := by
  rw [withConsole, bind_apply, get_apply]
  cases h : s.slot with
  | idle line => exact absurd ⟨line, h⟩ hslot
  | absent =>
    simp only [h]
    rfl
  | held line =>
    simp only [h]
    rfl

/-- A use of the console that does not stop the serial line. -/
theorem withConsole_running {α : Type} {a : Action (Console Uart) α} {s : State}
    {line : LineBuffer} {r : Except Fault α} {c : Console Uart} (hslot : s.slot = .idle line)
    (h : a ⟨s.uart, line⟩ = (r, c)) (hrunning : c.channel.stopped = false) :
    withConsole a s = (.ok (some r), { s with uart := c.channel, slot := .idle c.line }) := by
  rw [withConsole_idle a hslot, map_apply, use, h]
  simp only [hrunning]
  rfl

/-- What is logged of output. -/
def outputLog (symbol : String) : Except Fault Unit → List Event
  | .ok _ => []
  | .error fault => [.outputFailed symbol fault]

theorem withUart_idle {α : Type} (a : Action Uart α) {s : State} {line : LineBuffer}
    (hslot : s.slot = .idle line) (hrunning : (a s.uart).2.stopped = false) :
    withUart a s = (.ok (some (a s.uart).1), { s with uart := (a s.uart).2 }) := by
  have hrun : Console.onChannel a ⟨s.uart, line⟩ = ((a s.uart).1, ⟨(a s.uart).2, line⟩) := rfl
  rw [withUart, withConsole_running hslot hrun hrunning, ← hslot]

/-- Output of a device whose serial line does not stop. -/
theorem write_idle (symbol : String) {a : Action Uart Unit} {s : State} {line : LineBuffer}
    (hslot : s.slot = .idle line) (hrunning : (a s.uart).2.stopped = false) :
    write symbol a s = (.ok .nothing, { s with
      uart := (a s.uart).2
      log := s.log ++ outputLog symbol (a s.uart).1 }) := by
  rw [write, bind_apply, withUart_idle a hslot hrunning]
  rcases a s.uart with ⟨fault | _, u⟩
  · rfl
  · simp only [outputLog, List.append_nil]
    rfl

/-- What is logged of a read. -/
def inputLog {α : Type} : Except Fault α → List Event
  | .ok _ => []
  | .error fault => [.inputFailed fault]

/-- A read of the console returns the line that it leaves, unless the serial line stops. -/
theorem readInto_idle {read : Action (Console Uart) Bytes} {s : State} {line : LineBuffer}
    {r : Except Fault Bytes} {c : Console Uart} (hslot : s.slot = .idle line)
    (h : read ⟨s.uart, line⟩ = (r, c)) :
    readInto read s =
      if c.channel.stopped then
        (.error .lineStopped, { s with uart := c.channel, slot := .idle c.line })
      else
        (.ok (.string c.line.pointee),
          { uart := c.channel, slot := .idle c.line, status := .ofResult r
            log := s.log ++ inputLog r }) := by
  have huse : use .idle line read s =
      (if c.channel.stopped then .error .lineStopped else .ok r,
        { s with uart := c.channel, slot := .idle c.line }) := by
    rw [use, h]
  rw [readInto, bind_apply, withConsole_idle read hslot, map_apply, huse]
  by_cases hstopped : c.channel.stopped
  · simp [hstopped, Except.map]
  · cases r with
    | ok bytes =>
      simp [hstopped, Except.map, inputLog]
      rfl
    | error fault =>
      simp [hstopped, Except.map, inputLog]
      rfl

theorem readInto_unavailable (read : Action (Console Uart) Bytes) {s : State}
    (hslot : ¬ s.slot.IsIdle) :
    readInto read s =
      (.ok (.string []),
        { s with status := .error, log := s.log ++ [.unavailable "input"] }) := by
  rw [readInto, bind_apply, withConsole_unavailable read hslot]
  rfl

theorem single_serial {s t : State} {call : SerialCall} {reply : Foreign.Reply}
    (h : serial call s = (.ok reply, t)) :
    single (.serial call) s = (.ok (.foreign reply), t) := by
  rw [single, bind_apply, h]
  rfl

theorem single_foreign {s t : State} {call : Foreign.Call} {reply : Foreign.Reply}
    (h : foreign call s = (.ok reply, t)) :
    single (.foreign call) s = (.ok (.foreign reply), t) := by
  rw [single, bind_apply, h]
  rfl

end Run

namespace Session

theorem single_state (c : Call) (s : Session) :
    (single c s).state = (Run.single c s.state).2 := by
  rw [single]
  rcases Run.single c s.state with ⟨halt | reply, t⟩ <;> rfl

/-- A call that returns is journalled. -/
theorem call_single {s : Session} {c : Call} (hc : c.IsSingle) {reply : Reply} {t : State}
    (h : Run.single c s.state = (.ok reply, t)) :
    call c s = record c reply { s with state := t } := by
  rw [hc.call, single, h]

theorem call_foreign {s : Session} {call : Foreign.Call} {reply : Foreign.Reply} {t : State}
    (h : Run.foreign call s.state = (.ok reply, t)) :
    Session.call (.foreign call) s =
      record (.foreign call) (.foreign reply) { s with state := t } :=
  call_single (by rintro _ ⟨⟩) (Run.single_foreign h)

theorem callAll_cons {s : Session} {c : Call} (rest : List Call) (h : (call c s).halt = none) :
    callAll (c :: rest) s = callAll rest (call c s) := by
  rw [callAll]
  simp [h]

/-- A call from C that returns is journalled, and the session goes on. -/
theorem callAll_foreign {s : Session} {call : Foreign.Call} {reply : Foreign.Reply} {t : State}
    (rest : List Call) (hhalt : s.halt = none)
    (h : Run.foreign call s.state = (.ok reply, t)) :
    callAll (.foreign call :: rest) s =
      callAll rest (record (.foreign call) (.foreign reply) { s with state := t }) := by
  have hcall := call_foreign h
  rw [callAll_cons rest (by rw [hcall]; exact hhalt), hcall]

/-- A call that stops the device is the last one. -/
theorem callAll_cons_halt {s : Session} {c : Call} {halt : Halt} (rest : List Call)
    (h : (call c s).halt = some halt) : callAll (c :: rest) s = call c s := by
  rw [callAll]
  simp [h]

/-- What the device has survived can be told apart from what comes then. -/
theorem callAll_append {s : Session} {front : List Call} (back : List Call)
    (h : (callAll front s).halt = none) :
    callAll (front ++ back) s = callAll back (callAll front s) := by
  induction front generalizing s with
  | nil => rfl
  | cons c rest ih =>
    rw [List.cons_append]
    cases hcall : (call c s).halt with
    | none =>
      rw [callAll_cons rest hcall] at h ⊢
      rw [callAll_cons _ hcall, ih h]
    | some halt =>
      rw [callAll_cons_halt rest hcall, hcall] at h
      cases h

/-- The input status can be asked for after every call that returns. -/
theorem callAll_status {s : Session} {call : Foreign.Call} {reply : Foreign.Reply} {t : State}
    (hhalt : s.halt = none) (h : Run.foreign call s.state = (.ok reply, t)) :
    ∃ p q, (callAll [.foreign call, .foreign .inputStatus] s).journal = s.journal ++
      [⟨.foreign call, .foreign reply, p⟩,
        ⟨.foreign .inputStatus, .foreign (.int t.status.code), q⟩] := by
  have hstatus : Run.foreign .inputStatus t = (.ok (.int t.status.code), t) := rfl
  have hrest := callAll_foreign
    (s := record (.foreign call) (.foreign reply) { s with state := t }) [] hhalt hstatus
  refine ⟨t, t, ?_⟩
  rw [callAll_foreign _ hhalt h, hrest, callAll, record, record, List.append_assoc]
  rfl

/-- A call from C that stops the device is the last one. -/
theorem callAll_foreign_halt {s : Session} {call : Foreign.Call} {halt : Halt} {t : State}
    (rest : List Call) (h : Run.foreign call s.state = (.error halt, t)) :
    callAll (.foreign call :: rest) s = { s with state := t, halt := some halt } := by
  have hsingle : Run.single (.foreign call) s.state = (.error halt, t) := by
    rw [Run.single, bind_apply, h]
  have hcall : Session.call (.foreign call) s = { s with state := t, halt := some halt } := by
    change single (.foreign call) s = _
    rw [single, hsingle]
  rw [callAll_cons_halt rest (by rw [hcall]), hcall]

end Session

end LineConsole.Device
