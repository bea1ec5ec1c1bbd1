import LineConsole.Proofs.DeviceExports
import LineConsole.Proofs.DeviceReading
import LineConsole.Proofs.Histories

/-!
The bytes that a device receives are one queue. Calls that read lines and calls that poll for
single bytes take from its front, each byte goes to at most one of them, and no other call takes
any. A poll touches nothing but the queue. It is not assumed that output works.
-/
namespace LineConsole.Device

open Fallible LineBuffer Pieces Console

/-- The receiver does not fail, and the line has no end. Writes and flushes may fail. -/
structure Uart.Receives (u : Uart) : Prop extends Uart.Supplies u where
  answers : u.receiver.readyBroken = false
  endless : u.transmitter.failedWrites = none

theorem Uart.Receives.of_queue {u : Uart} (h : u.Receives) (queue : Bytes) :
    Receives { u with receiver.queue := queue } := ⟨h.toSupplies.of_queue queue, h.answers, h.endless⟩

theorem Uart.Receives.of_transmitter {u : Uart} (h : u.Receives) {t : UartTransmitter}
    (ht : t.failedWrites = none) : Receives { u with transmitter := t } :=
  ⟨⟨h.running, h.received, h.ended⟩, h.answers, ht⟩

theorem Uart.Receives.writeAll_apply {u : Uart} (h : u.Receives) (bytes : Bytes) :
    ∃ r t, Uart.writeAll bytes u = (r, { u with transmitter := t }) ∧ t.failedWrites = none := by
  have hrunning : ¬ u.stopped := by simp [h.running]
  unfold writeAll
  rw [if_neg hrunning]
  split
  · exact ⟨_, _, rfl, h.endless⟩
  · dsimp only
    split
    · exact ⟨_, _, rfl, h.endless⟩
    · rw [h.endless]
      exact ⟨_, _, rfl, rfl⟩

theorem Uart.Receives.flush_apply {u : Uart} (h : u.Receives) :
    ∃ r t, Uart.flush u = (r, { u with transmitter := t }) ∧ t.failedWrites = none := by
  unfold flush
  split
  · exact ⟨_, u.transmitter, rfl, h.endless⟩
  · exact ⟨_, _, rfl, h.endless⟩

def Uart.Received (r : UartReceiver) (u v : Uart) : Prop :=
  u = v ∧ u.Receives ∧ u.receiver = r

/-- Output leaves the receiver alone, whether it works or not. -/
theorem Uart.writesAlike_received (r : UartReceiver) : Channel.WritesAlike (Uart.Received r) where
  writeAll bytes := by
    rintro u _ ⟨rfl, h, hr⟩
    obtain ⟨result, t, hwrite, ht⟩ := h.writeAll_apply bytes
    exact ⟨result, _, _, hwrite, hwrite, rfl, h.of_transmitter ht, hr⟩
  flush := by
    rintro u _ ⟨rfl, h, hr⟩
    obtain ⟨result, t, hflush, ht⟩ := h.flush_apply
    exact ⟨result, _, _, hflush, hflush, rfl, h.of_transmitter ht, hr⟩

/-- What happens to a device on its serial line: a program calls, or bytes come in. -/
inductive Step
  | foreign (call : Foreign.Call)
  | serial (call : SerialCall)
  | arrive (bytes : Bytes)

namespace Step

def call : Step → Call
  | .foreign call => .foreign call
  | .serial call => .serial call
  | .arrive bytes =>
      .adjust fun u => { u with receiver.queue := u.receiver.queue ++ bytes }

def arrived : Step → Bytes
  | .arrive bytes => bytes
  | _ => []

def Accepted : Step → Prop
  | .foreign call => call.refusal = none
  | _ => True

def Reads : Step → Prop
  | .foreign call => ∃ question, call.ReadsLine question
  | .serial .receive => True
  | _ => False

end Step

def arrived (steps : List Step) : Bytes := steps.flatMap Step.arrived

inductive Takes (queue : Bytes) : Step → Reply → Bytes → Prop
  | byte (b : UInt8) (rest : Bytes) (n : Int32) (hqueue : queue = b :: rest)
      (hn : n.toInt = b.toNat) : Takes queue (.serial .receive) (.foreign (.int n)) [b]
  | noByte : Takes queue (.serial .receive) (.foreign (.int (-1))) []
  | line (call : Foreign.Call) (question : Option Bytes) (hcall : call.ReadsLine question)
      (p : Bytes) (hp : (cut queue)[0]? = some p) :
      Takes queue (.foreign call) (.foreign (.string (Foreign.upToZero (content p)))) p
  | noLine (call : Foreign.Call) (question : Option Bytes) (hcall : call.ReadsLine question)
      (string : Bytes) : Takes queue (.foreign call) (.foreign (.string string)) []
  | nothing (step : Step) (hstep : ¬ step.Reads) (reply : Reply) : Takes queue step reply []

/-! Calls that take nothing -/

namespace Run

def Keeps {α : Type} (a : Run α) : Prop :=
  ∀ s : State, s.uart.Receives → ∃ x t, a s = (.ok x, t) ∧ t.uart.Receives ∧
    t.uart.receiver.queue = s.uart.receiver.queue

theorem keeps_pure {α : Type} (x : α) : Keeps (pure x) := fun s h => ⟨x, s, rfl, h, rfl⟩

theorem Keeps.bind {α β : Type} {a : Run α} {f : α → Run β} (ha : Keeps a)
    (hf : ∀ x, Keeps (f x)) : Keeps (a >>= f) := by
  intro s h
  obtain ⟨x, t, hax, ht, hqueue⟩ := ha s h
  obtain ⟨y, u, hfy, hu, hqueue'⟩ := hf x t ht
  refine ⟨y, u, ?_, hu, hqueue'.trans hqueue⟩
  rw [bind_apply, hax]
  exact hfy

theorem keeps_get : Keeps (get : Run State) := fun s h => ⟨s, s, rfl, h, rfl⟩

theorem keeps_log (e : Event) : Keeps (log e) := fun _ h => ⟨(), _, rfl, h, rfl⟩

/-- What leaves the receiver alone takes nothing, with or without a console. -/
theorem keeps_withUart {α : Type} {a : Action Uart α} (ha : ∀ r, Agree (Uart.Received r) a a) :
    Keeps (withUart a) := by
  intro s h
  by_cases hslot : s.slot.IsIdle
  · obtain ⟨line, hidle⟩ := hslot
    obtain ⟨r, u, v, hu, -, -, hreceives, hreceiver⟩ := ha _ s.uart s.uart ⟨rfl, h, rfl⟩
    have hrun := withUart_idle a hidle (by rw [hu]; exact hreceives.running)
    rw [hu] at hrun
    exact ⟨_, _, hrun, hreceives, congrArg UartReceiver.queue hreceiver⟩
  · exact ⟨none, s, withConsole_unavailable _ hslot, h, rfl⟩

theorem keeps_setRate (rate : Nat) : Keeps (setRate rate) := by
  intro s h
  obtain ⟨accepted, r, t, hset⟩ := s.uart.setRate_apply rate
  refine ⟨accepted, { s with uart := (s.uart.setRate rate).2 }, ?_, ?_, ?_⟩
  · rw [setRate, hset]
  · rw [hset]
    exact ⟨⟨h.running, h.received, h.ended⟩, h.answers, h.endless⟩
  · rw [hset]

theorem keeps_begin (n : Int32) : Keeps (begin n) := by
  unfold begin
  split
  · exact keeps_log _
  · next rate _ =>
    apply keeps_get.bind
    intro s
    split
    · apply (keeps_setRate rate).bind
      intro accepted
      split <;> exact keeps_log _
    · exact keeps_log _

theorem keeps_closed : Closed Keeps where
  pure := keeps_pure
  bind := Keeps.bind
  get := keeps_get
  log := keeps_log
  output ha := keeps_withUart fun r => ha _ (Uart.writesAlike_received r)
  ready := keeps_withUart fun r u v h => by
    obtain rfl := h.1
    exact ⟨u.ready, u, u, rfl, rfl, h⟩
  begin := keeps_begin

end Run

/-! Lines -/

/-- A read takes the next piece, or nothing at all. -/
theorem readBehind_takes {u : Uart} (h : u.Receives) (question : Option Bytes)
    (old : LineBuffer) :
    ∃ r c taken, readBehind question ⟨u, old⟩ = (r, c) ∧ c.channel.Receives ∧
      u.receiver.queue = taken ++ c.channel.receiver.queue ∧
      (taken = [] ∨ (cut u.receiver.queue)[0]? = some taken ∧ c.line = ofBytes (content taken)) := by
  -- The prompt takes nothing.
  have hagree := ask_agree (Uart.writesAlike_received u.receiver) question
  obtain ⟨asked, v, _, hask, -, rfl, hv, hreceiver⟩ := hagree u u ⟨rfl, h, rfl⟩
  rw [readBehind_apply, hask]
  cases asked with
  | error e => exact ⟨.error e, ⟨v, old⟩, [], rfl, hv, by rw [hreceiver]; rfl, Or.inl rfl⟩
  | ok _ =>
    rw [← hreceiver]
    cases hcut : cut v.receiver.queue with
    | nil => exact ⟨_, _, [], hv.readLine_nil hcut old, hv, rfl, Or.inl rfl⟩
    | cons p ps =>
      refine ⟨_, _, p, hv.readLine_cons hcut old, hv.of_queue _, ?_, Or.inr ⟨rfl, rfl⟩⟩
      rw [← cut_flatten v.receiver.queue, hcut]
      rfl

/-- A call from C that asks for a line takes what its reply tells. -/
theorem Run.foreign_takes {s : State} (h : s.uart.Receives) {call : Foreign.Call}
    {question : Option Bytes} (hcall : call.ReadsLine question) :
    ∃ reply taken t, Run.foreign call s = (.ok reply, t) ∧ t.uart.Receives ∧
      s.uart.receiver.queue = taken ++ t.uart.receiver.queue ∧
      Takes s.uart.receiver.queue (.foreign call) (.foreign reply) taken := by
  rw [Run.foreign_readsLine hcall]
  by_cases hslot : s.slot.IsIdle
  · obtain ⟨old, hidle⟩ := hslot
    obtain ⟨r, c, taken, hread, hreceives, hqueue, htaken⟩ := readBehind_takes h question old
    have hinto := readInto_idle hidle hread
    rw [if_neg (by rw [hreceives.running]; exact Bool.false_ne_true)] at hinto
    refine ⟨_, taken, _, hinto, hreceives, hqueue, ?_⟩
    rcases htaken with rfl | ⟨hfirst, hline⟩
    · exact .noLine call question hcall _
    · rw [hline, pointee_ofBytes]
      exact .line call question hcall taken hfirst
  · exact ⟨_, [], _, readInto_unavailable _ hslot, h, rfl, .noLine call question hcall _⟩

/-! Single bytes -/

/-- A byte is received where one is reported, and nowhere else. Apart from the queue nothing is
changed by either call. -/
inductive Polls (t : Session) : Prop
  | byte (b : UInt8) (rest : Bytes) (n : Int32) (idle : t.state.slot.IsIdle)
      (queue : t.state.uart.receiver.queue = b :: rest) (value : n.toInt = b.toNat)
      (available : Session.call (.serial .available) t =
        Session.record (.serial .available) (.foreign (.int 1)) t)
      (receive : Session.call (.serial .receive) t =
        Session.record (.serial .receive) (.foreign (.int n))
          { t with state.uart.receiver.queue := rest })
  | nothing (reason : t.state.uart.receiver.queue = [] ∨ ¬ t.state.slot.IsIdle)
      (available : Session.call (.serial .available) t =
        Session.record (.serial .available) (.foreign (.int 0)) t)
      (receive : Session.call (.serial .receive) t =
        Session.record (.serial .receive) (.foreign (.int (-1))) t)

theorem Uart.Receives.ready_eq {u : Uart} (h : u.Receives) :
    u.ready = .ok (!u.receiver.queue.isEmpty) := by
  simp [Uart.ready, h.answers]

theorem Uart.Receives.poll_nil {u : Uart} (h : u.Receives) (hqueue : u.receiver.queue = []) :
    u.poll = (.ok none, u) := by
  simp [poll, h.ready_eq, hqueue]

theorem Uart.Receives.poll_cons {u : Uart} (h : u.Receives) {b : UInt8} {rest : Bytes}
    (hqueue : u.receiver.queue = b :: rest) :
    u.poll = (.ok (some b), { u with receiver.queue := rest }) := by
  simp only [poll, h.ready_eq, hqueue]
  exact h.readByte_byte hqueue

theorem toInt_ofNat_byte (b : UInt8) : (Int32.ofNat b.toNat).toInt = b.toNat := by
  have hlt : b.toNat < 2 ^ 31 := Nat.lt_trans b.toNat_lt (by decide)
  exact Int32.toInt_ofNat_of_lt hlt

namespace Run

theorem available_idle {s : State} (h : s.uart.Receives) {line : LineBuffer}
    (hslot : s.slot = .idle line) :
    serial .available s = (.ok (.int (if s.uart.receiver.queue.isEmpty then 0 else 1)), s) := by
  rw [serial, bind_apply, withUart_idle _ hslot h.running, h.ready_eq]
  cases s.uart.receiver.queue <;> rfl

theorem receive_idle {s : State} (h : s.uart.Receives) {line : LineBuffer}
    (hslot : s.slot = .idle line) :
    serial .receive s = match s.uart.receiver.queue with
      | [] => (.ok (.int (-1)), s)
      | b :: rest =>
          (.ok (.int (Int32.ofNat b.toNat)), { s with uart.receiver.queue := rest }) := by
  cases hqueue : s.uart.receiver.queue with
  | nil =>
    have hpoll := h.poll_nil hqueue
    rw [serial, bind_apply, withUart_idle _ hslot (by rw [hpoll]; exact h.running), hpoll]
    rfl
  | cons b rest =>
    have hpoll := h.poll_cons hqueue
    rw [serial, bind_apply, withUart_idle _ hslot (by rw [hpoll]; exact h.running), hpoll]
    rfl

theorem poll_unavailable {s : State} (hslot : ¬ s.slot.IsIdle) :
    serial .available s = (.ok (.int 0), s) ∧ serial .receive s = (.ok (.int (-1)), s) := by
  constructor <;> rw [serial, bind_apply, withUart, withConsole_unavailable _ hslot] <;> rfl

/-- A call that asks for a byte takes the one that it returns, or nothing. -/
theorem receive_takes {s : State} (h : s.uart.Receives) :
    ∃ reply taken t, serial .receive s = (.ok reply, t) ∧ t.uart.Receives ∧
      s.uart.receiver.queue = taken ++ t.uart.receiver.queue ∧
      Takes s.uart.receiver.queue (.serial .receive) (.foreign reply) taken := by
  by_cases hslot : s.slot.IsIdle
  · obtain ⟨line, hidle⟩ := hslot
    have hrun := receive_idle h hidle
    cases hqueue : s.uart.receiver.queue with
    | nil =>
      rw [hqueue] at hrun
      exact ⟨_, [], s, hrun, h, hqueue.symm, .noByte⟩
    | cons b rest =>
      rw [hqueue] at hrun
      exact ⟨_, [b], _, hrun, h.of_queue rest, rfl, .byte b rest _ rfl (toInt_ofNat_byte b)⟩
  · exact ⟨_, [], s, (poll_unavailable hslot).2, h, rfl, .noByte⟩

end Run

/-- Neither call has to do with the line or the input status. -/
theorem Polls.unchanged {t : Session} (h : Polls t) {step : Step}
    (hstep : step = .serial .receive ∨ step = .serial .available) :
    (Session.call step.call t).state.slot = t.state.slot ∧
      (Session.call step.call t).state.status = t.state.status := by
  rcases hstep with rfl | rfl
  · cases h with
    | byte b rest n idle queue value available receive => exact receive ▸ ⟨rfl, rfl⟩
    | nothing reason available receive => exact receive ▸ ⟨rfl, rfl⟩
  · cases h with
    | byte b rest n idle queue value available receive => exact available ▸ ⟨rfl, rfl⟩
    | nothing reason available receive => exact available ▸ ⟨rfl, rfl⟩

theorem Session.polls {t : Session} (h : t.state.uart.Receives) : Polls t := by
  have havailable : (Call.serial .available).IsSingle := by rintro _ ⟨⟩
  have hreceive : (Call.serial .receive).IsSingle := by rintro _ ⟨⟩
  by_cases hslot : t.state.slot.IsIdle
  · obtain ⟨line, hidle⟩ := hslot
    have hasked := Run.single_serial (Run.available_idle h hidle)
    have hpolled := Run.receive_idle h hidle
    cases hqueue : t.state.uart.receiver.queue with
    | nil =>
      rw [hqueue] at hasked hpolled
      exact .nothing (Or.inl hqueue) (call_single havailable hasked)
        (call_single hreceive (Run.single_serial hpolled))
    | cons b rest =>
      rw [hqueue] at hasked hpolled
      exact .byte b rest _ ⟨line, hidle⟩ hqueue (toInt_ofNat_byte b)
        (call_single havailable hasked) (call_single hreceive (Run.single_serial hpolled))
  · obtain ⟨hasked, hpolled⟩ := Run.poll_unavailable hslot
    exact .nothing (Or.inr hslot) (call_single havailable (Run.single_serial hasked))
      (call_single hreceive (Run.single_serial hpolled))

/-! Runs -/

theorem Step.isSingle (step : Step) : step.call.IsSingle := by
  cases step <;> rintro _ ⟨⟩

/-- Every step takes from the front of the queue and adds behind it. -/
theorem Run.single_takes {s : State} (h : s.uart.Receives) (step : Step)
    (haccepted : step.Accepted) :
    ∃ reply taken t, single step.call s = (.ok reply, t) ∧ t.uart.Receives ∧
      s.uart.receiver.queue ++ step.arrived = taken ++ t.uart.receiver.queue ∧
      Takes s.uart.receiver.queue step reply taken := by
  cases step with
  | foreign call =>
    by_cases hcall : Step.Reads (.foreign call)
    · obtain ⟨question, hquestion⟩ := hcall
      obtain ⟨reply, taken, t, hrun, ht, hqueue, htakes⟩ := foreign_takes h hquestion
      exact ⟨_, taken, t, single_foreign hrun, ht, (List.append_nil _).trans hqueue, htakes⟩
    · obtain ⟨reply, t, hrun, ht, hqueue⟩ := keeps_closed.foreign haccepted hcall s h
      refine ⟨_, [], t, single_foreign hrun, ht, ?_, .nothing _ hcall _⟩
      exact (List.append_nil _).trans hqueue.symm
  | serial call =>
    by_cases hcall : call = .receive
    · subst hcall
      obtain ⟨reply, taken, t, hrun, ht, hqueue, htakes⟩ := receive_takes h
      exact ⟨_, taken, t, single_serial hrun, ht, (List.append_nil _).trans hqueue, htakes⟩
    · obtain ⟨reply, t, hrun, ht, hqueue⟩ := keeps_closed.serial hcall s h
      refine ⟨_, [], t, single_serial hrun, ht, (List.append_nil _).trans hqueue.symm, ?_⟩
      refine .nothing _ ?_ _
      intro hreads
      cases call with
      | receive => exact hcall rfl
      | _ => exact hreads
  | arrive bytes =>
    exact ⟨.nothing, [], _, rfl, h.of_queue _, rfl, .nothing _ id _⟩

namespace Session

/-- The session behind these steps. -/
def along (steps : List Step) (s : Session) : Session := callAll (steps.map Step.call) s

structure Advances (s t : Session) (step : Step) (taken : Bytes) : Prop where
  call : t = Session.call step.call s
  running : t.halt = none
  receives : t.state.uart.Receives
  queue : s.state.uart.receiver.queue ++ step.arrived = taken ++ t.state.uart.receiver.queue
  takes : ∃ reply, t.journal = s.journal ++ [⟨step.call, reply, t.state⟩] ∧
    Takes s.state.uart.receiver.queue step reply taken

theorem call_advances {s : Session} (hrunning : s.halt = none) (h : s.state.uart.Receives)
    (step : Step) (haccepted : step.Accepted) :
    ∃ taken, Advances s (call step.call s) step taken := by
  obtain ⟨reply, taken, t, hrun, ht, hqueue, htakes⟩ := Run.single_takes h step haccepted
  have hcall := call_single step.isSingle hrun
  refine ⟨taken, rfl, ?_, ?_, ?_, reply, ?_, htakes⟩ <;> rw [hcall]
  · exact hrunning
  · exact ht
  · exact hqueue
  · rfl

theorem along_cons {s : Session} {step : Step} (rest : List Step)
    (h : (call step.call s).halt = none) :
    along (step :: rest) s = along rest (call step.call s) := callAll_cons _ h

/-- Whatever is taken on the way and what is left are what there was and what came in. -/
theorem along_advances (steps : List Step) (haccepted : ∀ step ∈ steps, step.Accepted)
    (s : Session) (hrunning : s.halt = none) (h : s.state.uart.Receives) :
    ∃ taken : List Bytes, taken.length = steps.length ∧ ∀ k ≤ steps.length,
      (along (steps.take k) s).halt = none ∧ (along (steps.take k) s).state.uart.Receives ∧
      (taken.take k).flatten ++ (along (steps.take k) s).state.uart.receiver.queue =
        s.state.uart.receiver.queue ++ arrived (steps.take k) ∧
      ∀ step bytes, steps[k]? = some step → taken[k]? = some bytes →
        Advances (along (steps.take k) s) (along (steps.take (k + 1)) s) step bytes := by
  induction steps generalizing s with
  | nil =>
    refine ⟨[], rfl, fun k hk => ?_⟩
    obtain rfl := Nat.le_zero.mp hk
    exact ⟨hrunning, h, (List.append_nil _).symm, nofun⟩
  | cons step rest ih =>
    obtain ⟨bytes, hstep⟩ := call_advances hrunning h step (haccepted step List.mem_cons_self)
    obtain ⟨taken, hlength, hrest⟩ := ih (fun d hd => haccepted d (List.mem_cons_of_mem _ hd)) _
      hstep.running hstep.receives
    refine ⟨bytes :: taken, by rw [List.length_cons, hlength, List.length_cons], ?_⟩
    intro k hk
    cases k with
    | zero =>
      refine ⟨hrunning, h, (List.append_nil _).symm, ?_⟩
      intro step' bytes' hstep' hbytes'
      obtain rfl : step = step' := Option.some.inj hstep'
      obtain rfl : bytes = bytes' := Option.some.inj hbytes'
      have hone : along ((step :: rest).take 1) s = call step.call s :=
        along_cons [] hstep.running
      rw [Nat.zero_add, hone]
      exact hstep
    | succ k =>
      obtain ⟨hhalt, hreceives, hconserved, hnext⟩ := hrest k (Nat.le_of_succ_le_succ hk)
      simp only [List.take_succ_cons, along_cons _ hstep.running]
      refine ⟨hhalt, hreceives, ?_, hnext⟩
      rw [List.flatten_cons, List.append_assoc, hconserved, ← List.append_assoc, ← hstep.queue,
        List.append_assoc]
      rfl

/-- The bytes of a serial line that does not fail to receive are one queue, whatever is called
and whatever becomes of the output. Each step takes its bytes where the steps before it have
stopped, so no byte is taken twice or passed over; a single byte is received if and only if one
is reported, as a number from 0 to 255, and then as before nothing but the queue changes. -/
theorem serial_input_is_queue (s : Session) (hrunning : s.halt = none)
    (h : s.state.uart.Receives) (steps : List Step) (haccepted : ∀ step ∈ steps, step.Accepted) :
    ∃ taken : List Bytes, taken.length = steps.length ∧ ∀ k ≤ steps.length,
      (taken.take k).flatten ++ (along (steps.take k) s).state.uart.receiver.queue =
        s.state.uart.receiver.queue ++ arrived (steps.take k) ∧
      (taken.take k).flatten <+: s.state.uart.receiver.queue ++ arrived steps ∧
      Polls (along (steps.take k) s) ∧
      ∀ step bytes, steps[k]? = some step → taken[k]? = some bytes →
        Advances (along (steps.take k) s) (along (steps.take (k + 1)) s) step bytes ∧
        (step = .serial .receive ∨ step = .serial .available →
          (along (steps.take (k + 1)) s).state.slot = (along (steps.take k) s).state.slot ∧
          (along (steps.take (k + 1)) s).state.status = (along (steps.take k) s).state.status) := by
  obtain ⟨taken, hlength, hsteps⟩ := along_advances steps haccepted s hrunning h
  refine ⟨taken, hlength, fun k hk => ?_⟩
  obtain ⟨-, hreceives, hconserved, hadvances⟩ := hsteps k hk
  have hpolls := polls hreceives
  refine ⟨hconserved, ?_, hpolls, ?_⟩
  · have hsplit : arrived steps = arrived (steps.take k) ++ arrived (steps.drop k) := by
      rw [arrived, arrived, arrived, ← List.flatMap_append, List.take_append_drop]
    rw [hsplit, ← List.append_assoc, ← hconserved, List.append_assoc]
    exact List.prefix_append _ _
  · intro step bytes hstep hbytes
    have hadvance := hadvances step bytes hstep hbytes
    exact ⟨hadvance, hadvance.call ▸ hpolls.unchanged⟩

/-- The greatest byte is polled from the front of a line, which an input reads then. -/
theorem serial_input_behind_poll :
    let s : Session := { state := {
      uart := { receiver.queue := [0xFF, 0x61, 0x0A] }, slot := .idle .empty } }
    let steps : List Step := [.serial .receive, .serial .available, .arrive [0x62], .foreign .input]
    (call (.serial .receive) s).journal.map Entry.reply = [.foreign (.int 255)] ∧ Polls s ∧
      ∃ taken : List Bytes, taken.length = 4 ∧ (along steps s).state.uart.receiver.queue = [0x62] ∧
        taken.flatten = [0xFF, 0x61, 0x0A] := by
  intro s steps
  have haccepted : ∀ step ∈ steps, step.Accepted := by
    intro step hstep
    simp only [steps, List.mem_cons, List.not_mem_nil, or_false] at hstep
    rcases hstep with rfl | rfl | rfl | rfl
    · trivial
    · trivial
    · trivial
    · rfl
  obtain ⟨taken, hlength, htaken⟩ :=
    serial_input_is_queue s rfl ⟨⟨rfl, rfl, rfl⟩, rfl, rfl⟩ steps haccepted
  obtain ⟨-, -, hpolls, -⟩ := htaken 0 (by decide)
  obtain ⟨hconserved, -⟩ := htaken 4 (by decide)
  have hleft : (along steps s).state.uart.receiver.queue = [0x62] := by decide +kernel
  refine ⟨rfl, hpolls, taken, hlength, hleft, ?_⟩
  have hwhole : taken.take 4 = taken := List.take_of_length_le (Nat.le_of_eq hlength)
  rw [hwhole] at hconserved
  have hall : taken.flatten ++ [0x62] = [0xFF, 0x61, 0x0A] ++ [0x62] := hleft ▸ hconserved
  exact List.append_cancel_right hall

end Session

end LineConsole.Device
