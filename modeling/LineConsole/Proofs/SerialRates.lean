import LineConsole.Proofs.Lending

/-!
The rates of a serial line. A program asks for one rate, and the two halves are set one behind the
other: a receiver that refuses comes too late, as the transmitter has taken the rate by then. So the
receiver has the rate of the last request that succeeded, and the transmitter the rate of the last
one that it took itself. No other call changes a rate.
-/
namespace LineConsole.Device

open Fallible Console

/-! Calls that set no rate -/

namespace Uart

def rates (u : Uart) : Nat × Nat := (u.receiver.rate, u.transmitter.rate)

def Rated (p : Nat × Nat) (u v : Uart) : Prop := u = v ∧ u.rates = p

theorem readByte_rates (u : Uart) : (readByte u).2.rates = u.rates := by
  rw [readByte]
  split
  · rfl
  · split
    · rfl
    · rcases u.receiver.emptyReads with _ | _ | left <;> rfl

theorem writeAll_rates (bytes : Bytes) (u : Uart) : (writeAll bytes u).2.rates = u.rates := by
  rw [writeAll]
  split
  · rfl
  · split
    · rfl
    · dsimp only
      split
      · rfl
      · rcases u.transmitter.failedWrites with _ | _ | left <;> rfl

theorem flush_rates (u : Uart) : (flush u).2.rates = u.rates := by
  rw [flush]
  split <;> rfl

theorem poll_rates (u : Uart) : (poll u).2.rates = u.rates := by
  rw [poll]
  split
  · rfl
  · rfl
  · exact readByte_rates u

theorem agree_rated {α : Type} {a : Action Uart α} (ha : ∀ u, (a u).2.rates = u.rates)
    (p : Nat × Nat) : Agree (Rated p) a a := by
  intro u v h
  obtain ⟨rfl, rfl⟩ := h
  exact ⟨(a u).1, (a u).2, (a u).2, rfl, rfl, rfl, ha u⟩

theorem alike_rated (p : Nat × Nat) : Channel.Alike (Rated p) where
  readByte := agree_rated readByte_rates p
  writeAll bytes := agree_rated (writeAll_rates bytes) p
  flush := agree_rated flush_rates p

end Uart

namespace Run

def KeepsRates {α : Type} (a : Run α) : Prop := ∀ s : State, (a s).2.uart.rates = s.uart.rates

theorem keepsRates_withConsole {α : Type} {a : Action (Console Uart) α}
    (ha : ∀ p, Agree (Console.Alike (Uart.Rated p)) a a) : KeepsRates (withConsole a) := by
  intro s
  by_cases hslot : s.slot.IsIdle
  · obtain ⟨line, hidle⟩ := hslot
    obtain ⟨r, c, d, hc, -, ⟨-, hrates⟩, -⟩ := ha s.uart.rates ⟨s.uart, line⟩ ⟨s.uart, line⟩
      ⟨⟨rfl, rfl⟩, rfl⟩
    rw [withConsole_idle a hidle, map_apply, use, hc]
    exact hrates
  · rw [withConsole_unavailable a hslot]

theorem keepsRates_withUart {α : Type} {a : Action Uart α}
    (ha : ∀ p, Agree (Uart.Rated p) a a) : KeepsRates (withUart a) :=
  keepsRates_withConsole fun p => onChannel_agree (ha p)

theorem KeepsRates.bind {α β : Type} {a : Run α} {f : α → Run β} (ha : KeepsRates a)
    (hf : ∀ x, KeepsRates (f x)) : KeepsRates (a >>= f) := by
  intro s
  have hfirst := ha s
  rw [bind_apply]
  generalize a s = p at hfirst
  obtain ⟨halt | x, t⟩ := p
  · exact hfirst
  · exact (hf x t).trans hfirst

theorem keepsRates_console : ConsoleClosed KeepsRates where
  pure _ _ := rfl
  bind := KeepsRates.bind
  get _ := rfl
  log _ _ := rfl
  output ha := keepsRates_withUart fun p => ha _ (Uart.alike_rated p).writes
  ready := keepsRates_withUart (Uart.agree_rated fun _ => rfl)
  read ha := keepsRates_withConsole fun p => ha _ (Uart.alike_rated p)
  poll := keepsRates_withUart (Uart.agree_rated Uart.poll_rates)
  status _ _ := rfl
  throw _ _ := rfl

end Run

/-! Requests for a rate -/

inductive Tuning
  /-- The rate is not positive. -/
  | invalid
  /-- There is no console, or it is in use. -/
  | unavailable
  /-- The transmitter has refused the rate. -/
  | refused (rate : Nat)
  /-- The transmitter has taken the rate, and then the receiver has refused it. -/
  | torn (rate : Nat)
  /-- Both halves have taken the rate. -/
  | done (rate : Nat)
  deriving DecidableEq

namespace Tuning

/-- The rates of the receiver and of the transmitter behind the request. -/
def apply : Tuning → Nat × Nat → Nat × Nat
  | .torn rate, p => (p.1, rate)
  | .done rate, _ => (rate, rate)
  | _, p => p

def event (n : Int32) : Tuning → Event
  | .invalid => .rateInvalid n
  | .unavailable => .unavailable "serial_begin"
  | .refused rate | .torn rate => .rateRefused rate
  | .done rate => .rateSet rate

def set? : Tuning → Option Nat
  | .done rate => some rate
  | _ => none

def sent? : Tuning → Option Nat
  | .torn rate | .done rate => some rate
  | _ => none

theorem foldl_apply (made : List Tuning) (p : Nat × Nat) :
    made.foldl (fun p tuning => tuning.apply p) p =
      ((made.filterMap set?).getLastD p.1, (made.filterMap sent?).getLastD p.2) := by
  induction made generalizing p with
  | nil => rfl
  | cons tuning made ih =>
    rw [List.foldl_cons, ih]
    cases tuning <;> simp only [apply, set?, sent?, List.filterMap_cons, List.getLastD_cons]

/-- Requests that are not torn tell the same of both halves. -/
theorem filterMap_sent? {made : List Tuning} (h : ∀ rate, .torn rate ∉ made) :
    made.filterMap sent? = made.filterMap set? := by
  apply List.filterMap_congr
  intro tuning htuning
  cases tuning with
  | torn rate => exact absurd htuning (h rate)
  | _ => rfl

end Tuning

/-- What becomes of a request for `n` in this state. -/
def State.tuning (n : Int32) (s : State) : Tuning :=
  match Foreign.baudRate? n, s.slot with
  | none, _ => .invalid
  | some rate, .idle _ =>
      if !Uart.accepts s.uart.transmitter.limit rate then .refused rate
      else if !Uart.accepts s.uart.receiver.limit rate then .torn rate
      else .done rate
  | some _, _ => .unavailable

def State.tuned (n : Int32) (s : State) : State :=
  { s with
    uart.receiver.rate := ((s.tuning n).apply s.uart.rates).1
    uart.transmitter.rate := ((s.tuning n).apply s.uart.rates).2
    log := s.log ++ [(s.tuning n).event n] }

/-- A device that is free sets the rate, and logs whether that went well. -/
theorem Run.begin_idle {n : Int32} {s : State} {rate : Nat} (hrate : Foreign.baudRate? n = some rate)
    {line : LineBuffer} (hslot : s.slot = .idle line) :
    begin n s = (.ok (), { s with
      uart := (s.uart.setRate rate).2
      log := s.log ++
        [if (s.uart.setRate rate).1 then .rateSet rate else .rateRefused rate] }) := by
  rw [begin, hrate]
  simp only [bind_apply, get_apply, hslot, setRate]
  cases (s.uart.setRate rate).1 <;> rfl

theorem Run.begin_apply (n : Int32) (s : State) : begin n s = (.ok (), s.tuned n) := by
  cases hrate : Foreign.baudRate? n with
  | none =>
    have htuning : s.tuning n = .invalid := by rw [State.tuning, hrate]
    rw [begin, hrate, State.tuned, htuning]
    rfl
  | some rate =>
    cases hslot : s.slot with
    | idle line =>
      rw [begin_idle hrate hslot, State.tuned, State.tuning, hrate, hslot, Uart.setRate]
      by_cases hsent : Uart.accepts s.uart.transmitter.limit rate
      · by_cases hreceived : Uart.accepts s.uart.receiver.limit rate
        · simp [hsent, hreceived, Tuning.apply, Tuning.event]
        · simp [hsent, hreceived, Tuning.apply, Tuning.event, Uart.rates]
      · simp [hsent, Tuning.apply, Tuning.event, Uart.rates]
    | _ =>
      have htuning : s.tuning n = .unavailable := by rw [State.tuning, hrate, hslot]
      rw [begin, hrate, State.tuned, htuning]
      simp only [bind_apply, get_apply, hslot]
      rw [log, modify_apply, hslot]
      rfl

theorem Run.serial_setRate (n : Int32) (s : State) :
    serial (.setRate n) s = (.ok .nothing, s.tuned n) := by
  rw [serial, bind_apply, begin_apply]
  rfl

theorem Run.keepsRates_single {c : Call} (hc : c.IsExport) (hrate : ∀ n, c ≠ .serial (.setRate n)) :
    KeepsRates (single c) := by
  cases c with
  | foreign call => exact (keepsRates_console.foreign call).bind fun _ _ => rfl
  | serial call =>
    exact (keepsRates_console.serial fun n hn => hrate n (congrArg _ hn)).bind fun _ _ => rfl
  | _ => exact absurd hc id

/-! Runs -/

/-- A program calls, or something happens to the line that leaves its rates alone. -/
def Call.IsOrdinary : Call → Prop
  | .foreign _ | .serial _ => True
  | .adjust change => ∀ u, (change u).rates = u.rates
  | _ => False

theorem Call.IsOrdinary.isSingle {c : Call} (h : c.IsOrdinary) : c.IsSingle := by
  intro calls hc
  subst hc
  exact h

def Call.tunings (c : Call) (s : State) : List Tuning :=
  match c with
  | .serial (.setRate n) => [s.tuning n]
  | _ => []

namespace Session

def tunings : List Call → Session → List Tuning
  | [], _ => []
  | c :: rest, s =>
      c.tunings s.state ++ if (call c s).halt.isSome then [] else tunings rest (call c s)

/-- A call applies its request to the rates, and one that makes no request leaves them. -/
theorem call_rates {c : Call} (hc : c.IsOrdinary) (s : Session) :
    (call c s).state.uart.rates =
      (c.tunings s.state).foldl (fun p tuning => tuning.apply p) s.state.uart.rates := by
  rw [hc.isSingle.call, single_state]
  by_cases hrate : ∃ n, c = .serial (.setRate n)
  · obtain ⟨n, rfl⟩ := hrate
    rw [Run.single_serial (Run.serial_setRate n s.state)]
    rfl
  · have hother : ∀ n, c ≠ .serial (.setRate n) := fun n hn => hrate ⟨n, hn⟩
    have htunings : c.tunings s.state = [] := by
      rw [Call.tunings]
      exact hother
    rw [htunings, List.foldl_nil]
    cases c with
    | foreign call => exact Run.keepsRates_single (c := .foreign call) trivial hother s.state
    | serial call => exact Run.keepsRates_single (c := .serial call) trivial hother s.state
    | adjust change => exact hc s.state.uart
    | _ => exact absurd hc id

/-- The requests are applied to the rates in the order in which they are made. -/
theorem callAll_rates {calls : List Call} (hcalls : ∀ c ∈ calls, c.IsOrdinary) (s : Session) :
    (callAll calls s).state.uart.rates =
      (tunings calls s).foldl (fun p tuning => tuning.apply p) s.state.uart.rates := by
  induction calls generalizing s with
  | nil => rfl
  | cons c rest ih =>
    obtain ⟨hc, hrest⟩ := List.forall_mem_cons.mp hcalls
    rw [tunings, List.foldl_append, ← call_rates hc]
    cases hhalt : (call c s).halt with
    | none =>
      rw [callAll_cons rest hhalt, ih hrest]
      simp
    | some halt =>
      rw [callAll_cons_halt rest hhalt]
      simp

/-- Behind any calls of a program the receiver has the rate of the last request that succeeded, and
the transmitter that of the last one that it took, whether the receiver took it or not. So both
halves have one rate as long as no request is torn. -/
theorem rates_follow_requests (s : Session) {calls : List Call}
    (hcalls : ∀ c ∈ calls, c.IsOrdinary) :
    let made := tunings calls s
    let u := (callAll calls s).state.uart
    u.receiver.rate = (made.filterMap Tuning.set?).getLastD s.state.uart.receiver.rate ∧
      u.transmitter.rate = (made.filterMap Tuning.sent?).getLastD s.state.uart.transmitter.rate ∧
      (s.state.uart.transmitter.rate = s.state.uart.receiver.rate → (∀ rate, .torn rate ∉ made) →
        u.transmitter.rate = u.receiver.rate) ∧
      ∀ n, call (.serial (.setRate n)) s =
        record (.serial (.setRate n)) (.foreign .nothing) { s with state := s.state.tuned n } := by
  intro made u
  have hrates := callAll_rates hcalls s
  rw [Tuning.foldl_apply] at hrates
  have hreceiver := congrArg Prod.fst hrates
  have htransmitter := congrArg Prod.snd hrates
  refine ⟨hreceiver, htransmitter, ?_, ?_⟩
  · intro hequal hwhole
    calc u.transmitter.rate
        = (made.filterMap Tuning.sent?).getLastD s.state.uart.transmitter.rate := htransmitter
      _ = (made.filterMap Tuning.set?).getLastD s.state.uart.receiver.rate := by
          rw [Tuning.filterMap_sent? hwhole, hequal]
      _ = u.receiver.rate := hreceiver.symm
  · intro n
    have hsingle : (Call.serial (.setRate n)).IsSingle := fun _ => nofun
    exact call_single hsingle (Run.single_serial (Run.serial_setRate n s.state))

/-- A torn request is followed by one that the receiver takes again, with output in between. -/
theorem rates_behind_torn_request :
    let s : Session := { state := {
      uart := { receiver := { rate := 9600, limit := some 100000 }, transmitter.rate := 9600 }
      slot := .idle .empty } }
    let torn : List Call := [.serial (.setRate 115200), .foreign (.printInt 7)]
    let mended : List Call := torn ++
      [.adjust fun u => { u with receiver.limit := none }, .serial (.setRate 57600),
        .serial (.setRate 0)]
    (callAll torn s).state.uart.rates = (9600, 115200) ∧
      (callAll mended s).state.uart.rates = (57600, 57600) := by
  intro s torn mended
  have hmended : ∀ c ∈ mended, c.IsOrdinary := by
    simp [mended, torn, Call.IsOrdinary, Uart.rates]
  have htorn : ∀ c ∈ torn, c.IsOrdinary := fun c hc => hmended c (List.mem_append_left _ hc)
  have hmade : tunings torn s = [.torn 115200] := by decide +kernel
  have hmade' : tunings mended s = [.torn 115200, .done 57600, .invalid] := by decide +kernel
  obtain ⟨hreceiver, htransmitter, -, -⟩ := rates_follow_requests s htorn
  obtain ⟨hreceiver', htransmitter', -, -⟩ := rates_follow_requests s hmended
  rw [hmade] at hreceiver htransmitter
  rw [hmade'] at hreceiver' htransmitter'
  rw [Uart.rates, Uart.rates, hreceiver, htransmitter, hreceiver', htransmitter']
  exact ⟨rfl, rfl⟩

/-- A receiver that refuses a rate is left behind by its transmitter, and the call only reports that
it has failed. -/
theorem refused_rate_parts_halves :
    let s : Session := { state := {
      uart := { receiver := { rate := 9600, limit := some 100000 }, transmitter.rate := 9600 }
      slot := .idle .empty } }
    let t := call (.serial (.setRate 115200)) s
    s.state.uart.receiver.rate = s.state.uart.transmitter.rate ∧
      t.state.log = [.rateRefused 115200] ∧
      t.state.uart.receiver.rate = 9600 ∧ t.state.uart.transmitter.rate = 115200 := by
  decide +kernel

end Session

end LineConsole.Device
