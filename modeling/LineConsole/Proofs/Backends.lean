import LineConsole.Proofs.HostReading
import LineConsole.Proofs.Refusal

/-!
The two backends. A program in C cannot tell a host process with default settings, whose streams
do not fail, from a device whose serial line does not: from the same input it gets the same
replies, its output is the same, and the same call ends it.
-/
namespace LineConsole

open Fallible Console Foreign Pieces

namespace Foreign

theorem Values.length_visited {vs : Values} {raws : List Raw} (h : vs.visited = .ok raws) :
    raws.length ≤ vs.length := by
  unfold visited at h
  split at h
  · cases h
    exact Nat.zero_le _
  · split at h
    · cases h
    · cases h
      exact List.length_take_le _ _

theorem Values.convertWithin_eq {capacity : Nat} {raws : List Raw}
    (h : raws.length ≤ capacity) : convertWithin capacity raws = convert raws := by
  induction raws generalizing capacity with
  | nil => cases capacity <;> rfl
  | cons raw rest ih =>
    obtain ⟨capacity, rfl⟩ := Nat.exists_eq_add_of_le' (Nat.lt_of_lt_of_le (Nat.succ_pos _) h)
    have hrest := ih (Nat.le_of_succ_le_succ h)
    simp only [convertWithin, convert, hrest]

/-- Values that fit are collected one and all. -/
theorem Values.collect_eq {capacity : Nat} {vs : Values} (h : vs.length ≤ capacity) :
    vs.collect capacity = vs.visited.bind convert := by
  unfold collect
  cases hvisited : vs.visited with
  | error e => rfl
  | ok raws => exact convertWithin_eq (Nat.le_trans (length_visited hvisited) h)

/-- How many values the call prints as an array. -/
def Call.arrayLength : Call → Nat
  | .printValues vs => vs.length
  | _ => 0

def Call.isInput : Call → Bool
  | .input | .inputPrompt _ => true
  | _ => false

def Call.consults : Call → Bool
  | .input | .inputPrompt _ | .inputStatus => true
  | _ => false

theorem Call.isInput_eq_false {call : Call} (h : call.consults = false) :
    call.isInput = false := by
  cases call with
  | input => cases h
  | inputPrompt prompt => cases h
  | _ => rfl

def inputs (calls : List Call) : Nat := calls.countP Call.isInput

/-- The input status behind these calls. The last input among them has set it: there was a piece
left for it, or the input had ended. Before the first input it is that of a success. -/
def statusBehind (bytes : Bytes) (calls : List Call) : InputStatus :=
  if inputs calls ≤ (cut bytes).length then .ok else .endOfStream

/-- The line for an input behind these calls, as far as a caller in C can see it. -/
def lineBehind (bytes : Bytes) (calls : List Call) : Bytes :=
  ((cut bytes)[inputs calls]?.map fun p => upToZero (content p)).getD []

structure Told (bytes : Bytes) (before : List Call) (call : Call) (reply : Reply) : Prop where
  status : call = .inputStatus → reply = .int (statusBehind bytes before).code
  line : call.isInput → reply = .string (lineBehind bytes before)

end Foreign

namespace Backends

open Host (Streams Stdout)
open Device (Uart)

/-- Streams and a serial line that do not fail, with the same input to come and the same output
behind them. -/
structure Mirrors (s : Streams Stdout) (u : Uart) : Prop where
  sound : s.input.Sound
  working : s.output.full = false
  steady : u.Steady
  input : s.input.remaining = u.receiver.queue
  output : s.output.written = u.transmitter.sent

/-- They stay so, whatever is done to both, and nobody can tell them apart by what they give. -/
theorem alike_mirrors : Channel.Alike Mirrors where
  readByte := by
    intro s u h
    have hreads := s.input.read_reads
    have hread := Streams.readByte_apply s
    generalize s.input.read = p at hread hreads
    obtain ⟨r, next⟩ := p
    have hinput := h.input
    cases hreads with
    | byte b next hreadable hremaining hsound =>
      rw [hremaining] at hinput
      refine ⟨_, _, _, hread, h.steady.supplies.readByte_byte hinput.symm, ?_⟩
      exact ⟨hsound.mp h.sound, h.working, h.steady.of_traffic _ _ _, rfl, h.output⟩
    | ended hreadable hremaining =>
      rw [hremaining] at hinput
      refine ⟨_, _, _, hread, h.steady.supplies.readByte_end hinput.symm, ?_⟩
      exact ⟨Script.sound_nil, h.working, h.steady, hinput, h.output⟩
    | failed reason next hreadable hunsound => exact absurd h.sound hunsound
  writeAll bytes := by
    intro s u h
    refine ⟨_, _, _, Streams.outlet.writeAll bytes s h.working,
      Uart.outlet.writeAll bytes u h.steady, ?_⟩
    exact ⟨h.sound, h.working, Uart.outlet.open_put bytes u h.steady, h.input,
      congrArg (· ++ bytes) h.output⟩
  flush := by
    intro s u h
    refine ⟨_, _, _, Streams.outlet.flush s h.working, Uart.outlet.flush u h.steady, ?_⟩
    exact ⟨h.sound, h.working, h.steady.of_traffic _ _ _, h.input, h.output⟩

variable {bytes : Bytes} {done : List Call} {v : Host.View Stdout} {d : Device.State}

/-- A process and a device that have come equally far with an input by the same calls. -/
structure InStep (bytes : Bytes) (done : List Call) (v : Host.View Stdout) (d : Device.State) :
    Prop where
  streams : Mirrors v.state.streams d.uart
  slot : d.slot = .idle v.thread.line
  status : d.status = v.thread.status
  configured : v.state.configured = {}
  input : cut v.state.streams.input.remaining = (cut bytes).drop (inputs done)
  outcome : v.thread.status = statusBehind bytes done

def Return (bytes : Bytes) (done : List Call) (call : Call) (v : Host.View Stdout) (d : Device.State) :
    Prop :=
  ∃ reply w e, Host.Run.foreign call v = (.ok reply, w) ∧
    Device.Run.foreign call d = (.ok reply, e) ∧ InStep bytes (done ++ [call]) w e ∧
    Told bytes done call reply

theorem inputs_of_output {call : Call} (h : call.isInput = false) :
    inputs (done ++ [call]) = inputs done := by
  simp [inputs, h]

theorem inputs_of_input {call : Call} (h : call.isInput) :
    inputs (done ++ [call]) = inputs done + 1 := by
  simp [inputs, h]

/-- Calls that ask for no line do not get on with the input. -/
theorem InStep.of_output (h : InStep bytes done v d) {call : Call} (hcall : call.isInput = false)
    {s : Streams Stdout} {u : Uart} (hmirrors : Mirrors s u)
    (hinput : s.input = v.state.streams.input) (log : List Device.Event) :
    InStep bytes (done ++ [call]) { v with state.streams := s } { d with uart := u, log } where
  streams := hmirrors
  slot := h.slot
  status := h.status
  configured := h.configured
  input := by rw [inputs_of_output hcall, ← h.input, hinput]
  outcome := by rw [statusBehind, inputs_of_output hcall, h.outcome, statusBehind]

/-- The log of the streams decides nothing. -/
theorem Mirrors.of_log {s : Streams Stdout} {u : Uart} (h : Mirrors s u)
    (log : List Host.Event) : Mirrors { s with log } u :=
  ⟨h.sound, h.working, h.steady, h.input, h.output⟩

theorem Mirrors.put {s : Streams Stdout} {u : Uart} (h : Mirrors s u) (text : Bytes) :
    Mirrors (Streams.outlet.settle (Streams.outlet.put text s))
      (Uart.outlet.settle (Uart.outlet.put text u)) :=
  ⟨h.sound, h.working, h.steady.of_traffic _ _ _, h.input, congrArg (· ++ text) h.output⟩

theorem told_nothing {call : Call} (hcall : call.consults = false) (reply : Reply) :
    Told bytes done call reply where
  status heq := by
    rw [heq] at hcall
    cases hcall
  line hinput := by
    rw [Call.isInput_eq_false hcall] at hinput
    cases hinput

/-- Output that writes the same everywhere. -/
theorem return_write (h : InStep bytes done v d) {call : Call} (hcall : call.consults = false)
    {a : {σ : Type} → [Channel σ] → Action σ Unit}
    {text : Bytes} (ha : ∀ {σ : Type} [Channel σ] (o : Outlet σ) {s : σ}, o.Open s →
      a s = (.ok (), o.settle (o.put text s)))
    (hhost : Host.Run.foreign call v = Host.Run.write call.symbol a v)
    (hdevice : Device.Run.foreign call = Device.Run.write call.symbol a) :
    Return bytes done call v d := by
  have hs := ha Streams.outlet h.streams.working
  have hu := ha Uart.outlet h.streams.steady
  have hwrite := Device.Run.write_idle call.symbol (a := a) h.slot
    (by rw [hu]; exact h.streams.steady.running)
  refine ⟨.nothing, _, _, hhost.trans (Host.Run.write_apply _ a v),
    (congrFun hdevice d).trans hwrite, ?_, ?_⟩
  · rw [hs, hu]
    exact h.of_output (Call.isInput_eq_false hcall) ((h.streams.put text).of_log _) rfl _
  · exact told_nothing hcall _

/-- What is refused without output is logged. -/
theorem return_skip (h : InStep bytes done v d) {call : Call} (hcall : call.consults = false)
    {e : Host.Event} {e' : Device.Event}
    (hhost : Host.Run.foreign call v = Host.Run.skip e v)
    (hdevice : Device.Run.foreign call = Device.Run.skip e') :
    Return bytes done call v d := by
  refine ⟨.nothing, _, _, hhost, congrFun hdevice d, ?_, told_nothing hcall _⟩
  exact h.of_output (Call.isInput_eq_false hcall)
    (h.streams.of_log (v.state.streams.log ++ [e])) rfl _

/-- A line is the next one on both, or there is none on either. -/
theorem follows_of_lineRead {before : Script} {r : Except Fault Bytes}
    {c : Console (Streams Stdout)} (h : Host.LineRead before r c) (hsound : before.Sound)
    {call : Call} (hcall : call.isInput)
    (hleft : cut before.remaining = (cut bytes).drop (inputs done)) :
    cut c.channel.input.remaining = (cut bytes).drop (inputs (done ++ [call])) ∧
      InputStatus.ofResult r = statusBehind bytes (done ++ [call]) ∧
      c.line.pointee = lineBehind bytes done := by
  rw [statusBehind, lineBehind, inputs_of_input hcall]
  cases h with
  | line p t first taken =>
    have hbehind : cut t.input.remaining = (cut before.remaining).drop 1 := by
      rw [taken] at first ⊢
      exact cut_behind_first first
    rw [hleft, List.getElem?_drop, Nat.add_zero] at first
    obtain ⟨hlength, -⟩ := List.getElem?_eq_some_iff.mp first
    refine ⟨?_, ?_, ?_⟩
    · rw [hbehind, hleft, List.drop_drop]
    · rw [if_pos (Nat.succ_le_of_lt hlength)]
      rfl
    · rw [first, LineBuffer.pointee_ofBytes]
      rfl
  | ended t remaining left =>
    rw [remaining] at hleft
    have hlength := List.drop_eq_nil_iff.mp hleft.symm
    refine ⟨?_, ?_, ?_⟩
    · rw [left, List.drop_eq_nil_of_le (Nat.le_succ_of_le hlength)]
      rfl
    · rw [if_neg (Nat.not_le_of_lt (Nat.lt_succ_of_le hlength))]
      rfl
    · rw [List.getElem?_eq_none hlength]
      rfl
  | failed t unsound => exact absurd hsound unsound

/-- Input, with or without a prompt. -/
theorem return_read (h : InStep bytes done v d) {call : Call} {question : Option Bytes}
    (hcall : call.ReadsLine question) : Return bytes done call v d := by
  have hinput : call.isInput := by cases hcall <;> rfl
  have hstatus : call ≠ .inputStatus := by cases hcall <;> rintro ⟨⟩
  obtain ⟨r, ⟨s, line⟩, ⟨u, line'⟩, hs, hu, hmirrors, hline⟩ := readBehind_agree alike_mirrors
    question ⟨v.state.streams, v.thread.line⟩ ⟨d.uart, v.thread.line⟩ ⟨h.streams, rfl⟩
  obtain rfl : line = line' := hline
  have hrunning : u.stopped = false := hmirrors.steady.running
  have hhost := Host.Run.readInto_apply hs
  have hdevice := Device.Run.readInto_idle h.slot hu
  rw [← Host.Run.foreign_readsLine hcall] at hhost
  rw [← Device.Run.foreign_readsLine hcall] at hdevice
  simp only [hrunning, Bool.false_eq_true, if_false] at hdevice
  have hread := Host.readBehind_lineRead Stdout.contents question
    ⟨v.state.streams, v.thread.line⟩ h.streams.working
  rw [hs] at hread
  -- Which line it is follows from the input of the host alone.
  obtain ⟨hleft, houtcome, hpointee⟩ := follows_of_lineRead hread h.streams.sound hinput h.input
  refine ⟨_, _, _, hhost, hdevice, ?_, ?_⟩
  · exact ⟨hmirrors.of_log _, rfl, rfl, h.configured, hleft, houtcome⟩
  · exact ⟨fun heq => absurd heq hstatus, fun _ => congrArg _ hpointee⟩

/-- Values that the device has room for are collected on both, or refused on both. -/
theorem return_printValues (h : InStep bytes done v d) {vs : Values}
    (hfits : vs.length ≤ Device.maxValues) : Return bytes done (.printValues vs) v d := by
  have hcollect := Values.collect_eq hfits
  cases hvisited : vs.visited with
  | error e =>
    rw [hvisited] at hcollect
    apply return_skip h rfl
    · simp only [Host.Run.foreign, hvisited]
      rfl
    · simp only [Device.Run.foreign, hcollect]
      rfl
  | ok raws =>
    rw [hvisited] at hcollect
    cases hconvert : Values.convert raws with
    | error e =>
      apply return_skip h rfl
      · simp only [Host.Run.foreign, hvisited, hconvert]
        rfl
      · simp only [Device.Run.foreign, hcollect, Except.bind, hconvert]
        rfl
    | ok values =>
      apply return_write h rfl (fun o _ hs => o.printValues hs values)
      · simp only [Host.Run.foreign, hvisited, hconvert]
      · simp only [Device.Run.foreign, hcollect, Except.bind, hconvert]

/-- A call that refuses no literal is answered alike. -/
theorem return_foreign (h : InStep bytes done v d) (call : Call)
    (hfits : call.arrayLength ≤ Device.maxValues) (haccepted : call.refusal = none) :
    Return bytes done call v d := by
  cases call with
  | newline => exact return_write h rfl (fun o _ hs => o.newline hs) rfl rfl
  | printInt n => exact return_write h rfl (fun o _ hs => o.print hs (.int n)) rfl rfl
  | printFloat x => exact return_write h rfl (fun o _ hs => o.print hs (.float x)) rfl rfl
  | printString p =>
    cases p with
    | none => exact return_skip h rfl rfl rfl
    | some s =>
      exact return_write h rfl (fun o _ hs => o.printBytes hs (upToZero s)) rfl rfl
  | printValues vs => exact return_printValues h hfits
  | input => exact return_read h .input
  | inputPrompt prompt => exact return_read h (.inputPrompt prompt)
  | inputStatus =>
    refine ⟨.int v.thread.status.code, v, d, rfl, ?_, ?_, fun _ => ?_, ?_⟩
    · rw [← h.status]
      rfl
    · exact h.of_output rfl h.streams rfl d.log
    · rw [h.outcome]
    · rintro ⟨⟩
  | parseInt literal =>
    obtain ⟨n, hn⟩ := Literal.refusal_eq_none_iff.mp haccepted
    refine ⟨.int n, v, d, ?_, ?_, h.of_output rfl h.streams rfl d.log,
      told_nothing rfl _⟩
    · rw [Host.Run.foreign, Host.Run.parseInt_ok hn]
      rfl
    · rw [Device.Run.foreign, Device.Run.parseInt, hn]
      rfl
  | floor x =>
    have hmirrors := h.streams
    cases hfloor : x.floor with
    | ok n =>
      refine ⟨.int x.floorSaturating, v, d, ?_, ?_, h.of_output rfl hmirrors rfl d.log,
        told_nothing rfl _⟩
      · simp only [Host.Run.foreign, hfloor]
        rfl
      · simp only [Device.Run.foreign, hfloor]
        rfl
    | error e =>
      refine ⟨.int x.floorSaturating, _, _, ?_, ?_, h.of_output rfl
        (hmirrors.of_log (v.state.streams.log ++ [.floorSaturated x e])) rfl
        (d.log ++ [.floorSaturated x e]), told_nothing rfl _⟩
      · simp only [Host.Run.foreign, hfloor]
        rfl
      · simp only [Device.Run.foreign, hfloor]
        rfl

/-- A refused literal ends both, behind the same diagnostic. -/
theorem end_foreign (h : InStep bytes done v d) {call : Call} {e : LiteralError}
    (he : call.refusal = some e) :
    ∃ q f, Host.Run.foreign call v = (.error .failure, { v with state := q }) ∧
      Device.Run.foreign call d = (.error .invalidLiteral, f) ∧
      q.streams.output.written = v.state.streams.output.written ++ lineOf e.message ∧
      f.uart.transmitter.sent = d.uart.transmitter.sent ++ lineOf e.message := by
  cases call with
  | parseInt literal =>
    have hparse := Literal.refusal_eq_some_iff.mp he
    obtain ⟨q, hexit, hrefused⟩ := Host.Run.exitInvalid_apply (α := Int32) e v
    have hstdout := hrefused.stdout Stdout.contents h.streams.working
    rw [h.configured] at hexit hstdout
    have hrender := Uart.outlet.render_ofPieces h.streams.steady e.pieces
    have hrunning : (render (.ofPieces e.pieces) d.uart).2.stopped = false := by
      rw [hrender]
      exact h.streams.steady.running
    have hshow := Device.Run.withUart_idle _ h.slot hrunning
    rw [hrender] at hshow
    refine ⟨q, { d with
      uart := Uart.outlet.settle (Uart.outlet.put (lineOf e.message) d.uart)
      log := d.log ++ [.literalRefused e] }, ?_, ?_, hstdout, rfl⟩
    · rw [Host.Run.foreign, Host.Run.parseInt_error hparse, bind_apply, hexit]
    · rw [Device.Run.foreign, Device.Run.parseInt, hparse]
      simp only [bind_apply, hshow]
      rfl
  | _ => cases he

/-- Both sessions have got on by the same calls, with the same replies. -/
structure Advance (bytes : Bytes) (done calls : List Call) (replies : List Reply)
    (s s' : Host.Session Stdout) (t t' : Device.Session) : Prop where
  exit : s'.exit = none
  halt : t'.halt = none
  inStep : InStep bytes (done ++ calls) s'.view t'.state
  length : replies.length = calls.length
  host : s'.journal.map Host.Finished.reply = s.journal.map Host.Finished.reply ++ replies.map .foreign
  device : t'.journal.map Device.Entry.reply =
    t.journal.map Device.Entry.reply ++ replies.map .foreign
  told : ∀ i call reply, calls[i]? = some call → replies[i]? = some reply →
    Told bytes (done ++ calls.take i) call reply

/-- Calls that refuse no literal are all answered alike. -/
theorem callAll_advance {calls : List Call}
    (hfits : ∀ c ∈ calls, c.arrayLength ≤ Device.maxValues)
    (haccepted : ∀ c ∈ calls, c.refusal = none) {s : Host.Session Stdout} {t : Device.Session}
    (h : InStep bytes done s.view t.state) (hexit : s.exit = none) (hhalt : t.halt = none) :
    ∃ replies, Advance bytes done calls replies
      s (Host.Session.callAll (calls.map .foreign) s)
      t (Device.Session.callAll (calls.map .foreign) t) := by
  induction calls generalizing done s t with
  | nil =>
    refine ⟨[], hexit, hhalt, ?_, rfl, ?_, ?_, nofun⟩
    · rwa [List.append_nil]
    · exact (List.append_nil _).symm
    · exact (List.append_nil _).symm
  | cons call rest ih =>
    obtain ⟨reply, v, d, hhost, hdevice, hstep, htold⟩ := return_foreign h call
      (hfits call List.mem_cons_self) (haccepted call List.mem_cons_self)
    rw [List.map_cons, List.map_cons, Host.Session.callAll_foreign _ hexit hhost,
      Device.Session.callAll_foreign _ hhalt hdevice]
    obtain ⟨replies, hrest⟩ := ih (fun c hc => hfits c (List.mem_cons_of_mem _ hc))
      (fun c hc => haccepted c (List.mem_cons_of_mem _ hc))
      (s := Host.Session.record (.foreign call) (.foreign reply) { s with view := v })
      (t := Device.Session.record (.foreign call) (.foreign reply) { t with state := d })
      hstep hexit hhalt
    refine ⟨reply :: replies, hrest.exit, hrest.halt, ?_, ?_, ?_, ?_, ?_⟩
    · rw [List.append_cons]
      exact hrest.inStep
    · rw [List.length_cons, List.length_cons, hrest.length]
    · rw [hrest.host]
      simp [Host.Session.record]
    · rw [hrest.device]
      simp [Device.Session.record]
    · intro i call' reply' hcall hreply
      cases i with
      | zero =>
        obtain rfl : call = call' := Option.some.inj hcall
        obtain rfl : reply = reply' := Option.some.inj hreply
        rwa [List.take_zero, List.append_nil]
      | succ i =>
        rw [List.take_succ_cons, List.append_cons]
        exact hrest.told i call' reply' hcall hreply

/-- The sessions of a program in C on both backends, on streams that do not fail. Every call up
to the first refused literal returns the same to it on both and leaves the same output; at the
refused literal both end, and both show its diagnostic behind the output so far. -/
theorem backends_agree (input : Script) (hsound : input.Sound) (environment : Host.Environment)
    (hdefault : (Host.Settings.load environment).1 = {}) (uart : Uart) (hsteady : uart.Steady)
    (hqueue : uart.receiver.queue = input.remaining) (hsent : uart.transmitter.sent = [])
    (calls : List Call) (hfits : ∀ c ∈ calls, c.arrayLength ≤ 16) (k : Nat)
    (haccepted : ∀ c ∈ calls.take k, c.refusal = none) :
    let s : Host.Session Stdout :=
      { view := { state := { streams := { input, output := {} }, environment } } }
    let t : Device.Session := { state := { uart, slot := .idle .empty } }
    let host := Host.Session.callAll ((calls.take k).map .foreign) s
    let device := Device.Session.callAll ((calls.take k).map .foreign) t
    host.exit = none ∧ device.halt = none ∧
    host.view.state.streams.output.written = device.state.uart.transmitter.sent ∧
    (∃ replies : List Reply, replies.length = (calls.take k).length ∧
      host.journal.map Host.Finished.reply = replies.map .foreign ∧
      device.journal.map Device.Entry.reply = replies.map .foreign ∧
      ∀ i call reply, (calls.take k)[i]? = some call → replies[i]? = some reply →
        Told input.remaining (calls.take i) call reply) ∧
    ∀ call e, calls[k]? = some call → call.refusal = some e →
      let host' := Host.Session.callAll (calls.map .foreign) s
      let device' := Device.Session.callAll (calls.map .foreign) t
      host'.exit = some .failure ∧ device'.halt = some .invalidLiteral ∧
      host'.journal = host.journal ∧ device'.journal = device.journal ∧
      host'.view.state.streams.output.written =
        host.view.state.streams.output.written ++ lineOf e.message ∧
      device'.state.uart.transmitter.sent =
        device.state.uart.transmitter.sent ++ lineOf e.message := by
  intro s t host device
  have hstart : InStep input.remaining [] s.view t.state :=
    ⟨⟨hsound, rfl, hsteady, hqueue.symm, hsent.symm⟩, rfl, rfl, hdefault, rfl, rfl⟩
  obtain ⟨replies, hadvance⟩ := callAll_advance (fun c hc => hfits c (List.mem_of_mem_take hc))
    haccepted hstart rfl rfl
  refine ⟨hadvance.exit, hadvance.halt, hadvance.inStep.streams.output, ?_, ?_⟩
  · refine ⟨replies, hadvance.length, hadvance.host, hadvance.device, ?_⟩
    intro i call reply hcall hreply
    have htold := hadvance.told i call reply hcall hreply
    obtain ⟨hlength, -⟩ := List.getElem?_eq_some_iff.mp hcall
    rw [List.length_take] at hlength
    rwa [List.nil_append, List.take_take, Nat.min_eq_left (by omega)] at htold
  · intro call e hcall he host' device'
    obtain ⟨q, f, hhost, hdevice, hwritten, hsent'⟩ := end_foreign hadvance.inStep he
    obtain ⟨hlength, hget⟩ := List.getElem?_eq_some_iff.mp hcall
    -- What stands behind the refused literal is not called on either side.
    have hsplit : calls = calls.take k ++ call :: calls.drop (k + 1) := by
      rw [← hget, List.getElem_cons_drop, List.take_append_drop]
    have hhost' : host' =
        { host with view := { host.view with state := q }, exit := some .failure } := by
      show Host.Session.callAll (calls.map .foreign) s = _
      rw [hsplit, List.map_append, Host.Session.callAll_append _ hadvance.exit, List.map_cons,
        Host.Session.callAll_foreign_exit _ hhost]
    have hdevice' : device' = { device with state := f, halt := some .invalidLiteral } := by
      show Device.Session.callAll (calls.map .foreign) t = _
      rw [hsplit, List.map_append, Device.Session.callAll_append _ hadvance.halt, List.map_cons,
        Device.Session.callAll_foreign_halt _ hdevice]
    rw [hhost', hdevice']
    exact ⟨rfl, rfl, rfl, rfl, hwritten, hsent'⟩

/-- A line, the end of the input and a refused literal. -/
theorem backends_agree_on_refusal :
    let calls : List Call := [.printString (some [0x68, 0x69]), .input, .input, .inputStatus,
      .parseInt (some [0x31, 0x78]), .newline]
    let host : Host.Session Stdout := Host.Session.callAll (calls.map .foreign) { view := { state := {
      streams := { input := ⟨[.data [0x61, 0x0A]], .endOfStream⟩, output := {} }
      environment := fun _ => none } } }
    let device := Device.Session.callAll (calls.map .foreign)
      { state := { uart := { receiver.queue := [0x61, 0x0A] }, slot := .idle .empty } }
    host.exit = some .failure ∧ device.halt = some .invalidLiteral ∧
      host.journal.length = 4 ∧ device.journal.length = 4 ∧
      host.view.state.streams.output.written = device.state.uart.transmitter.sent := by
  intro calls host device
  obtain ⟨-, -, houtput, ⟨replies, hlength, hhost, hdevice, -⟩, hend⟩ := backends_agree
    ⟨[.data [0x61, 0x0A]], .endOfStream⟩ ⟨rfl, by simp⟩ (fun _ => none) rfl
    { receiver.queue := [0x61, 0x0A] } ⟨rfl, rfl, rfl, rfl, rfl⟩ rfl rfl calls (by decide) 4
    (by decide)
  obtain ⟨hexit, hhalt, hjournal, hjournal', hwritten, hsent⟩ :=
    hend (.parseInt (some [0x31, 0x78])) ⟨.invalidDigit, [0x31, 0x78]⟩ rfl rfl
  have hcount := congrArg List.length hhost
  have hcount' := congrArg List.length hdevice
  rw [List.length_map, List.length_map, hlength] at hcount hcount'
  refine ⟨hexit, hhalt, ?_, ?_, ?_⟩
  · exact (congrArg List.length hjournal).trans hcount
  · exact (congrArg List.length hjournal').trans hcount'
  · exact hwritten.trans ((congrArg (· ++ _) houtput).trans hsent.symm)

end Backends

end LineConsole
