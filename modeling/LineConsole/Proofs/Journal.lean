import LineConsole.Proofs.Histories

/-!
Sinks that may fail at any request, with a journal of what they were asked for. The journal says
of each request what was stored for it and which fault it had, and keeping it changes nothing. An
action that makes its requests in turn goes on only behind those that went well, so its journal
is a start of them, and the first fault is its result.
-/
namespace LineConsole

open Fallible

/-- What a sink has stored. A write adds its bytes, or a start of them if it fails, and a flush
adds nothing. -/
structure Storage (ω : Type) [Sink ω] where
  stored : ω → Bytes
  write_ok : ∀ bytes s t, Sink.writeAll bytes s = (.ok (), t) → stored t = stored s ++ bytes
  write_error : ∀ bytes s e t, Sink.writeAll bytes s = (.error e, t) →
    ∃ part, part <+: bytes ∧ stored t = stored s ++ part
  flush : ∀ s, stored (Sink.flush s).2 = stored s

inductive Request
  | write (bytes : Bytes)
  | flush
  deriving DecidableEq

namespace Request

def bytes : Request → Bytes
  | .write bytes => bytes
  | .flush => []

def finishing (writes : List Bytes) : List Request := writes.map .write ++ [.flush]

end Request

structure Attempt where
  request : Request
  stored : Bytes
  fault : Option Fault
  deriving DecidableEq

structure Attempt.Proper (x : Attempt) : Prop where
  start : x.stored <+: x.request.bytes
  whole : x.fault = none → x.stored = x.request.bytes

def resultOf : Option Fault → Except Fault Unit
  | none => .ok ()
  | some e => .error e

def errorOf : Except Fault Unit → Option Fault
  | .ok _ => none
  | .error e => some e

theorem resultOf_errorOf (r : Except Fault Unit) : resultOf (errorOf r) = r := by
  cases r <;> rfl

structure Recorded {ω : Type} [Sink ω] (storage : Storage ω) where
  sink : ω
  journal : List Attempt := []

namespace Recorded

variable {ω : Type} [Sink ω] {storage : Storage ω}

def enter (request : Request) (act : Action ω Unit) : Action (Recorded storage) Unit := fun s =>
  let (r, sink) := act s.sink
  let stored := (storage.stored sink).drop (storage.stored s.sink).length
  (r, ⟨sink, s.journal ++ [⟨request, stored, errorOf r⟩]⟩)

instance : Sink (Recorded storage) where
  writeAll bytes := enter (.write bytes) (Sink.writeAll bytes)
  flush := enter .flush Sink.flush

end Recorded

/-! What is entered into a journal -/

section Entries

variable {ρ ω : Type} [Sink ω] {storage : Storage ω}

structure Enters (s t : Duplex ρ (Recorded storage)) (calls : List Attempt) : Prop where
  source : t.source = s.source
  journal : t.sink.journal = s.sink.journal ++ calls
  stored : storage.stored t.sink.sink =
    storage.stored s.sink.sink ++ calls.flatMap Attempt.stored
  proper : ∀ x ∈ calls, x.Proper

theorem Enters.refl (s : Duplex ρ (Recorded storage)) : Enters s s [] where
  source := rfl
  journal := (List.append_nil _).symm
  stored := (List.append_nil _).symm
  proper := by simp

theorem Enters.trans {s t u : Duplex ρ (Recorded storage)} {calls more : List Attempt}
    (h : Enters s t calls) (h' : Enters t u more) : Enters s u (calls ++ more) where
  source := h'.source.trans h.source
  journal := by rw [h'.journal, h.journal, List.append_assoc]
  stored := by rw [h'.stored, h.stored, List.flatMap_append, List.append_assoc]
  proper x hx := (List.mem_append.mp hx).elim (h.proper x) (h'.proper x)

/-- A request whose outcome is known. -/
theorem enter_enters {request : Request} {act : Action ω Unit} {r : Except Fault Unit} {sink : ω}
    {stored : Bytes} (s : Duplex ρ (Recorded storage)) (hact : act s.sink.sink = (r, sink))
    (hstored : storage.stored sink = storage.stored s.sink.sink ++ stored)
    (hproper : Attempt.Proper ⟨request, stored, errorOf r⟩) :
    ∃ x t, Duplex.onSink (Recorded.enter request act) s = (resultOf x.fault, t) ∧
      x.request = request ∧ Enters s t [x] := by
  have hnew : (storage.stored sink).drop (storage.stored s.sink.sink).length = stored := by
    rw [hstored, List.drop_left]
  refine ⟨⟨request, stored, errorOf r⟩,
    ⟨s.source, ⟨sink, s.sink.journal ++ [⟨request, stored, errorOf r⟩]⟩⟩, ?_, rfl, ?_⟩
  · rw [resultOf_errorOf]
    simp only [Duplex.onSink, on, Recorded.enter, hact, hnew]
  · exact {
      source := rfl
      journal := rfl
      stored := by simpa using hstored
      proper := by simpa using hproper }

variable [Source ρ]

theorem writeAll_enters (bytes : Bytes) (s : Duplex ρ (Recorded storage)) :
    ∃ x t, Channel.writeAll bytes s = (resultOf x.fault, t) ∧ x.request = .write bytes ∧
      Enters s t [x] := by
  cases hwrite : Sink.writeAll bytes s.sink.sink with
  | mk r sink =>
    cases r with
    | ok _ =>
      have hstored := storage.write_ok bytes _ _ hwrite
      exact enter_enters s hwrite hstored ⟨List.prefix_refl bytes, fun _ => rfl⟩
    | error e =>
      obtain ⟨part, hpart, hstored⟩ := storage.write_error bytes _ e _ hwrite
      exact enter_enters s hwrite hstored ⟨hpart, fun hnone => nomatch hnone⟩

theorem flush_enters (s : Duplex ρ (Recorded storage)) :
    ∃ x t, Channel.flush s = (resultOf x.fault, t) ∧ x.request = .flush ∧ Enters s t [x] := by
  have hstored := storage.flush s.sink.sink
  rw [← List.append_nil (storage.stored s.sink.sink)] at hstored
  exact enter_enters s rfl hstored ⟨List.prefix_refl [], fun _ => rfl⟩

end Entries

/-! Requests that are made in turn -/

/-- The attempts are at these requests in their order, up to the first that has a fault. -/
inductive InTurn : List Request → List Attempt → Option Fault → Prop
  | done : InTurn [] [] none
  | next {x : Attempt} {requests : List Request} {calls : List Attempt} {fault : Option Fault}
      (went : x.fault = none) (rest : InTurn requests calls fault) :
      InTurn (x.request :: requests) (x :: calls) fault
  | failed {x : Attempt} {e : Fault} (requests : List Request) (failed : x.fault = some e) :
      InTurn (x.request :: requests) [x] (some e)

namespace InTurn

variable {requests more : List Request} {calls behind : List Attempt} {fault : Option Fault}

theorem single (x : Attempt) : InTurn [x.request] [x] x.fault := by
  cases hfault : x.fault with
  | none => exact .next hfault .done
  | some e => exact .failed [] hfault

theorem append (h : InTurn requests calls none) (h' : InTurn more behind fault) :
    InTurn (requests ++ more) (calls ++ behind) fault := by
  generalize hnone : (none : Option Fault) = went at h
  induction h with
  | done => exact h'
  | next went rest ih => exact .next went (ih hnone)
  | failed requests failed => cases hnone

theorem append_failed {e : Fault} (more : List Request) (h : InTurn requests calls (some e)) :
    InTurn (requests ++ more) calls (some e) := by
  generalize hsome : some e = fault at h
  induction h with
  | done => cases hsome
  | next went rest ih => exact .next went (ih hsome)
  | failed requests failed => exact .failed (requests ++ more) failed

theorem requests_prefix (h : InTurn requests calls fault) :
    calls.map Attempt.request <+: requests := by
  induction h with
  | done => exact List.prefix_refl []
  | next went rest ih => exact (List.prefix_cons_inj _).mpr ih
  | failed requests failed => exact (List.prefix_cons_inj _).mpr List.nil_prefix

theorem requests_eq (h : InTurn requests calls none) : calls.map Attempt.request = requests := by
  generalize hnone : (none : Option Fault) = fault at h
  induction h with
  | done => rfl
  | next went rest ih => exact congrArg _ (ih hnone)
  | failed requests failed => cases hnone

theorem ne_nil (h : InTurn requests calls fault) (hrequests : requests ≠ []) : calls ≠ [] := by
  cases h with
  | done => exact absurd rfl hrequests
  | next went rest | failed requests failed => exact List.cons_ne_nil _ _

/-- Without a fault every attempt went well, and the other way round. -/
theorem fault_eq_none_iff (h : InTurn requests calls fault) :
    fault = none ↔ ∀ x ∈ calls, x.fault = none := by
  induction h with
  | done => simp
  | next went rest ih => simp [went, ih]
  | failed requests failed => simp [failed]

/-- A fault is the result, and nothing is attempted behind it. -/
theorem of_fault {front : List Attempt} {x : Attempt} {e : Fault}
    (h : InTurn requests calls fault) (hcalls : calls = front ++ x :: behind)
    (hx : x.fault = some e) : behind = [] ∧ fault = some e := by
  induction h generalizing front with
  | done => simp at hcalls
  | next went rest ih =>
    cases front with
    | nil =>
      obtain ⟨rfl, -⟩ := List.cons.inj hcalls
      cases went.symm.trans hx
    | cons y front => exact ih (List.cons.inj hcalls).2
  | failed requests failed =>
    cases front with
    | nil =>
      obtain ⟨rfl, rfl⟩ := List.cons.inj hcalls
      exact ⟨rfl, failed.symm.trans hx⟩
    | cons y front => simp at hcalls

/-- What was stored is a start of what was to be written. -/
theorem stored_prefix (h : InTurn requests calls fault) (hproper : ∀ x ∈ calls, x.Proper) :
    calls.flatMap Attempt.stored <+: requests.flatMap Request.bytes := by
  induction h with
  | done => exact List.prefix_refl []
  | @next x requests calls fault went rest ih =>
    have hwhole := (hproper x List.mem_cons_self).whole went
    rw [List.flatMap_cons, List.flatMap_cons, hwhole, List.prefix_append_right_inj]
    exact ih fun y hy => hproper y (List.mem_cons_of_mem _ hy)
  | @failed x e requests failed =>
    have hstart := (hproper x List.mem_cons_self).start
    rw [List.flatMap_cons, List.flatMap_nil, List.append_nil, List.flatMap_cons]
    exact hstart.trans (List.prefix_append _ _)

theorem stored_eq (h : InTurn requests calls none) (hproper : ∀ x ∈ calls, x.Proper) :
    calls.flatMap Attempt.stored = requests.flatMap Request.bytes := by
  have hnone := h.fault_eq_none_iff.mp rfl
  rw [← h.requests_eq, List.flatMap_map]
  exact List.flatMap_congr fun x hx => (hproper x hx).whole (hnone x hx)

end InTurn

/-! Actions -/

section Actions

variable {ρ ω : Type} [Sink ω] {storage : Storage ω}
  {a b : Action (Duplex ρ (Recorded storage)) Unit}

/-- The action makes these requests in turn, and it ends with the fault that one of them has. -/
def Makes (a : Action (Duplex ρ (Recorded storage)) Unit) (requests : List Request) : Prop :=
  ∀ s, ∃ calls fault t, a s = (resultOf fault, t) ∧ Enters s t calls ∧
    InTurn requests calls fault

theorem makes_pure : Makes (pure () : Action (Duplex ρ (Recorded storage)) Unit) [] :=
  fun s => ⟨[], none, s, rfl, Enters.refl s, .done⟩

/-- Behind a fault nothing more is asked for. -/
theorem Makes.bind {requests more : List Request} (ha : Makes a requests) (hb : Makes b more) :
    Makes (a >>= fun _ => b) (requests ++ more) := by
  intro s
  obtain ⟨calls, fault, t, hrun, henters, hturn⟩ := ha s
  rw [bind_apply, hrun]
  cases fault with
  | none =>
    obtain ⟨behind, fault, u, hrun', henters', hturn'⟩ := hb t
    exact ⟨calls ++ behind, fault, u, hrun', henters.trans henters', hturn.append hturn'⟩
  | some e => exact ⟨calls, some e, t, rfl, henters, hturn.append_failed more⟩

variable [Source ρ]

theorem makes_writeAll (bytes : Bytes) :
    Makes (Channel.writeAll bytes : Action (Duplex ρ (Recorded storage)) Unit)
      [.write bytes] := by
  intro s
  obtain ⟨x, t, hrun, hrequest, henters⟩ := writeAll_enters bytes s
  exact ⟨[x], x.fault, t, hrun, henters, hrequest ▸ InTurn.single x⟩

theorem makes_flush :
    Makes (Channel.flush : Action (Duplex ρ (Recorded storage)) Unit) [.flush] := by
  intro s
  obtain ⟨x, t, hrun, hrequest, henters⟩ := flush_enters s
  exact ⟨[x], x.fault, t, hrun, henters, hrequest ▸ InTurn.single x⟩

end Actions

/-! Operations -/

namespace Console

variable {ρ ω : Type} [Source ρ] [Sink ω] {storage : Storage ω}

/-- The same console with an empty journal beside its sink. -/
def recorded (storage : Storage ω) (c : Console (Duplex ρ ω)) :
    Console (Duplex ρ (Recorded storage)) :=
  ⟨⟨c.channel.source, { sink := c.channel.sink }⟩, c.line⟩

def attempts (storage : Storage ω) (op : Op) (c : Console (Duplex ρ ω)) : List Attempt :=
  (op.run (c.recorded storage)).2.channel.sink.journal

def plain (d : Console (Duplex ρ (Recorded storage))) : Console (Duplex ρ ω) :=
  ⟨⟨d.channel.source, d.channel.sink.sink⟩, d.line⟩

theorem alike_recorded (storage : Storage ω) :
    Channel.Alike fun (s : Duplex ρ ω) (t : Duplex ρ (Recorded storage)) =>
      s = ⟨t.source, t.sink.sink⟩ where
  readByte := by
    rintro _ t rfl
    exact ⟨_, _, _, rfl, rfl, rfl⟩
  writeAll bytes := by
    rintro _ t rfl
    exact ⟨_, _, _, rfl, rfl, rfl⟩
  flush := by
    rintro _ t rfl
    exact ⟨_, _, _, rfl, rfl, rfl⟩

/-- To keep a journal changes nothing. -/
theorem run_recorded (storage : Storage ω) (op : Op) (c : Console (Duplex ρ ω)) :
    op.run c = ((op.run (c.recorded storage)).1, (op.run (c.recorded storage)).2.plain) := by
  obtain ⟨r, c', d, hplain, hrecorded, hchannel, hline⟩ :=
    Op.run_agree (alike_recorded storage) op c (c.recorded storage) ⟨rfl, rfl⟩
  rw [hplain, hrecorded, plain, ← hchannel, ← hline]

/-- The operation makes these attempts, and it ends with this fault or none. -/
structure ComesTo (storage : Storage ω) (op : Op) (c : Console (Duplex ρ ω))
    (calls : List Attempt) (fault : Option Fault) : Prop where
  attempts : attempts storage op c = calls
  result : (op.run c).1 = (resultOf fault).map fun _ => .done
  stored : storage.stored (op.run c).2.channel.sink =
    storage.stored c.channel.sink ++ calls.flatMap Attempt.stored
  proper : ∀ x ∈ calls, x.Proper
  /-- Nothing but the sink has changed. -/
  kept : (op.run c).2 = { c with channel.sink := (op.run c).2.channel.sink }

theorem ComesTo.ok_iff {op : Op} {c : Console (Duplex ρ ω)} {calls : List Attempt}
    {fault : Option Fault} (h : ComesTo storage op c calls fault) :
    (op.run c).1 = .ok .done ↔ fault = none := by
  rw [h.result]
  cases fault with
  | none => exact iff_of_true rfl rfl
  | some e => exact iff_of_false (fun hok => nomatch hok) (fun hnone => nomatch hnone)

/-- An operation that runs an action enters into the journal what the action enters. -/
theorem comesTo_of_output {op : Op} {c : Console (Duplex ρ ω)}
    {a : Action (Duplex ρ (Recorded storage)) Unit}
    (ha : op.run (c.recorded storage) = Op.output a (c.recorded storage)) {calls : List Attempt}
    {fault : Option Fault} {t : Duplex ρ (Recorded storage)}
    (hrun : a (c.recorded storage).channel = (resultOf fault, t))
    (henters : Enters (c.recorded storage).channel t calls) :
    ComesTo storage op c calls fault := by
  have hrecorded : op.run (c.recorded storage) =
      ((resultOf fault).map fun _ => .done, ⟨t, c.line⟩) := by
    rw [ha, Op.output, bind_apply, onChannel_apply, hrun]
    cases fault <;> rfl
  have hplain := run_recorded storage op c
  rw [hrecorded] at hplain
  exact {
    attempts := by rw [attempts, hrecorded, henters.journal]; rfl
    result := by rw [hplain]
    stored := by rw [hplain]; exact henters.stored
    proper := henters.proper
    kept := by rw [hplain, plain, henters.source]; rfl }

end Console

end LineConsole
