import LineConsole.Channel.Script
import LineConsole.Proofs.Independence
import LineConsole.Proofs.Journal
import LineConsole.Proofs.Output

/-!
Output to a sink that may fail at any request. An operation whose text is known writes it in
parts and then flushes, and the first request that fails is its last. A rendering is free to go on
behind a fault, or to fail without one; the operation succeeds only if neither has happened, and
only then it asks for anything behind the rendering.
-/
namespace LineConsole

open Fallible

/-! A store of bounded size -/

namespace Bounded

def fitting (s : Bounded) (bytes : Bytes) : Bytes :=
  match s.room with
  | none => bytes
  | some room => bytes.take room

theorem fitting_prefix (s : Bounded) (bytes : Bytes) : s.fitting bytes <+: bytes := by
  rw [fitting]
  split
  · exact List.prefix_refl bytes
  · exact List.take_prefix _ bytes

theorem writeAll_written (bytes : Bytes) (s : Bounded) :
    (Sink.writeAll bytes s).2.written = s.written ++ s.fitting bytes := by
  rcases s with ⟨written, flushes, _ | room, failFlush⟩ <;> rfl

theorem fitting_of_ok {bytes : Bytes} {s : Bounded} (h : (Sink.writeAll bytes s).1 = .ok ()) :
    s.fitting bytes = bytes := by
  rcases s with ⟨written, flushes, _ | room, failFlush⟩
  · rfl
  · by_cases hfits : bytes.length ≤ room
    · exact List.take_of_length_le hfits
    · have hfailed : (if bytes.length ≤ room then .ok () else .error .writeFailed) =
          (.ok () : Except Fault Unit) := h
      rw [if_neg hfits] at hfailed
      cases hfailed

def storage : Storage Bounded where
  stored := written
  write_ok bytes s t h := by
    have hstored := writeAll_written bytes s
    rw [fitting_of_ok (congrArg Prod.fst h), h] at hstored
    exact hstored
  write_error bytes s e t h := by
    have hstored := writeAll_written bytes s
    rw [h] at hstored
    exact ⟨s.fitting bytes, s.fitting_prefix bytes, hstored⟩
  flush s := by
    simp only [Sink.flush]
    split <;> rfl

end Bounded

/-! Renderings -/

namespace Rendering

/-- The rendering makes these attempts, told of each whether it went well, and then declares
`ok`. -/
inductive Performs : Rendering → List Attempt → Bool → Prop
  | done (ok : Bool) : Performs (.done ok) [] ok
  | piece {text : String} {next : Bool → Rendering} {x : Attempt} {calls : List Attempt}
      {ok : Bool} (request : x.request = .write (Utf8.encode text))
      (rest : (next x.fault.isNone).Performs calls ok) :
      Performs (.piece text next) (x :: calls) ok

def lastFault (last : Option Fault) (calls : List Attempt) : Option Fault :=
  calls.foldl (fun last x => x.fault.or last) last

theorem lastFault_cons (last : Option Fault) (x : Attempt) (calls : List Attempt) :
    lastFault last (x :: calls) = lastFault (x.fault.or last) calls := rfl

theorem lastFault_eq_none_iff {last : Option Fault} {calls : List Attempt} :
    lastFault last calls = none ↔ last = none ∧ ∀ x ∈ calls, x.fault = none := by
  induction calls generalizing last with
  | nil => simp [lastFault]
  | cons x calls ih =>
    rw [lastFault_cons, ih, Option.or_eq_none_iff]
    simp only [List.forall_mem_cons]
    tauto

/-- The fault of a rendering, which counts as a failed write if it fails by itself. -/
def faultOf (ok : Bool) (calls : List Attempt) : Option Fault :=
  (lastFault none calls).or (if ok then none else some .writeFailed)

variable {ok : Bool} {x : Attempt} {calls : List Attempt}

theorem faultOf_eq_none_iff :
    faultOf ok calls = none ↔ ok = true ∧ ∀ x ∈ calls, x.fault = none := by
  rw [faultOf, Option.or_eq_none_iff, lastFault_eq_none_iff]
  cases ok <;> simp

theorem faultOf_of_refused (h : ∀ x ∈ calls, x.fault = none) :
    faultOf false calls = some .writeFailed := by
  rw [faultOf, lastFault_eq_none_iff.mpr ⟨rfl, h⟩]
  rfl

theorem faultOf_cons (h : x.fault = none) : faultOf ok (x :: calls) = faultOf ok calls := by
  rw [faultOf, lastFault_cons, h]
  rfl

/-- Pieces that are known are attempted in turn, and the first fault is the fault. -/
theorem Performs.inTurn {pieces : List String} (h : (ofPieces pieces).Performs calls ok) :
    InTurn (pieces.map fun text => .write (Utf8.encode text)) calls (faultOf ok calls) := by
  induction pieces generalizing calls with
  | nil =>
    cases h
    exact .done
  | cons text rest ih =>
    obtain _ | @⟨_, _, x, calls, _, request, rest⟩ := h
    rw [List.map_cons, ← request]
    cases hfault : x.fault with
    | none =>
      rw [hfault] at rest
      rw [faultOf_cons hfault]
      exact .next hfault (ih rest)
    | some e =>
      -- Told of a fault, the rendering is done.
      rw [hfault] at rest
      cases rest
      rw [faultOf, lastFault_cons, hfault]
      exact .failed _ hfault

/-- What is attempted behind a rendering, and how both together end. -/
inductive Follows (requests : List Request) (calls : List Attempt) (ok : Bool) :
    List Attempt → Option Fault → Prop
  | went {behind : List Attempt} {fault : Option Fault} (went : faultOf ok calls = none)
      (turn : InTurn requests behind fault) : Follows requests calls ok behind fault
  | failed {e : Fault} (failed : faultOf ok calls = some e) :
      Follows requests calls ok [] (some e)

namespace Follows

variable {requests : List Request} {behind : List Attempt} {fault : Option Fault}

theorem requests_prefix (h : Follows requests calls ok behind fault) :
    behind.map Attempt.request <+: requests := by
  cases h with
  | went went turn => exact turn.requests_prefix
  | failed failed => exact List.nil_prefix

theorem requests_eq (h : Follows requests calls ok behind none) :
    behind.map Attempt.request = requests := by
  cases h with
  | went went turn => exact turn.requests_eq

theorem ne_nil_iff (hrequests : requests ≠ []) (h : Follows requests calls ok behind fault) :
    behind ≠ [] ↔ faultOf ok calls = none := by
  cases h with
  | went went turn => exact iff_of_true (turn.ne_nil hrequests) went
  | failed failed => simp [failed]

theorem fault_eq_none_iff (h : Follows requests calls ok behind fault) :
    fault = none ↔ ok = true ∧ ∀ x ∈ calls ++ behind, x.fault = none := by
  rw [List.forall_mem_append, ← and_assoc, ← faultOf_eq_none_iff]
  cases h with
  | went went turn => rw [turn.fault_eq_none_iff, and_iff_right went]
  | failed failed => simp [failed]

theorem fault_eq {e : Fault} (h : Follows requests calls ok behind fault)
    (hcalls : faultOf ok calls = some e) : fault = some e := by
  cases h with
  | went went turn => cases went.symm.trans hcalls
  | failed failed => exact failed.symm.trans hcalls

end Follows

variable {ρ ω : Type} [Source ρ] [Sink ω] {storage : Storage ω}

theorem runFrom_enters (r : Rendering) (last : Option Fault) (s : Duplex ρ (Recorded storage)) :
    ∃ calls ok t, r.runFrom last s = ((ok, lastFault last calls), t) ∧ Enters s t calls ∧
      r.Performs calls ok := by
  induction r generalizing last s with
  | done ok => exact ⟨[], ok, s, rfl, Enters.refl s, .done ok⟩
  | piece text next ih =>
    obtain ⟨x, t, hrun, hrequest, henters⟩ := writeAll_enters (Utf8.encode text) s
    obtain ⟨calls, ok, u, hnext, henters', hperforms⟩ := ih x.fault.isNone (x.fault.or last) t
    refine ⟨x :: calls, ok, u, ?_, henters.trans henters', .piece hrequest hperforms⟩
    rw [runFrom, hrun, lastFault_cons]
    -- What is remembered and what the rendering is told both follow from the fault of the piece.
    cases hfault : x.fault with
    | none =>
      rw [hfault] at hnext
      exact hnext
    | some e =>
      rw [hfault] at hnext
      exact hnext

theorem write_enters (r : Rendering) (s : Duplex ρ (Recorded storage)) :
    ∃ calls ok t, r.write s = (resultOf (faultOf ok calls), t) ∧ Enters s t calls ∧
      r.Performs calls ok := by
  obtain ⟨calls, ok, t, hrun, henters, hperforms⟩ := r.runFrom_enters none s
  refine ⟨calls, ok, t, ?_, henters, hperforms⟩
  rw [write, hrun, faultOf]
  cases lastFault none calls with
  | some e => rfl
  | none => cases ok <;> rfl

theorem makes_ofPieces (pieces : List String) :
    Makes ((ofPieces pieces).write : Action (Duplex ρ (Recorded storage)) Unit)
      (pieces.map fun text => .write (Utf8.encode text)) := by
  intro s
  obtain ⟨calls, ok, t, hrun, henters, hperforms⟩ := (ofPieces pieces).write_enters s
  exact ⟨calls, faultOf ok calls, t, hrun, henters, hperforms.inTurn⟩

/-- Only behind a rendering that went well anything more is asked for. -/
theorem write_bind_enters (r : Rendering) {a : Action (Duplex ρ (Recorded storage)) Unit}
    {requests : List Request} (ha : Makes a requests) (s : Duplex ρ (Recorded storage)) :
    ∃ calls ok behind fault t, (r.write >>= fun _ => a) s = (resultOf fault, t) ∧
      Enters s t (calls ++ behind) ∧ r.Performs calls ok ∧
      Follows requests calls ok behind fault := by
  obtain ⟨calls, ok, t, hrun, henters, hperforms⟩ := r.write_enters s
  rw [bind_apply, hrun]
  cases hfault : faultOf ok calls with
  | none =>
    obtain ⟨behind, fault, u, hrun', henters', hturn⟩ := ha t
    exact ⟨calls, ok, behind, fault, u, hrun', henters.trans henters', hperforms,
      .went hfault hturn⟩
  | some e =>
    rw [← List.append_nil calls] at henters
    exact ⟨calls, ok, [], some e, t, rfl, henters, hperforms, .failed hfault⟩

end Rendering

/-! Operations -/

namespace Request

theorem finishing_bytes (writes : List Bytes) :
    (finishing writes).flatMap bytes = writes.flatten := by
  have hwrites : (writes.map .write).flatMap bytes = writes.flatten := by
    rw [List.flatMap_map]
    exact List.flatMap_id
  rw [finishing, List.flatMap_append, hwrites]
  exact List.append_nil _

theorem finishing_ne_nil (writes : List Bytes) : finishing writes ≠ [] :=
  List.append_ne_nil_of_right_ne_nil _ (List.cons_ne_nil _ _)

end Request

theorem Utf8.encode_join (pieces : List String) :
    encode (String.join pieces) = (pieces.map encode).flatten := by
  induction pieces with
  | nil => rfl
  | cons text rest ih => rw [encode_join_cons, ih, List.map_cons, List.flatten_cons]

namespace Console

open Request

/-- The text of an operation that only writes. -/
def Op.text? : Op → Option Bytes
  | .print v => some (lineOf v.text)
  | .printInline v => some (Utf8.encode v.text)
  | .printValues vs => some (lineOf (Value.joined vs))
  | .newline => some newlineBytes
  | .printBytes bytes withNewline => some (bytes ++ if withNewline then newlineBytes else [])
  | _ => none

/-! Operations with a known text -/

variable {ρ ω : Type} [Sink ω] {storage : Storage ω}

def WritesThen (ends : List Request) (a : Action (Duplex ρ (Recorded storage)) Unit)
    (text : Bytes) : Prop :=
  ∃ writes : List Bytes, writes.flatten = text ∧ Makes a (writes.map .write ++ ends)

theorem WritesThen.bind {a b : Action (Duplex ρ (Recorded storage)) Unit} {text more : Bytes}
    {ends : List Request} (ha : WritesThen [] a text) (hb : WritesThen ends b more) :
    WritesThen ends (a >>= fun _ => b) (text ++ more) := by
  obtain ⟨writes, rfl, ha⟩ := ha
  obtain ⟨writes', rfl, hb⟩ := hb
  rw [List.append_nil] at ha
  refine ⟨writes ++ writes', List.flatten_append, ?_⟩
  rw [List.map_append, List.append_assoc]
  exact ha.bind hb

theorem writesThen_pure :
    WritesThen [] (pure () : Action (Duplex ρ (Recorded storage)) Unit) [] :=
  ⟨[], rfl, makes_pure⟩

variable [Source ρ]

theorem writesThen_writeAll (bytes : Bytes) :
    WritesThen [] (Channel.writeAll bytes : Action (Duplex ρ (Recorded storage)) Unit) bytes :=
  ⟨[bytes], List.flatten_singleton, makes_writeAll bytes⟩

theorem writesThen_ofPieces (pieces : List String) :
    WritesThen [] ((Rendering.ofPieces pieces).write : Action (Duplex ρ (Recorded storage)) Unit)
      (Utf8.encode (String.join pieces)) := by
  refine ⟨pieces.map Utf8.encode, (Utf8.encode_join pieces).symm, ?_⟩
  rw [List.map_map, List.append_nil]
  exact Rendering.makes_ofPieces pieces

theorem writesThen_writeRest (vs : List Value) :
    WritesThen [] (writeRest vs : Action (Duplex ρ (Recorded storage)) Unit)
      (Utf8.encode (String.join (vs.map fun v => " " ++ v.text))) := by
  induction vs with
  | nil => exact writesThen_pure
  | cons v rest ih =>
    rw [List.map_cons, Utf8.encode_join_cons, Utf8.encode_append, List.append_assoc]
    exact (writesThen_writeAll [0x20]).bind ((writesThen_ofPieces v.pieces).bind ih)

theorem writesThen_writeValues (vs : List Value) :
    WritesThen [] (writeValues vs : Action (Duplex ρ (Recorded storage)) Unit)
      (Utf8.encode (Value.joined vs)) := by
  cases vs with
  | nil => exact writesThen_pure
  | cons v rest =>
    rw [Value.joined_cons, Utf8.encode_append]
    exact (writesThen_ofPieces v.pieces).bind (writesThen_writeRest rest)

theorem writesThen_flush :
    WritesThen [.flush] (Channel.flush : Action (Duplex ρ (Recorded storage)) Unit) [] :=
  ⟨[], rfl, makes_flush⟩

theorem writesThen_newline :
    WritesThen [.flush] (Console.newline : Action (Duplex ρ (Recorded storage)) Unit)
      newlineBytes :=
  (writesThen_writeAll newlineBytes).bind writesThen_flush

/-- An operation with a known text is the action that writes it in parts and flushes. -/
theorem exists_output_of_text (storage : Storage ω) {op : Op} {text : Bytes}
    (h : op.text? = some text) :
    ∃ a : Action (Duplex ρ (Recorded storage)) Unit, op.run = Op.output a ∧
      WritesThen [.flush] a text := by
  cases op with
  | print v =>
    cases h
    exact ⟨_, rfl, (writesThen_ofPieces v.pieces).bind writesThen_newline⟩
  | printInline v =>
    cases h
    refine ⟨_, rfl, ?_⟩
    rw [← List.append_nil (Utf8.encode v.text)]
    exact (writesThen_ofPieces v.pieces).bind writesThen_flush
  | printValues vs =>
    cases h
    exact ⟨_, rfl, (writesThen_writeValues vs).bind writesThen_newline⟩
  | newline =>
    cases h
    exact ⟨_, rfl, writesThen_newline⟩
  | printBytes bytes withNewline =>
    cases h
    refine ⟨_, rfl, (writesThen_writeAll bytes).bind ?_⟩
    cases withNewline with
    | true => exact writesThen_newline
    | false => exact writesThen_flush
  | _ => cases h

theorem comesTo_of_text {op : Op} {text : Bytes} (h : op.text? = some text)
    (storage : Storage ω) (c : Console (Duplex ρ ω)) :
    ∃ (writes : List Bytes) (calls : List Attempt) (fault : Option Fault), writes.flatten = text ∧
      ComesTo storage op c calls fault ∧ InTurn (finishing writes) calls fault := by
  obtain ⟨a, ha, writes, hwrites, hmakes⟩ := exists_output_of_text (ρ := ρ) storage h
  obtain ⟨calls, fault, t, hrun, henters, hturn⟩ := hmakes (c.recorded storage).channel
  exact ⟨writes, calls, fault, hwrites,
    comesTo_of_output (congrFun ha _) hrun henters, hturn⟩

/-- The operation writes this text in parts and then flushes, up to the first request that fails.
Behind that nothing but the sink has changed, and later operations go by the sink alone. -/
structure WritesInTurn (storage : Storage ω) (op : Op) (c : Console (Duplex ρ ω)) (text : Bytes) :
    Prop where
  recorded : op.run c = ((op.run (c.recorded storage)).1, (op.run (c.recorded storage)).2.plain)
  stored : storage.stored (op.run c).2.channel.sink =
    storage.stored c.channel.sink ++ (attempts storage op c).flatMap Attempt.stored
  proper : ∀ x ∈ attempts storage op c, x.Proper
  start : (attempts storage op c).flatMap Attempt.stored <+: text
  whole : (op.run c).1 = .ok .done → (attempts storage op c).flatMap Attempt.stored = text
  ok_iff : (op.run c).1 = .ok .done ↔ ∀ x ∈ attempts storage op c, x.fault = none
  inTurn : ∃ writes : List Bytes, writes.flatten = text ∧
    (attempts storage op c).map Attempt.request <+: finishing writes ∧
    ((op.run c).1 = .ok .done →
      (attempts storage op c).map Attempt.request = finishing writes)
  failed : ∀ front x behind e, attempts storage op c = front ++ x :: behind →
    x.fault = some e → behind = [] ∧ (op.run c).1 = .error e
  kept : (op.run c).2 = { c with channel.sink := (op.run c).2.channel.sink }
  /-- Reads find the input as it was before the operation, whatever becomes of the sink. -/
  later_reads : ∀ (υ : Type) [Sink υ] (sink : υ) (ops : List Op),
    let reads := (served (op.run c).2 ops).map Prod.fst
    let d : Console (Duplex ρ υ) := ⟨⟨c.channel.source, sink⟩, c.line⟩
    (replay d (reads.map .op)).map (Entry.seen Duplex.source) =
      (served (op.run c).2 ops).map fun p => p.2.seen Duplex.source
  /-- Writes go on as from any other console over the same sink. -/
  later_writes : ∀ (τ : Type) [Source τ] (source : τ) (line : LineBuffer) (ops : List Op),
    let d : Console (Duplex τ ω) := ⟨⟨source, (op.run c).2.channel.sink⟩, line⟩
    told (op.run c).2 ops = told d ops ∧
      (replay (op.run c).2 (ops.map .op)).map (·.after.channel.sink) =
        (replay d (ops.map .op)).map (·.after.channel.sink)

/-- Whatever the sink does, an operation with a known text stores a start of it, all of it if
every request goes well, and stops with the first fault. -/
theorem output_stops_at_fault (storage : Storage ω) (c : Console (Duplex ρ ω)) {op : Op}
    {text : Bytes} (h : op.text? = some text) : WritesInTurn storage op c text := by
  obtain ⟨writes, _, fault, rfl, hcomes, hturn⟩ := comesTo_of_text h storage c
  have hok := hcomes.ok_iff
  obtain ⟨rfl, hresult, hstored, hproper, hkept⟩ := hcomes
  have hbytes := finishing_bytes writes
  have hsource : (op.run c).2.channel.source = c.channel.source := by rw [hkept]
  have hline : (op.run c).2.line = c.line := by rw [hkept]
  exact {
    recorded := run_recorded storage op c
    stored := hstored
    proper := hproper
    start := hbytes ▸ hturn.stored_prefix hproper
    whole := by
      intro hdone
      rw [hok.mp hdone] at hturn
      exact hbytes ▸ hturn.stored_eq hproper
    ok_iff := hok.trans hturn.fault_eq_none_iff
    inTurn := by
      refine ⟨writes, rfl, hturn.requests_prefix, ?_⟩
      intro hdone
      rw [hok.mp hdone] at hturn
      exact hturn.requests_eq
    failed := by
      intro front x behind e hcalls hx
      obtain ⟨hbehind, rfl⟩ := hturn.of_fault hcalls hx
      exact ⟨hbehind, hresult⟩
    kept := hkept
    later_reads := by
      intro υ _ sink ops reads d
      exact (replay_served (c := (op.run c).2) (d := d) ⟨hsource, hline⟩ ops).1
    later_writes := by
      intro τ _ source line ops d
      exact told_sameSink (c := (op.run c).2) (d := d) rfl ops }

/-- A blank fits between two values, and half of the second. -/
theorem output_stops_within_value :
    let c : Console (Duplex Unread Bounded) := { channel := ⟨⟨[]⟩, { room := some 4 }⟩ }
    let op : Op := .printValues [.int (-7), .str "ab"]
    let text := lineOf "-7 ab"
    op.text? = some text ∧ WritesInTurn Bounded.storage op c text ∧
      (op.run c).1 = .error .writeFailed ∧
      (op.run c).2.channel.sink.written = Utf8.encode "-7 a" := by
  intro c op text
  have htext : op.text? = some text := by rfl
  exact ⟨htext, output_stops_at_fault Bounded.storage c htext, by rfl, by rfl⟩

/-! Operations with a rendering -/

/-- The rendering that an operation runs, and what it asks for behind it. -/
def Op.rendering? : Op → Option (Rendering × List Request)
  | .render r => some (r, finishing [newlineBytes])
  | .renderInline r => some (r, finishing [])
  | _ => none

theorem makes_newline :
    Makes (Console.newline : Action (Duplex ρ (Recorded storage)) Unit)
      (finishing [newlineBytes]) :=
  (makes_writeAll newlineBytes).bind makes_flush

/-- An operation with a rendering runs it and then makes the requests that belong behind it. -/
theorem exists_output_of_rendering (storage : Storage ω) {op : Op} {r : Rendering}
    {requests : List Request} (h : op.rendering? = some (r, requests)) :
    ∃ a : Action (Duplex ρ (Recorded storage)) Unit, Makes a requests ∧
      op.run = Op.output (r.write >>= fun _ => a) := by
  cases op with
  | render r =>
    cases h
    exact ⟨_, makes_newline, rfl⟩
  | renderInline r =>
    cases h
    exact ⟨_, makes_flush, rfl⟩
  | _ => cases h

theorem Op.requests_ne_nil {op : Op} {r : Rendering} {requests : List Request}
    (h : op.rendering? = some (r, requests)) : requests ≠ [] := by
  cases op with
  | render r | renderInline r =>
    cases h
    exact finishing_ne_nil _
  | _ => cases h

theorem comesTo_of_rendering {op : Op} {r : Rendering} {requests : List Request}
    (h : op.rendering? = some (r, requests)) (storage : Storage ω) (c : Console (Duplex ρ ω)) :
    ∃ ok calls behind fault, ComesTo storage op c (calls ++ behind) fault ∧
      r.Performs calls ok ∧ Rendering.Follows requests calls ok behind fault := by
  obtain ⟨a, ha, hop⟩ := exists_output_of_rendering (ρ := ρ) storage h
  obtain ⟨calls, ok, behind, fault, t, hrun, henters, hperforms, hfollows⟩ :=
    r.write_bind_enters ha (c.recorded storage).channel
  exact ⟨ok, calls, behind, fault,
    comesTo_of_output (congrFun hop _) hrun henters, hperforms, hfollows⟩

/-- The attempts of a rendering, what it declares, and the attempts behind it. -/
structure HeedsFaults (storage : Storage ω) (op : Op) (c : Console (Duplex ρ ω)) (r : Rendering)
    (requests : List Request) (ok : Bool) (calls behind : List Attempt) : Prop where
  recorded : op.run c = ((op.run (c.recorded storage)).1, (op.run (c.recorded storage)).2.plain)
  attempts : attempts storage op c = calls ++ behind
  performs : r.Performs calls ok
  /-- The newline and the flush, as far as they are attempted. -/
  inTurn : behind.map Attempt.request <+: requests
  goes_on : behind ≠ [] ↔ ok = true ∧ ∀ x ∈ calls, x.fault = none
  ok_iff : (op.run c).1 = .ok .done ↔ ok = true ∧ ∀ x ∈ calls ++ behind, x.fault = none
  whole : (op.run c).1 = .ok .done → behind.map Attempt.request = requests
  /-- The rendering has failed by itself. -/
  refused : ok = false → (∀ x ∈ calls, x.fault = none) → (op.run c).1 = .error .writeFailed
  stored : storage.stored (op.run c).2.channel.sink =
    storage.stored c.channel.sink ++ (calls ++ behind).flatMap Attempt.stored
  proper : ∀ x ∈ calls ++ behind, x.Proper

/-- Whatever a rendering hides or declares, an operation succeeds only if each of its attempts
has gone well and the rendering has not failed. -/
theorem rendering_heeds_faults (storage : Storage ω) (c : Console (Duplex ρ ω)) {op : Op}
    {r : Rendering} {requests : List Request} (h : op.rendering? = some (r, requests)) :
    ∃ ok calls behind, HeedsFaults storage op c r requests ok calls behind := by
  obtain ⟨ok, calls, behind, fault, hcomes, hperforms, hfollows⟩ :=
    comesTo_of_rendering h storage c
  have hrequests := Op.requests_ne_nil h
  exact ⟨ok, calls, behind, {
    recorded := run_recorded storage op c
    attempts := hcomes.attempts
    performs := hperforms
    inTurn := hfollows.requests_prefix
    goes_on := (hfollows.ne_nil_iff hrequests).trans Rendering.faultOf_eq_none_iff
    ok_iff := hcomes.ok_iff.trans hfollows.fault_eq_none_iff
    whole := by
      intro hdone
      rw [hcomes.ok_iff.mp hdone] at hfollows
      exact hfollows.requests_eq
    refused := by
      rintro rfl hcalls
      rw [hcomes.result, hfollows.fault_eq (Rendering.faultOf_of_refused hcalls)]
      rfl
    stored := hcomes.stored
    proper := hcomes.proper }⟩

/-- A rendering goes on behind a piece that does not fit. What fits is stored, and there is no
newline. -/
theorem rendering_heeds_fault_of_second_piece :
    let c : Console (Duplex Unread Bounded) := { channel := ⟨⟨[]⟩, { room := some 2 }⟩ }
    let r : Rendering := .persistent ["a", "bc", ""]
    let op : Op := .render r
    let requests := finishing [newlineBytes]
    op.rendering? = some (r, requests) ∧
      (∃ ok calls behind, HeedsFaults Bounded.storage op c r requests ok calls behind) ∧
      (attempts Bounded.storage op c).map Attempt.fault = [none, some .writeFailed, none] ∧
      (op.run c).1 = .error .writeFailed ∧
      (op.run c).2.channel.sink.written = Utf8.encode "ab" := by
  intro c r op requests
  have hrendering : op.rendering? = some (r, requests) := by rfl
  exact ⟨hrendering, rendering_heeds_faults Bounded.storage c hrendering, by rfl, by rfl, by rfl⟩

end Console

end LineConsole
