import LineConsole.Channel.Memory
import LineConsole.Channel.Planned
import LineConsole.Proofs.Histories

/-!
Consoles over a source and a sink that have nothing to do with each other. Input and output meet
in the prompt only: a prompt that cannot be written keeps its read from the source, and a prompt
that is out leaves the source as it was. So the reads of a history are a history of their own,
and what is written does not depend on what is read.
-/
namespace LineConsole.Console

open Fallible

/-! What a history asks of the input -/

section Requests

variable {σ : Type} [Channel σ]

/-- The read that reaches the input: none if the operation has none or its prompt is refused. -/
def Op.asks (c : Console σ) (op : Op) : Option Op :=
  if refused op.question c.channel then none else op.request?

/-- The reads of a history that reach the input, each with the step in which it does. -/
def served (c : Console σ) : List Op → List (Op × Entry σ)
  | [] => []
  | op :: rest =>
      ((op.asks c).map fun read => (read, Event.run c (.op op))).toList ++ served (op.run c).2 rest

/-- The results of the other operations: those that only write, and refused prompts. -/
def told (c : Console σ) : List Op → List (Except Fault Answer)
  | [] => []
  | op :: rest => (if (op.asks c).isNone then [(op.run c).1] else []) ++ told (op.run c).2 rest

def through (c : Console σ) : List Op → Console σ
  | [] => c
  | op :: rest => through (op.run c).2 rest

end Requests

/-! A step seen from the source -/

section Source

variable {ρ ω υ : Type} [Source ρ] [Sink ω] [Sink υ]

def SameSource (s : Duplex ρ ω) (t : Duplex ρ υ) : Prop := s.source = t.source

theorem readByte_sameSource :
    Agree SameSource (Channel.readByte : Action (Duplex ρ ω) _)
      (Channel.readByte : Action (Duplex ρ υ) _) := by
  rintro ⟨source, sink⟩ ⟨_, sink'⟩ rfl
  exact ⟨_, _, _, rfl, rfl, rfl⟩

/-- Whatever is written, the source stays as it is. -/
theorem writesAlike_source (source : ρ) :
    Channel.WritesAlike fun s t : Duplex ρ ω => s = t ∧ s.source = source where
  writeAll bytes := by
    rintro s _ ⟨rfl, hsource⟩
    exact ⟨_, _, _, rfl, rfl, rfl, hsource⟩
  flush := by
    rintro s _ ⟨rfl, hsource⟩
    exact ⟨_, _, _, rfl, rfl, rfl, hsource⟩

theorem ask_source (question : Option Bytes) (s : Duplex ρ ω) :
    (ask question s).2.source = s.source := by
  have hagree := ask_agree (writesAlike_source (ω := ω) s.source) question
  obtain ⟨r, t, _, hask, -, -, hsource⟩ := hagree s s ⟨rfl, rfl⟩
  rw [hask]
  exact hsource

/-- A step that asks nothing of the input takes nothing from it and leaves the line. -/
theorem run_of_asks_none {op : Op} {c : Console (Duplex ρ ω)} (h : op.asks c = none) :
    (op.run c).2.channel.source = c.channel.source ∧ (op.run c).2.line = c.line := by
  cases hop : op.request? with
  | none =>
    have houtput := Op.run_output_agree (writesAlike_source (ω := ω) c.channel.source) hop
    obtain ⟨r, s, _, hrun, -, -, hsource⟩ := houtput c c ⟨rfl, rfl⟩
    rw [hrun]
    exact ⟨hsource, rfl⟩
  | some read =>
    have hsource := ask_source op.question c.channel
    rw [Op.run_request hop]
    cases hask : ask op.question c.channel with
    | mk r s =>
      rw [hask] at hsource
      cases r with
      | error e => exact ⟨hsource, rfl⟩
      | ok _ =>
        have hshown : refused op.question c.channel = false := by
          rw [refused, hask]
          rfl
        rw [Op.asks, hshown, hop] at h
        cases h

/-- A step that does ask is the read itself, as far as the source and the line are concerned. -/
theorem run_of_asks_some {op read : Op} {c : Console (Duplex ρ ω)} {d : Console (Duplex ρ υ)}
    (h : op.asks c = some read) (hcd : Alike SameSource c d) :
    ∃ r c' d', op.run c = (r, c') ∧ read.run d = (r, d') ∧ Alike SameSource c' d' := by
  unfold Op.asks at h
  split at h
  · cases h
  · next hshown =>
    have hsource := ask_source op.question c.channel
    rw [Op.run_request h]
    unfold refused at hshown
    cases hask : ask op.question c.channel with
    | mk r s =>
      rw [hask] at hsource hshown
      cases r with
      | error e => exact absurd rfl hshown
      | ok _ =>
        have hread := Op.run_read_agree (readByte_sameSource (ρ := ρ) (ω := ω) (υ := υ))
          (Op.isRequest_of_request? h)
        exact hread ⟨s, c.line⟩ d ⟨hsource.trans hcd.1, hcd.2⟩

/-- What the source and the line see of a history are the reads that reach the input. -/
theorem replay_served {c : Console (Duplex ρ ω)} {d : Console (Duplex ρ υ)}
    (hcd : Alike SameSource c d) (ops : List Op) :
    (replay d (((served c ops).map Prod.fst).map .op)).map (Entry.seen Duplex.source) =
        (served c ops).map (fun p => p.2.seen Duplex.source) ∧
      Alike SameSource (through c ops) (through d ((served c ops).map Prod.fst)) := by
  induction ops generalizing c d with
  | nil => exact ⟨rfl, hcd⟩
  | cons op rest ih =>
    cases hasks : op.asks c with
    | none =>
      -- Only `c` makes this step, and it stays alike.
      obtain ⟨hsource, hline⟩ := run_of_asks_none hasks
      have hnext := ih (c := (op.run c).2) (d := d) ⟨hsource.trans hcd.1, hline.trans hcd.2⟩
      simpa [served, hasks, through] using hnext
    | some read =>
      obtain ⟨r, c', d', hc, hd, hnext⟩ := run_of_asks_some hasks hcd
      obtain ⟨hseen, hend⟩ := ih hnext
      have hstep : (Event.run d (.op read)).seen Duplex.source =
          (Event.run c (.op op)).seen Duplex.source := by
        have hsource : c'.channel.source = d'.channel.source := hnext.1
        simp only [Event.run, hc, hd, Entry.seen, hnext.2, hsource]
      have hafter : (Event.run d (.op read)).after = d' := by
        rw [Event.run, hd]
      simp only [served, hasks, hc, Option.map_some, Option.toList_some, List.singleton_append,
        List.map_cons, replay, through, hd, hstep, hafter]
      exact ⟨congrArg _ hseen, hend⟩

end Source

/-! A step seen from the sink -/

section Sink

variable {ρ τ ω : Type} [Source ρ] [Source τ] [Sink ω]

def SameSink (s : Duplex ρ ω) (t : Duplex τ ω) : Prop := s.sink = t.sink

theorem writesAlike_sameSink : Channel.WritesAlike (SameSink (ρ := ρ) (τ := τ) (ω := ω)) where
  writeAll bytes := by
    rintro ⟨source, sink⟩ ⟨source', _⟩ rfl
    exact ⟨_, _, _, rfl, rfl, rfl⟩
  flush := by
    rintro ⟨source, sink⟩ ⟨source', _⟩ rfl
    exact ⟨_, _, _, rfl, rfl, rfl⟩

/-- Whatever is read, the sink stays as it is. -/
theorem readByte_sink (sink : ω) :
    Agree (fun s t : Duplex ρ ω => s = t ∧ s.sink = sink) (Channel.readByte : Action (Duplex ρ ω) _)
      Channel.readByte := by
  rintro s _ ⟨rfl, hsink⟩
  exact ⟨_, _, _, rfl, rfl, rfl, hsink⟩

theorem run_read_sink {read : Op} (h : read.IsRequest) (c : Console (Duplex ρ ω)) :
    (read.run c).2.channel.sink = c.channel.sink := by
  have hagree := Op.run_read_agree (readByte_sink (ρ := ρ) c.channel.sink) h
  obtain ⟨r, d, _, hrun, -, ⟨-, hsink⟩, -⟩ := hagree c c ⟨⟨rfl, rfl⟩, rfl⟩
  rw [hrun]
  exact hsink

/-- A step asks the same of either input, writes the same, and gives the same result if it does
not ask. -/
theorem run_sameSink {c : Console (Duplex ρ ω)} {d : Console (Duplex τ ω)}
    (h : SameSink c.channel d.channel) (op : Op) :
    op.asks c = op.asks d ∧ SameSink (op.run c).2.channel (op.run d).2.channel ∧
      (op.asks c = none → (op.run c).1 = (op.run d).1) := by
  obtain ⟨r, s, t, hs, ht, hst⟩ := ask_agree writesAlike_sameSink op.question _ _ h
  have hasks : op.asks c = op.asks d := by
    rw [Op.asks, Op.asks, refused, refused, hs, ht]
  refine ⟨hasks, ?_⟩
  cases hop : op.request? with
  | none =>
    obtain ⟨r, u, v, hc, hd, huv⟩ := Op.run_output_agree writesAlike_sameSink hop c d h
    rw [hc, hd]
    exact ⟨huv, fun _ => rfl⟩
  | some read =>
    have hread := Op.isRequest_of_request? hop
    rw [Op.run_request hop, Op.run_request hop, hs, ht]
    cases r with
    | error e => exact ⟨hst, fun _ => rfl⟩
    | ok _ =>
      constructor
      · have hleft := run_read_sink hread ⟨s, c.line⟩
        have hright := run_read_sink hread ⟨t, d.line⟩
        exact hleft.trans (hst.trans hright.symm)
      · intro hnone
        rw [Op.asks, refused, hs, hop] at hnone
        cases hnone

/-- What the sink sees of a history, and what those are told that only write, is the same for
every input. -/
theorem told_sameSink {c : Console (Duplex ρ ω)} {d : Console (Duplex τ ω)}
    (h : SameSink c.channel d.channel) (ops : List Op) :
    told c ops = told d ops ∧
      (replay c (ops.map .op)).map (·.after.channel.sink) =
        (replay d (ops.map .op)).map (·.after.channel.sink) := by
  induction ops generalizing c d with
  | nil => exact ⟨rfl, rfl⟩
  | cons op rest ih =>
    obtain ⟨hasks, hsink, hresult⟩ := run_sameSink h op
    obtain ⟨htold, hsinks⟩ := ih hsink
    constructor
    · rw [told, told, htold, ← hasks]
      cases hop : op.asks c with
      | none => rw [hresult hop]
      | some read => rfl
    · exact congrArg₂ List.cons hsink hsinks

end Sink

/-- The reads that reach the input make up the history that the source and the line see, whatever
the sink is: a prompt that is out reads like a plain read, and a refused one takes nothing and
leaves the line. What is written, and what writers and refused prompts are told, is the same for
all inputs and lines. -/
theorem halves_do_not_interfere {ρ ω : Type} [Source ρ] [Sink ω] (c : Console (Duplex ρ ω))
    (ops : List Op) :
    (∀ (υ : Type) [Sink υ] (sink : υ),
      let reads := (served c ops).map Prod.fst
      let d : Console (Duplex ρ υ) := ⟨⟨c.channel.source, sink⟩, c.line⟩
      (replay d (reads.map .op)).map (Entry.seen Duplex.source) =
          (served c ops).map (fun p => p.2.seen Duplex.source) ∧
        (through c ops).channel.source = (through d reads).channel.source ∧
        (through c ops).line = (through d reads).line) ∧
    (∀ op : Op, refused op.question c.channel →
      (op.run c).2.channel.source = c.channel.source ∧ (op.run c).2.line = c.line) ∧
    (∀ (τ : Type) [Source τ] (source : τ) (line : LineBuffer),
      let d : Console (Duplex τ ω) := ⟨⟨source, c.channel.sink⟩, line⟩
      told c ops = told d ops ∧
        (replay c (ops.map .op)).map (·.after.channel.sink) =
          (replay d (ops.map .op)).map (·.after.channel.sink)) := by
  refine ⟨?_, ?_, ?_⟩
  · intro υ _ sink reads d
    exact replay_served (c := c) (d := d) ⟨rfl, rfl⟩ ops
  · intro op hrefused
    have hasks : op.asks c = none := if_pos hrefused
    exact run_of_asks_none hasks
  · intro τ _ source line d
    exact told_sameSink (c := c) (d := d) rfl ops

/-- A prompt that cannot be written leaves its line to the next read. -/
theorem halves_around_refused_prompt :
    let c : Console (Duplex PlannedSource PlannedSink) :=
      { channel := ⟨{ unread := [0x61, 0x0A, 0x62, 0x0A] }, { failNext := true }⟩ }
    let d : Console (Duplex PlannedSource Written) := { channel := ⟨c.channel.source, {}⟩ }
    let silent : Console (Duplex Unread PlannedSink) := { channel := ⟨⟨[]⟩, c.channel.sink⟩ }
    let ops : List Op := [.prompt [0x3E], .input, .print (.int 7), .prompt [0x3E]]
    let reads := (served c ops).map Prod.fst
    let sources (c : Console (Duplex PlannedSource Written)) (reads : List Op) :=
      (replay c (reads.map .op)).map (Entry.seen Duplex.source)
    ((Op.prompt [0x3E]).run c).2.channel.source = c.channel.source ∧
      sources d reads = (served c ops).map (fun p => p.2.seen Duplex.source) ∧
      (sources d reads).map (·.2.2.unread) = [[0x62, 0x0A], []] ∧
      told c ops = told silent ops ∧ (told c ops).map Except.isOk = [false, true] := by
  intro c d silent ops reads sources
  obtain ⟨hserved, hrefused, htold⟩ := halves_do_not_interfere c ops
  have hprompt : refused (Op.prompt [0x3E]).question c.channel := by decide
  exact ⟨(hrefused (.prompt [0x3E]) hprompt).1, (hserved Written {}).1, by decide +kernel,
    (htold Unread ⟨[]⟩ .empty).1, by decide +kernel⟩

end LineConsole.Console
