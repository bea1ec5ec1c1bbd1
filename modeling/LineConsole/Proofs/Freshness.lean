import LineConsole.Channel.Planned
import LineConsole.Console.Op
import LineConsole.Proofs.Device
import LineConsole.Proofs.Host
import LineConsole.Proofs.Reading

/-!
What a failed input leaves in the line. A read that fails empties the line, so nobody takes an
old line for a new one. A prompt that cannot be written is the exception: nothing is read then,
and the old line stays. Callers in C see the line through the pointer that they get, and the
fault through the input status.
-/
namespace LineConsole

namespace Console

open Fallible

variable {σ : Type}

inductive Op.ReadsLine : Op → Option Bytes → Prop
  | readLine : ReadsLine .readLine none
  | prompt (text : Bytes) : ReadsLine (.prompt text) (some text)
  | input : ReadsLine .input none
  | inputPrompt (text : String) : ReadsLine (.inputPrompt text) (some (Utf8.encode text))

theorem onChannel_apply {α : Type} (a : Action σ α) (c : Console σ) :
    onChannel a c = ((a c.channel).1, ⟨(a c.channel).2, c.line⟩) := rfl

theorem lineText_error {c c' : Console σ} {e : Fault} (h : lineText c = (.error e, c')) :
    e = .invalidUtf8 := by
  simp only [lineText, LineBuffer.text] at h
  split at h
  · cases h
  · cases h
    rfl

variable [Channel σ]

def ask : Option Bytes → Action σ Unit
  | none => pure ()
  | some text => do
      Channel.writeAll text
      Channel.flush

def refused (question : Option Bytes) (s : σ) : Bool := !((ask question s).1.isOk)

def leftover (question : Option Bytes) (c : Console σ) : LineBuffer :=
  if refused question c.channel then c.line else .empty

theorem leftover_eq_empty_iff (question : Option Bytes) (c : Console σ) :
    leftover question c = .empty ↔ (refused question c.channel → c.line = .empty) := by
  unfold leftover
  split
  · next h => simp [h]
  · next h => simp [h]

theorem leftover_pointee_eq_nil_iff (question : Option Bytes) (c : Console σ) :
    (leftover question c).pointee = [] ↔
      (refused question c.channel → c.line.pointee = []) := by
  have hempty : LineBuffer.empty.pointee = [] := rfl
  unfold leftover
  split
  · next h => simp [h]
  · next h => simp [h, hempty]

/-- A prompt is written as a whole before the first byte is read. -/
theorem prompt_apply (text : Bytes) (c : Console σ) :
    prompt text c = match ask (some text) c.channel with
      | (.ok _, s) => readLine ⟨s, c.line⟩
      | (.error e, s) => (.error e, ⟨s, c.line⟩) := by
  simp only [prompt, ask, bind_apply, onChannel_apply]
  rcases Channel.writeAll text c.channel with ⟨_ | _, s⟩
  · rfl
  · simp only
    rcases Channel.flush s with ⟨_ | _, t⟩ <;> rfl

/-- A failed prompt was refused, or the read behind it failed. -/
theorem prompt_error {text : Bytes} {c c' : Console σ} {e : Fault}
    (h : prompt text c = (.error e, c')) : c'.line = leftover (some text) c := by
  rw [prompt_apply] at h
  unfold leftover refused
  split at h
  · next s hask =>
    rw [hask]
    exact readLine_error h
  · next e' s hask =>
    cases h
    rw [hask]
    rfl

/-- Only a line that is no text stays when an input operation fails behind its prompt. -/
theorem line_of_error {op : Op} {question : Option Bytes} (hop : op.ReadsLine question)
    {c c' : Console σ} {e : Fault} (h : op.run c = (.error e, c')) (he : e ≠ .invalidUtf8) :
    c'.line = leftover question c := by
  cases hop with
  | readLine => exact readLine_error (bind_pure_error h)
  | prompt text => exact prompt_error (bind_pure_error h)
  | input =>
    rcases bind_error (bind_pure_error h) with hread | ⟨_, _, _, htext⟩
    · exact readLine_error hread
    · exact absurd (lineText_error htext) he
  | inputPrompt text =>
    rcases bind_error (bind_pure_error h) with hprompt | ⟨_, _, _, htext⟩
    · exact prompt_error hprompt
    · exact absurd (lineText_error htext) he

/-- The read behind a call from C. -/
def readBehind : Option Bytes → Action (Console σ) Bytes
  | none => readLine
  | some text => prompt text

theorem readBehind_apply (question : Option Bytes) (c : Console σ) :
    readBehind question c = match ask question c.channel with
      | (.ok _, s) => readLine ⟨s, c.line⟩
      | (.error e, s) => (.error e, ⟨s, c.line⟩) := by
  cases question with
  | none => rfl
  | some text => exact prompt_apply text c

theorem readBehind_error {question : Option Bytes} {c c' : Console σ} {e : Fault}
    (h : readBehind question c = (.error e, c')) : c'.line = leftover question c := by
  cases question with
  | none => exact readLine_error h
  | some text => exact prompt_error h

theorem readBehind_agree {τ : Type} [Channel τ] {R : σ → τ → Prop} (h : Channel.Alike R)
    (question : Option Bytes) :
    Agree (Alike R) (readBehind question : Action (Console σ) _)
      (readBehind question : Action (Console τ) _) := by
  cases question with
  | none => exact readLine_agree h.readByte
  | some text => exact prompt_agree h text

end Console

namespace Foreign

inductive Call.ReadsLine : Call → Option Bytes → Prop
  | input : ReadsLine .input none
  | inputPrompt (prompt : Pointer) : ReadsLine (.inputPrompt prompt) (some (stringOrEmpty prompt))

theorem InputStatus.exists_error {r : Except Fault α} (h : (ofResult r).code ≠ 0) :
    ∃ e, r = .error e := by
  cases r with
  | ok x => exact absurd rfl h
  | error e => exact ⟨e, rfl⟩

end Foreign

open Console Foreign

theorem Host.Run.foreign_readsLine {ω : Type} [Sink ω] {call : Foreign.Call}
    {question : Option Bytes} (h : call.ReadsLine question) :
    (Run.foreign call : Run ω Foreign.Reply) = Run.readInto (readBehind question) := by
  cases h <;> rfl

theorem Device.Run.foreign_readsLine {call : Foreign.Call} {question : Option Bytes}
    (h : call.ReadsLine question) : Run.foreign call = Run.readInto (readBehind question) := by
  cases h <;> rfl

/-- On the host, a status that tells of a fault comes with the line that the fault has left. -/
theorem Host.Session.input_status {ω : Type} [Sink ω] (s : Session ω) (hexit : s.exit = none)
    {call : Foreign.Call} {question : Option Bytes} (hcall : call.ReadsLine question) :
    ∃ bytes status p q,
      (callAll [.foreign call, .foreign .inputStatus] s).journal = s.journal ++
        [⟨.foreign call, .foreign (.string bytes), p⟩,
          ⟨.foreign .inputStatus, .foreign (.int status), q⟩] ∧
      (status ≠ 0 → bytes =
        (leftover question ⟨s.view.state.streams, s.view.thread.line⟩).pointee) := by
  cases hread : readBehind question ⟨s.view.state.streams, s.view.thread.line⟩ with
  | mk r c =>
    have hinput := Run.readInto_apply hread
    rw [← Run.foreign_readsLine hcall] at hinput
    obtain ⟨p, q, hjournal⟩ := callAll_status hexit hinput
    refine ⟨_, _, p, q, hjournal, ?_⟩
    intro hstatus
    obtain ⟨e, rfl⟩ := InputStatus.exists_error hstatus
    rw [readBehind_error hread]

/-- The line that a failed input of the device leaves, if there is a console to read from. -/
def Device.State.leftover (question : Option Bytes) (s : State) : LineBuffer :=
  match s.slot with
  | .idle line => Console.leftover question ⟨s.uart, line⟩
  | _ => .empty

theorem Device.State.leftover_pointee_eq_nil_iff (question : Option Bytes) (s : State) :
    (s.leftover question).pointee = [] ↔
      ∀ line, s.slot = .idle line → refused question s.uart → line.pointee = [] := by
  unfold State.leftover
  split
  · next line hidle =>
    rw [Console.leftover_pointee_eq_nil_iff, hidle]
    constructor
    · rintro h _ ⟨⟩
      exact h
    · intro h
      exact h line rfl
  · next hother =>
    refine iff_of_true rfl ?_
    intro line hidle
    exact absurd hidle (hother line)

/-- The same for a device, as long as its serial line does not stop. -/
theorem Device.Session.input_status (s : Session) (hhalt : s.halt = none)
    {call : Foreign.Call} {question : Option Bytes} (hcall : call.ReadsLine question)
    (hrunning : (callAll [.foreign call, .foreign .inputStatus] s).halt = none) :
    ∃ bytes status p q,
      (callAll [.foreign call, .foreign .inputStatus] s).journal = s.journal ++
        [⟨.foreign call, .foreign (.string bytes), p⟩,
          ⟨.foreign .inputStatus, .foreign (.int status), q⟩] ∧
      (status ≠ 0 → bytes = (s.state.leftover question).pointee) := by
  have hforeign := Run.foreign_readsLine hcall
  by_cases hslot : s.state.slot.IsIdle
  · obtain ⟨line, hidle⟩ := hslot
    cases hread : readBehind question ⟨s.state.uart, line⟩ with
    | mk r c =>
      have hinput := Run.readInto_idle hidle hread
      rw [← hforeign] at hinput
      by_cases hstopped : c.channel.stopped
      · rw [if_pos hstopped] at hinput
        rw [callAll_foreign_halt _ hinput] at hrunning
        cases hrunning
      · rw [if_neg hstopped] at hinput
        obtain ⟨p, q, hjournal⟩ := callAll_status hhalt hinput
        refine ⟨_, _, p, q, hjournal, ?_⟩
        intro hstatus
        obtain ⟨e, rfl⟩ := InputStatus.exists_error hstatus
        rw [State.leftover, hidle, readBehind_error hread]
  · have hinput := Run.readInto_unavailable (readBehind question) hslot
    rw [← hforeign] at hinput
    obtain ⟨p, q, hjournal⟩ := callAll_status hhalt hinput
    refine ⟨_, _, p, q, hjournal, ?_⟩
    intro _
    rw [State.leftover]
    split
    · next line hidle => exact absurd ⟨line, hidle⟩ hslot
    · rfl

/-- Whatever has happened before, a failed input of a console leaves no old line, except where
its prompt was refused and there was one. The same holds of the text to which C is pointed by a
call that the input status reports as failed, on the host and, if its serial line goes on, on
the device. -/
theorem line_of_failed_input {σ : Type} [Channel σ] (question : Option Bytes) :
    (∀ (c c' : Console σ) (op : Op) (e : Fault), op.ReadsLine question →
      op.run c = (.error e, c') → e ≠ .invalidUtf8 →
        (c'.line = .empty ↔ (refused question c.channel → c.line = .empty))) ∧
    (∀ (ω : Type) [Sink ω] (s : Host.Session ω) (call : Call), call.ReadsLine question →
      s.exit = none →
      ∃ bytes status p q,
        (Host.Session.callAll [.foreign call, .foreign .inputStatus] s).journal = s.journal ++
          [⟨.foreign call, .foreign (.string bytes), p⟩,
            ⟨.foreign .inputStatus, .foreign (.int status), q⟩] ∧
        (status ≠ 0 → (bytes = [] ↔
          (refused question s.view.state.streams → s.view.thread.line.pointee = [])))) ∧
    (∀ (s : Device.Session) (call : Call), call.ReadsLine question → s.halt = none →
      (Device.Session.callAll [.foreign call, .foreign .inputStatus] s).halt = none →
      ∃ bytes status p q,
        (Device.Session.callAll [.foreign call, .foreign .inputStatus] s).journal = s.journal ++
          [⟨.foreign call, .foreign (.string bytes), p⟩,
            ⟨.foreign .inputStatus, .foreign (.int status), q⟩] ∧
        (status ≠ 0 → (bytes = [] ↔ ∀ line, s.state.slot = .idle line →
          refused question s.state.uart → line.pointee = []))) := by
  refine ⟨?_, ?_, ?_⟩
  · intro c c' op e hop hrun he
    rw [line_of_error hop hrun he]
    exact leftover_eq_empty_iff question c
  · intro ω _ s call hcall hexit
    obtain ⟨bytes, status, p, q, hjournal, hbytes⟩ := Host.Session.input_status s hexit hcall
    refine ⟨bytes, status, p, q, hjournal, ?_⟩
    intro hstatus
    rw [hbytes hstatus]
    exact leftover_pointee_eq_nil_iff question _
  · intro s call hcall hhalt hrunning
    obtain ⟨bytes, status, p, q, hjournal, hbytes⟩ :=
      Device.Session.input_status s hhalt hcall hrunning
    refine ⟨bytes, status, p, q, hjournal, ?_⟩
    intro hstatus
    rw [hbytes hstatus]
    exact s.state.leftover_pointee_eq_nil_iff question

/-- A failed read behind an old line. -/
theorem failed_read_empties_line :
    let c : Console (Duplex PlannedSource PlannedSink) :=
      { channel := ⟨{ unread := [0x61], failAt := some 0 }, {}⟩, line := .ofBytes [0x62] }
    Op.ReadsLine .readLine none ∧ (Op.run .readLine c).1 = .error .readFailed ∧
      (Op.run .readLine c).2.line = .empty := by
  intro c
  have hrun : Op.run .readLine c = (.error .readFailed, (Op.run .readLine c).2) := rfl
  have hempty := (line_of_failed_input none).1 c _ .readLine .readFailed .readLine hrun
    (by decide)
  refine ⟨.readLine, rfl, hempty.mpr ?_⟩
  intro hrefused
  cases hrefused

/-- A prompt that is refused behind an old line. -/
theorem refused_prompt_keeps_line :
    let c : Console (Duplex PlannedSource PlannedSink) :=
      { channel := ⟨{ unread := [0x6F, 0x6C, 0x64, 0x0A] }, {}⟩ }
    let entries := replay c [.op .readLine,
      .adjust fun s => { s with sink.failNext := true }, .op (.prompt [0x3E, 0x20])]
    entries[2]?.map Entry.result = some (some (.error .writeFailed)) ∧
      entries[2]?.map (·.after.line) = some (.ofBytes [0x6F, 0x6C, 0x64]) :=
  ⟨rfl, rfl⟩

end LineConsole
