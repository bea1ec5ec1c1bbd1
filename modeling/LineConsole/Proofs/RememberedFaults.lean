import LineConsole.Channel.Memory
import LineConsole.Console
import LineConsole.Device.Uart
import LineConsole.Host.Streams

/-!
Renderings that meet more than one fault. A channel may give another fault at every write, and a
rendering that goes on behind a fault can meet several of them in one operation, which reports
only one. What is remembered of a fault gives way to the next, so the last is reported. The first
is reported if it cannot be told from the last: where a rendering stops at its first fault, and on
a channel whose writes all fail alike, as they do on the streams of a host process and on a serial
line.
-/
namespace LineConsole

open Fallible

def Channel.FailsWith (σ : Type) [Channel σ] (e : Fault) : Prop :=
  ∀ (bytes : Bytes) (s : σ) (e' : Fault), (Channel.writeAll bytes s).1 = .error e' → e' = e

namespace Rendering

variable {σ : Type} [Channel σ]

/-- The faults of the pieces that cannot be written, in their order. -/
def failures : Rendering → σ → List Fault
  | .done _, _ => []
  | .piece text next, s =>
      match Channel.writeAll (Utf8.encode text) s with
      | (.ok _, s) => (next true).failures s
      | (.error e, s) => e :: (next false).failures s

theorem failures_of_ok {text : String} {s t : σ} (next : Bool → Rendering)
    (h : Channel.writeAll (Utf8.encode text) s = (.ok (), t)) :
    (piece text next).failures s = (next true).failures t := by
  rw [failures, h]

theorem failures_of_error {text : String} {s t : σ} {e : Fault} (next : Bool → Rendering)
    (h : Channel.writeAll (Utf8.encode text) s = (.error e, t)) :
    (piece text next).failures s = e :: (next false).failures t := by
  rw [failures, h]

/-! What is remembered -/

/-- A fault takes the place of what was remembered before it. -/
theorem getLast?_cons_or (e : Fault) (faults : List Fault) (last : Option Fault) :
    (e :: faults).getLast?.or last = faults.getLast?.or (some e) := by
  rw [List.getLast?_cons]
  cases faults.getLast? with
  | none => rfl
  | some e' => rfl

theorem runFrom_remembers (r : Rendering) (last : Option Fault) (s : σ) :
    (r.runFrom last s).1.2 = (r.failures s).getLast?.or last := by
  induction r generalizing last s with
  | done ok => rfl
  | piece text next ih =>
    rcases hwrite : Channel.writeAll (Utf8.encode text) s with ⟨e | _, t⟩
    · rw [failures_of_error next hwrite, getLast?_cons_or, runFrom, hwrite]
      exact ih false (some e) t
    · rw [failures_of_ok next hwrite, runFrom, hwrite]
      exact ih true last t

/-- Whatever the rendering declares, a fault of the channel is the result, the last one. -/
theorem write_of_failures (r : Rendering) (s : σ) (h : r.failures s ≠ []) :
    (r.write s).1 = .error ((r.failures s).getLast h) := by
  have hlast := r.runFrom_remembers none s
  rw [Option.or_none, List.getLast?_eq_some_getLast h] at hlast
  rcases hrun : r.runFrom none s with ⟨⟨ok, last⟩, t⟩
  rw [hrun] at hlast
  rw [write, hrun, show last = _ from hlast]

/-- Behind a fault nothing more is asked of the channel. -/
theorem write_bind_of_failures (r : Rendering) (a : Action σ Unit) (s : σ)
    (h : r.failures s ≠ []) :
    (r.write >>= fun _ => a) s = (.error ((r.failures s).getLast h), (r.write s).2) := by
  have hwrite := r.write_of_failures s h
  rw [bind_apply]
  rcases hrun : r.write s with ⟨result, t⟩
  rw [hrun] at hwrite
  rw [show result = _ from hwrite]

/-! The first fault and the last -/

/-- Told of a fault, a sequence of pieces is done. -/
theorem failures_sequence_length (ok : Bool) (pieces : List String) (s : σ) :
    ((sequence ok pieces).failures s).length ≤ 1 := by
  induction pieces generalizing s with
  | nil => exact Nat.zero_le 1
  | cons text rest ih =>
    rcases hwrite : Channel.writeAll (Utf8.encode text) s with ⟨e | _, t⟩
    · rw [sequence, failures_of_error _ hwrite]
      exact Nat.le_refl 1
    · rw [sequence, failures_of_ok _ hwrite]
      exact ih t

theorem failures_sequence_head (ok : Bool) (pieces : List String) (s : σ)
    (h : (sequence ok pieces).failures s ≠ []) :
    ((sequence ok pieces).failures s).head h = ((sequence ok pieces).failures s).getLast h := by
  have hlength := failures_sequence_length ok pieces s
  obtain ⟨e, hsingle⟩ := List.length_eq_one_iff.mp
    (Nat.le_antisymm hlength (List.length_pos_iff.mpr h))
  simp only [hsingle, List.head_cons, List.getLast_singleton]

theorem failures_alike {e : Fault} (hchannel : Channel.FailsWith σ e) (r : Rendering) (s : σ) :
    ∀ e' ∈ r.failures s, e' = e := by
  induction r generalizing s with
  | done ok =>
    intro e' he'
    cases he'
  | piece text next ih =>
    rcases hwrite : Channel.writeAll (Utf8.encode text) s with ⟨e' | _, t⟩
    · rw [failures_of_error next hwrite, List.forall_mem_cons]
      exact ⟨hchannel _ s e' (congrArg Prod.fst hwrite), ih false t⟩
    · rw [failures_of_ok next hwrite]
      exact ih true t

theorem failures_alike_head {e : Fault} (hchannel : Channel.FailsWith σ e) (r : Rendering) (s : σ)
    (h : r.failures s ≠ []) : (r.failures s).head h = (r.failures s).getLast h := by
  have hfirst := failures_alike hchannel r s _ (List.head_mem h)
  have hlast := failures_alike hchannel r s _ (List.getLast_mem h)
  rw [hfirst, hlast]

end Rendering

/-! Channels whose writes fail alike -/

theorem Device.Uart.failsWith : Channel.FailsWith Uart .writeFailed := by
  intro bytes u e h
  have hwrite : (writeAll bytes u).1 = .error e := h
  simp only [writeAll] at hwrite
  split at hwrite
  · exact (Except.error.inj hwrite).symm
  · split at hwrite
    · cases hwrite
    · split at hwrite
      · cases hwrite
      · -- Whatever the budget of failing writes allows, this one fails.
        rw [spend.eq_def] at hwrite
        split at hwrite <;> exact (Except.error.inj hwrite).symm

theorem Host.Streams.failsWith : Channel.FailsWith (Streams Stdout) .writeFailed := by
  intro bytes s e h
  have hwrite : (Sink.writeAll bytes s.output).1 = .error e := h
  simp only [Sink.writeAll] at hwrite
  split at hwrite
  · cases hwrite
  · split at hwrite
    · cases hwrite
    · exact (Except.error.inj hwrite).symm

namespace Console

variable {σ : Type} [Channel σ]

/-- An output operation whose rendering meets a fault ends with the last one, and leaves the
channel as the rendering has left it. -/
structure ReportsLastFault (a : Action σ Unit) (r : Rendering) (s : σ) (h : r.failures s ≠ []) :
    Prop where
  ends : a s = (.error ((r.failures s).getLast h), (r.write s).2)
  first_iff : (a s).1 = .error ((r.failures s).head h) ↔
    (r.failures s).head h = (r.failures s).getLast h
  /-- The rendering stops at its first fault. -/
  first_of_sequence : ∀ ok pieces, r = .sequence ok pieces →
    (a s).1 = .error ((r.failures s).head h)
  first_of_alike : ∀ e, Channel.FailsWith σ e → (a s).1 = .error ((r.failures s).head h)

theorem reportsLastFault_bind (r : Rendering) (a : Action σ Unit) (s : σ)
    (h : r.failures s ≠ []) : ReportsLastFault (r.write >>= fun _ => a) r s h := by
  have hends := r.write_bind_of_failures a s h
  have hiff : ((r.write >>= fun _ => a) s).1 = .error ((r.failures s).head h) ↔
      (r.failures s).head h = (r.failures s).getLast h := by
    rw [hends, Except.error.injEq]
    exact eq_comm
  exact {
    ends := hends
    first_iff := hiff
    first_of_sequence := by
      intro ok pieces hr
      subst hr
      exact hiff.mpr (Rendering.failures_sequence_head ok pieces s h)
    first_of_alike := by
      intro e hchannel
      exact hiff.mpr (Rendering.failures_alike_head hchannel r s h) }

/-- Nobody who prints on a serial line can tell the first fault from the last. -/
theorem first_fault_on_serial_line (r : Rendering) (u : Device.Uart) (h : r.failures u ≠ []) :
    (render r u).1 = .error ((r.failures u).head h) ∧
      (renderInline r u).1 = .error ((r.failures u).head h) :=
  ⟨(reportsLastFault_bind r newline u h).first_of_alike _ Device.Uart.failsWith,
    (reportsLastFault_bind r Channel.flush u h).first_of_alike _ Device.Uart.failsWith⟩

/-- Nor can anybody who prints in a host process. -/
theorem first_fault_on_standard_output (r : Rendering) (s : Host.Streams Host.Stdout)
    (h : r.failures s ≠ []) :
    (render r s).1 = .error ((r.failures s).head h) ∧
      (renderInline r s).1 = .error ((r.failures s).head h) :=
  ⟨(reportsLastFault_bind r newline s h).first_of_alike _ Host.Streams.failsWith,
    (reportsLastFault_bind r Channel.flush s h).first_of_alike _ Host.Streams.failsWith⟩

/-- With a newline or without, the last fault of a rendering is reported. -/
theorem rendering_reports_last_fault (r : Rendering) (s : σ) (h : r.failures s ≠ []) :
    ReportsLastFault (render r) r s h ∧ ReportsLastFault (renderInline r) r s h :=
  ⟨reportsLastFault_bind r newline s h, reportsLastFault_bind r Channel.flush s h⟩

end Console

/-- Every write ends as planned, and those behind the plan succeed. -/
structure FaultPlan where
  plan : List (Option Fault)
  written : Bytes := []
  deriving DecidableEq

instance : Sink FaultPlan where
  writeAll bytes s := match s.plan with
    | some e :: rest => (.error e, { s with plan := rest })
    | none :: rest => (.ok (), ⟨rest, s.written ++ bytes⟩)
    | [] => (.ok (), { s with written := s.written ++ bytes })
  flush s := (.ok (), s)

namespace Console

/-- The second piece is written between two faults. -/
theorem rendering_reports_last_of_two :
    let s : Duplex Unread FaultPlan := ⟨⟨[]⟩, { plan := [some .readFailed, none, some .writeFailed] }⟩
    let r : Rendering := .persistent ["a", "b", "c"]
    r.failures s = [.readFailed, .writeFailed] ∧
      ∃ h : r.failures s ≠ [], ReportsLastFault (render r) r s h ∧
        ReportsLastFault (renderInline r) r s h := by
  intro s r
  have hfailures : r.failures s = [.readFailed, .writeFailed] := by rfl
  have h : r.failures s ≠ [] := by
    rw [hfailures]
    exact List.cons_ne_nil _ _
  exact ⟨hfailures, h, rendering_reports_last_fault r s h⟩

/-- A rendering that goes on behind a fault ends with another one. -/
theorem rendering_forgets_first_fault :
    let s : Duplex Unread FaultPlan := ⟨⟨[]⟩, { plan := [some .readFailed, some .writeFailed] }⟩
    let r : Rendering := .persistent ["a", "b"]
    (r.failures s).head? = some .readFailed ∧
      (render r s).1 = .error .writeFailed ∧ (renderInline r s).1 = .error .writeFailed := by
  intro s r
  exact ⟨by rfl, by rfl, by rfl⟩

end Console

end LineConsole
