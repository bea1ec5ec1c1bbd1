import LineConsole.Proofs.Freshness
import LineConsole.Proofs.Refusal

/-!
The parts of the calls that a device exports to C. Most are put together from output, log entries
and looks at the state; some also read, refuse a literal or set the rates. What holds of the parts
and of all sequences of them holds of the calls.
-/
namespace LineConsole.Device

open Fallible Console

/-- Writes and flushes decide what is done to the serial line, and nothing else does. -/
def Uart.IsOutput (a : Action Uart Unit) : Prop :=
  ∀ R : Uart → Uart → Prop, Channel.WritesAlike R → Agree R a a

def Uart.IsUse {α : Type} (a : Action (Console Uart) α) : Prop :=
  ∀ R : Uart → Uart → Prop, Channel.Alike R → Agree (Console.Alike R) a a

namespace Run

/-- The property is closed under all that calls do which neither read nor refuse nor set a rate. -/
structure OutputClosed (P : {α : Type} → Run α → Prop) : Prop where
  pure : ∀ {α : Type} (x : α), P (pure x)
  bind : ∀ {α β : Type} {a : Run α} {f : α → Run β}, P a → (∀ x, P (f x)) → P (a >>= f)
  get : P get
  log : ∀ e, P (log e)
  output : ∀ {a : Action Uart Unit}, Uart.IsOutput a → P (withUart a)
  ready : P (withUart fun u => (u.ready, u))

structure ConsoleClosed (P : {α : Type} → Run α → Prop) : Prop extends OutputClosed P where
  read : ∀ {a : Action (Console Uart) Bytes}, Uart.IsUse a → P (withConsole a)
  poll : P (withUart Uart.poll)
  status : ∀ status, P (setStatus status)
  throw : ∀ {α : Type} (halt : Halt), P (throw halt : Run α)

structure Closed (P : {α : Type} → Run α → Prop) : Prop extends OutputClosed P where
  begin : ∀ n, P (begin n)

section OutputClosed

variable {P : {α : Type} → Run α → Prop} (h : OutputClosed P)

include h

theorem OutputClosed.write (symbol : String) {a : Action Uart Unit} (ha : Uart.IsOutput a) :
    P (write symbol a) := by
  apply h.bind (h.output ha)
  intro result
  have hreport : P (report symbol result) := by
    rcases result with _ | fault | _
    · exact h.log _
    · exact h.log _
    · exact h.pure ()
  exact h.bind hreport fun _ => h.pure _

theorem OutputClosed.skip (e : Event) : P (skip e) := h.bind (h.log e) fun _ => h.pure _

theorem OutputClosed.foreign {call : Foreign.Call} (haccepted : call.refusal = none)
    (hcall : ¬ ∃ question, call.ReadsLine question) : P (foreign call) := by
  cases call with
  | newline => exact h.write _ fun _ => newline_agree
  | printInt n => exact h.write _ fun _ hwrites => render_agree hwrites _
  | printFloat x => exact h.write _ fun _ hwrites => render_agree hwrites _
  | printString s =>
    rw [Run.foreign]
    split
    · exact h.skip _
    · exact h.write _ fun _ hwrites => printBytes_agree hwrites _ _
  | printValues vs =>
    rw [Run.foreign]
    split
    · exact h.write _ fun _ hwrites => printValues_agree hwrites _
    · exact h.skip _
  | input => exact absurd ⟨_, .input⟩ hcall
  | inputPrompt prompt => exact absurd ⟨_, .inputPrompt prompt⟩ hcall
  | inputStatus => exact h.bind h.get fun _ => h.pure _
  | parseInt literal =>
    obtain ⟨n, hn⟩ := Literal.refusal_eq_none_iff.mp haccepted
    rw [Run.foreign, parseInt, hn]
    exact h.bind (h.pure n) fun _ => h.pure _
  | floor x =>
    rw [Run.foreign]
    dsimp only
    split
    · exact h.pure _
    · exact h.bind (h.log _) fun _ => h.pure _

theorem OutputClosed.serial {call : SerialCall} (hcall : call ≠ .receive)
    (hrate : ∀ n, call ≠ .setRate n) : P (serial call) := by
  cases call with
  | printInt n => exact h.write _ fun _ hwrites => renderInline_agree hwrites _
  | printFloat x => exact h.write _ fun _ hwrites => renderInline_agree hwrites _
  | printString s => exact h.write _ fun _ hwrites => printBytes_agree hwrites _ _
  | printIntLine n => exact h.write _ fun _ hwrites => render_agree hwrites _
  | printFloatLine x => exact h.write _ fun _ hwrites => render_agree hwrites _
  | printStringLine s => exact h.write _ fun _ hwrites => printBytes_agree hwrites _ _
  | flush => exact h.write _ fun _ hwrites => hwrites.flush
  | available =>
    apply h.bind h.ready
    intro result
    rcases result with _ | fault | ready
    · exact h.pure _
    · exact h.bind (h.log _) fun _ => h.pure _
    · exact h.pure _
  | receive => exact absurd rfl hcall
  | setRate n => exact absurd rfl (hrate n)

end OutputClosed

section ConsoleClosed

variable {P : {α : Type} → Run α → Prop} (h : ConsoleClosed P)

include h

theorem ConsoleClosed.readInto {read : Action (Console Uart) Bytes} (hread : Uart.IsUse read) :
    P (readInto read) := by
  apply h.bind (h.read hread)
  intro result
  rcases result with _ | fault | bytes
  · exact h.bind (h.log _) fun _ => h.bind (h.status _) fun _ => h.pure _
  · exact h.bind (h.log _) fun _ => h.bind (h.status _) fun _ => h.bind h.get fun _ => h.pure _
  · exact h.bind (h.status _) fun _ => h.bind h.get fun _ => h.pure _

theorem ConsoleClosed.parseInt (literal : Bytes) : P (parseInt literal) := by
  unfold Run.parseInt
  split
  · exact h.pure _
  · apply h.bind (h.output fun _ hwrites => render_agree hwrites _)
    intro result
    rcases result with _ | fault | _
    · exact h.bind (h.log _) fun _ => h.throw _
    · exact h.bind (h.log _) fun _ => h.bind (h.log _) fun _ => h.throw _
    · exact h.bind (h.log _) fun _ => h.throw _

theorem ConsoleClosed.foreign (call : Foreign.Call) : P (foreign call) := by
  by_cases hcall : ∃ question, call.ReadsLine question
  · obtain ⟨question, hquestion⟩ := hcall
    rw [foreign_readsLine hquestion]
    exact h.readInto fun _ halike => readBehind_agree halike question
  · by_cases haccepted : call.refusal = none
    · exact h.toOutputClosed.foreign haccepted hcall
    · cases call with
      | parseInt literal => exact h.bind (h.parseInt _) fun _ => h.pure _
      | _ => exact absurd rfl haccepted

theorem ConsoleClosed.serial {call : SerialCall} (hrate : ∀ n, call ≠ .setRate n) :
    P (serial call) := by
  by_cases hcall : call = .receive
  · subst hcall
    apply h.bind h.poll
    intro result
    rcases result with _ | fault | _ | byte
    · exact h.pure _
    · exact h.bind (h.log _) fun _ => h.pure _
    · exact h.pure _
    · exact h.pure _
  · exact h.toOutputClosed.serial hcall hrate

end ConsoleClosed

theorem Closed.serial {P : {α : Type} → Run α → Prop} (h : Closed P) {call : SerialCall}
    (hcall : call ≠ .receive) : P (serial call) := by
  by_cases hrate : ∃ n, call = .setRate n
  · obtain ⟨n, rfl⟩ := hrate
    exact h.bind (h.begin n) fun _ => h.pure _
  · exact h.toOutputClosed.serial hcall fun n hn => hrate ⟨n, hn⟩

end Run

end LineConsole.Device
