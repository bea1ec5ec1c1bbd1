import LineConsole.Proofs.Agreement
import LineConsole.Proofs.Freshness

/-!
Histories on channels that nobody can tell apart. An operation of a console only writes, or it
asks something of the input, behind a prompt if it has one. Both kinds give the same results on
channels that are alike, so a history shows the same on both, step by step.
-/
namespace LineConsole.Console

open Fallible

/-- What the operation asks of the input: a read without a prompt. -/
def Op.request? : Op → Option Op
  | .readLine | .prompt _ => some .readLine
  | .input | .inputPrompt _ => some .input
  | .inputLiteral => some .inputLiteral
  | .readByte => some .readByte
  | _ => none

def Op.question : Op → Option Bytes
  | .prompt text => some text
  | .inputPrompt text => some (Utf8.encode text)
  | _ => none

inductive Op.IsRequest : Op → Prop
  | readLine : IsRequest .readLine
  | input : IsRequest .input
  | inputLiteral : IsRequest .inputLiteral
  | readByte : IsRequest .readByte

theorem Op.isRequest_of_request? {op read : Op} (h : op.request? = some read) :
    read.IsRequest := by
  cases op <;> cases h <;> constructor

def Entry.seen {σ α : Type} (observe : σ → α) (e : Entry σ) :
    Option (Except Fault Answer) × LineBuffer × α :=
  (e.result, e.after.line, observe e.after.channel)

variable {σ τ : Type} {R : σ → τ → Prop}

theorem output_agree {a : Action σ Unit} {b : Action τ Unit} (h : Agree R a b) (c : Console σ)
    (d : Console τ) (hcd : R c.channel d.channel) :
    ∃ r u v, Op.output a c = (r, ⟨u, c.line⟩) ∧ Op.output b d = (r, ⟨v, d.line⟩) ∧ R u v := by
  obtain ⟨r, u, v, ha, hb, huv⟩ := h c.channel d.channel hcd
  refine ⟨r.map fun _ => .done, u, v, ?_, ?_, huv⟩
  · rw [Op.output, bind_apply, onChannel_apply, ha]
    cases r <;> rfl
  · rw [Op.output, bind_apply, onChannel_apply, hb]
    cases r <;> rfl

variable [Channel σ] [Channel τ]

theorem ask_agree (h : Channel.WritesAlike R) (question : Option Bytes) :
    Agree R (ask question : Action σ _) (ask question : Action τ _) := by
  cases question with
  | none => exact agree_pure ()
  | some text => exact (h.writeAll text).bind fun _ => h.flush

/-- The input is asked once the prompt is out, and not at all if it cannot be written. -/
theorem Op.run_request {op read : Op} (h : op.request? = some read) (c : Console σ) :
    op.run c = match ask op.question c.channel with
      | (.ok _, s) => read.run ⟨s, c.line⟩
      | (.error e, s) => (.error e, ⟨s, c.line⟩) := by
  cases op with
  | readLine | input | inputLiteral | readByte =>
    cases h
    rfl
  | prompt text =>
    cases h
    show (Console.prompt text >>= fun line => pure (Answer.bytes line)) c = _
    rw [bind_apply, prompt_apply, Op.question]
    rcases ask (some text) c.channel with ⟨_ | _, s⟩
    · rfl
    · exact (bind_apply Console.readLine _ _).symm
  | inputPrompt text =>
    cases h
    show ((Console.prompt (Utf8.encode text) >>= fun _ => lineText) >>= fun text =>
      pure (Answer.text text)) c = _
    rw [bind_apply, bind_apply, prompt_apply, Op.question]
    rcases ask (some (Utf8.encode text)) c.channel with ⟨_ | _, s⟩
    · rfl
    · show _ = ((Console.readLine >>= fun _ => lineText) >>= fun text =>
        pure (Answer.text text)) _
      rw [bind_apply, bind_apply]
  | _ => cases h

theorem Op.run_read_agree
    (h : Agree R (Channel.readByte : Action σ _) (Channel.readByte : Action τ _)) {read : Op}
    (hread : read.IsRequest) :
    Agree (Alike R) (read.run : Action (Console σ) _) (read.run : Action (Console τ) _) := by
  cases hread with
  | readLine => exact (readLine_agree h).bind fun _ => agree_pure _
  | input => exact ((readLine_agree h).bind fun _ => lineText_agree).bind fun _ => agree_pure _
  | inputLiteral => exact (readLine_agree h).bind fun _ => agree_pure _
  | readByte => exact (onChannel_agree h).bind fun _ => agree_pure _

/-- An operation that asks nothing of the input does not see the line, and it leaves it alone. -/
theorem Op.run_output_agree (h : Channel.WritesAlike R) {op : Op} (hop : op.request? = none)
    (c : Console σ) (d : Console τ) (hcd : R c.channel d.channel) :
    ∃ r u v, op.run c = (r, ⟨u, c.line⟩) ∧ op.run d = (r, ⟨v, d.line⟩) ∧ R u v := by
  cases op with
  | print v => exact output_agree (render_agree h _) c d hcd
  | printInline v => exact output_agree (renderInline_agree h _) c d hcd
  | printValues vs => exact output_agree (printValues_agree h vs) c d hcd
  | newline => exact output_agree (newline_agree h) c d hcd
  | printBytes bytes withNewline => exact output_agree (printBytes_agree h bytes withNewline) c d hcd
  | render r => exact output_agree (render_agree h r) c d hcd
  | renderInline r => exact output_agree (renderInline_agree h r) c d hcd
  | writeAll bytes => exact output_agree (h.writeAll bytes) c d hcd
  | flush => exact output_agree h.flush c d hcd
  | _ => cases hop

theorem Op.run_agree (h : Channel.Alike R) (op : Op) :
    Agree (Alike R) (op.run : Action (Console σ) _) (op.run : Action (Console τ) _) := by
  intro c d hcd
  cases hop : op.request? with
  | none =>
    obtain ⟨r, u, v, hc, hd, huv⟩ := Op.run_output_agree h.writes hop c d hcd.1
    exact ⟨r, _, _, hc, hd, huv, hcd.2⟩
  | some read =>
    obtain ⟨asked, u, v, hs, ht, huv⟩ := ask_agree h.writes op.question _ _ hcd.1
    rw [Op.run_request hop, Op.run_request hop, hs, ht]
    cases asked with
    | error e => exact ⟨.error e, _, _, rfl, rfl, huv, hcd.2⟩
    | ok _ => exact Op.run_read_agree h.readByte (Op.isRequest_of_request? hop) _ _ ⟨huv, hcd.2⟩

/-- A history shows the same on channels that are alike. -/
theorem replay_seen {α : Type} (h : Channel.Alike R) {observe : σ → α} {observe' : τ → α}
    (hobserve : ∀ s t, R s t → observe s = observe' t) {c : Console σ} {d : Console τ}
    (hcd : Alike R c d) (ops : List Op) :
    (replay c (ops.map .op)).map (Entry.seen observe) =
      (replay d (ops.map .op)).map (Entry.seen observe') := by
  induction ops generalizing c d with
  | nil => rfl
  | cons op rest ih =>
    obtain ⟨r, u, v, hc, hd, huv⟩ := Op.run_agree h op c d hcd
    simp only [List.map_cons, replay, Event.run, hc, hd, ih huv]
    rw [Entry.seen, Entry.seen, huv.2, hobserve _ _ huv.1]

end LineConsole.Console
