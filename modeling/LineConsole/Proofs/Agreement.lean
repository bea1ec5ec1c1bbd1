import LineConsole.Console
import LineConsole.Proofs.Fallible

/-!
Consoles that nobody can tell apart. Two channels are alike under a relation of their states if
every operation gives the same result on both and leads to related states again. Then the same
holds of all that a console does with them, and its line is the same on both. For output it is
enough that writes and flushes agree. A relation of states to themselves makes this a statement
about what a console leaves unchanged.
-/
namespace LineConsole

namespace Fallible

/-- From related states both give the same result and lead to related states. -/
def Agree {ρ σ τ : Type} (R : σ → τ → Prop) (a : σ → ρ × σ) (b : τ → ρ × τ) : Prop :=
  ∀ s t, R s t → ∃ r u v, a s = (r, u) ∧ b t = (r, v) ∧ R u v

variable {ε σ τ α β : Type} {R : σ → τ → Prop}

theorem agree_pure (x : α) :
    Agree R (pure x : Fallible ε σ α) (pure x : Fallible ε τ α) :=
  fun s t h => ⟨.ok x, s, t, rfl, rfl, h⟩

theorem Agree.bind {a : Fallible ε σ α} {b : Fallible ε τ α}
    {f : α → Fallible ε σ β} {g : α → Fallible ε τ β} (hab : Agree R a b)
    (hfg : ∀ x, Agree R (f x) (g x)) : Agree R (a >>= f) (b >>= g) := by
  intro s t h
  obtain ⟨r, u, v, ha, hb, huv⟩ := hab s t h
  rw [bind_apply, bind_apply, ha, hb]
  cases r with
  | ok x => exact hfg x u v huv
  | error e => exact ⟨.error e, u, v, rfl, rfl, huv⟩

end Fallible

open Fallible

structure Channel.Alike {σ τ : Type} [Channel σ] [Channel τ] (R : σ → τ → Prop) : Prop where
  readByte : Agree R (readByte : Action σ _) (readByte : Action τ _)
  writeAll : ∀ bytes, Agree R (writeAll bytes : Action σ _) (writeAll bytes : Action τ _)
  flush : Agree R (flush : Action σ _) (flush : Action τ _)

structure Channel.WritesAlike {σ τ : Type} [Channel σ] [Channel τ] (R : σ → τ → Prop) : Prop where
  writeAll : ∀ bytes, Agree R (writeAll bytes : Action σ _) (writeAll bytes : Action τ _)
  flush : Agree R (flush : Action σ _) (flush : Action τ _)

theorem Channel.Alike.writes {σ τ : Type} [Channel σ] [Channel τ] {R : σ → τ → Prop}
    (h : Alike R) : WritesAlike R := ⟨h.writeAll, h.flush⟩

namespace Console

def Alike {σ τ : Type} (R : σ → τ → Prop) (c : Console σ) (d : Console τ) : Prop :=
  R c.channel d.channel ∧ c.line = d.line

theorem onChannel_agree {σ τ α : Type} {R : σ → τ → Prop} {a : Action σ α} {b : Action τ α}
    (h : Agree R a b) : Agree (Alike R) (onChannel a) (onChannel b) := by
  intro c d hcd
  obtain ⟨r, u, v, ha, hb, huv⟩ := h c.channel d.channel hcd.1
  refine ⟨r, ⟨u, c.line⟩, ⟨v, d.line⟩, ?_, ?_, huv, hcd.2⟩
  · rw [onChannel, on, ha]
  · rw [onChannel, on, hb]

theorem lineText_agree {σ τ : Type} {R : σ → τ → Prop} :
    Agree (Alike R) (lineText : Action (Console σ) _) (lineText : Action (Console τ) _) := by
  intro c d hcd
  refine ⟨c.line.text, c, d, rfl, ?_, hcd⟩
  rw [hcd.2]
  rfl

end Console

variable {σ τ : Type} [Channel σ] [Channel τ] {R : σ → τ → Prop}

namespace Rendering

theorem runFrom_agree (h : Channel.WritesAlike R) (r : Rendering) (last : Option Fault) :
    Agree R (fun s : σ => r.runFrom last s) (fun t : τ => r.runFrom last t) := by
  induction r generalizing last with
  | done ok => exact fun s t hst => ⟨(ok, last), s, t, rfl, rfl, hst⟩
  | piece text next ih =>
    intro s t hst
    obtain ⟨r, u, v, hs, ht, huv⟩ := h.writeAll (Utf8.encode text) s t hst
    simp only [runFrom, hs, ht]
    cases r with
    | ok _ => exact ih true last u v huv
    | error e => exact ih false (some e) u v huv

theorem write_agree (h : Channel.WritesAlike R) (r : Rendering) :
    Agree R (write r : Action σ _) (write r : Action τ _) := by
  intro s t hst
  obtain ⟨⟨ok, last⟩, u, v, hs, ht, huv⟩ := runFrom_agree h r none s t hst
  simp only [write, hs, ht]
  cases last with
  | some e => exact ⟨.error e, u, v, rfl, rfl, huv⟩
  | none =>
    cases ok with
    | false => exact ⟨.error .writeFailed, u, v, rfl, rfl, huv⟩
    | true => exact ⟨.ok (), u, v, rfl, rfl, huv⟩

end Rendering

namespace Console

/-! Output -/

theorem newline_agree (h : Channel.WritesAlike R) :
    Agree R (newline : Action σ _) (newline : Action τ _) :=
  (h.writeAll newlineBytes).bind fun _ => h.flush

theorem render_agree (h : Channel.WritesAlike R) (r : Rendering) :
    Agree R (render r : Action σ _) (render r : Action τ _) :=
  (Rendering.write_agree h r).bind fun _ => newline_agree h

theorem renderInline_agree (h : Channel.WritesAlike R) (r : Rendering) :
    Agree R (renderInline r : Action σ _) (renderInline r : Action τ _) :=
  (Rendering.write_agree h r).bind fun _ => h.flush

theorem writeRest_agree (h : Channel.WritesAlike R) (vs : List Value) :
    Agree R (writeRest vs : Action σ _) (writeRest vs : Action τ _) := by
  induction vs with
  | nil => exact agree_pure ()
  | cons v rest ih =>
    apply (h.writeAll [0x20]).bind
    intro _
    apply (Rendering.write_agree h (.ofPieces v.pieces)).bind
    intro _
    exact ih

theorem printValues_agree (h : Channel.WritesAlike R) (vs : List Value) :
    Agree R (printValues vs : Action σ _) (printValues vs : Action τ _) := by
  have hvalues : Agree R (writeValues vs : Action σ _) (writeValues vs : Action τ _) := by
    cases vs with
    | nil => exact agree_pure ()
    | cons v rest =>
      apply (Rendering.write_agree h (.ofPieces v.pieces)).bind
      intro _
      exact writeRest_agree h rest
  exact hvalues.bind fun _ => newline_agree h

theorem printBytes_agree (h : Channel.WritesAlike R) (bytes : Bytes) (withNewline : Bool) :
    Agree R (printBytes bytes withNewline : Action σ _)
      (printBytes bytes withNewline : Action τ _) := by
  apply (h.writeAll bytes).bind
  intro _
  cases withNewline with
  | false => exact h.flush
  | true => exact newline_agree h

/-! Input -/

theorem fill_agree (h : Agree R (Channel.readByte : Action σ _) (Channel.readByte : Action τ _))
    (room : Nat) :
    Agree (Alike R) (fill room : Action (Console σ) _) (fill room : Action (Console τ) _) := by
  induction room with
  | zero => exact fun c d hcd => ⟨.ok (), c, d, rfl, rfl, hcd⟩
  | succ room ih =>
    intro c d hcd
    obtain ⟨hchannel, hline⟩ := hcd
    obtain ⟨r, s, t, hc, hd, hst⟩ := h c.channel d.channel hchannel
    simp only [fill, hc, hd, hline]
    rcases r with e | _ | byte
    · exact ⟨.error e, ⟨s, .empty⟩, ⟨t, .empty⟩, rfl, rfl, hst, rfl⟩
    · exact ⟨_, ⟨s, d.line⟩, ⟨t, d.line⟩, rfl, rfl, hst, rfl⟩
    · simp only
      split
      · exact ⟨.ok (), _, _, rfl, rfl, hst, rfl⟩
      · exact ih _ _ ⟨hst, rfl⟩

theorem readLine_agree
    (h : Agree R (Channel.readByte : Action σ _) (Channel.readByte : Action τ _)) :
    Agree (Alike R) (readLine : Action (Console σ) _) (readLine : Action (Console τ) _) := by
  intro c d hcd
  obtain ⟨r, ⟨s, line⟩, ⟨t, line'⟩, hc, hd, hst, hline⟩ :=
    fill_agree h (LineBuffer.capacity - 1) { c with line := .empty } { d with line := .empty }
      ⟨hcd.1, rfl⟩
  obtain rfl : line = line' := hline
  simp only [readLine, hc, hd]
  cases r with
  | ok _ => exact ⟨.ok line.strip.bytes, _, _, rfl, rfl, hst, rfl⟩
  | error e => exact ⟨.error e, _, _, rfl, rfl, hst, rfl⟩

theorem prompt_agree (h : Channel.Alike R) (text : Bytes) :
    Agree (Alike R) (prompt text : Action (Console σ) _) (prompt text : Action (Console τ) _) := by
  apply (onChannel_agree (h.writeAll text)).bind
  intro _
  apply (onChannel_agree h.flush).bind
  intro _
  exact readLine_agree h.readByte

theorem input_agree (h : Channel.Alike R) :
    Agree (Alike R) (input : Action (Console σ) _) (input : Action (Console τ) _) :=
  (readLine_agree h.readByte).bind fun _ => lineText_agree

theorem inputPrompt_agree (h : Channel.Alike R) (text : String) :
    Agree (Alike R) (inputPrompt text : Action (Console σ) _)
      (inputPrompt text : Action (Console τ) _) :=
  (prompt_agree h (Utf8.encode text)).bind fun _ => lineText_agree

end Console

end LineConsole
