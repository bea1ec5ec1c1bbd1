import LineConsole.Channel.Memory
import LineConsole.Proofs.Reading
import LineConsole.Proofs.Texts

/-!
Lines read as texts. The input is cut by counting bytes, so a long line of an input that is a
text as a whole may be cut inside a character. The pieces on both sides of such a cut are
refused, and no others are.
-/
namespace LineConsole.Console

open LineBuffer Channel Pieces Fallible Utf8

theorem text_ofBytes_encode (line : String) : (ofBytes (encode line)).text = .ok line := by
  rw [LineBuffer.text, bytes_ofBytes, decode?_eq_some_iff.mpr rfl]

theorem text_ofBytes_of_not_isText {p : Bytes} (hp : ¬ IsText p) :
    (ofBytes p).text = .error .invalidUtf8 := by
  rw [LineBuffer.text, bytes_ofBytes]
  split
  · next text hdecode => exact absurd ⟨text, decode?_eq_some_iff.mp hdecode⟩ hp
  · rfl

variable {σ : Type}

/-- A line is read before it is seen whether it is a text. -/
theorem lineText_behind {read : Action (Console σ) Bytes}
    (hread : ∀ {c c' : Console σ} {bytes : Bytes}, read c = (.ok bytes, c') →
      c'.line.bytes = bytes) (c : Console σ) :
    (read >>= fun _ => lineText) c =
      ((read c).1.bind fun bytes => (ofBytes bytes).text, (read c).2) := by
  rw [bind_apply]
  cases hc : read c with
  | mk r c' =>
    cases r with
    | error e => rfl
    | ok bytes =>
      have hline := hread hc
      simp only [lineText, LineBuffer.text, Except.bind, bytes_ofBytes, hline]

variable [Channel σ]

theorem readLine_ok {c c' : Console σ} {bytes : Bytes} (h : readLine c = (.ok bytes, c')) :
    c'.line.bytes = bytes := by
  unfold readLine at h
  split at h
  · cases h
    rfl
  · cases h

theorem input_apply (c : Console σ) :
    input c = ((readLine c).1.bind fun bytes => (ofBytes bytes).text, (readLine c).2) :=
  lineText_behind readLine_ok c

theorem answer_input (k : Nat) (c : Console σ) :
    answer input k c = (answer readLine k c).bind fun bytes => (ofBytes bytes).text := by
  induction k generalizing c with
  | zero => rw [answer_zero, answer_zero, input_apply]
  | succ k ih => rw [answer_succ, answer_succ, ih, input_apply]

/-- The piece that the call behind `k` others takes begins and ends between characters. -/
def Whole (bytes : Bytes) (k : Nat) : Prop :=
  IsText ((cut bytes).take k).flatten ∧ IsText ((cut bytes).take (k + 1)).flatten

theorem isText_content_iff_whole {bytes p : Bytes} {k : Nat} (htext : IsText bytes)
    (h : (cut bytes)[k]? = some p) : IsText (content p) ↔ Whole bytes k := by
  have hnext : ((cut bytes).take (k + 1)).flatten = ((cut bytes).take k).flatten ++ p := by
    rw [List.take_add_one, h, List.flatten_append]
    simp
  have hall : ((cut bytes).take k).flatten ++ p ++ ((cut bytes).drop (k + 1)).flatten = bytes := by
    rw [← hnext, ← List.flatten_append, List.take_append_drop, cut_flatten]
  rw [isText_content, Whole, hnext]
  exact isText_part (hall.symm ▸ htext) (ne_nil_of_mem_cut (List.mem_of_getElem? h))

/-- Of an input that is a text, each call gives the next piece as a text if no character is cut
at either of its ends, and refuses it otherwise. Behind the last piece comes only the end. -/
theorem input_text (c : Console σ) (text : String) (h : Serves c.channel (encode text))
    (k : Nat) :
    ((cut (encode text)).length ≤ k → answer input k c = .error .endOfStream) ∧
      ∀ p, (cut (encode text))[k]? = some p →
        (Whole (encode text) k →
          ∃ line, answer input k c = .ok line ∧ encode line = content p) ∧
        (¬ Whole (encode text) k → answer input k c = .error .invalidUtf8) := by
  have htext : IsText (encode text) := ⟨text, rfl⟩
  have hread := (answer_readLine h k).1
  constructor
  · intro hk
    rw [answer_input, hread, List.getElem?_eq_none hk]
    rfl
  · intro p hp
    rw [hp] at hread
    have hcall : answer input k c = (ofBytes (content p)).text := by
      rw [answer_input, hread]
      rfl
    have hwhole := isText_content_iff_whole htext hp
    constructor
    · intro hk
      obtain ⟨line, hline⟩ := hwhole.mpr hk
      refine ⟨line, ?_, hline.symm⟩
      rw [hcall, hline, text_ofBytes_encode]
    · intro hk
      rw [hcall]
      exact text_ofBytes_of_not_isText fun hcontent => hk (hwhole.mp hcontent)

theorem input_short_text :
    let text := "é\n"
    Serves (ofMemory (encode text)).channel (encode text) ∧
      (∃ line, answer input 0 (ofMemory (encode text)) = .ok line ∧ encode line = encode "é") ∧
      answer input 1 (ofMemory (encode text)) = .error .endOfStream := by
  intro text
  have hserves := serves_ofMemory (encode text)
  have hcut : cut (encode text) = [encode text] := by decide +kernel
  have hwhole : Whole (encode text) 0 := by
    rw [Whole, hcut]
    exact ⟨⟨"", rfl⟩, text, List.append_nil _⟩
  obtain ⟨hended, -⟩ := input_text (ofMemory (encode text)) text hserves 1
  obtain ⟨-, hpieces⟩ := input_text (ofMemory (encode text)) text hserves 0
  obtain ⟨hline, -⟩ := hpieces (encode text) (by rw [hcut]; rfl)
  refine ⟨hserves, ?_, hended (by rw [hcut]; exact Nat.le_refl 1)⟩
  obtain ⟨line, hcall, hcontent⟩ := hline hwhole
  have hletter : content (encode text) = encode "é" := by decide +kernel
  exact ⟨line, hcall, hcontent.trans hletter⟩

/-- One line of a text, with a character of two bytes on the place where the line is cut. -/
def cutText : String := String.ofList (List.replicate 254 'a' ++ ['é', '\n'])

theorem toList_cutText : cutText.toList = List.replicate 254 'a' ++ ['é', '\n'] :=
  String.toList_ofList

theorem input_refuses_text :
    ¬ ∀ (c : Console Memory) (text : String) (k : Nat), Serves c.channel (encode text) →
      answer input k c ≠ .error .invalidUtf8 := by
  intro hall
  have hserves := serves_ofMemory (encode cutText)
  have hcall : answer input 0 (ofMemory (encode cutText)) = .error .invalidUtf8 := by
    rw [encode, toList_cutText]
    decide +kernel
  exact hall _ _ 0 hserves hcall

end LineConsole.Console
