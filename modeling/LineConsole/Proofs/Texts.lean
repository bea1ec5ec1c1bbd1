import LineConsole.Proofs.Content
import LineConsole.Proofs.Utf8

/-!
Where a text may be cut. The part between two places of a text is a text again if and only if
neither place is inside a character, for a byte inside a character begins nothing. Terminators
are characters of their own, so the content of a piece is as good a text as the piece.
-/
namespace LineConsole.Utf8

def IsText (bytes : Bytes) : Prop := ∃ text, bytes = encode text

theorem isText_iff {bytes : Bytes} : IsText bytes ↔ none ∉ scan bytes := by
  refine ⟨?_, exists_encode⟩
  rintro ⟨text, rfl⟩
  simp [scan_encode]

/-- What stands behind a text decides whether both together are one. -/
theorem IsText.append_iff {a : Bytes} (ha : IsText a) (b : Bytes) :
    IsText (a ++ b) ↔ IsText b := by
  obtain ⟨text, rfl⟩ := ha
  rw [isText_iff, isText_iff, scan_encode_append]
  simp

theorem isText_char (c : Char) : IsText (String.utf8EncodeChar c) :=
  ⟨String.ofList [c], by simp [encode]⟩

theorem isText_singleton {b : UInt8} (hb : b.toNat < 0x80) : IsText [b] := by
  have hencode := (Spelling.one hb).encode
  exact hencode ▸ isText_char _

theorem IsText.not_isTail {b : UInt8} {rest : Bytes} (h : IsText (b :: rest)) : ¬ IsTail b := by
  intro hb
  unfold IsTail at hb
  rw [isText_iff, scan, scanFrom_start_cons, first_invalid (by omega)] at h
  exact h List.mem_cons_self

/-- Behind its first byte a spelling has only tail bytes. -/
theorem Spelling.isTail {n : Nat} {a : UInt8} {l : Bytes} (h : Spelling n (a :: l)) :
    ∀ b ∈ l, IsTail b := by
  cases h with
  | one ha => simp
  | two hlow hhigh hb => simpa using hb
  | three hlow hhigh hb hc => simpa using ⟨hb.1, hc⟩
  | four hlow hhigh hb hc hd => simpa using ⟨hb.1, hc, hd⟩

/-- A text may be cut in front of a byte that begins a character. -/
theorem isText_of_append {a b : Bytes} (h : IsText (a ++ b))
    (hb : ∀ x rest, b = x :: rest → ¬ IsTail x) : IsText a := by
  obtain ⟨text, htext⟩ := h
  rw [encode] at htext
  generalize text.toList = chars at htext
  induction chars generalizing a with
  | nil => exact ⟨"", (List.append_eq_nil_iff.mp htext).1⟩
  | cons c chars ih =>
    rw [List.flatMap_cons] at htext
    rcases List.append_eq_append_iff.mp htext with ⟨m, hchar, hback⟩ | ⟨m, rfl, hchars⟩
    · cases m with
      | nil =>
        rw [List.append_nil] at hchar
        exact hchar ▸ isText_char c
      | cons x m =>
        cases a with
        | nil => exact ⟨"", rfl⟩
        | cons y a =>
          -- The cut would be inside the first character.
          have hspelling := spelling_char c
          rw [hchar] at hspelling
          have hx := hspelling.isTail x (by simp)
          exact absurd hx (hb x _ hback)
    · exact ((isText_char c).append_iff m).mpr (ih hchars.symm)

/-- A part of a text is a text if and only if it begins and ends between characters. -/
theorem isText_part {a p b : Bytes} (h : IsText (a ++ p ++ b)) (hp : p ≠ []) :
    IsText p ↔ IsText a ∧ IsText (a ++ p) := by
  constructor
  · intro htext
    have ha : IsText a := by
      rw [List.append_assoc] at h
      apply isText_of_append h
      intro x rest heq
      obtain ⟨y, q, rfl⟩ := List.exists_cons_of_ne_nil hp
      obtain ⟨rfl, -⟩ := List.cons.inj heq
      exact htext.not_isTail
    exact ⟨ha, (ha.append_iff p).mpr htext⟩
  · rintro ⟨ha, hboth⟩
    exact (ha.append_iff p).mp hboth

theorem isText_concat_iff {q : Bytes} {b : UInt8} (hb : b.toNat < 0x80) :
    IsText (q ++ [b]) ↔ IsText q := by
  constructor
  · intro h
    apply isText_of_append h
    intro x rest heq htail
    obtain ⟨rfl, -⟩ := List.cons.inj heq
    exact Nat.not_le_of_lt hb htail.1
  · intro h
    exact (h.append_iff [b]).mpr (isText_singleton hb)

end LineConsole.Utf8

namespace LineConsole.Pieces

open LineBuffer Utf8

theorem isText_dropEnd {byte : UInt8} (hbyte : byte.toNat < 0x80) (p : Bytes) :
    IsText (dropEnd byte p) ↔ IsText p := by
  by_cases h : p.getLast? = some byte
  · obtain ⟨q, rfl⟩ := List.getLast?_eq_some_iff.mp h
    rw [dropEnd_concat, isText_concat_iff hbyte]
  · rw [dropEnd_of_ne h]

/-- Without its terminator a piece is as good a text as with it. -/
theorem isText_content (p : Bytes) : IsText (content p) ↔ IsText p := by
  rw [content, isText_dropEnd (by decide), isText_dropEnd (by decide)]

end LineConsole.Pieces
