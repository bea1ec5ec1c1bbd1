import LineConsole.Host.Error
import LineConsole.Proofs.Texts

/-!
What a diagnostic quotes of a literal that is no text. From left to right, a character is kept and
the longest part that only begins one is replaced, or a single byte where not even this is there.
The machine cuts every input in just this way. Its result is a text, so a second replacement finds
nothing to replace, and diagnostics for both kinds of callers are the same.
-/
namespace LineConsole

namespace Utf8

/-- The bytes can still become a character, or they are one. -/
def IsBeginning (p : Bytes) : Prop := ∃ c : Char, p <+: String.utf8EncodeChar c

/-- What is taken as one invalid part in front of `rest`: no character begins here, and the part
is the longest beginning of one, or one byte if there is none. -/
structure IsInvalidPart (p rest : Bytes) : Prop where
  nonempty : p ≠ []
  no_char : ∀ c : Char, ¬ String.utf8EncodeChar c <+: p ++ rest
  beginning : p.length = 1 ∨ IsBeginning p
  longest : ∀ q, q <+: p ++ rest → IsBeginning q → q.length ≤ p.length

inductive Replaced : Bytes → List Char → Prop
  | nil : Replaced [] []
  | char (c : Char) {rest : Bytes} {text : List Char} (hrest : Replaced rest text) :
      Replaced (String.utf8EncodeChar c ++ rest) (c :: text)
  | invalid {p rest : Bytes} {text : List Char} (hp : IsInvalidPart p rest)
      (hrest : Replaced rest text) : Replaced (p ++ rest) ('\uFFFD' :: text)

/-! Open characters -/

theorem scan_char (c : Char) (rest : Bytes) :
    scan (String.utf8EncodeChar c ++ rest) = some c :: scan rest := by
  have h := (spelling_char c).scanFrom rest
  rwa [Char.ofNat_toNat] at h

/-- Bytes in which nothing invalid is shown begin with a character. -/
theorem exists_char_of_scan {b : UInt8} {bytes : Bytes} (h : none ∉ scan (b :: bytes)) :
    ∃ c : Char, String.utf8EncodeChar c <+: b :: bytes := by
  obtain ⟨n, l, rest, hspelling, heq⟩ := exists_spelling h
  refine ⟨Char.ofNat n, rest, ?_⟩
  rw [hspelling.encode, heq]

/-- Behind the bytes `w` the machine has shown nothing, and it waits for a byte in a range. -/
structure Open (w : Bytes) (bits owed low high : Nat) : Prop where
  scan : ∀ l, scan (w ++ l) = scanFrom (.inside bits owed low high) l
  inhabited : ∃ b : UInt8, low ≤ b.toNat ∧ b.toNat ≤ high

/-- Some bytes close an open character. -/
theorem exists_closing (bits owed : Nat) {low high : Nat}
    (h : ∃ b : UInt8, low ≤ b.toNat ∧ b.toNat ≤ high) :
    ∃ l, none ∉ scanFrom (.inside bits owed low high) l := by
  obtain ⟨b, hb⟩ := h
  induction owed generalizing bits low high b with
  | zero =>
    refine ⟨[b], ?_⟩
    rw [scanFrom_inside_last [] hb]
    simp [scanFrom]
  | succ owed ih =>
    have htail : 0x80 ≤ (0x80 : UInt8).toNat ∧ (0x80 : UInt8).toNat ≤ 0xBF := by decide
    obtain ⟨l, hl⟩ := ih (bits * 64 + (b.toNat - 0x80)) 0x80 htail
    refine ⟨b :: l, ?_⟩
    rwa [scanFrom_inside_more l hb]

section Open

variable {w : Bytes} {bits owed low high : Nat}

theorem Open.scan_self (h : Open w bits owed low high) : Utf8.scan w = [none] := by
  have hscan := h.scan []
  rwa [List.append_nil] at hscan

theorem Open.ne_nil (h : Open w bits owed low high) : w ≠ [] := by
  rintro rfl
  cases h.scan_self

/-- An open character is the beginning of one. -/
theorem Open.isBeginning (h : Open w bits owed low high) : IsBeginning w := by
  obtain ⟨l, hl⟩ := exists_closing bits owed h.inhabited
  rw [← h.scan] at hl
  obtain ⟨a, w', rfl⟩ := List.exists_cons_of_ne_nil h.ne_nil
  obtain ⟨c, hc⟩ := exists_char_of_scan hl
  refine ⟨c, ?_⟩
  rcases List.prefix_or_prefix_of_prefix hc (List.prefix_append (a :: w') l) with hshort | hlong
  · -- A whole character in front would have been shown.
    obtain ⟨rest, hrest⟩ := hshort
    have hscan := h.scan_self
    rw [← hrest, scan_char] at hscan
    cases hscan
  · exact hlong

/-- It goes on as a beginning only with a byte in the range. -/
theorem Open.mem_range (h : Open w bits owed low high) {b : UInt8}
    (hb : IsBeginning (w ++ [b])) : low ≤ b.toNat ∧ b.toNat ≤ high := by
  obtain ⟨c, t, ht⟩ := hb
  have hnone : none ∉ Utf8.scan (w ++ b :: t) := by
    have hc := scan_char c []
    rw [List.append_nil] at hc
    rw [List.append_cons, ht, hc]
    simp [Utf8.scan, scanFrom]
  rw [h.scan] at hnone
  obtain ⟨b', t', heq, hrange⟩ := exists_cons_of_inside hnone
  obtain ⟨rfl, -⟩ := List.cons.inj heq
  exact hrange

theorem Open.snoc {b : UInt8} (h : Open w bits (owed + 1) low high)
    (hb : low ≤ b.toNat ∧ b.toNat ≤ high) :
    Open (w ++ [b]) (bits * 64 + (b.toNat - 0x80)) owed 0x80 0xBF where
  scan l := by
    rw [← List.append_cons, h.scan, scanFrom_inside_more l hb]
  inhabited := ⟨0x80, by decide⟩

end Open

theorem open_first {b : UInt8} {bits owed low high : Nat}
    (h : first b.toNat = ([], .inside bits owed low high))
    (hrange : ∃ x : UInt8, low ≤ x.toNat ∧ x.toNat ≤ high) : Open [b] bits owed low high where
  scan l := by
    rw [List.singleton_append, scan, scanFrom_start_cons, h]
    rfl
  inhabited := hrange

/-- A first byte is a character, or it begins none, or it opens one. -/
theorem first_cases (b : UInt8) :
    b.toNat < 0x80 ∨ first b.toNat = ([none], .start) ∨
      ∃ bits owed low high, Open [b] bits owed low high := by
  by_cases hone : b.toNat < 0x80
  · exact Or.inl hone
  by_cases hinvalid : 0x80 ≤ b.toNat ∧ b.toNat < 0xC2 ∨ 0xF5 ≤ b.toNat
  · exact Or.inr (Or.inl (first_invalid hinvalid))
  refine Or.inr (Or.inr ?_)
  by_cases htwo : b.toNat < 0xE0
  · exact ⟨_, _, _, _, open_first (first_two (by omega) htwo) ⟨0x80, by decide⟩⟩
  by_cases hthree : b.toNat < 0xF0
  · obtain ⟨low, high, hfirst, hrange⟩ := first_three (by omega) hthree
    refine ⟨_, _, _, _, open_first hfirst ?_⟩
    by_cases h : b.toNat = 0xE0
    · exact ⟨0xA0, (hrange _).mpr ⟨by decide, fun _ => by decide, by omega⟩⟩
    · exact ⟨0x80, (hrange _).mpr ⟨by decide, by omega, fun _ => by decide⟩⟩
  · obtain ⟨low, high, hfirst, hrange⟩ := first_four (b := b.toNat) (by omega) (by omega)
    refine ⟨_, _, _, _, open_first hfirst ?_⟩
    by_cases h : b.toNat = 0xF0
    · exact ⟨0x90, (hrange _).mpr ⟨by decide, fun _ => by decide, by omega⟩⟩
    · exact ⟨0x80, (hrange _).mpr ⟨by decide, by omega, fun _ => by decide⟩⟩

/-! Invalid parts -/

/-- An open character that nothing closes ends as one invalid part. -/
theorem Open.exists_invalidPart {w : Bytes} {bits owed low high : Nat} {bytes : Bytes}
    (h : Open w bits owed low high) (hchar : ∀ c : Char, ¬ String.utf8EncodeChar c <+: w ++ bytes) :
    ∃ p rest, w ++ bytes = p ++ rest ∧ IsInvalidPart p rest ∧
      Utf8.scan (w ++ bytes) = none :: Utf8.scan rest := by
  induction bytes generalizing w bits owed low high with
  | nil =>
    refine ⟨w, [], rfl, ⟨h.ne_nil, hchar, Or.inr h.isBeginning, ?_⟩, ?_⟩
    · intro q hq _
      rw [List.append_nil] at hq
      exact hq.length_le
    · rw [List.append_nil, h.scan_self]
      rfl
  | cons b rest ih =>
    by_cases hb : low ≤ b.toNat ∧ b.toNat ≤ high
    · cases owed with
      | zero =>
        -- The byte closes the character.
        have hnone : none ∉ Utf8.scan (w ++ [b]) := by
          rw [h.scan, scanFrom_inside_last [] hb]
          simp [scanFrom]
        obtain ⟨a, w', rfl⟩ := List.exists_cons_of_ne_nil h.ne_nil
        obtain ⟨c, hc⟩ := exists_char_of_scan hnone
        refine absurd (hc.trans ⟨rest, ?_⟩) (hchar c)
        simp
      | succ owed =>
        rw [List.append_cons] at hchar ⊢
        exact ih (h.snoc hb) hchar
    · refine ⟨w, b :: rest, rfl, ⟨h.ne_nil, hchar, Or.inr h.isBeginning, ?_⟩, ?_⟩
      · intro q hq hbeginning
        by_contra hlong
        -- A longer beginning would hold the byte that is out of range.
        have hprefix : w ++ [b] <+: q := by
          apply List.prefix_of_prefix_length_le ⟨rest, by simp⟩ hq
          rw [List.length_append, List.length_singleton]
          omega
        obtain ⟨c, hc⟩ := hbeginning
        exact hb (h.mem_range ⟨c, hprefix.trans hc⟩)
      · rw [h.scan, scanFrom_cons, step_of_not_mem hb, Utf8.scan, scanFrom_start_cons]
        rfl

/-- Bytes that begin with no character begin with one invalid part. -/
theorem exists_invalidPart {b : UInt8} {bytes : Bytes}
    (hchar : ∀ c : Char, ¬ String.utf8EncodeChar c <+: b :: bytes) :
    ∃ p rest, b :: bytes = p ++ rest ∧ IsInvalidPart p rest ∧
      scan (b :: bytes) = none :: scan rest := by
  rcases first_cases b with hone | hnone | ⟨bits, owed, low, high, hopen⟩
  · exfalso
    apply hchar (Char.ofNat b.toNat)
    rw [(Spelling.one hone).encode]
    exact ⟨bytes, rfl⟩
  · refine ⟨[b], bytes, rfl, ⟨by simp, hchar, Or.inl rfl, ?_⟩, ?_⟩
    · intro q hq ⟨c, hc⟩
      by_contra hlong
      -- The byte would be the first one of a character.
      have hfirst : [b] <+: q := by
        apply List.prefix_of_prefix_length_le ⟨bytes, rfl⟩ hq
        omega
      obtain ⟨t, ht⟩ := hfirst.trans hc
      have hscan := scan_char c []
      rw [List.append_nil, ← ht, List.singleton_append, scan, scanFrom_start_cons, hnone] at hscan
      cases hscan
    · rw [scan, scanFrom_start_cons, hnone]
      rfl
  · exact hopen.exists_invalidPart hchar

theorem IsInvalidPart.length_le {p q rest rest' : Bytes} (hp : IsInvalidPart p rest)
    (hq : IsInvalidPart q rest') (h : p ++ rest = q ++ rest') : p.length ≤ q.length := by
  rcases hp.beginning with hone | hbeginning
  · rw [hone]
    exact List.length_pos_iff.mpr hq.nonempty
  · exact hq.longest p (h ▸ List.prefix_append p rest) hbeginning

/-- An invalid part is shown as one. -/
theorem IsInvalidPart.scan {p rest : Bytes} (hp : IsInvalidPart p rest) :
    scan (p ++ rest) = none :: scan rest := by
  obtain ⟨b, p', rfl⟩ := List.exists_cons_of_ne_nil hp.nonempty
  obtain ⟨q, rest', heq, hq, hscan⟩ := exists_invalidPart hp.no_char
  have hlength := Nat.le_antisymm (hp.length_le hq heq) (hq.length_le hp heq.symm)
  obtain ⟨-, rfl⟩ := List.append_inj heq hlength
  exact hscan

/-! The replaced text -/

/-- The characters that the lossy reading gives. -/
theorem toList_lossy (bytes : Bytes) :
    (lossy bytes).toList = (scan bytes).map (·.getD '\uFFFD') := String.toList_ofList

theorem replaced_lossy (bytes : Bytes) : Replaced bytes (lossy bytes).toList := by
  rw [toList_lossy]
  induction hn : bytes.length using Nat.strong_induction_on generalizing bytes with
  | h n ih =>
    cases bytes with
    | nil => exact .nil
    | cons b bytes =>
      by_cases hchar : ∃ c : Char, String.utf8EncodeChar c <+: b :: bytes
      · obtain ⟨c, rest, hrest⟩ := hchar
        have hpos : 0 < (String.utf8EncodeChar c).length := by
          rw [String.length_utf8EncodeChar]
          exact c.utf8Size_pos
        rw [← hrest, List.length_append] at hn
        rw [← hrest, scan_char]
        exact .char c (ih rest.length (by omega) rest rfl)
      · obtain ⟨p, rest, heq, hp, -⟩ := exists_invalidPart fun c hc => hchar ⟨c, hc⟩
        have hpos := List.length_pos_iff.mpr hp.nonempty
        rw [heq, List.length_append] at hn
        rw [heq, hp.scan]
        exact .invalid hp (ih rest.length (by omega) rest rfl)

/-- There is one way to replace the invalid parts. -/
theorem replaced_iff {bytes : Bytes} {text : String} :
    Replaced bytes text.toList ↔ text = lossy bytes := by
  constructor
  · intro h
    rw [← String.toList_inj, toList_lossy]
    generalize text.toList = chars at h
    induction h with
    | nil => rfl
    | char c hrest ih =>
      rw [scan_char, List.map_cons, ← ih]
      rfl
    | invalid hp hrest ih =>
      rw [hp.scan, List.map_cons, ← ih]
      rfl
  · rintro rfl
    exact replaced_lossy bytes

/-- A character cut short, a byte of no character, a surrogate, and a whole character. -/
example :
    lossy [0x31, 0xE2, 0x82, 0xC0, 0xED, 0xA0, 0x80, 0xF0, 0x9F, 0x98, 0x80] =
      "1\uFFFD\uFFFD\uFFFD\uFFFD\uFFFD😀" := by
  decide +kernel

/-- A text is kept as it is. -/
theorem lossy_encode (text : String) : lossy (encode text) = text := by
  rw [← String.toList_inj, toList_lossy, scan_encode, List.map_map]
  exact List.map_id _

theorem join_lossyPiecesFrom (shown : List (Option Char)) (run : List Char) :
    (String.join (lossyPiecesFrom run shown)).toList = run ++ shown.map (·.getD '\uFFFD') := by
  induction shown generalizing run with
  | nil => cases run <;> simp [lossyPiecesFrom]
  | cons part rest ih =>
    cases part with
    | none => simp [lossyPiecesFrom, String.join_cons, ih]
    | some c => simp [lossyPiecesFrom, ih]

theorem join_lossyPieces (bytes : Bytes) : String.join (lossyPieces bytes) = lossy bytes := by
  rw [← String.toList_inj, lossyPieces, join_lossyPiecesFrom, toList_lossy, List.nil_append]

end Utf8

open Utf8

/-- The heading of the flaw, the text of the literal, and a quotation mark. -/
theorem LiteralError.message_eq (e : LiteralError) :
    e.message = e.flaw.heading ++ lossy e.literal ++ "'" := by
  rw [message, pieces, String.join_cons, String.join_append, join_lossyPieces]
  simp [String.append_assoc]

/-- A literal that is a text is quoted as it is. -/
theorem LiteralError.message_encode (flaw : LiteralFlaw) (text : String) :
    (LiteralError.mk flaw (encode text)).message = flaw.heading ++ text ++ "'" := by
  rw [message_eq, lossy_encode]

/-- The diagnostic for native callers is that for callers in C. It quotes the literal with each
invalid part replaced, which is the text that the error of a native caller holds and which a
second replacement does not change; a literal that is a text is quoted as it is. -/
theorem Host.Error.diagnostics_agree (flaw : LiteralFlaw) (literal : Bytes) :
    let e : LiteralError := ⟨flaw, literal⟩
    (ofLiteral e).message = e.message ∧
    (∀ text : String, Replaced literal text.toList ↔ text = lossy literal) ∧
    e.message = flaw.heading ++ lossy literal ++ "'" ∧
    ofLiteral e = .invalidLiteral flaw (lossy literal) ∧
    lossy (encode (lossy literal)) = lossy literal ∧
    ∀ text : String, (LiteralError.mk flaw (encode text)).message = flaw.heading ++ text ++ "'" := by
  intro e
  have hmessage : (ofLiteral e).message = e.message :=
    (LiteralError.message_encode flaw (lossy literal)).trans (LiteralError.message_eq e).symm
  exact ⟨hmessage, fun _ => replaced_iff, LiteralError.message_eq e, rfl, lossy_encode _,
    LiteralError.message_encode flaw⟩

end LineConsole
