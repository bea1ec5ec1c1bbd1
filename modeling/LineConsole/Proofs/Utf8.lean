import LineConsole.Text.Utf8
import Mathlib.Data.List.Infix

/-!
The UTF-8 machine reads exactly what the encoder writes. Every character is shown at its last
byte, from between characters to between characters; conversely, bytes in which nothing invalid
is shown are the encodings of the characters that are shown.
-/
namespace LineConsole.Utf8

/-! The first byte of a character -/

theorem first_of_lt {b : Nat} (h : b < 0x80) : first b = ([some (Char.ofNat b)], .start) :=
  if_pos h

theorem first_invalid {b : Nat} (h : 0x80 ≤ b ∧ b < 0xC2 ∨ 0xF5 ≤ b) :
    first b = ([none], .start) := by
  unfold first
  rcases h with ⟨hlow, hhigh⟩ | hlow
  · rw [if_neg (by omega), if_pos hhigh]
  · repeat rw [if_neg (by omega)]

theorem first_two {b : Nat} (hlow : 0xC2 ≤ b) (hhigh : b < 0xE0) :
    first b = ([], .inside (b - 0xC0) 0 0x80 0xBF) := by
  unfold first
  rw [if_neg (by omega), if_neg (by omega), if_pos hhigh]

/-- The second of three bytes must not spell a shorter character or a surrogate. -/
theorem first_three {b : Nat} (hlow : 0xE0 ≤ b) (hhigh : b < 0xF0) :
    ∃ low high, first b = ([], .inside (b - 0xE0) 1 low high) ∧
      ∀ x, low ≤ x ∧ x ≤ high ↔
        (0x80 ≤ x ∧ x ≤ 0xBF) ∧ (b = 0xE0 → 0xA0 ≤ x) ∧ (b = 0xED → x ≤ 0x9F) := by
  unfold first
  rw [if_neg (by omega), if_neg (by omega), if_neg (by omega)]
  by_cases h0 : b = 0xE0
  · subst h0
    exact ⟨0xA0, 0xBF, rfl, fun x => by omega⟩
  by_cases hD : b = 0xED
  · subst hD
    exact ⟨0x80, 0x9F, rfl, fun x => by omega⟩
  rw [if_neg h0, if_neg hD, if_pos hhigh]
  exact ⟨0x80, 0xBF, rfl, fun x => by omega⟩

/-- The second of four bytes must not spell a shorter character or one that does not exist. -/
theorem first_four {b : Nat} (hlow : 0xF0 ≤ b) (hhigh : b < 0xF5) :
    ∃ low high, first b = ([], .inside (b - 0xF0) 2 low high) ∧
      ∀ x, low ≤ x ∧ x ≤ high ↔
        (0x80 ≤ x ∧ x ≤ 0xBF) ∧ (b = 0xF0 → 0x90 ≤ x) ∧ (b = 0xF4 → x ≤ 0x8F) := by
  unfold first
  rw [if_neg (by omega), if_neg (by omega), if_neg (by omega), if_neg (by omega),
    if_neg (by omega), if_neg (by omega)]
  by_cases h0 : b = 0xF0
  · subst h0
    exact ⟨0x90, 0xBF, rfl, fun x => by omega⟩
  by_cases h4 : b = 0xF4
  · subst h4
    exact ⟨0x80, 0x8F, rfl, fun x => by omega⟩
  rw [if_neg h0, if_pos (by omega)]
  exact ⟨0x80, 0xBF, rfl, fun x => by omega⟩

/-! One byte of the input -/

theorem step_of_not_mem {bits owed low high b : Nat} (h : ¬ (low ≤ b ∧ b ≤ high)) :
    step (.inside bits owed low high) b = (none :: (first b).1, (first b).2) := if_neg h

theorem scanFrom_cons (state : State) (b : UInt8) (rest : Bytes) :
    scanFrom state (b :: rest) =
      (step state b.toNat).1 ++ scanFrom (step state b.toNat).2 rest := by
  cases state <;> rfl

theorem scanFrom_start_cons (b : UInt8) (rest : Bytes) :
    scanFrom .start (b :: rest) = (first b.toNat).1 ++ scanFrom (first b.toNat).2 rest :=
  scanFrom_cons .start b rest

theorem scanFrom_inside_last {bits low high : Nat} {b : UInt8} (rest : Bytes)
    (h : low ≤ b.toNat ∧ b.toNat ≤ high) :
    scanFrom (.inside bits 0 low high) (b :: rest) =
      some (Char.ofNat (bits * 64 + (b.toNat - 0x80))) :: scanFrom .start rest := by
  rw [scanFrom_cons, step, if_pos h]
  rfl

theorem scanFrom_inside_more {bits owed low high : Nat} {b : UInt8} (rest : Bytes)
    (h : low ≤ b.toNat ∧ b.toNat ≤ high) :
    scanFrom (.inside bits (owed + 1) low high) (b :: rest) =
      scanFrom (.inside (bits * 64 + (b.toNat - 0x80)) owed 0x80 0xBF) rest := by
  rw [scanFrom_cons, step, if_pos h]
  rfl

/-- An open character wants a byte in its range. -/
theorem exists_cons_of_inside {bits owed low high : Nat} {bytes : Bytes}
    (h : none ∉ scanFrom (.inside bits owed low high) bytes) :
    ∃ b rest, bytes = b :: rest ∧ low ≤ b.toNat ∧ b.toNat ≤ high := by
  cases bytes with
  | nil => exact absurd (List.mem_singleton_self none) h
  | cons b rest =>
    refine ⟨b, rest, rfl, ?_⟩
    by_contra hrange
    rw [scanFrom_cons, step_of_not_mem hrange] at h
    exact h (List.mem_append_left _ List.mem_cons_self)

/-! Characters and their spellings -/

/-- The bytes that may follow the first one. -/
def IsTail (b : UInt8) : Prop := 0x80 ≤ b.toNat ∧ b.toNat ≤ 0xBF

/-- Code points and the bytes that spell them, by the number of bytes. -/
inductive Spelling : Nat → Bytes → Prop
  | one {a : UInt8} (ha : a.toNat < 0x80) : Spelling a.toNat [a]
  | two {a b : UInt8} (hlow : 0xC2 ≤ a.toNat) (hhigh : a.toNat < 0xE0) (hb : IsTail b) :
      Spelling ((a.toNat - 0xC0) * 64 + (b.toNat - 0x80)) [a, b]
  | three {a b c : UInt8} (hlow : 0xE0 ≤ a.toNat) (hhigh : a.toNat < 0xF0)
      (hb : IsTail b ∧ (a.toNat = 0xE0 → 0xA0 ≤ b.toNat) ∧ (a.toNat = 0xED → b.toNat ≤ 0x9F))
      (hc : IsTail c) :
      Spelling (((a.toNat - 0xE0) * 64 + (b.toNat - 0x80)) * 64 + (c.toNat - 0x80)) [a, b, c]
  | four {a b c d : UInt8} (hlow : 0xF0 ≤ a.toNat) (hhigh : a.toNat < 0xF5)
      (hb : IsTail b ∧ (a.toNat = 0xF0 → 0x90 ≤ b.toNat) ∧ (a.toNat = 0xF4 → b.toNat ≤ 0x8F))
      (hc : IsTail c) (hd : IsTail d) :
      Spelling ((((a.toNat - 0xF0) * 64 + (b.toNat - 0x80)) * 64 + (c.toNat - 0x80)) * 64 +
        (d.toNat - 0x80)) [a, b, c, d]

/-- A spelling is shown as its character. -/
theorem Spelling.scanFrom {n : Nat} {l : Bytes} (h : Spelling n l) (rest : Bytes) :
    scanFrom .start (l ++ rest) = some (Char.ofNat n) :: scanFrom .start rest := by
  cases h with
  | one ha =>
    rw [List.singleton_append, scanFrom_start_cons, first_of_lt ha]
    rfl
  | two hlow hhigh hb =>
    rw [List.cons_append, scanFrom_start_cons, first_two hlow hhigh]
    exact scanFrom_inside_last rest hb
  | three hlow hhigh hb hc =>
    obtain ⟨low, high, hfirst, hrange⟩ := first_three hlow hhigh
    rw [List.cons_append, scanFrom_start_cons, hfirst, List.nil_append, List.cons_append,
      scanFrom_inside_more _ ((hrange _).mpr hb)]
    exact scanFrom_inside_last rest hc
  | four hlow hhigh hb hc hd =>
    obtain ⟨low, high, hfirst, hrange⟩ := first_four hlow hhigh
    rw [List.cons_append, scanFrom_start_cons, hfirst, List.nil_append, List.cons_append,
      scanFrom_inside_more _ ((hrange _).mpr hb), List.cons_append,
      scanFrom_inside_more _ hc]
    exact scanFrom_inside_last rest hd

/-- An input in which nothing invalid is shown begins with a spelling. -/
theorem exists_spelling {a : UInt8} {bytes : Bytes}
    (h : none ∉ scanFrom .start (a :: bytes)) :
    ∃ n l rest, Spelling n l ∧ a :: bytes = l ++ rest := by
  rw [scanFrom_start_cons] at h
  have hinvalid : ¬ (0x80 ≤ a.toNat ∧ a.toNat < 0xC2 ∨ 0xF5 ≤ a.toNat) := by
    intro hrange
    rw [first_invalid hrange] at h
    exact h (List.mem_append_left _ List.mem_cons_self)
  by_cases hone : a.toNat < 0x80
  · exact ⟨_, _, bytes, .one hone, rfl⟩
  by_cases htwo : a.toNat < 0xE0
  · rw [first_two (by omega) htwo] at h
    obtain ⟨b, rest, rfl, hb⟩ := exists_cons_of_inside h
    exact ⟨_, _, rest, .two (by omega) htwo hb, rfl⟩
  by_cases hthree : a.toNat < 0xF0
  · obtain ⟨low, high, hfirst, hrange⟩ := first_three (by omega) hthree
    rw [hfirst] at h
    obtain ⟨b, rest, rfl, hb⟩ := exists_cons_of_inside h
    rw [List.nil_append, scanFrom_inside_more _ hb] at h
    obtain ⟨c, rest, rfl, hc⟩ := exists_cons_of_inside h
    exact ⟨_, _, rest, .three (by omega) hthree ((hrange _).mp hb) hc, rfl⟩
  · obtain ⟨low, high, hfirst, hrange⟩ := first_four (b := a.toNat) (by omega) (by omega)
    rw [hfirst] at h
    obtain ⟨b, rest, rfl, hb⟩ := exists_cons_of_inside h
    rw [List.nil_append, scanFrom_inside_more _ hb] at h
    obtain ⟨c, rest, rfl, hc⟩ := exists_cons_of_inside h
    rw [scanFrom_inside_more _ hc] at h
    obtain ⟨d, rest, rfl, hd⟩ := exists_cons_of_inside h
    exact ⟨_, _, rest, .four (by omega) (by omega) ((hrange _).mp hb) hc hd, rfl⟩

theorem toNat_ofNat {n : Nat} (h : n.isValidChar) : (Char.ofNat n).val.toNat = n := by
  rw [Char.ofNat, dif_pos h]
  rfl

theorem Spelling.isValidChar {n : Nat} {l : Bytes} (h : Spelling n l) : n.isValidChar := by
  unfold Nat.isValidChar
  cases h with
  | one ha => omega
  | two hlow hhigh hb =>
    unfold IsTail at hb
    omega
  | three hlow hhigh hb hc =>
    unfold IsTail at hb hc
    omega
  | four hlow hhigh hb hc hd =>
    unfold IsTail at hb hc hd
    omega

theorem ofNat_eq_of_toNat {n : Nat} {b : UInt8} (h : n = b.toNat) : UInt8.ofNat n = b := by
  rw [h, UInt8.ofNat_toNat]

/-- A spelling is what the encoder writes for its character. -/
theorem Spelling.encode {n : Nat} {l : Bytes} (h : Spelling n l) :
    String.utf8EncodeChar (Char.ofNat n) = l := by
  rw [String.utf8EncodeChar, toNat_ofNat h.isValidChar]
  cases h with
  | one ha =>
    rw [if_pos (by omega), UInt8.ofNat_toNat]
  | two hlow hhigh hb =>
    unfold IsTail at hb
    rw [if_neg (by omega), if_pos (by omega), List.cons.injEq, List.cons.injEq]
    exact ⟨ofNat_eq_of_toNat (by omega), ofNat_eq_of_toNat (by omega), rfl⟩
  | three hlow hhigh hb hc =>
    unfold IsTail at hb hc
    rw [if_neg (by omega), if_neg (by omega), if_pos (by omega), List.cons.injEq,
      List.cons.injEq, List.cons.injEq]
    exact ⟨ofNat_eq_of_toNat (by omega), ofNat_eq_of_toNat (by omega),
      ofNat_eq_of_toNat (by omega), rfl⟩
  | four hlow hhigh hb hc hd =>
    unfold IsTail at hb hc hd
    rw [if_neg (by omega), if_neg (by omega), if_neg (by omega), List.cons.injEq,
      List.cons.injEq, List.cons.injEq, List.cons.injEq]
    exact ⟨ofNat_eq_of_toNat (by omega), ofNat_eq_of_toNat (by omega),
      ofNat_eq_of_toNat (by omega), ofNat_eq_of_toNat (by omega), rfl⟩

theorem exists_byte {n : Nat} (h : n < 256) : ∃ b : UInt8, b.toNat = n :=
  ⟨UInt8.ofNat n, UInt8.toNat_ofNat_of_lt' h⟩

/-- Every code point that is a character has a spelling. -/
theorem exists_spelling_of_isValidChar {n : Nat} (h : n.isValidChar) : ∃ l, Spelling n l := by
  unfold Nat.isValidChar at h
  by_cases hone : n < 0x80
  · obtain ⟨a, rfl⟩ := exists_byte (show n < 256 by omega)
    exact ⟨[a], .one hone⟩
  by_cases htwo : n < 0x800
  · obtain ⟨a, ha⟩ := exists_byte (show n / 64 + 0xC0 < 256 by omega)
    obtain ⟨b, hb⟩ := exists_byte (show n % 64 + 0x80 < 256 by omega)
    have hn : (a.toNat - 0xC0) * 64 + (b.toNat - 0x80) = n := by omega
    exact ⟨[a, b], hn ▸ .two (by omega) (by omega) ⟨by omega, by omega⟩⟩
  by_cases hthree : n < 0x10000
  · obtain ⟨a, ha⟩ := exists_byte (show n / 4096 + 0xE0 < 256 by omega)
    obtain ⟨b, hb⟩ := exists_byte (show n / 64 % 64 + 0x80 < 256 by omega)
    obtain ⟨c, hc⟩ := exists_byte (show n % 64 + 0x80 < 256 by omega)
    have hn : ((a.toNat - 0xE0) * 64 + (b.toNat - 0x80)) * 64 + (c.toNat - 0x80) = n := by
      omega
    exact ⟨[a, b, c], hn ▸ .three (by omega) (by omega)
      ⟨⟨by omega, by omega⟩, by omega, by omega⟩ ⟨by omega, by omega⟩⟩
  · obtain ⟨a, ha⟩ := exists_byte (show n / 262144 + 0xF0 < 256 by omega)
    obtain ⟨b, hb⟩ := exists_byte (show n / 4096 % 64 + 0x80 < 256 by omega)
    obtain ⟨c, hc⟩ := exists_byte (show n / 64 % 64 + 0x80 < 256 by omega)
    obtain ⟨d, hd⟩ := exists_byte (show n % 64 + 0x80 < 256 by omega)
    have hn : (((a.toNat - 0xF0) * 64 + (b.toNat - 0x80)) * 64 + (c.toNat - 0x80)) * 64 +
        (d.toNat - 0x80) = n := by omega
    exact ⟨[a, b, c, d], hn ▸ .four (by omega) (by omega)
      ⟨⟨by omega, by omega⟩, by omega, by omega⟩ ⟨by omega, by omega⟩ ⟨by omega, by omega⟩⟩

theorem spelling_char (c : Char) : Spelling c.toNat (String.utf8EncodeChar c) := by
  obtain ⟨l, hl⟩ := exists_spelling_of_isValidChar (n := c.toNat) c.valid
  have hencode := hl.encode
  rw [Char.ofNat_toNat] at hencode
  exact hencode ▸ hl

/-! Texts -/

theorem mapM_id_eq_some_iff {α : Type} {l : List (Option α)} {r : List α} :
    l.mapM id = some r ↔ l = r.map some := by
  induction l generalizing r with
  | nil => cases r <;> simp
  | cons o l ih =>
    cases o with
    | none => cases r <;> simp
    | some x =>
      rw [List.mapM_cons, id, Option.bind_eq_bind, Option.bind_some, Option.bind_eq_bind,
        Option.bind_eq_some_iff]
      cases r with
      | nil => simp
      | cons y r => simp [ih, and_comm]

theorem encode_ofList_cons (c : Char) (text : String) :
    encode (String.ofList (c :: text.toList)) = String.utf8EncodeChar c ++ encode text := by
  simp [encode]

theorem scan_encode_append (text : String) (rest : Bytes) :
    scan (encode text ++ rest) = text.toList.map some ++ scan rest := by
  rw [encode]
  induction text.toList with
  | nil => rfl
  | cons c chars ih =>
    have hchar := (spelling_char c).scanFrom (chars.flatMap String.utf8EncodeChar ++ rest)
    rw [Char.ofNat_toNat] at hchar
    rw [List.flatMap_cons, List.append_assoc, scan, hchar, ← scan, ih]
    rfl

theorem scan_encode (text : String) : scan (encode text) = text.toList.map some := by
  have h := scan_encode_append text []
  rw [List.append_nil] at h
  rw [h]
  exact List.append_nil _

/-- Where nothing invalid is shown, the bytes are those of a text. -/
theorem exists_encode {bytes : Bytes} (h : none ∉ scan bytes) : ∃ text, bytes = encode text := by
  induction hn : bytes.length using Nat.strong_induction_on generalizing bytes with
  | h n ih =>
    cases bytes with
    | nil => exact ⟨"", rfl⟩
    | cons a bytes =>
      obtain ⟨n', l, rest, hspelling, heq⟩ := exists_spelling h
      rw [heq] at h hn ⊢
      have hpos : 0 < l.length := by cases hspelling <;> exact Nat.succ_pos _
      rw [scan, hspelling.scanFrom] at h
      have hrest : none ∉ scan rest := fun hmem => h (List.mem_cons_of_mem _ hmem)
      obtain ⟨text, rfl⟩ := ih rest.length (by rw [List.length_append] at hn; omega) hrest rfl
      refine ⟨String.ofList (Char.ofNat n' :: text.toList), ?_⟩
      rw [encode_ofList_cons, hspelling.encode]

/-- A byte string is read as a text if and only if it is written for that text. -/
theorem decode?_eq_some_iff {bytes : Bytes} {text : String} :
    decode? bytes = some text ↔ bytes = encode text := by
  rw [decode?, Option.map_eq_some_iff]
  constructor
  · rintro ⟨chars, hchars, rfl⟩
    rw [mapM_id_eq_some_iff] at hchars
    have hnone : none ∉ scan bytes := by
      rw [hchars]
      simp
    obtain ⟨text, rfl⟩ := exists_encode hnone
    rw [scan_encode] at hchars
    have htoList := List.map_injective_iff.mpr (fun _ _ => Option.some.inj) hchars
    rw [← htoList, String.ofList_toList]
  · rintro rfl
    exact ⟨text.toList, mapM_id_eq_some_iff.mpr (scan_encode text), String.ofList_toList⟩

end LineConsole.Utf8
