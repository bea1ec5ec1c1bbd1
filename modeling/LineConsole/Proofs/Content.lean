import LineConsole.Proofs.Pieces

/-!
The content of a piece: what is left without the terminator. A carriage return in front of the
terminator goes with it, and so does one that happens to be the last byte of a full piece. The
pieces of a line together give the line, less exactly those carriage returns.
-/
namespace LineConsole.Pieces

open LineBuffer

def dropEnd (byte : UInt8) (p : Bytes) : Bytes :=
  if p.getLast? = some byte then p.dropLast else p

def content (p : Bytes) : Bytes := dropEnd carriageReturn (dropEnd newline p)

theorem dropEnd_concat (byte : UInt8) (p : Bytes) : dropEnd byte (p ++ [byte]) = p := by
  simp [dropEnd]

theorem dropEnd_of_ne {byte : UInt8} {p : Bytes} (h : p.getLast? ≠ some byte) :
    dropEnd byte p = p := if_neg h

theorem dropLast_ofBytes (byte : UInt8) (p : Bytes) :
    (ofBytes p).dropLast byte = ofBytes (dropEnd byte p) := by
  by_cases h : p.getLast? = some byte
  · obtain ⟨q, rfl⟩ := List.getLast?_eq_some_iff.mp h
    rw [dropLast_ofBytes_append, dropEnd_concat]
  · rw [dropLast_ofBytes_of_ne p byte h, dropEnd_of_ne h]

/-- Stripping a line buffer leaves the content. -/
theorem strip_ofBytes (p : Bytes) : (ofBytes p).strip = ofBytes (content p) := by
  rw [strip, dropLast_ofBytes, dropLast_ofBytes, content]

theorem content_newline (p : Bytes) : content (p ++ [newline]) = dropEnd carriageReturn p := by
  rw [content, dropEnd_concat]

theorem content_of_not_mem {p : Bytes} (h : newline ∉ p) :
    content p = dropEnd carriageReturn p := by
  rw [content, dropEnd_of_ne fun hlast => h (List.mem_of_getLast? hlast)]

theorem length_dropEnd_le (byte : UInt8) (p : Bytes) : (dropEnd byte p).length ≤ p.length := by
  unfold dropEnd
  split
  · rw [List.length_dropLast]
    exact Nat.sub_le _ _
  · exact Nat.le_refl _

theorem length_content_le (p : Bytes) : (content p).length ≤ p.length :=
  Nat.le_trans (length_dropEnd_le _ _) (length_dropEnd_le _ _)

/-- The bytes from position `i` of a line on, without carriage returns that fill a piece. -/
def keptFrom (i : Nat) : Bytes → Bytes
  | [] => []
  | byte :: rest =>
      if byte = carriageReturn ∧ i % limit = limit - 1 then keptFrom (i + 1) rest
      else byte :: keptFrom (i + 1) rest

/-- What the pieces of a line give of it. -/
def kept (w : Bytes) : Bytes := keptFrom 0 w

theorem keptFrom_append (i : Nat) (v w : Bytes) :
    keptFrom i (v ++ w) = keptFrom i v ++ keptFrom (i + v.length) w := by
  induction v generalizing i with
  | nil => rfl
  | cons byte rest ih =>
    rw [List.cons_append, keptFrom, keptFrom, ih, List.length_cons, Nat.add_right_comm,
      Nat.add_assoc i]
    split <;> rfl

theorem keptFrom_add_limit (i : Nat) (w : Bytes) : keptFrom (i + limit) w = keptFrom i w := by
  induction w generalizing i with
  | nil => rfl
  | cons byte rest ih =>
    rw [keptFrom, keptFrom, Nat.add_mod_right, Nat.add_right_comm, ih]

/-- Nothing is dropped in front of the last byte of a full piece. -/
theorem keptFrom_of_lt (i : Nat) (w : Bytes) (h : i + w.length < limit) :
    keptFrom i w = w := by
  induction w generalizing i with
  | nil => rfl
  | cons byte rest ih =>
    rw [List.length_cons] at h
    have hi : i % limit ≠ limit - 1 := by
      rw [Nat.mod_eq_of_lt (by omega)]
      omega
    rw [keptFrom, if_neg (fun hand => hi hand.2), ih (i + 1) (by omega)]

theorem kept_of_lt {w : Bytes} (h : w.length < limit) : kept w = w :=
  keptFrom_of_lt 0 w (by simpa using h)

/-- A full piece loses its last byte if that is a carriage return. -/
theorem kept_full (p w : Bytes) (h : p.length = limit) :
    kept (p ++ w) = dropEnd carriageReturn p ++ kept w := by
  obtain ⟨q, byte, rfl, hlength⟩ := exists_concat_of_full h
  have hq : keptFrom 0 q = q := keptFrom_of_lt 0 q (by omega)
  have hmod : q.length % limit = limit - 1 := by
    rw [Nat.mod_eq_of_lt (by omega)]
    omega
  have hw : keptFrom (q.length + 1) w = kept w := by
    rw [hlength, ← Nat.zero_add limit, keptFrom_add_limit, kept]
  rw [kept, List.append_assoc, keptFrom_append, hq, Nat.zero_add, List.cons_append, keptFrom,
    List.nil_append, hw]
  by_cases hbyte : byte = carriageReturn
  · subst byte
    rw [if_pos ⟨rfl, hmod⟩, dropEnd_concat]
  · rw [if_neg (fun hand => hbyte hand.1), dropEnd_of_ne (by simpa using hbyte)]
    simp

theorem keptFrom_length_le (i : Nat) (w : Bytes) : (keptFrom i w).length ≤ w.length := by
  induction w generalizing i with
  | nil => exact Nat.le_refl _
  | cons byte rest ih =>
    have hrest := ih (i + 1)
    rw [keptFrom]
    split
    · exact Nat.le_succ_of_le hrest
    · exact Nat.succ_le_succ hrest

theorem keptFrom_eq_self_iff (i : Nat) (w : Bytes) :
    keptFrom i w = w ↔
      ∀ j, (i + j) % limit = limit - 1 → w[j]? ≠ some carriageReturn := by
  induction w generalizing i with
  | nil => simp [keptFrom]
  | cons byte rest ih =>
    by_cases hdrop : byte = carriageReturn ∧ i % limit = limit - 1
    · rw [keptFrom, if_pos hdrop]
      constructor
      · intro heq
        have hle := keptFrom_length_le (i + 1) rest
        rw [heq, List.length_cons] at hle
        omega
      · intro hall
        exact absurd (congrArg some hdrop.1) (hall 0 hdrop.2)
    · rw [keptFrom, if_neg hdrop, List.cons_inj_right, ih]
      constructor
      · intro hall j hj
        cases j with
        | zero => exact fun hbyte => hdrop ⟨Option.some.inj hbyte, hj⟩
        | succ j => exact hall j (by rwa [Nat.add_right_comm, Nat.add_assoc])
      · intro hall j hj
        exact hall (j + 1) (by rwa [← Nat.add_assoc, Nat.add_right_comm])

/-- Nothing is lost of a line unless a carriage return fills one of its pieces. -/
theorem kept_eq_self_iff (w : Bytes) :
    kept w = w ↔ ∀ j, j % limit = limit - 1 → w[j]? ≠ some carriageReturn := by
  simpa [kept] using keptFrom_eq_self_iff 0 w

/-- What ends a line: a newline, alone or behind a carriage return. -/
def IsTerminator (t : Bytes) : Prop := t = [newline] ∨ t = [carriageReturn, newline]

theorem newline_not_mem_concat {w : Bytes} (hw : newline ∉ w) :
    newline ∉ w ++ [carriageReturn] := by
  intro hmem
  rcases List.mem_append.mp hmem with hin | hlast
  · exact hw hin
  · cases List.mem_singleton.mp hlast

theorem content_short_line {w t : Bytes} (hw : newline ∉ w) (ht : IsTerminator t)
    (hreturn : w.getLast? ≠ some carriageReturn) (hshort : w.length < limit) :
    ((cut (w ++ t)).map content).flatten = w := by
  have hnewline : cut [newline] = [[newline]] := cut_newline [] unfinished_nil
  rcases ht with rfl | rfl
  · have hcut := cut_newline [] ⟨hw, hshort⟩
    simp [hcut, content_newline, dropEnd_of_ne hreturn]
  · have hmem := newline_not_mem_concat hw
    rw [List.append_cons]
    by_cases hroom : w.length + 1 < limit
    · have hcut := cut_newline [] ⟨hmem, by simpa using hroom⟩
      have hcontent := content_newline (w ++ [carriageReturn])
      rw [dropEnd_concat] at hcontent
      rw [hcut, List.map_cons, hcontent]
      simp
    · have hlength : (w ++ [carriageReturn]).length = limit := by
        simp only [List.length_append, List.length_singleton]
        omega
      rw [cut_full _ hmem hlength, hnewline]
      have hlast : content [newline] = [] := content_newline []
      simp [content_of_not_mem hmem, dropEnd_concat, hlast]

theorem cut_line_length (w t : Bytes) (hw : newline ∉ w) (ht : IsTerminator t) :
    (cut (w ++ t)).length = (w.length + t.length - 1) / limit + 1 := by
  obtain ⟨l, hl, heq⟩ : ∃ l, newline ∉ l ∧ w ++ t = l ++ [newline] := by
    rcases ht with rfl | rfl
    · exact ⟨w, hw, rfl⟩
    · exact ⟨w ++ [carriageReturn], newline_not_mem_concat hw, by simp⟩
  obtain ⟨ps, hcut, -, hlength⟩ := cut_line l [] hl
  have hsum : w.length + t.length = l.length + 1 := by
    simpa using congrArg List.length heq
  rw [heq, hcut, cut_nil, List.append_nil, hlength, hsum, Nat.add_sub_cancel]

/-- The contents of the pieces of a line, put together. -/
theorem content_line (w t : Bytes) (hw : newline ∉ w) (ht : IsTerminator t)
    (hreturn : w.getLast? ≠ some carriageReturn) :
    ((cut (w ++ t)).map content).flatten = kept w := by
  induction hn : w.length using Nat.strong_induction_on generalizing w with
  | h n ih =>
    subst hn
    by_cases hshort : w.length < limit
    · rw [content_short_line hw ht hreturn hshort, kept_of_lt hshort]
    · have htake : (w.take limit).length = limit :=
        List.length_take_of_le (Nat.le_of_not_lt hshort)
      have hfront : newline ∉ w.take limit := fun h => hw (List.mem_of_mem_take h)
      have hback : newline ∉ w.drop limit := fun h => hw (List.mem_of_mem_drop h)
      have hlast : (w.drop limit).getLast? ≠ some carriageReturn := by
        rw [List.getLast?_drop]
        split
        · simp
        · exact hreturn
      have hless : (w.drop limit).length < w.length := by
        rw [List.length_drop, limit_eq] at *
        omega
      have hrest := ih _ hless (w.drop limit) hback hlast rfl
      have hcut := cut_full (w.drop limit ++ t) hfront htake
      have hkept := kept_full (w.take limit) (w.drop limit) htake
      rw [← List.append_assoc, List.take_append_drop] at hcut
      rw [List.take_append_drop] at hkept
      rw [hcut, hkept, List.map_cons, List.flatten_cons, hrest, content_of_not_mem hfront]

end LineConsole.Pieces
