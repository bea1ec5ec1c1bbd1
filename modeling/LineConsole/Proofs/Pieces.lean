import LineConsole.LineBuffer
import Mathlib.Data.List.Infix

/-!
How an input falls into the pieces that are read at once. A piece ends with the first newline
or with its 255th byte, whichever comes first; only the last piece of an input may end without
either. Cutting loses no byte, and the number of pieces of a line follows from its length.
-/
namespace LineConsole.Pieces

open LineBuffer

def limit : Nat := capacity - 1

theorem limit_eq : limit = 255 := rfl

/-- Bytes behind which the piece goes on. -/
def Unfinished (p : Bytes) : Prop := newline ∉ p ∧ p.length < limit

instance (p : Bytes) : Decidable (Unfinished p) :=
  inferInstanceAs (Decidable (newline ∉ p ∧ p.length < limit))

def cutFrom (before : Bytes) : Bytes → List Bytes
  | [] => if before = [] then [] else [before]
  | byte :: rest =>
      if Unfinished (before ++ [byte]) then cutFrom (before ++ [byte]) rest
      else (before ++ [byte]) :: cutFrom [] rest

def cut (bytes : Bytes) : List Bytes := cutFrom [] bytes

def Finished (p : Bytes) : Prop := p.getLast? = some newline ∨ p.length = limit

/-- The shortest finished prefix, or everything if no prefix is finished. -/
def IsFirst (p bytes : Bytes) : Prop :=
  (p <+: bytes ∧ Finished p ∧ ∀ q, q <+: bytes → Finished q → p.length ≤ q.length) ∨
    (p = bytes ∧ ∀ q, q <+: bytes → ¬ Finished q)

theorem unfinished_nil : Unfinished [] := by decide

theorem Unfinished.of_prefix {p q : Bytes} (hp : Unfinished p) (h : q <+: p) :
    Unfinished q := by
  constructor
  · intro hmem
    exact hp.1 (h.subset hmem)
  · exact Nat.lt_of_le_of_lt h.length_le hp.2

theorem Unfinished.not_finished {p : Bytes} (hp : Unfinished p) : ¬ Finished p := by
  rintro (hlast | hlength)
  · exact hp.1 (List.mem_of_getLast? hlast)
  · exact Nat.ne_of_lt hp.2 hlength

/-- The byte that finishes a piece is a newline or the last one that fits. -/
theorem finished_append {q : Bytes} {byte : UInt8} (hq : Unfinished q)
    (h : ¬ Unfinished (q ++ [byte])) : byte = newline ∨ q.length + 1 = limit := by
  by_cases hbyte : byte = newline
  · exact Or.inl hbyte
  · have hmem : newline ∉ q ++ [byte] := by
      simpa [hq.1] using Ne.symm hbyte
    have hlength : ¬ q.length + 1 < limit := by
      intro hlt
      exact h ⟨hmem, by simpa using hlt⟩
    have hlt := hq.2
    exact Or.inr (by omega)

theorem finished_of_append {q : Bytes} {byte : UInt8} (hq : Unfinished q)
    (h : ¬ Unfinished (q ++ [byte])) : Finished (q ++ [byte]) := by
  rcases finished_append hq h with rfl | hlength
  · exact Or.inl List.getLast?_concat
  · exact Or.inr (by simpa using hlength)

theorem cutFrom_unfinished (before l rest : Bytes) (h : Unfinished (before ++ l)) :
    cutFrom before (l ++ rest) = cutFrom (before ++ l) rest := by
  induction l generalizing before with
  | nil => simp
  | cons byte l ih =>
    rw [List.append_cons] at h ⊢
    have hbyte : Unfinished (before ++ [byte]) := h.of_prefix (List.prefix_append _ _)
    rw [List.cons_append, cutFrom, if_pos hbyte, ih _ h]

@[simp] theorem cut_nil : cut [] = [] := rfl

theorem cut_unfinished {l : Bytes} (hl : Unfinished l) (hne : l ≠ []) : cut l = [l] := by
  have h := cutFrom_unfinished [] l [] hl
  rw [List.append_nil, List.nil_append] at h
  rw [cut, h, cutFrom, if_neg hne]

theorem cut_finished {q : Bytes} {byte : UInt8} (rest : Bytes) (hq : Unfinished q)
    (h : ¬ Unfinished (q ++ [byte])) :
    cut (q ++ byte :: rest) = (q ++ [byte]) :: cut rest := by
  rw [cut, cutFrom_unfinished [] q _ hq, List.nil_append, cutFrom, if_neg h, cut]

/-- An input is unfinished, or it begins with a finished piece. -/
theorem unfinished_or_finished (bytes : Bytes) :
    Unfinished bytes ∨ ∃ q byte rest, bytes = q ++ byte :: rest ∧
      Unfinished q ∧ ¬ Unfinished (q ++ [byte]) := by
  induction bytes using List.reverseRecOn with
  | nil => exact Or.inl unfinished_nil
  | append_singleton front byte ih =>
    rcases ih with hfront | ⟨q, b, rest, rfl, hq, hb⟩
    · by_cases hall : Unfinished (front ++ [byte])
      · exact Or.inl hall
      · exact Or.inr ⟨front, byte, [], rfl, hfront, hall⟩
    · exact Or.inr ⟨q, b, rest ++ [byte], by simp, hq, hb⟩

/-- Induction along the pieces of an input. -/
theorem cut_induction {motive : Bytes → Prop} (nil : motive [])
    (unfinished : ∀ l, Unfinished l → l ≠ [] → motive l)
    (finished : ∀ q byte rest, Unfinished q → ¬ Unfinished (q ++ [byte]) →
      motive rest → motive (q ++ byte :: rest))
    (bytes : Bytes) : motive bytes := by
  induction hn : bytes.length using Nat.strong_induction_on generalizing bytes with
  | h n ih =>
    rcases unfinished_or_finished bytes with hall | ⟨q, byte, rest, rfl, hq, hb⟩
    · by_cases hne : bytes = []
      · exact hne ▸ nil
      · exact unfinished bytes hall hne
    · refine finished q byte rest hq hb (ih rest.length ?_ rest rfl)
      simp only [List.length_append, List.length_cons] at hn
      omega

/-- No byte is lost, added or moved. -/
theorem cut_flatten (bytes : Bytes) : (cut bytes).flatten = bytes := by
  induction bytes using cut_induction with
  | nil => rfl
  | unfinished l hl hne => simp [cut_unfinished hl hne]
  | finished q byte rest hq hb ih => simp [cut_finished rest hq hb, ih]

/-- In front of its last byte a piece is unfinished. -/
theorem exists_concat_of_mem_cut {bytes p : Bytes} (h : p ∈ cut bytes) :
    ∃ q byte, p = q ++ [byte] ∧ Unfinished q := by
  induction bytes using cut_induction with
  | nil => simp at h
  | unfinished l hl hne =>
    rw [cut_unfinished hl hne, List.mem_singleton] at h
    obtain ⟨q, byte, rfl⟩ := (List.eq_nil_or_concat' l).resolve_left hne
    exact ⟨q, byte, h, hl.of_prefix (List.prefix_append q [byte])⟩
  | finished q byte rest hq hb ih =>
    rw [cut_finished rest hq hb, List.mem_cons] at h
    rcases h with rfl | hmem
    · exact ⟨q, byte, rfl, hq⟩
    · exact ih hmem

theorem ne_nil_of_mem_cut {bytes p : Bytes} (h : p ∈ cut bytes) : p ≠ [] := by
  obtain ⟨q, byte, rfl, -⟩ := exists_concat_of_mem_cut h
  simp

theorem length_le_of_mem_cut {bytes p : Bytes} (h : p ∈ cut bytes) : p.length ≤ limit := by
  obtain ⟨q, byte, rfl, hq⟩ := exists_concat_of_mem_cut h
  rw [List.length_append]
  exact hq.2

/-- Behind the first piece the cutting goes on as before. -/
theorem cut_behind_first {p rest : Bytes} (h : (cut (p ++ rest))[0]? = some p) :
    cut rest = (cut (p ++ rest)).drop 1 := by
  rcases unfinished_or_finished (p ++ rest) with hl | ⟨q, byte, left, hall, hq, hb⟩
  · by_cases hne : p ++ rest = []
    · rw [hne] at h
      cases h
    · rw [cut_unfinished hl hne] at h ⊢
      obtain rfl : rest = [] := List.append_right_eq_self.mp (Option.some.inj h)
      rfl
  · rw [hall, cut_finished left hq hb] at h ⊢
    obtain rfl : q ++ [byte] = p := Option.some.inj h
    rw [List.append_assoc] at hall
    obtain rfl : rest = left := by simpa using hall
    rfl

theorem cut_behind {bytes p : Bytes} {ps : List Bytes} (h : cut bytes = p :: ps) :
    cut ps.flatten = ps := by
  have hbytes : p ++ ps.flatten = bytes := by
    rw [← cut_flatten bytes, h, List.flatten_cons]
  have hfirst : (cut (p ++ ps.flatten))[0]? = some p := by
    rw [hbytes, h]
    rfl
  have hrest := cut_behind_first hfirst
  rw [hrest, hbytes, h]
  rfl

/-- What is left behind some pieces is cut into the others. -/
theorem cut_flatten_drop (bytes : Bytes) (k : Nat) :
    cut ((cut bytes).drop k).flatten = (cut bytes).drop k := by
  induction k generalizing bytes with
  | zero => rw [List.drop_zero, cut_flatten]
  | succ k ih =>
    cases h : cut bytes with
    | nil => rfl
    | cons p ps =>
      have hrest := ih ps.flatten
      rwa [cut_behind h] at hrest

theorem isFirst_unfinished {l : Bytes} (hl : Unfinished l) : IsFirst l l :=
  Or.inr ⟨rfl, fun _ hq => (hl.of_prefix hq).not_finished⟩

theorem isFirst_finished {q : Bytes} {byte : UInt8} (rest : Bytes) (hq : Unfinished q)
    (hb : ¬ Unfinished (q ++ [byte])) : IsFirst (q ++ [byte]) (q ++ byte :: rest) := by
  rw [List.append_cons q byte rest]
  refine Or.inl ⟨List.prefix_append _ _, finished_of_append hq hb, ?_⟩
  intro p hp hfinished
  by_contra hlt
  have hpq : p <+: q := by
    rw [List.append_assoc] at hp
    apply List.prefix_of_prefix_length_le hp (List.prefix_append _ _)
    simp only [List.length_append, List.length_singleton] at hlt
    omega
  exact (hq.of_prefix hpq).not_finished hfinished

/-- Each piece is the first one of what the pieces before it leave. -/
theorem isFirst_cut (bytes : Bytes) (k : Nat) (p : Bytes) (h : (cut bytes)[k]? = some p) :
    IsFirst p ((cut bytes).drop k).flatten := by
  induction bytes using cut_induction generalizing k with
  | nil => simp at h
  | unfinished l hl hne =>
    rw [cut_unfinished hl hne] at h ⊢
    cases k with
    | zero =>
      obtain rfl : l = p := by simpa using h
      simpa using isFirst_unfinished hl
    | succ k => simp at h
  | finished q byte rest hq hb ih =>
    rw [cut_finished rest hq hb] at h ⊢
    cases k with
    | zero =>
      obtain rfl : q ++ [byte] = p := by simpa using h
      simpa [cut_flatten] using isFirst_finished rest hq hb
    | succ k => exact ih k h

theorem exists_concat_of_full {p : Bytes} (hp : p.length = limit) :
    ∃ q byte, p = q ++ [byte] ∧ q.length + 1 = limit := by
  rcases List.eq_nil_or_concat p with rfl | ⟨q, byte, rfl⟩
  · cases hp
  · refine ⟨q, byte, by simp, ?_⟩
    simpa using hp

/-- Full pieces of a long line come first. -/
theorem cut_full {p : Bytes} (rest : Bytes) (hp : newline ∉ p) (hlength : p.length = limit) :
    cut (p ++ rest) = p :: cut rest := by
  obtain ⟨q, byte, rfl, hq⟩ := exists_concat_of_full hlength
  have hfront : Unfinished q := by
    constructor
    · intro hmem
      exact hp (List.mem_append_left _ hmem)
    · omega
  have hfull : ¬ Unfinished (q ++ [byte]) := fun h => Nat.ne_of_lt h.2 hlength
  simpa using cut_finished rest hfront hfull

/-- A newline that still fits ends the piece. -/
theorem cut_newline {l : Bytes} (rest : Bytes) (hl : Unfinished l) :
    cut (l ++ newline :: rest) = (l ++ [newline]) :: cut rest := by
  apply cut_finished rest hl
  intro h
  exact h.1 (List.mem_append_right l (List.mem_singleton_self newline))

/-- A line that ends takes one piece more than it has full ones before its newline. -/
theorem cut_line (l rest : Bytes) (hl : newline ∉ l) :
    ∃ ps, cut (l ++ newline :: rest) = ps ++ cut rest ∧ ps.flatten = l ++ [newline] ∧
      ps.length = l.length / limit + 1 := by
  induction hn : l.length using Nat.strong_induction_on generalizing l with
  | h n ih =>
    subst hn
    by_cases hshort : l.length < limit
    · refine ⟨[l ++ [newline]], ?_, by simp, ?_⟩
      · exact cut_newline rest ⟨hl, hshort⟩
      · simp [Nat.div_eq_of_lt hshort]
    · have hlong : limit ≤ l.length := Nat.le_of_not_lt hshort
      have htake : (l.take limit).length = limit := List.length_take_of_le hlong
      have hdrop : newline ∉ l.drop limit := fun h => hl (List.mem_of_mem_drop h)
      have hless : (l.drop limit).length < l.length := by
        rw [List.length_drop, limit_eq] at *
        omega
      obtain ⟨ps, hcut, hflatten, hcount⟩ := ih _ hless (l.drop limit) hdrop rfl
      refine ⟨l.take limit :: ps, ?_, ?_, ?_⟩
      · have hfull := cut_full (l.drop limit ++ newline :: rest)
          (fun h => hl (List.mem_of_mem_take h)) htake
        rw [← List.append_assoc, List.take_append_drop, hcut] at hfull
        exact hfull
      · rw [List.flatten_cons, hflatten, ← List.append_assoc, List.take_append_drop]
      · rw [List.length_cons, hcount, List.length_drop, limit_eq] at *
        omega

/-- A line that the input leaves unterminated. -/
theorem cut_length (l : Bytes) (hl : newline ∉ l) :
    (cut l).length = (l.length + (limit - 1)) / limit := by
  induction l using cut_induction with
  | nil => rfl
  | unfinished l hunfinished hne =>
    have hpos := List.length_pos_iff.mpr hne
    have hlt := hunfinished.2
    rw [cut_unfinished hunfinished hne, List.length_singleton, limit_eq] at *
    omega
  | finished q byte rest hq hb ih =>
    have hrest : newline ∉ rest := fun h => hl (by simp [h])
    have hbyte : byte ≠ newline := fun h => hl (by simp [h])
    have hlength := (finished_append hq hb).resolve_left hbyte
    rw [cut_finished rest hq hb, List.length_cons, ih hrest, List.length_append,
      List.length_cons, limit_eq] at *
    omega

/-- Nothing, or lines of which the last one is terminated. -/
def IsLines (bytes : Bytes) : Prop := bytes = [] ∨ bytes.getLast? = some newline

theorem IsLines.eq_nil {l : Bytes} (h : IsLines l) (hl : Unfinished l) : l = [] := by
  rcases h with hnil | hlast
  · exact hnil
  · exact absurd (Or.inl hlast) hl.not_finished

theorem IsLines.of_append {q rest : Bytes} {byte : UInt8} (h : IsLines (q ++ byte :: rest)) :
    IsLines rest := by
  cases rest with
  | nil => exact Or.inl rfl
  | cons b rest =>
    refine Or.inr ?_
    rcases h with hnil | hlast
    · simp at hnil
    · simpa using hlast

/-- Behind lines the cutting starts anew. -/
theorem cut_append (before rest : Bytes) (h : IsLines before) :
    cut (before ++ rest) = cut before ++ cut rest := by
  induction before using cut_induction with
  | nil => rfl
  | unfinished l hl hne => exact absurd (h.eq_nil hl) hne
  | finished q byte more hq hb ih =>
    rw [List.append_assoc, List.cons_append, cut_finished _ hq hb, ih h.of_append,
      cut_finished _ hq hb, List.cons_append]

end LineConsole.Pieces
