import LineConsole.Proofs.Texts
import LineConsole.Proofs.ValueArrays

/-!
Values that are collected where there is room for a limited number of them. A record that stands
for no value and a record too many are two reasons to refuse an array, and the one that is met
first is given. The first record without room is still converted, so it is refused for itself if
it can be; nothing behind it is looked at.
-/
namespace LineConsole.Foreign

open Utf8 (IsText)

/-! One record -/

inductive Raw.Flaw (r : Raw) : Fault → Prop
  | tag (hint : r.tag ≠ 0) (hfloat : r.tag ≠ 1) (hstr : r.tag ≠ 2) : Flaw r .invalidValue
  | null (htag : r.tag = 2) (hstr : r.str = none) : Flaw r .invalidValue
  | noText {bytes : Bytes} (htag : r.tag = 2) (hstr : r.str = some bytes)
      (htext : ¬ IsText (upToZero bytes)) : Flaw r .invalidUtf8

/-- The records agree in what their tag selects; of a string that is what stands before the first
zero. -/
structure Raw.Alike (r s : Raw) : Prop where
  tag : r.tag = s.tag
  int : r.tag = 0 → r.int = s.int
  float : r.tag = 1 → r.float = s.float
  str : r.tag = 2 → string r.str = string s.str

theorem Kind.ofTag_eq_error {tag : UInt8} (hint : tag ≠ 0) (hfloat : tag ≠ 1) (hstr : tag ≠ 2) :
    ofTag tag = .error .invalidValue := by
  simp [ofTag, hint, hfloat, hstr]

namespace Raw

variable {r s : Raw} {e : Fault}

theorem means_or_flaw (r : Raw) : (∃ v, r.Means v) ∨ ∃ e, r.Flaw e := by
  by_cases hint : r.tag = 0
  · exact Or.inl ⟨_, .int hint⟩
  by_cases hfloat : r.tag = 1
  · exact Or.inl ⟨_, .float hfloat⟩
  by_cases hstr : r.tag = 2
  · cases hbytes : r.str with
    | none => exact Or.inr ⟨_, .null hstr hbytes⟩
    | some bytes =>
      by_cases htext : IsText (upToZero bytes)
      · obtain ⟨text, htext⟩ := htext
        exact Or.inl ⟨_, .str hstr hbytes htext⟩
      · exact Or.inr ⟨_, .noText hstr hbytes htext⟩
  · exact Or.inr ⟨_, .tag hint hfloat hstr⟩

theorem Flaw.toValue (h : r.Flaw e) : r.toValue = .error e := by
  cases h with
  | tag hint hfloat hstr =>
    have hkind := Kind.ofTag_eq_error hint hfloat hstr
    simp only [Raw.toValue, hkind]
  | null htag hstr =>
    have hkind : Kind.ofTag r.tag = .ok .str := Kind.ofTag_eq_ok_iff.mpr htag
    simp only [Raw.toValue, hkind, hstr, string, Option.map_none]
  | @noText bytes htag hstr htext =>
    have hkind : Kind.ofTag r.tag = .ok .str := Kind.ofTag_eq_ok_iff.mpr htag
    have hdecode : Utf8.decode? (upToZero bytes) = none := by
      cases hdecode : Utf8.decode? (upToZero bytes) with
      | none => rfl
      | some text => exact absurd ⟨text, Utf8.decode?_eq_some_iff.mp hdecode⟩ htext
    simp only [Raw.toValue, hkind, hstr, string, Option.map_some, hdecode]

theorem toValue_eq_error_iff : r.toValue = .error e ↔ r.Flaw e := by
  constructor
  · intro h
    rcases r.means_or_flaw with ⟨v, hv⟩ | ⟨e', he'⟩
    · have hok := toValue_eq_ok_iff.mpr hv
      rw [h] at hok
      cases hok
    · have herror := he'.toValue
      rw [h] at herror
      cases herror
      exact he'
  · exact Flaw.toValue

theorem Flaw.unique {e' : Fault} (h : r.Flaw e) (h' : r.Flaw e') : e = e' := by
  have herror := h.toValue
  rw [h'.toValue] at herror
  exact (Except.error.inj herror).symm

theorem Flaw.not_means (h : r.Flaw e) : ¬ ∃ v, r.Means v := by
  intro hmeans
  obtain ⟨v, hv⟩ := hmeans
  have hok := toValue_eq_ok_iff.mpr hv
  rw [h.toValue] at hok
  cases hok

/-- The records that stand for a value. -/
theorem exists_means_iff :
    (∃ v, r.Means v) ↔ r.tag = 0 ∨ r.tag = 1 ∨
      r.tag = 2 ∧ ∃ bytes, r.str = some bytes ∧ IsText (upToZero bytes) := by
  constructor
  · intro h
    obtain ⟨v, hv⟩ := h
    cases hv with
    | int htag => exact Or.inl htag
    | float htag => exact Or.inr (Or.inl htag)
    | @str bytes text htag hstr htext =>
      exact Or.inr (Or.inr ⟨htag, bytes, hstr, text, htext⟩)
  · intro h
    rcases h with htag | htag | ⟨htag, bytes, hstr, text, htext⟩
    · exact ⟨_, .int htag⟩
    · exact ⟨_, .float htag⟩
    · exact ⟨_, .str htag hstr htext⟩

theorem Alike.toValue (h : r.Alike s) : r.toValue = s.toValue := by
  rw [Raw.toValue, Raw.toValue, ← h.tag]
  cases hkind : Kind.ofTag r.tag with
  | error e => rfl
  | ok kind =>
    have htag := Kind.ofTag_eq_ok_iff.mp hkind
    cases kind with
    | int => simp only [h.int htag]
    | float => simp only [h.float htag]
    | str => simp only [h.str htag]

end Raw

/-! Arrays -/

namespace Values

/-- How the collection of some records ends where there is room for `capacity` values. -/
inductive Outcome (capacity : Nat) (raws : List Raw) : Except Fault (List Value) → Prop
  | all {values : List Value} (fits : raws.length ≤ capacity) (converted : Mean raws values) :
      Outcome capacity raws (.ok values)
  | flawed {i : Nat} {r : Raw} {e : Fault} (near : i ≤ capacity) (record : raws[i]? = some r)
      (flaw : r.Flaw e) (front : ∀ s ∈ raws.take i, ∃ v, s.Means v) :
      Outcome capacity raws (.error e)
  | full (exceeds : capacity < raws.length)
      (front : ∀ s ∈ raws.take (capacity + 1), ∃ v, s.Means v) :
      Outcome capacity raws (.error .invalidValue)

section Outcome

variable {capacity : Nat} {r : Raw} {rest : List Raw} {result : Except Fault (List Value)}

theorem Outcome.of_flaw {e : Fault} (h : r.Flaw e) : Outcome capacity (r :: rest) (.error e) := by
  apply Outcome.flawed (Nat.zero_le capacity) List.getElem?_cons_zero h
  simp

theorem Outcome.of_no_room {v : Value} (h : r.Means v) :
    Outcome 0 (r :: rest) (.error .invalidValue) := by
  apply Outcome.full
  · simp
  · simpa using ⟨v, h⟩

theorem forall_mem_cons_means {v : Value} (h : r.Means v) {front : List Raw}
    (hfront : ∀ s ∈ front, ∃ v, s.Means v) : ∀ s ∈ r :: front, ∃ v, s.Means v :=
  List.forall_mem_cons.mpr ⟨⟨v, h⟩, hfront⟩

/-- A record that stands for a value leaves the decision to the records behind it. -/
theorem Outcome.cons {v : Value} (h : r.Means v) (hrest : Outcome capacity rest result) :
    Outcome (capacity + 1) (r :: rest) (result.map (v :: ·)) := by
  cases hrest with
  | all fits converted => exact .all (Nat.succ_le_succ fits) (.cons h converted)
  | @flawed i s e near record flaw front =>
    exact .flawed (i := i + 1) (Nat.succ_le_succ near) record flaw (forall_mem_cons_means h front)
  | full exceeds front =>
    exact .full (Nat.succ_lt_succ exceeds) (forall_mem_cons_means h front)

end Outcome

theorem convertWithin_outcome (capacity : Nat) (raws : List Raw) :
    Outcome capacity raws (convertWithin capacity raws) := by
  induction raws generalizing capacity with
  | nil =>
    rw [convertWithin]
    exact .all (Nat.zero_le capacity) .nil
  | cons r rest ih =>
    rw [convertWithin]
    cases hvalue : r.toValue with
    | error e => exact .of_flaw (Raw.toValue_eq_error_iff.mp hvalue)
    | ok v =>
      have hmeans := Raw.toValue_eq_ok_iff.mp hvalue
      cases capacity with
      | zero => exact .of_no_room hmeans
      | succ capacity => exact .cons hmeans (ih capacity)

section Unique

variable {capacity i n : Nat} {r : Raw} {e : Fault} {raws : List Raw}

theorem mem_take_of_getElem? (hr : raws[i]? = some r) (hi : i < n) : r ∈ raws.take n := by
  apply List.mem_of_getElem? (i := i)
  rw [List.getElem?_take_of_lt hi, hr]

theorem Mean.exists_means {values : List Value} (h : Mean raws values) (hr : r ∈ raws) :
    ∃ v, r.Means v := by
  induction h with
  | nil => cases hr
  | cons hhead htail ih =>
    rcases List.mem_cons.mp hr with heq | hmem
    · exact heq ▸ ⟨_, hhead⟩
    · exact ih hmem

/-- Each of the three ways to end excludes the others. -/
theorem Outcome.unique {a b : Except Fault (List Value)} (ha : Outcome capacity raws a)
    (hb : Outcome capacity raws b) : a = b := by
  cases ha with
  | all fits converted =>
    cases hb with
    | all fits' converted' =>
      have hvalues := convert_eq_ok_iff.mpr converted
      rw [convert_eq_ok_iff.mpr converted'] at hvalues
      exact hvalues.symm
    | flawed near record flaw front =>
      exact absurd (converted.exists_means (List.mem_of_getElem? record)) flaw.not_means
    | full exceeds front => omega
  | @flawed i r e near record flaw front =>
    cases hb with
    | all fits converted =>
      exact absurd (converted.exists_means (List.mem_of_getElem? record)) flaw.not_means
    | @flawed i' r' e' near' record' flaw' front' =>
      rcases Nat.lt_trichotomy i i' with hlt | rfl | hlt
      · exact absurd (front' r (mem_take_of_getElem? record hlt)) flaw.not_means
      · rw [record] at record'
        cases record'
        rw [flaw.unique flaw']
      · exact absurd (front r' (mem_take_of_getElem? record' hlt)) flaw'.not_means
    | full exceeds front' =>
      have hmem := mem_take_of_getElem? record (Nat.lt_succ_of_le near)
      exact absurd (front' r hmem) flaw.not_means
  | full exceeds front =>
    cases hb with
    | all fits converted => omega
    | @flawed i r e near record flaw front' =>
      have hmem := mem_take_of_getElem? record (Nat.lt_succ_of_le near)
      exact absurd (front r hmem) flaw.not_means
    | full exceeds' front' => rfl

end Unique

theorem convertWithin_eq_iff {capacity : Nat} {raws : List Raw}
    {result : Except Fault (List Value)} :
    convertWithin capacity raws = result ↔ Outcome capacity raws result := by
  constructor
  · intro h
    exact h ▸ convertWithin_outcome capacity raws
  · exact (convertWithin_outcome capacity raws).unique

/-- Behind the first record without room nothing matters, and before it only what is selected. -/
theorem convertWithin_congr {capacity : Nat} {raws raws' : List Raw}
    (h : List.Forall₂ Raw.Alike (raws.take (capacity + 1)) (raws'.take (capacity + 1))) :
    convertWithin capacity raws = convertWithin capacity raws' := by
  induction raws generalizing capacity raws' with
  | nil =>
    cases raws' with
    | nil => rfl
    | cons r' rest' => cases h
  | cons r rest ih =>
    cases raws' with
    | nil => cases h
    | cons r' rest' =>
      rw [List.take_succ_cons, List.take_succ_cons, List.forall₂_cons] at h
      obtain ⟨hhead, htail⟩ := h
      rw [convertWithin, convertWithin, hhead.toValue]
      cases capacity with
      | zero => rfl
      | succ capacity => simp only [ih htail]

variable {vs : Values} {raws : List Raw}

theorem Holds.collect (h : vs.Holds raws) (capacity : Nat) :
    vs.collect capacity = convertWithin capacity raws := by
  rw [Values.collect, h.visited]
  rfl

theorem collect_empty (capacity : Nat) (pointer : Option (List Raw)) :
    collect capacity ⟨pointer, 0⟩ = .ok [] := by
  rw [(Holds.empty pointer).collect, convertWithin]

theorem collect_null (capacity : Nat) {length : Nat} (h : 0 < length) :
    collect capacity ⟨none, length⟩ = .error .invalidValue := by
  have hlength : length ≠ 0 := by omega
  simp [Values.collect, visited, hlength, Except.bind]

/-- The records of an array are collected if all of them stand for values and there is room for
them. Otherwise the first of them that stands for no value tells why, if it is met before the
records exceed the room; if they do so first, that is the reason. What is not selected by a tag
and what stands behind the first record without room is never told apart. -/
theorem collect_ends (capacity : Nat) :
    (∀ vs raws, Holds vs raws →
      ∀ result, vs.collect capacity = result ↔ Outcome capacity raws result) ∧
    (∀ vs vs' raws raws', Holds vs raws → Holds vs' raws' →
      List.Forall₂ Raw.Alike (raws.take (capacity + 1)) (raws'.take (capacity + 1)) →
      vs.collect capacity = vs'.collect capacity) ∧
    (∀ r : Raw, (∃ v, r.toValue = .ok v) ↔ r.tag = 0 ∨ r.tag = 1 ∨
      r.tag = 2 ∧ ∃ bytes, r.str = some bytes ∧ IsText (bytes.takeWhile (· ≠ 0))) ∧
    collect capacity ⟨none, 0⟩ = .ok [] ∧
    (∀ length, 0 < length → collect capacity ⟨none, length⟩ = .error .invalidValue) := by
  refine ⟨?_, ?_, ?_, collect_empty capacity none, fun _ => collect_null capacity⟩
  · intro vs raws h result
    rw [h.collect, convertWithin_eq_iff]
  · intro vs vs' raws raws' h h' halike
    rw [h.collect, h'.collect, convertWithin_congr halike]
  · intro r
    simp only [Raw.toValue_eq_ok_iff]
    exact Raw.exists_means_iff

/-- The first record without room is refused for itself; the one behind it is not looked at, nor is
a field that no tag selects. -/
theorem collect_ends_at_first_reason :
    let noText : Raw := { tag := 2, int := 8, str := some [0xFF, 0, 0x61] }
    let raws : List Raw := [.ofInt 7, noText]
    let more : List Raw := [.ofInt 7, { noText with str := some [0xFF] }, .ofInt 9]
    Outcome 1 raws (.error .invalidUtf8) ∧
      collect 1 (.ofList raws) = .error .invalidUtf8 ∧
      collect 1 (.ofList more) = collect 1 (.ofList raws) ∧
      collect 0 (.ofList more) = .error .invalidValue ∧
      collect 1 ⟨none, 2⟩ = .error .invalidValue := by
  intro noText raws more
  obtain ⟨hends, hsame, -, -, hnull⟩ := collect_ends 1
  obtain ⟨hends', -⟩ := collect_ends 0
  have htext : ¬ IsText [0xFF] := by
    rw [Utf8.isText_iff]
    decide
  have hflawed : Outcome 1 raws (.error .invalidUtf8) :=
    .flawed (i := 1) (Nat.le_refl 1) rfl (.noText rfl rfl htext) (by simpa [raws] using ⟨_, .int rfl⟩)
  have hfull : Outcome 0 more (.error .invalidValue) :=
    .full (by simp [more]) (by simpa [more] using ⟨_, .int rfl⟩)
  have halike : List.Forall₂ Raw.Alike (more.take 2) (raws.take 2) :=
    .cons ⟨rfl, fun _ => rfl, nofun, nofun⟩ (.cons ⟨rfl, nofun, nofun, fun _ => rfl⟩ .nil)
  exact ⟨hflawed, (hends _ raws (.array raws []) _).mpr hflawed,
    hsame _ _ more raws (.array more []) (.array raws []) halike,
    (hends' _ more (.array more []) _).mpr hfull, hnull 2 (by decide)⟩

end Values

end LineConsole.Foreign
