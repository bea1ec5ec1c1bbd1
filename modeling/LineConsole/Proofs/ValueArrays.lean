import LineConsole.Proofs.Backends
import LineConsole.Proofs.Utf8
import Mathlib.Data.List.Forall2

/-!
Arrays of values that programs in C pass for printing. An array is shown as one line or not at all:
a single element that stands for no value keeps all the others from being written, wherever it
stands. The device differs from the host only in that its lines have room for a limited number of
values.
-/
namespace LineConsole

namespace Foreign

inductive Raw.Means (r : Raw) : Value → Prop
  | int (htag : r.tag = 0) : Means r (.int r.int)
  | float (htag : r.tag = 1) : Means r (.float r.float)
  | str {bytes : Bytes} {text : String} (htag : r.tag = 2) (hstr : r.str = some bytes)
      (htext : upToZero bytes = Utf8.encode text) : Means r (.str text)

theorem Kind.ofTag_eq_ok_iff {tag : UInt8} {k : Kind} : ofTag tag = .ok k ↔ tag = k.tag := by
  constructor
  · unfold ofTag
    split
    · rintro ⟨⟩
      assumption
    split
    · rintro ⟨⟩
      assumption
    split
    · rintro ⟨⟩
      assumption
    · rintro ⟨⟩
  · rintro rfl
    exact ofTag_tag k

theorem Raw.toValue_eq_ok_iff {r : Raw} {v : Value} : r.toValue = .ok v ↔ r.Means v := by
  constructor
  · intro h
    unfold toValue at h
    split at h
    · cases h
    · next hkind =>
      cases h
      exact .int (Kind.ofTag_eq_ok_iff.mp hkind)
    · next hkind =>
      cases h
      exact .float (Kind.ofTag_eq_ok_iff.mp hkind)
    · next hkind =>
      split at h
      · cases h
      · next bytes hstring =>
        split at h
        · next text hdecode =>
          cases h
          obtain ⟨behind, hstr, rfl⟩ := Option.map_eq_some_iff.mp hstring
          exact .str (Kind.ofTag_eq_ok_iff.mp hkind) hstr (Utf8.decode?_eq_some_iff.mp hdecode)
        · cases h
  · intro h
    cases h with
    | int htag =>
      have hkind : Kind.ofTag r.tag = .ok .int := Kind.ofTag_eq_ok_iff.mpr htag
      simp only [toValue, hkind]
    | float htag =>
      have hkind : Kind.ofTag r.tag = .ok .float := Kind.ofTag_eq_ok_iff.mpr htag
      simp only [toValue, hkind]
    | str htag hstr htext =>
      have hkind : Kind.ofTag r.tag = .ok .str := Kind.ofTag_eq_ok_iff.mpr htag
      have hdecode := Utf8.decode?_eq_some_iff.mpr htext
      simp only [toValue, hkind, string, hstr, Option.map_some, hdecode]

namespace Values

/-- The array consists of these records. Whatever pointer comes with the length zero, it stands
for the empty array; any other array may lie in front of further records. -/
inductive Holds : Values → List Raw → Prop
  | empty (pointer : Option (List Raw)) : Holds ⟨pointer, 0⟩ []
  | array (raws behind : List Raw) : Holds ⟨some (raws ++ behind), raws.length⟩ raws

theorem Holds.visited {vs : Values} {raws : List Raw} (h : vs.Holds raws) :
    vs.visited = .ok raws := by
  cases h with
  | empty pointer => rfl
  | array raws behind =>
    unfold Values.visited
    split
    · next hlength => rw [List.eq_nil_of_length_eq_zero hlength]
    · exact congrArg Except.ok List.take_left

def Mean (raws : List Raw) (values : List Value) : Prop := List.Forall₂ Raw.Means raws values

theorem convert_eq_ok_iff {raws : List Raw} {values : List Value} :
    convert raws = .ok values ↔ Mean raws values := by
  unfold Mean
  induction raws generalizing values with
  | nil =>
    rw [List.forall₂_nil_left_iff, convert, Except.ok.injEq]
    exact eq_comm
  | cons r rest ih =>
    rw [List.forall₂_cons_left_iff, convert]
    cases hvalue : r.toValue with
    | error e =>
      constructor
      · rintro ⟨⟩
      · rintro ⟨v, values, hv, -, -⟩
        cases hvalue.symm.trans (Raw.toValue_eq_ok_iff.mpr hv)
    | ok v =>
      constructor
      · intro h
        cases hrest : convert rest with
        | error e =>
          rw [hrest] at h
          cases h
        | ok values =>
          rw [hrest] at h
          cases h
          exact ⟨v, values, Raw.toValue_eq_ok_iff.mp hvalue, ih.mp hrest, rfl⟩
      · rintro ⟨w, values, hw, hrest, rfl⟩
        obtain rfl : v = w :=
          Except.ok.inj (hvalue.symm.trans (Raw.toValue_eq_ok_iff.mpr hw))
        simp only [ih.mpr hrest, Except.map]

/-- Only as many values are collected as there is room for. -/
theorem length_of_convertWithin {capacity : Nat} {raws : List Raw} {values : List Value}
    (h : convertWithin capacity raws = .ok values) : raws.length ≤ capacity := by
  induction raws generalizing capacity values with
  | nil => exact Nat.zero_le _
  | cons r rest ih =>
    unfold convertWithin at h
    split at h
    · cases h
    · split at h
      · cases h
      · next room =>
        cases hrest : convertWithin room rest with
        | error e =>
          rw [hrest] at h
          cases h
        | ok values => exact Nat.succ_le_succ (ih hrest)

theorem convertWithin_eq_ok_iff {capacity : Nat} {raws : List Raw} {values : List Value} :
    convertWithin capacity raws = .ok values ↔ raws.length ≤ capacity ∧ Mean raws values := by
  constructor
  · intro h
    have hlength := length_of_convertWithin h
    rw [convertWithin_eq hlength] at h
    exact ⟨hlength, convert_eq_ok_iff.mp h⟩
  · rintro ⟨hlength, hmean⟩
    rw [convertWithin_eq hlength]
    exact convert_eq_ok_iff.mpr hmean

end Values

end Foreign

open Foreign

/-- What is written and logged for an array that can be shown as the line of certain values, or
that cannot be shown. -/
structure AllOrNothing {ε : Type} (level : ε → Level) (shown : List Value → Prop)
    (written : Bytes) (logged : List ε) : Prop where
  line : ∀ values, shown values → written = lineOf (Value.joined values) ∧ logged = []
  nothing : (¬ ∃ values, shown values) → written = [] ∧ ∃ e, logged = [e] ∧ level e = .warn
  written_iff : written ≠ [] ↔ ∃ values, shown values

theorem lineOf_ne_nil (text : String) : lineOf text ≠ [] := by
  simp [lineOf]

section AllOrNothing

variable {ε : Type} {level : ε → Level} {shown : List Value → Prop}

theorem AllOrNothing.of_shown {values : List Value} (h : shown values)
    (hunique : ∀ others, shown others → others = values) :
    AllOrNothing level shown (lineOf (Value.joined values)) [] where
  line others hothers := by
    rw [hunique others hothers]
    exact ⟨rfl, rfl⟩
  nothing hnone := absurd ⟨values, h⟩ hnone
  written_iff := iff_of_true (lineOf_ne_nil _) ⟨values, h⟩

theorem AllOrNothing.of_refused {e : ε} (h : ¬ ∃ values, shown values) (hlevel : level e = .warn) :
    AllOrNothing level shown [] [e] where
  line values hvalues := absurd ⟨values, hvalues⟩ h
  nothing _ := ⟨rfl, e, rfl, hlevel⟩
  written_iff := iff_of_false (not_not_intro rfl) h

end AllOrNothing

namespace Host

/-- The call returns, and all that it has done is to write these bytes and to log these events. -/
def Emits (call : Foreign.Call) (v : View Stdout) (written : Bytes) (logged : List Event) : Prop :=
  Run.foreign call v = (.ok .nothing, { v with
    state.streams := { v.state.streams with
      output.written := v.state.streams.output.written ++ written
      log := v.state.streams.log ++ logged } })

variable {v : View Stdout}

theorem emits_write (hworks : v.state.streams.output.full = false) {call : Foreign.Call}
    {values : List Value}
    (hcall : Run.foreign call v = Run.write call.symbol (Console.printValues values) v) :
    Emits call v (lineOf (Value.joined values)) [] := by
  have hprint := Streams.outlet.printValues hworks values
  rw [Emits, hcall, Run.write_apply, hprint]
  rfl

theorem emits_skip {call : Foreign.Call} {e : Event}
    (hcall : Run.foreign call v = Run.skip e v) : Emits call v [] [e] := by
  rw [Emits, hcall, List.append_nil]
  rfl

/-- A host shows the array if every record stands for a value. -/
theorem printValues_emits (hworks : v.state.streams.output.full = false) {vs : Values}
    {raws : List Raw} (h : vs.Holds raws) :
    ∃ written logged, Emits (.printValues vs) v written logged ∧
      AllOrNothing Event.level (Values.Mean raws) written logged := by
  cases hconvert : Values.convert raws with
  | ok values =>
    refine ⟨_, _, emits_write hworks ?_, .of_shown (Values.convert_eq_ok_iff.mp hconvert) ?_⟩
    · simp only [Run.foreign, h.visited, hconvert]
    · intro others hothers
      exact Except.ok.inj ((Values.convert_eq_ok_iff.mpr hothers).symm.trans hconvert)
  | error fault =>
    refine ⟨_, _, emits_skip (e := .valueRefused fault) ?_, .of_refused ?_ rfl⟩
    · simp only [Run.foreign, h.visited, hconvert]
    · rintro ⟨values, hvalues⟩
      cases hconvert.symm.trans (Values.convert_eq_ok_iff.mpr hvalues)

end Host

namespace Device

/-- The call returns, and all that it has done is to send these bytes, to log these events and
perhaps to flush the line. -/
def Emits (call : Foreign.Call) (d : State) (sent : Bytes) (logged : List Event) : Prop :=
  ∃ flushes, Run.foreign call d = (.ok .nothing, { d with
    uart.transmitter.sent := d.uart.transmitter.sent ++ sent
    uart.transmitter.flushes := flushes
    log := d.log ++ logged })

variable {d : State}

theorem emits_write (hidle : d.slot.IsIdle) (hsteady : d.uart.Steady) {call : Foreign.Call}
    {values : List Value}
    (hcall : Run.foreign call = Run.write call.symbol (Console.printValues values)) :
    Emits call d (lineOf (Value.joined values)) [] := by
  obtain ⟨line, hslot⟩ := hidle
  have hprint := Uart.outlet.printValues hsteady values
  have hwrite := Run.write_idle call.symbol (a := Console.printValues values) hslot
    (by rw [hprint]; exact hsteady.running)
  rw [hprint] at hwrite
  refine ⟨d.uart.transmitter.flushes + 1, ?_⟩
  rw [hcall, hwrite]
  rfl

theorem emits_skip {call : Foreign.Call} {e : Event} (hcall : Run.foreign call = Run.skip e) :
    Emits call d [] [e] := by
  refine ⟨d.uart.transmitter.flushes, ?_⟩
  rw [hcall, List.append_nil]
  rfl

/-- A device shows the array if every record stands for a value and there is room for them. -/
theorem printValues_emits (hidle : d.slot.IsIdle) (hsteady : d.uart.Steady) {vs : Values}
    {raws : List Raw} (h : vs.Holds raws) :
    ∃ sent logged, Emits (.printValues vs) d sent logged ∧
      AllOrNothing Event.level
        (fun values => raws.length ≤ maxValues ∧ Values.Mean raws values) sent logged := by
  have hcollect : vs.collect maxValues = Values.convertWithin maxValues raws := by
    rw [Values.collect, h.visited]
    rfl
  cases hconvert : Values.convertWithin maxValues raws with
  | ok values =>
    rw [hconvert] at hcollect
    refine ⟨_, _, emits_write hidle hsteady ?_,
      .of_shown (Values.convertWithin_eq_ok_iff.mp hconvert) ?_⟩
    · simp only [Run.foreign, hcollect]
    · intro others hothers
      exact Except.ok.inj ((Values.convertWithin_eq_ok_iff.mpr hothers).symm.trans hconvert)
  | error fault =>
    rw [hconvert] at hcollect
    refine ⟨_, _, emits_skip (e := .valuesRefused fault vs.length) ?_, .of_refused ?_ rfl⟩
    · simp only [Run.foreign, hcollect]
    · rintro ⟨values, hvalues⟩
      cases hconvert.symm.trans (Values.convertWithin_eq_ok_iff.mpr hvalues)

end Device

namespace Backends

variable {v : Host.View Host.Stdout} {d : Device.State}

/-- On streams that do not fail an array is shown as a whole or not at all. A host writes its line
if every record stands for a value; a device wants in addition that there are at most 16 of them.
Otherwise nothing is written, and one warning tells of it. An empty array is an empty line, and a
null pointer that comes with a length is nothing. -/
theorem array_is_all_or_nothing (hworks : v.state.streams.output.full = false)
    (hidle : d.slot.IsIdle) (hsteady : d.uart.Steady) :
    (∀ vs raws, Values.Holds vs raws →
      (∃ written logged, Host.Emits (.printValues vs) v written logged ∧
        AllOrNothing Host.Event.level (Values.Mean raws) written logged) ∧
      (∃ sent logged, Device.Emits (.printValues vs) d sent logged ∧
        AllOrNothing Device.Event.level
          (fun values => raws.length ≤ 16 ∧ Values.Mean raws values) sent logged)) ∧
    (∀ pointer,
      Host.Emits (.printValues ⟨pointer, 0⟩) v Console.newlineBytes [] ∧
      Device.Emits (.printValues ⟨pointer, 0⟩) d Console.newlineBytes []) ∧
    (∀ length, 0 < length →
      (∃ e, Host.Emits (.printValues ⟨none, length⟩) v [] [e] ∧ e.level = .warn) ∧
      (∃ e, Device.Emits (.printValues ⟨none, length⟩) d [] [e] ∧ e.level = .warn)) := by
  refine ⟨fun vs raws h => ?_, fun pointer => ?_, fun length hlength => ?_⟩
  · exact ⟨Host.printValues_emits hworks h, Device.printValues_emits hidle hsteady h⟩
  · have hhost : Host.Run.foreign (.printValues ⟨pointer, 0⟩) v =
        Host.Run.write "print_values" (Console.printValues []) v := rfl
    have hdevice : Device.Run.foreign (.printValues ⟨pointer, 0⟩) =
        Device.Run.write "print_values" (Console.printValues []) := rfl
    exact ⟨Host.emits_write hworks hhost, Device.emits_write hidle hsteady hdevice⟩
  · have hvisited : Values.visited ⟨none, length⟩ = .error .invalidValue := by
      rw [Values.visited, if_neg (Nat.ne_of_gt hlength)]
    refine ⟨⟨.nullArray length, Host.emits_skip ?_, rfl⟩,
      ⟨.valuesRefused .invalidValue length, Device.emits_skip ?_, rfl⟩⟩
    · simp only [Host.Run.foreign, hvisited]
    · simp only [Device.Run.foreign, Values.collect, hvisited, Except.bind]

/-- Seventeen integers are a line on a host and too many for a device; a null string between two
integers keeps both from being written. -/
theorem seventeen_values_and_null_string :
    let v : Host.View Host.Stdout := { state := {
      streams := { input := ⟨[], .endOfStream⟩, output := {} }
      environment := fun _ => none } }
    let d : Device.State := { slot := .idle .empty }
    let many := List.replicate 17 (Raw.ofInt 7)
    let mixed : List Raw := [.ofInt 7, { tag := 2 }, .ofInt 8]
    Host.Emits (.printValues (.ofList many)) v
      (lineOf (Value.joined (List.replicate 17 (.int 7)))) [] ∧
    (∃ e, Device.Emits (.printValues (.ofList many)) d [] [e]) ∧
    (∃ e, Host.Emits (.printValues (.ofList mixed)) v [] [e]) ∧
    (∃ e, Device.Emits (.printValues (.ofList mixed)) d [] [e]) := by
  intro v d many mixed
  obtain ⟨harrays, -, -⟩ :=
    array_is_all_or_nothing (v := v) (d := d) rfl ⟨.empty, rfl⟩ ⟨rfl, rfl, rfl, rfl, rfl⟩
  obtain ⟨⟨written, logged, hhost, hline⟩, sent, events, hdevice, hsent⟩ :=
    harrays (.ofList many) many (.array many [])
  obtain ⟨⟨written', logged', hhost', hline'⟩, sent', events', hdevice', hsent'⟩ :=
    harrays (.ofList mixed) mixed (.array mixed [])
  have hmean : Values.Mean many (List.replicate 17 (.int 7)) := Values.convert_eq_ok_iff.mp rfl
  have hrefused : ¬ ∃ values, Values.Mean mixed values := by
    rintro ⟨values, hvalues⟩
    cases Values.convert_eq_ok_iff.mpr hvalues
  obtain ⟨rfl, rfl⟩ := hline.line _ hmean
  obtain ⟨rfl, e, rfl, -⟩ := hsent.nothing (by
    rintro ⟨values, hroom, -⟩
    exact absurd hroom (by decide))
  obtain ⟨rfl, e₁, rfl, -⟩ := hline'.nothing hrefused
  obtain ⟨rfl, e₂, rfl, -⟩ := hsent'.nothing fun ⟨values, _, hvalues⟩ => hrefused ⟨values, hvalues⟩
  exact ⟨hhost, ⟨e, hdevice⟩, ⟨e₁, hhost'⟩, e₂, hdevice'⟩

end Backends

end LineConsole
