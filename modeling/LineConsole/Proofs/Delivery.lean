import LineConsole.Channel.Memory

/-!
What a channel gives to its reader. A channel delivers some bytes if the next reads give just
these, without a fault, and it serves them if the input has ended behind them for good. Both
hold of a state and of the reads that follow it, whatever the channel is made of.
-/
namespace LineConsole.Channel

variable {σ : Type} [Channel σ]

/-- The next reads give the bytes one by one and lead to the second state. -/
def Delivers : σ → Bytes → σ → Prop
  | s, [], t => s = t
  | s, byte :: rest, t => ∃ u, readByte s = (.ok (some byte), u) ∧ Delivers u rest t

def Ended (s : σ) : Prop :=
  ∃ P : σ → Prop, P s ∧ ∀ t, P t → ∃ u, readByte t = (.ok none, u) ∧ P u

def Serves (s : σ) (bytes : Bytes) : Prop := ∃ t, Delivers s bytes t ∧ Ended t

theorem delivers_cons {s t u : σ} {byte : UInt8} {rest : Bytes}
    (h : readByte s = (.ok (some byte), u)) (hrest : Delivers u rest t) :
    Delivers s (byte :: rest) t := ⟨u, h, hrest⟩

theorem delivers_append {s t : σ} {front back : Bytes} :
    Delivers s (front ++ back) t ↔ ∃ u, Delivers s front u ∧ Delivers u back t := by
  induction front generalizing s with
  | nil => simp [Delivers]
  | cons byte rest ih =>
    constructor
    · rintro ⟨u, hread, hrest⟩
      obtain ⟨v, hfront, hback⟩ := ih.mp hrest
      exact ⟨v, ⟨u, hread, hfront⟩, hback⟩
    · rintro ⟨v, ⟨u, hread, hfront⟩, hback⟩
      exact ⟨u, hread, ih.mpr ⟨v, hfront, hback⟩⟩

theorem Ended.read {s : σ} (h : Ended s) : ∃ t, readByte s = (.ok none, t) ∧ Ended t := by
  obtain ⟨P, hs, hstep⟩ := h
  obtain ⟨t, hread, ht⟩ := hstep s hs
  exact ⟨t, hread, P, ht, hstep⟩

/-- A state that reports the end of the input and stays as it is has ended. -/
theorem ended_of_read_self {s : σ} (h : readByte s = (.ok none, s)) : Ended s :=
  ⟨(· = s), rfl, fun _ ht => ⟨s, ht ▸ h, rfl⟩⟩

theorem serves_nil {s : σ} : Serves s [] ↔ Ended s := by
  constructor
  · rintro ⟨t, rfl, ht⟩
    exact ht
  · intro h
    exact ⟨s, rfl, h⟩

theorem serves_append {s : σ} {front back : Bytes} :
    Serves s (front ++ back) ↔ ∃ u, Delivers s front u ∧ Serves u back := by
  constructor
  · rintro ⟨t, hdelivers, ht⟩
    obtain ⟨u, hfront, hback⟩ := delivers_append.mp hdelivers
    exact ⟨u, hfront, t, hback, ht⟩
  · rintro ⟨u, hfront, t, hback, ht⟩
    exact ⟨t, delivers_append.mpr ⟨u, hfront, hback⟩, ht⟩

/-- Only the bytes that are served decide what a reader gets, so they are unique. -/
theorem serves_unique {s : σ} {a b : Bytes} (ha : Serves s a) (hb : Serves s b) : a = b := by
  induction a generalizing s b with
  | nil =>
    obtain ⟨t, hread, -⟩ := (serves_nil.mp ha).read
    cases b with
    | nil => rfl
    | cons byte rest =>
      obtain ⟨_, ⟨u, hread', -⟩, -⟩ := hb
      cases hread.symm.trans hread'
  | cons byte rest ih =>
    obtain ⟨t, ⟨u, hread, hrest⟩, ht⟩ := ha
    cases b with
    | nil =>
      obtain ⟨v, hread', -⟩ := (serves_nil.mp hb).read
      cases hread.symm.trans hread'
    | cons byte' rest' =>
      obtain ⟨t', ⟨u', hread', hrest'⟩, ht'⟩ := hb
      cases hread.symm.trans hread'
      rw [ih ⟨t, hrest, ht⟩ ⟨t', hrest', ht'⟩]

section Memory

variable {ω : Type} [Sink ω]

theorem delivers_unread (front back : Bytes) (sink : ω) :
    Delivers (⟨⟨front ++ back⟩, sink⟩ : Duplex Unread ω) front ⟨⟨back⟩, sink⟩ := by
  induction front with
  | nil => rfl
  | cons byte rest ih => exact delivers_cons rfl ih

/-- A text in memory is served as it is. -/
theorem serves_unread (bytes : Bytes) (sink : ω) :
    Serves (⟨⟨bytes⟩, sink⟩ : Duplex Unread ω) bytes := by
  refine ⟨⟨⟨[]⟩, sink⟩, ?_, ended_of_read_self rfl⟩
  simpa using delivers_unread bytes [] sink

end Memory

end LineConsole.Channel
