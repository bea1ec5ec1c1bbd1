import LineConsole.Proofs.Freshness
import LineConsole.Proofs.Script

/-!
Lines that a host process reads from scripted input. A read gives the content of the next piece
of what remains, or it reports the end of the input or a failure, and it leaves no line then.
-/
namespace LineConsole

open LineBuffer Channel Pieces Console

namespace Host.Streams

variable {ω : Type} [Sink ω]

theorem readByte_byte {s t : Streams ω} {b : UInt8} (h : readByte s = (.ok (some b), t)) :
    s.input.remaining = b :: t.input.remaining ∧ (s.input.Sound ↔ t.input.Sound) := by
  have hreads := s.input.read_reads
  rw [readByte_apply] at h
  generalize s.input.read = p at h hreads
  obtain ⟨r, next⟩ := p
  cases hreads with
  | byte b next hreadable hremaining hsound =>
    cases h
    exact ⟨hremaining, hsound⟩
  | ended hreadable hremaining hended => cases h
  | failed reason next hreadable hunsound => cases h

theorem delivers_remaining {s t : Streams ω} {bytes : Bytes} (h : Delivers s bytes t) :
    s.input.remaining = bytes ++ t.input.remaining ∧ (s.input.Sound ↔ t.input.Sound) := by
  induction bytes generalizing s with
  | nil =>
    obtain rfl := h
    exact ⟨rfl, Iff.rfl⟩
  | cons b rest ih =>
    obtain ⟨u, hread, hrest⟩ := h
    obtain ⟨hbyte, hsound⟩ := readByte_byte hread
    obtain ⟨hremaining, hsound'⟩ := ih hrest
    refine ⟨?_, hsound.trans hsound'⟩
    rw [hbyte, hremaining, List.cons_append]

/-- The bytes in front of the first failure are delivered. -/
theorem delivers_readable (s : Streams ω) :
    ∃ t, Delivers s s.input.readable t ∧ t.input.readable = [] := by
  induction hbytes : s.input.readable generalizing s with
  | nil => exact ⟨s, rfl, hbytes⟩
  | cons b rest ih =>
    have hreads := s.input.read_reads
    have hread := readByte_apply s
    generalize s.input.read = p at hread hreads
    obtain ⟨r, next⟩ := p
    cases hreads with
    | byte b' next hreadable hremaining hsound =>
      obtain ⟨rfl, hnext⟩ := List.cons.inj (hbytes.symm.trans hreadable)
      obtain ⟨t, hdelivers, ht⟩ := ih { s with input := next } hnext.symm
      exact ⟨t, delivers_cons hread hdelivers, ht⟩
    | ended hreadable hremaining hended => cases hbytes.symm.trans hreadable
    | failed reason next hreadable hunsound => cases hbytes.symm.trans hreadable

/-- Behind them comes the end of the input or a failure. -/
theorem readByte_stop {s : Streams ω} (h : s.input.readable = []) :
    (∃ t, readByte s = (.ok none, t) ∧ s.input.Sound ∧ s.input.remaining = [] ∧
      t.input.remaining = []) ∨
      ∃ t, readByte s = (.error .readFailed, t) ∧ ¬ s.input.Sound := by
  have hreads := s.input.read_reads
  have hread := readByte_apply s
  generalize s.input.read = p at hread hreads
  obtain ⟨r, next⟩ := p
  cases hreads with
  | byte b next hreadable hremaining hsound => cases h.symm.trans hreadable
  | ended hreadable hremaining hended => exact Or.inl ⟨_, hread, hended, hremaining, rfl⟩
  | failed reason next hreadable hunsound => exact Or.inr ⟨_, hread, hunsound⟩

/-- Between the two there were only reads, some of which failed. -/
structure ReadOn {ω : Type} (s t : Streams ω) : Prop where
  output : t.output = s.output
  log : ∃ reasons : List String, t.log = s.log ++ reasons.map .readFailed

theorem readLine_readOn (c : Console (Streams ω)) :
    ReadOn c.channel (readLine c).2.channel := by
  have hread : Fallible.Agree (fun s t => s = t ∧ ReadOn c.channel s)
      (readByte : Action (Streams ω) _) readByte := by
    rintro s _ ⟨rfl, houtput, reasons, hlog⟩
    rw [readByte_apply]
    rcases s.input.read with ⟨reason | byte, next⟩
    · refine ⟨_, _, _, rfl, rfl, rfl, houtput, reasons ++ [reason], ?_⟩
      simp [hlog]
    · exact ⟨_, _, _, rfl, rfl, rfl, houtput, reasons, hlog⟩
  obtain ⟨r, d, -, hd, -, ⟨-, hreadOn⟩, -⟩ :=
    readLine_agree hread c c ⟨⟨rfl, rfl, [], (List.append_nil _).symm⟩, rfl⟩
  rw [hd]
  exact hreadOn

end Host.Streams

namespace Host

inductive LineRead {ω : Type} (before : Script) : Except Fault Bytes → Console (Streams ω) → Prop
  | line (p : Bytes) (t : Streams ω) (first : (cut before.remaining)[0]? = some p)
      (taken : before.remaining = p ++ t.input.remaining)
      (readable : (cut before.readable)[0]? = some p) (whole : Unfinished p → before.Sound) :
      LineRead before (.ok (content p)) ⟨t, ofBytes (content p)⟩
  | ended (t : Streams ω) (remaining : before.remaining = [])
      (left : t.input.remaining = []) (readable : before.readable = []) (sound : before.Sound) :
      LineRead before (.error .endOfStream) ⟨t, .empty⟩
  | failed (t : Streams ω) (unsound : ¬ before.Sound)
      (readable : Unfinished before.readable) : LineRead before (.error .readFailed) ⟨t, .empty⟩

theorem readLine_lineRead {ω : Type} [Sink ω] (c : Console (Streams ω)) :
    LineRead c.channel.input (readLine c).1 (readLine c).2 := by
  obtain ⟨t, hdelivers, hstop⟩ := c.channel.delivers_readable
  rcases unfinished_or_finished c.channel.input.readable with hl | ⟨q, byte, rest, hcut, hq, hb⟩
  -- The bytes in front of the first failure finish no piece, so the read gets as far as that.
  · obtain ⟨hremaining, hsound⟩ := Streams.delivers_remaining hdelivers
    rcases Streams.readByte_stop hstop with ⟨u, hend, hended, hall, hnone⟩ | ⟨u, hfail, hunsound⟩
    · rw [hall, List.append_nil] at hremaining
      by_cases hne : c.channel.input.readable = []
      · rw [hne] at hdelivers hremaining
        obtain rfl := hdelivers
        rw [readLine_ended hend]
        exact .ended u hremaining hnone hne hended
      · have hcut : (cut c.channel.input.readable)[0]? = some c.channel.input.readable := by
          rw [cut_unfinished hl hne]
          rfl
        rw [readLine_unfinished hdelivers hl hne hend]
        refine .line _ u ?_ ?_ hcut fun _ => hsound.mpr hended
        · rw [hremaining, hcut]
        · rw [hremaining, hnone, List.append_nil]
    · rw [readLine_failed hdelivers hl hfail]
      exact .failed u (hunsound ∘ hsound.mp) hl
  · have hfirst : (cut c.channel.input.readable)[0]? = some (q ++ [byte]) := by
      rw [hcut, cut_finished _ hq hb]
      rfl
    rw [hcut, List.append_cons] at hdelivers
    obtain ⟨u, hpiece, -⟩ := delivers_append.mp hdelivers
    obtain ⟨hremaining, -⟩ := Streams.delivers_remaining hpiece
    rw [readLine_finished hpiece hq hb]
    refine .line (q ++ [byte]) u ?_ hremaining hfirst fun h => absurd h hb
    rw [hremaining, List.append_assoc, List.singleton_append, cut_finished _ hq hb]
    rfl

def firstLine (s : Script) : Except Fault Bytes :=
  match (cut s.readable)[0]? with
  | none => .error (if s.Sound then .endOfStream else .readFailed)
  | some p => if Unfinished p ∧ ¬ s.Sound then .error .readFailed else .ok (content p)

theorem LineRead.eq_firstLine {ω : Type} {before : Script} {r : Except Fault Bytes}
    {c : Console (Streams ω)} (h : LineRead before r c) : r = firstLine before := by
  unfold firstLine
  cases h with
  | line p t first taken readable whole =>
    rw [readable]
    simp only
    rw [if_neg fun hp => hp.2 (whole hp.1)]
  | ended t remaining left readable sound =>
    rw [readable]
    simp [sound]
  | failed t unsound readable =>
    by_cases hne : before.readable = []
    · rw [hne]
      simp [unsound]
    · rw [cut_unfinished readable hne]
      simp [readable, unsound]

/-- A prompt that is shown does not touch the input. -/
theorem readBehind_lineRead {ω : Type} [Sink ω] (contents : Sink.Contents ω)
    (question : Option Bytes) (c : Console (Streams ω)) (h : contents.Works c.channel.output) :
    LineRead c.channel.input (readBehind question c).1 (readBehind question c).2 := by
  cases question with
  | none => exact readLine_lineRead c
  | some text =>
    obtain ⟨o, hprompt⟩ := Streams.prompt_of_works contents text h
    rw [readBehind, hprompt]
    exact readLine_lineRead ⟨{ c.channel with output := o }, c.line⟩

end Host

end LineConsole
