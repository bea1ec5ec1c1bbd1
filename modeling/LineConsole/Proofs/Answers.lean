import LineConsole.Proofs.Payload
import LineConsole.Proofs.Reading
import Mathlib.Data.Nat.Find

/-!
One call of a console, answer by answer. A reader is known by the answers that it gives to one
read after the other: a byte, the end of the input, or a fault. The first answer that is no byte,
or a newline, or the last byte for which there is room ends the line. A call reads up to this
answer and no further, so what it gives follows from these answers alone, and the next call goes
on behind them.
-/
namespace LineConsole

/-- A source whose answers are laid down. It counts the reads. -/
structure Answers where
  answers : Nat → Except Fault (Option UInt8)
  reads : Nat := 0

instance : Source Answers where
  readByte s := (s.answers s.reads, { s with reads := s.reads + 1 })

namespace Channel

open Fallible Pieces

variable {σ : Type} [Channel σ]

def EndsLine (s : σ) (k : Nat) : Prop :=
  ∀ byte, answer readByte k s = .ok (some byte) → byte = LineBuffer.newline ∨ k + 1 = limit

def bytesAmong (n : Nat) (s : σ) : Bytes :=
  (List.range n).filterMap fun k => (answer readByte k s).toOption.join

theorem bytesAmong_succ (n : Nat) (s : σ) :
    bytesAmong (n + 1) s = bytesAmong n s ++ (answer readByte n s).toOption.join.toList := by
  rw [bytesAmong, List.range_succ, List.filterMap_append, ← bytesAmong]
  cases h : (answer readByte n s).toOption.join with
  | none => simp [h]
  | some byte => simp [h]

/-- A line ends at the latest where its room does. -/
theorem endsLine_last (s : σ) : EndsLine s (limit - 1) := fun _ _ => Or.inr rfl

theorem not_endsLine {s : σ} {k : Nat} (h : ¬ EndsLine s k) :
    ∃ byte, answer readByte k s = .ok (some byte) ∧ byte ≠ LineBuffer.newline := by
  by_contra hnone
  apply h
  intro byte hanswer
  by_contra hgoesOn
  exact hnone ⟨byte, hanswer, fun hbyte => hgoesOn (Or.inl hbyte)⟩

/-- Answers that end no line are the bytes of an open line. -/
theorem delivers_of_not_endsLine {s : σ} {k : Nat} (h : ∀ j < k, ¬ EndsLine s j) :
    Delivers s (bytesAmong k s) (after readByte k s) ∧ (bytesAmong k s).length = k ∧
      LineBuffer.newline ∉ bytesAmong k s := by
  induction k with
  | zero => exact ⟨rfl, rfl, List.not_mem_nil⟩
  | succ k ih =>
    obtain ⟨hfront, hlength, hmem⟩ := ih fun j hj => h j (Nat.lt_succ_of_lt hj)
    obtain ⟨byte, hanswer, hbyte⟩ := not_endsLine (h k (Nat.lt_succ_self k))
    have hbytes : bytesAmong (k + 1) s = bytesAmong k s ++ [byte] := by
      rw [bytesAmong_succ, hanswer]
      rfl
    have hread : readByte (after readByte k s) = (.ok (some byte), after readByte (k + 1) s) := by
      rw [after_add]
      exact Prod.ext hanswer rfl
    rw [hbytes]
    refine ⟨delivers_append.mpr ⟨_, hfront, delivers_cons hread rfl⟩, ?_, ?_⟩
    · rw [List.length_append, hlength, List.length_singleton]
    · simpa [hmem] using hbyte.symm

theorem after_answers {ω : Type} [Sink ω] (n : Nat) (s : Duplex Answers ω) :
    after readByte n s = { s with source.reads := s.source.reads + n } := by
  induction n generalizing s with
  | zero => rfl
  | succ n ih =>
    rw [after, ih, Nat.add_comm n 1, ← Nat.add_assoc]
    rfl

end Channel

namespace Console

open Channel Fallible LineBuffer Pieces

variable {σ : Type} [Channel σ]

/-- What a call gives that has taken these bytes when this answer ends its line. -/
def outcome (bytes : Bytes) : Except Fault (Option UInt8) → Except Fault Bytes
  | .ok (some _) => .ok (content bytes)
  | .ok none => if bytes = [] then .error .endOfStream else .ok (content bytes)
  | .error e => .error e

def lineLeft : Except Fault Bytes → LineBuffer
  | .ok w => ofBytes w
  | .error _ => .empty

/-- A call whose line ends with the answer behind `k` others, and the bytes that it has taken. -/
structure TakesAnswers (c : Console σ) (k : Nat) (bytes : Bytes) : Prop where
  ends : EndsLine c.channel k
  first : ∀ j < k, ¬ EndsLine c.channel j
  reads_le : k + 1 ≤ 255
  /-- The call has made these reads and asked for nothing else. -/
  channel : (readLine c).2.channel = after readByte (k + 1) c.channel
  taken : bytes = bytesAmong (k + 1) c.channel
  /-- The line has had room for every byte. -/
  accepted : LineBuffer.empty.pushAll bytes = (bytes.length, ofBytes bytes)
  result : (readLine c).1 = outcome bytes (answer readByte k c.channel)
  line : (readLine c).2.line = lineLeft (readLine c).1
  /-- The line that was read before does not count. -/
  forgets : ∀ old, readLine ⟨c.channel, old⟩ = readLine c
  /-- Any console goes on behind the last answer, also one that has read nothing. -/
  resumes : ∀ j old,
    answer readByte j (readLine c).2.channel = answer readByte (k + 1 + j) c.channel ∧
      readLine ⟨(readLine c).2.channel, old⟩ = readLine (readLine c).2

/-- Up to the limit no byte is refused. -/
theorem pushAll_empty {bytes : Bytes} (h : bytes.length ≤ limit) :
    LineBuffer.empty.pushAll bytes = (bytes.length, ofBytes bytes) := by
  have hall : (Payload.empty.append bytes).buffer = ofBytes bytes :=
    congrArg ofBytes (List.take_of_length_le h)
  have hcount : min bytes.length (limit - Payload.empty.bytes.length) = bytes.length :=
    Nat.min_eq_left h
  have hpush := Payload.empty.pushAll_buffer bytes
  rwa [hall, hcount] at hpush

/-- The answers up to the first that ends the line decide what a call gives and leaves. -/
theorem readLine_of_first {c : Console σ} {k : Nat} (hends : EndsLine c.channel k)
    (hfirst : ∀ j < k, ¬ EndsLine c.channel j) (hk : k < limit) :
    let r := outcome (bytesAmong (k + 1) c.channel) (answer readByte k c.channel)
    readLine c = (r, ⟨after readByte (k + 1) c.channel, lineLeft r⟩) := by
  intro r
  obtain ⟨hdelivers, hlength, hmem⟩ := delivers_of_not_endsLine hfirst
  have hopen : Unfinished (bytesAmong k c.channel) := ⟨hmem, hlength.symm ▸ hk⟩
  have hbytes := bytesAmong_succ k c.channel
  have hafter : after readByte (k + 1) c.channel = (readByte (after readByte k c.channel)).2 := by
    rw [after_add]
    rfl
  have hanswer : answer readByte k c.channel = (readByte (after readByte k c.channel)).1 := rfl
  subst r
  rw [hafter]
  cases hread : readByte (after readByte k c.channel) with
  | mk last u =>
    rw [hread] at hanswer
    rw [hanswer] at hbytes ⊢
    rcases last with e | _ | byte
    · exact readLine_failed hdelivers hopen hread
    · have hsame : bytesAmong (k + 1) c.channel = bytesAmong k c.channel := by
        rw [hbytes]
        exact List.append_nil _
      rw [hsame]
      by_cases hnil : bytesAmong k c.channel = []
      · rw [hnil] at hdelivers ⊢
        have hstart : c.channel = after readByte k c.channel := hdelivers
        rw [← hstart] at hread
        exact readLine_ended hread
      · have hgiven : outcome (bytesAmong k c.channel) (.ok none) =
            .ok (content (bytesAmong k c.channel)) := if_neg hnil
        rw [hgiven]
        exact readLine_unfinished hdelivers hopen hnil hread
    · have hfinished : ¬ Unfinished (bytesAmong k c.channel ++ [byte]) := by
        intro hgoesOn
        rcases hends byte hanswer with rfl | hfull
        · exact hgoesOn.1 (List.mem_append_right _ (List.mem_singleton_self _))
        · have hlt := hgoesOn.2
          rw [List.length_append, hlength, List.length_singleton] at hlt
          exact Nat.ne_of_lt hlt hfull
      rw [hbytes]
      exact readLine_finished (delivers_append.mpr ⟨_, hdelivers, delivers_cons hread rfl⟩) hopen
        hfinished

/-- There always is an answer that ends the line. -/
theorem exists_takesAnswers (c : Console σ) :
    ∃ k bytes, TakesAnswers c k bytes := by
  classical
  have hexists : ∃ k, EndsLine c.channel k := ⟨limit - 1, endsLine_last c.channel⟩
  have hends := Nat.find_spec hexists
  have hfirst : ∀ j < Nat.find hexists, ¬ EndsLine c.channel j := fun j => Nat.find_min hexists
  have hlast : Nat.find hexists ≤ limit - 1 := Nat.find_min' hexists (endsLine_last c.channel)
  generalize Nat.find hexists = k at hends hfirst hlast
  have hcall := readLine_of_first hends hfirst (Nat.lt_of_le_pred (by decide) hlast)
  have hchannel : (readLine c).2.channel = after readByte (k + 1) c.channel := by rw [hcall]
  have hroom : (bytesAmong (k + 1) c.channel).length ≤ limit := by
    have hfront := (delivers_of_not_endsLine hfirst).2.1
    have hbyte := Option.length_toList_le (o := (answer readByte k c.channel).toOption.join)
    rw [bytesAmong_succ, List.length_append, hfront]
    rw [limit_eq] at hlast ⊢
    omega
  exact ⟨k, bytesAmong (k + 1) c.channel, {
    ends := hends
    first := hfirst
    reads_le := Nat.succ_le_succ hlast
    channel := hchannel
    taken := rfl
    accepted := pushAll_empty hroom
    result := by rw [hcall]
    line := by rw [hcall]
    forgets := fun _ => rfl
    resumes := fun j _ => ⟨by rw [hchannel, answer_add], rfl⟩ }⟩

/-- Every call takes the answers of its reader up to the first that ends a line, and no others:
a reader with its answers laid down has been asked for just these. -/
theorem readLine_takes_answers :
    (∀ c : Console σ, ∃ k bytes, TakesAnswers c k bytes) ∧
    ∀ (ω : Type) [Sink ω] (c : Console (Duplex Answers ω)), ∃ k bytes,
      TakesAnswers c k bytes ∧
      (∀ j, answer readByte j c.channel =
        c.channel.source.answers (c.channel.source.reads + j)) ∧
      (readLine c).2.channel =
        { c.channel with source.reads := c.channel.source.reads + (k + 1) } := by
  refine ⟨exists_takesAnswers, ?_⟩
  intro ω _ c
  obtain ⟨k, bytes, hk⟩ := exists_takesAnswers c
  refine ⟨k, bytes, hk, ?_, ?_⟩
  · intro j
    rw [answer, after_answers]
    rfl
  · rw [hk.channel, after_answers]

/-- A fault behind two bytes. -/
example :
    let answers : Nat → Except Fault (Option UInt8)
      | 2 => .error .readFailed
      | _ => .ok (some 0x61)
    let c : Console (Duplex Answers Written) :=
      { channel := ⟨⟨answers, 0⟩, {}⟩, line := .ofBytes [0x62] }
    (readLine c).1 = .error .readFailed ∧ (readLine c).2.line = .empty ∧
      (readLine c).2.channel.source.reads = 3 := by
  decide

end Console

end LineConsole
