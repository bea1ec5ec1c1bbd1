import LineConsole.LineBuffer.Op
import LineConsole.Proofs.Content
import Mathlib.Data.List.TakeWhile

/-!
The line buffer as a bounded string. The terminator shares the storage with the payload, and each
operation moves it, but from the empty buffer on no history can tell the buffer from its payload:
a string of at most 255 bytes, which grows and shrinks at its end. So the storage is never without
its terminator, no index leaves it, and equal payloads make equal buffers.
-/
namespace LineConsole.LineBuffer

open Pieces

/-! The operations with every index, slice and difference checked -/

def length? (b : LineBuffer) : Option Nat :=
  if 1 ≤ b.storage.length then some (b.storage.length - 1) else none

def bytes? (b : LineBuffer) : Option Bytes := do
  let n ← b.length?
  if n ≤ b.storage.length then some (b.storage.take n) else none

def write? (storage : Bytes) (i : Nat) (byte : UInt8) : Option Bytes :=
  if i < storage.length then some (storage.set i byte) else none

def extend (storage : Bytes) (byte : UInt8) : Bool × LineBuffer :=
  if storage.length < capacity then (true, ⟨storage ++ [byte]⟩) else (false, ⟨storage⟩)

def push? (b : LineBuffer) (byte : UInt8) : Option (Bool × LineBuffer) := do
  let n ← b.length?
  if n = capacity - 1 then return (false, b)
  let storage ← write? b.storage n byte
  return extend storage 0

def pop? (b : LineBuffer) : Option (Option UInt8 × LineBuffer) := do
  let n ← b.length?
  if n = 0 then return (none, b)
  let byte ← b.storage[n - 1]?
  let storage ← write? b.storage (n - 1) 0
  return (some byte, ⟨storage.take n⟩)

def dropLast? (byte : UInt8) (b : LineBuffer) : Option LineBuffer := do
  let bytes ← b.bytes?
  if bytes.getLast? = some byte then
    let (_, b) ← b.pop?
    return b
  return b

def strip? (b : LineBuffer) : Option LineBuffer := do
  let b ← b.dropLast? newline
  b.dropLast? carriageReturn

/-- No check fails, so the operations are what they are without checks. -/
structure InRange (b : LineBuffer) : Prop where
  length : b.length? = some b.length
  bytes : b.bytes? = some b.bytes
  push : ∀ byte, b.push? byte = some (b.push byte)
  pop : b.pop? = some b.pop
  strip : b.strip? = some b.strip

theorem length?_ofBytes (w : Bytes) : (ofBytes w).length? = some w.length := by
  simp [length?, ofBytes]

theorem bytes?_ofBytes (w : Bytes) : (ofBytes w).bytes? = some w := by
  rw [bytes?, length?_ofBytes]
  simp [ofBytes]

theorem pop?_ofBytes (w : Bytes) : (ofBytes w).pop? = some (ofBytes w).pop := by
  rcases List.eq_nil_or_concat' w with rfl | ⟨v, byte, rfl⟩
  · rfl
  · have htake : (v ++ [0, 0]).take (v.length + 1) = v ++ [0] :=
      List.take_length_add_append 1
    rw [pop_ofBytes_append, pop?, length?_ofBytes]
    simp [ofBytes, write?, htake]

theorem dropLast?_ofBytes (byte : UInt8) (w : Bytes) :
    (ofBytes w).dropLast? byte = some ((ofBytes w).dropLast byte) := by
  rw [dropLast?, bytes?_ofBytes, dropLast, bytes_ofBytes, pop?_ofBytes]
  by_cases h : w.getLast? = some byte
  · simp [h]
  · simp [h]

theorem push?_ofBytes (w : Bytes) (byte : UInt8) (h : w.length ≤ limit) :
    (ofBytes w).push? byte = some ((ofBytes w).push byte) := by
  rw [push?, length?_ofBytes]
  by_cases hfull : w.length = capacity - 1
  · rw [push_ofBytes_full w byte hfull]
    simp [hfull]
  · have hroom : w.length < capacity - 1 := Nat.lt_of_le_of_ne h hfull
    have hcapacity : w.length + 1 < capacity := by omega
    rw [push_ofBytes w byte hroom]
    simp [hfull, ofBytes, write?, extend, hcapacity]

theorem inRange_ofBytes (w : Bytes) (h : w.length ≤ limit) : InRange (ofBytes w) where
  length := by rw [length?_ofBytes, length_ofBytes]
  bytes := by rw [bytes?_ofBytes, bytes_ofBytes]
  push byte := push?_ofBytes w byte h
  pop := pop?_ofBytes w
  strip := by
    rw [strip?, dropLast?_ofBytes, strip, dropLast_ofBytes]
    exact dropLast?_ofBytes carriageReturn _

/-! The string that a caller in C gets -/

structure IsZeroFreeStart (p w : Bytes) : Prop where
  start : p <+: w
  zeroFree : 0 ∉ p
  longest : ∀ q, q <+: w → 0 ∉ q → q <+: p

theorem isZeroFreeStart_takeWhile (w : Bytes) : IsZeroFreeStart (w.takeWhile (· ≠ 0)) w where
  start := List.takeWhile_prefix _
  zeroFree hzero := by simpa using List.mem_takeWhile_imp hzero
  longest := by
    rintro q ⟨rest, rfl⟩ hq
    have hall : ∀ byte ∈ q, decide (byte ≠ 0) = true := by
      intro byte hbyte
      exact decide_eq_true (ne_of_mem_of_not_mem hbyte hq)
    rw [List.takeWhile_append_of_pos hall]
    exact List.prefix_append _ _

/-! Bounded strings -/

@[ext]
structure Payload where
  bytes : Bytes
  length_le : bytes.length ≤ limit

namespace Payload

def empty : Payload := ⟨[], Nat.zero_le _⟩

def append (w : Payload) (bytes : Bytes) : Payload where
  bytes := w.bytes ++ bytes.take (limit - w.bytes.length)
  length_le := by
    have hle := w.length_le
    rw [List.length_append, List.length_take]
    omega

def dropLast (w : Payload) : Payload where
  bytes := w.bytes.dropLast
  length_le := by
    have hle := w.length_le
    rw [List.length_dropLast]
    omega

def content (w : Payload) : Payload where
  bytes := Pieces.content w.bytes
  length_le := Nat.le_trans (length_content_le _) w.length_le

theorem append_bytes (w : Payload) (bytes : Bytes) :
    (w.append bytes).bytes = w.bytes ++ bytes.take (limit - w.bytes.length) := rfl

theorem length_append (w : Payload) (bytes : Bytes) :
    (w.append bytes).bytes.length = min (w.bytes.length + bytes.length) limit := by
  have hle := w.length_le
  rw [append_bytes, List.length_append, List.length_take]
  omega

theorem append_append (w : Payload) (u v : Bytes) :
    (w.append u).append v = w.append (u ++ v) := by
  have hlength := w.length_append u
  have hroom : limit - (w.append u).bytes.length = limit - w.bytes.length - u.length := by
    omega
  apply Payload.ext
  rw [append_bytes, hroom, append_bytes, append_bytes, List.take_append, List.append_assoc]

theorem append_of_room {w : Payload} {byte : UInt8} (h : w.bytes.length < limit) :
    (w.append [byte]).bytes = w.bytes ++ [byte] := by
  have htake : [byte].take (limit - w.bytes.length) = [byte] :=
    List.take_of_length_le (Nat.sub_pos_of_lt h)
  rw [append_bytes, htake]

theorem append_of_full {w : Payload} (bytes : Bytes) (h : w.bytes.length = limit) :
    (w.append bytes).bytes = w.bytes := by
  rw [append_bytes, h, Nat.sub_self, List.take_zero, List.append_nil]

def buffer (w : Payload) : LineBuffer := ofBytes w.bytes

theorem push_buffer (w : Payload) (byte : UInt8) :
    w.buffer.push byte = (decide (w.bytes.length < limit), (w.append [byte]).buffer) := by
  unfold buffer
  rcases Nat.lt_or_eq_of_le w.length_le with hroom | hfull
  · rw [push_ofBytes w.bytes byte hroom, append_of_room hroom, decide_eq_true hroom]
  · rw [push_ofBytes_full w.bytes byte hfull, append_of_full [byte] hfull,
      decide_eq_false (Nat.not_lt_of_le hfull.ge)]

/-- Of many bytes those are accepted that come first and have room. -/
theorem pushAll_buffer (w : Payload) (bytes : Bytes) :
    w.buffer.pushAll bytes =
      (min bytes.length (limit - w.bytes.length), (w.append bytes).buffer) := by
  induction bytes generalizing w with
  | nil => simp [pushAll, buffer, append]
  | cons byte rest ih =>
    -- Also behind a refused byte the rest is pushed, in vain.
    have hlength := w.length_append [byte]
    have hcount : min rest.length (limit - (w.append [byte]).bytes.length) +
        (if w.bytes.length < limit then 1 else 0) =
          min (rest.length + 1) (limit - w.bytes.length) := by
      rw [hlength, List.length_singleton]
      split <;> omega
    simp only [pushAll, push_buffer, ih, append_append, List.singleton_append, decide_eq_true_eq,
      hcount, List.length_cons]

theorem pop_buffer (w : Payload) :
    w.buffer.pop = (w.bytes.getLast?, w.dropLast.buffer) := by
  show (ofBytes w.bytes).pop = (w.bytes.getLast?, ofBytes w.bytes.dropLast)
  rcases List.eq_nil_or_concat' w.bytes with h | ⟨v, byte, h⟩
  · rw [h]
    rfl
  · rw [h, pop_ofBytes_append, List.getLast?_concat, List.dropLast_concat]

theorem strip_buffer (w : Payload) : w.buffer.strip = w.content.buffer := strip_ofBytes w.bytes

/-- What a buffer is that holds the payload, and what its operations do. -/
structure Describes (w : Payload) (b : LineBuffer) : Prop where
  storage : b.storage = w.bytes ++ [0]
  size : 1 ≤ b.storage.length ∧ b.storage.length ≤ 256
  inRange : b.InRange
  bytes : b.bytes = w.bytes
  length : b.length = w.bytes.length
  isEmpty : b.isEmpty ↔ w.bytes = []
  isFull : b.isFull ↔ w.bytes.length = 255
  push : ∀ byte, b.push byte =
    if w.bytes.length < 255 then (true, ofBytes (w.bytes ++ [byte])) else (false, b)
  pop : b.pop = (w.bytes.getLast?, ofBytes w.bytes.dropLast)
  strip : b.strip = ofBytes (Pieces.content w.bytes)
  /-- There always is a terminator, so the string for C is never made up. -/
  terminated : beforeZero b.storage = some b.cString
  pointee : b.pointee = b.cString
  cString : IsZeroFreeStart b.cString w.bytes

theorem describes_buffer (w : Payload) : w.Describes w.buffer where
  storage := rfl
  size := by
    have hle := w.length_le
    have hlength : w.buffer.storage.length = w.bytes.length + 1 := List.length_append
    rw [limit_eq] at hle
    omega
  inRange := inRange_ofBytes w.bytes w.length_le
  bytes := bytes_ofBytes w.bytes
  length := length_ofBytes w.bytes
  isEmpty := by
    rw [isEmpty, buffer, length_ofBytes, decide_eq_true_eq, List.length_eq_zero_iff]
  isFull := by
    rw [isFull, buffer, length_ofBytes, decide_eq_true_eq]
    rfl
  push byte := by
    split
    · next hroom => exact push_ofBytes w.bytes byte hroom
    · next hfull => exact push_ofBytes_full w.bytes byte (le_antisymm w.length_le (not_lt.mp hfull))
  pop := w.pop_buffer
  strip := w.strip_buffer
  terminated := by
    rw [buffer, beforeZero_ofBytes, cString_ofBytes, pointee_ofBytes]
  pointee := (cString_ofBytes w.bytes).symm
  cString := by
    rw [buffer, cString_ofBytes, pointee_ofBytes]
    exact isZeroFreeStart_takeWhile w.bytes

end Payload

/-! Histories -/

/-- A bounded string with a saved copy beside it. -/
structure Strings where
  content : Payload := .empty
  saved : Payload := .empty

def Strings.bench (s : Strings) : Bench := ⟨s.content.buffer, s.saved.buffer⟩

def Op.meaning (s : Strings) : Op → Answer × Strings
  | .push bytes =>
      (.accepted (min bytes.length (limit - s.content.bytes.length)),
        { s with content := s.content.append bytes })
  | .pop => (.popped s.content.bytes.getLast?, { s with content := s.content.dropLast })
  | .clear => (.none, { s with content := .empty })
  | .strip => (.none, { s with content := s.content.content })
  | .save => (.none, { s with saved := s.content })
  | .restore => (.none, { s with content := s.saved })
  | .equalsSaved => (.equal (s.content.bytes = s.saved.bytes), s)

def meanings (s : Strings) : List Op → List (Answer × Strings)
  | [] => []
  | op :: rest => op.meaning s :: meanings (op.meaning s).2 rest

theorem Op.run_bench (op : Op) (s : Strings) :
    op.run s.bench = ((op.meaning s).1, (op.meaning s).2.bench) := by
  cases op with
  | push bytes =>
    have hpush := s.content.pushAll_buffer bytes
    simp only [Op.run, Op.meaning, Strings.bench, hpush]
  | pop =>
    have hpop := s.content.pop_buffer
    simp only [Op.run, Op.meaning, Strings.bench, hpop]
  | strip =>
    have hstrip := s.content.strip_buffer
    simp only [Op.run, Op.meaning, Strings.bench, hstrip]
  | equalsSaved =>
    have hequal : s.content.buffer = s.saved.buffer ↔ s.content.bytes = s.saved.bytes := ofBytes_inj
    simp only [Op.run, Op.meaning, Strings.bench, hequal]
  | clear | save | restore => rfl

theorem replay_bench (s : Strings) (ops : List Op) :
    replay s.bench ops = (meanings s ops).map fun e => (e.1, e.2.bench) := by
  induction ops generalizing s with
  | nil => rfl
  | cons op rest ih => rw [replay, op.run_bench, ih, meanings, List.map_cons]

def visited (ops : List Op) : List LineBuffer :=
  ({} :: (replay {} ops).map Prod.snd).flatMap fun s => [s.buffer, s.saved]

theorem exists_payload_of_visited {ops : List Op} {b : LineBuffer} (h : b ∈ visited ops) :
    ∃ w : Payload, b = w.buffer := by
  obtain ⟨s, hs, hb⟩ := List.mem_flatMap.mp h
  have hstrings : ∃ t : Strings, s = t.bench := by
    rcases List.mem_cons.mp hs with rfl | hlater
    · exact ⟨{}, rfl⟩
    · have hreplay : replay {} ops = _ := replay_bench {} ops
      rw [hreplay, List.map_map] at hlater
      obtain ⟨e, -, rfl⟩ := List.mem_map.mp hlater
      exact ⟨e.2, rfl⟩
  obtain ⟨t, rfl⟩ := hstrings
  rcases List.mem_pair.mp hb with rfl | rfl
  · exact ⟨t.content, rfl⟩
  · exact ⟨t.saved, rfl⟩

/-- Every history of the buffer is that of a string of at most 255 bytes, with the same answers.
Wherever it comes, the storage is that string and one zero byte behind it, no operation leaves the
storage, and a caller in C gets the string up to its first zero byte. Two buffers that two
histories lead to are equal if and only if they hold the same bytes. -/
theorem replay_is_bounded_string (ops : List Op) :
    replay {} ops = (meanings {} ops).map (fun e => (e.1, e.2.bench)) ∧
    (∀ b ∈ visited ops, ∃ w : Payload, w.Describes b) ∧
    (∀ other, ∀ b ∈ visited ops, ∀ c ∈ visited other, b = c ↔ b.bytes = c.bytes) := by
  refine ⟨replay_bench {} ops, ?_, ?_⟩
  · intro b hb
    obtain ⟨w, rfl⟩ := exists_payload_of_visited hb
    exact ⟨w, w.describes_buffer⟩
  · intro other b hb c hc
    obtain ⟨v, rfl⟩ := exists_payload_of_visited hb
    obtain ⟨w, rfl⟩ := exists_payload_of_visited hc
    rw [v.describes_buffer.bytes, w.describes_buffer.bytes]
    exact ofBytes_inj

/-- A line with a zero byte in it, stripped, and the same bytes put together in another way. -/
theorem replay_of_zero_byte :
    let b : LineBuffer := ofBytes [0x61, 0x00]
    let ops : List Op := [.push [0x61, 0x00, 0x0D, 0x0A], .strip]
    let other : List Op := [.push [0x62], .pop, .push [0x61, 0x00]]
    b ∈ visited ops ∧ b ∈ visited other ∧ (∃ w : Payload, w.Describes b) ∧
      b.cString = [0x61] := by
  intro b ops other
  have hb : b ∈ visited ops := by decide +kernel
  obtain ⟨-, hdescribed, -⟩ := replay_is_bounded_string ops
  exact ⟨hb, by decide +kernel, hdescribed b hb, by decide⟩

end LineConsole.LineBuffer
