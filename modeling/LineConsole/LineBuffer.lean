import LineConsole.Fault
import LineConsole.Text.Utf8

/-!
The line buffer: at most 255 bytes of payload, stored in front of a zero byte, so that the
storage is a string for callers in C at any time.
-/
namespace LineConsole

structure LineBuffer where
  storage : Bytes
  deriving DecidableEq

namespace LineBuffer

/-- Bytes of storage, the terminator included. -/
def capacity : Nat := 256

def empty : LineBuffer := ⟨[0]⟩

def length (b : LineBuffer) : Nat := b.storage.length - 1

def bytes (b : LineBuffer) : Bytes := b.storage.take b.length

def isEmpty (b : LineBuffer) : Bool := b.length = 0

def isFull (b : LineBuffer) : Bool := b.length = capacity - 1

/-- The new byte takes the place of the terminator, and a new terminator follows. A full
buffer refuses the byte. -/
def push (b : LineBuffer) (byte : UInt8) : Bool × LineBuffer :=
  if b.isFull then (false, b)
  else (true, ⟨b.storage.set b.length byte ++ [0]⟩)

def pop (b : LineBuffer) : Option UInt8 × LineBuffer :=
  match b.bytes.getLast? with
  | none => (none, b)
  | some byte => (some byte, ⟨(b.storage.set (b.length - 1) 0).take b.length⟩)

def dropLast (byte : UInt8) (b : LineBuffer) : LineBuffer :=
  if b.bytes.getLast? = some byte then b.pop.2 else b

def newline : UInt8 := 0x0A

def carriageReturn : UInt8 := 0x0D

/-- A carriage return at the end is removed with and without a newline behind it. -/
def strip (b : LineBuffer) : LineBuffer := (b.dropLast newline).dropLast carriageReturn

def text (b : LineBuffer) : Except Fault String :=
  match Utf8.decode? b.bytes with
  | some text => .ok text
  | none => .error .invalidUtf8

def beforeZero : Bytes → Option Bytes
  | [] => none
  | byte :: rest => if byte = 0 then some [] else (beforeZero rest).map (byte :: ·)

/-- The content as a string in C; empty if the storage had no terminator. -/
def cString (b : LineBuffer) : Bytes := (beforeZero b.storage).getD []

/-- What a caller in C reads from the address of the storage. -/
def pointee (b : LineBuffer) : Bytes := b.storage.takeWhile (· ≠ 0)

def ofBytes (w : Bytes) : LineBuffer := ⟨w ++ [0]⟩

theorem length_ofBytes (w : Bytes) : (ofBytes w).length = w.length := by
  simp [length, ofBytes]

theorem bytes_ofBytes (w : Bytes) : (ofBytes w).bytes = w := by
  rw [bytes, length_ofBytes]
  simp [ofBytes]

theorem ofBytes_inj {v w : Bytes} : ofBytes v = ofBytes w ↔ v = w := by
  refine ⟨fun h => ?_, fun h => h ▸ rfl⟩
  rw [← bytes_ofBytes v, h, bytes_ofBytes]

theorem push_ofBytes (w : Bytes) (byte : UInt8) (h : w.length < capacity - 1) :
    (ofBytes w).push byte = (true, ofBytes (w ++ [byte])) := by
  have hfull : (ofBytes w).isFull = false := by
    rw [isFull, length_ofBytes]
    exact decide_eq_false (by omega)
  have hset : (ofBytes w).storage.set w.length byte = w ++ [byte] := by
    simp [ofBytes]
  rw [push, hfull, length_ofBytes, hset]
  rfl

theorem push_ofBytes_full (w : Bytes) (byte : UInt8) (h : w.length = capacity - 1) :
    (ofBytes w).push byte = (false, ofBytes w) := by
  have hfull : (ofBytes w).isFull = true := by
    rw [isFull, length_ofBytes]
    exact decide_eq_true h
  rw [push, hfull]
  rfl

theorem pop_ofBytes_append (w : Bytes) (byte : UInt8) :
    (ofBytes (w ++ [byte])).pop = (some byte, ofBytes w) := by
  have hlength : (ofBytes (w ++ [byte])).length = w.length + 1 := by
    simp [length_ofBytes]
  have hset : (ofBytes (w ++ [byte])).storage.set w.length 0 = w ++ [0, 0] := by
    simp [ofBytes]
  have htake : (w ++ [0, 0]).take (w.length + 1) = w ++ [0] := by
    rw [List.take_length_add_append]
    rfl
  rw [pop, bytes_ofBytes, List.getLast?_concat, hlength]
  simp only [Nat.add_sub_cancel]
  rw [hset, htake]
  rfl

theorem dropLast_ofBytes_append (w : Bytes) (byte : UInt8) :
    (ofBytes (w ++ [byte])).dropLast byte = ofBytes w := by
  rw [dropLast, bytes_ofBytes, List.getLast?_concat, if_pos rfl, pop_ofBytes_append]

theorem dropLast_ofBytes_of_ne (w : Bytes) (byte : UInt8) (h : w.getLast? ≠ some byte) :
    (ofBytes w).dropLast byte = ofBytes w := by
  rw [dropLast, bytes_ofBytes, if_neg h]

theorem beforeZero_ofBytes (w : Bytes) :
    beforeZero (ofBytes w).storage = some (w.takeWhile (· ≠ 0)) := by
  show beforeZero (w ++ [0]) = _
  induction w with
  | nil => rfl
  | cons byte rest ih =>
    by_cases h : byte = 0
    · simp [beforeZero, h]
    · simp [beforeZero, h, ih]

theorem pointee_ofBytes (w : Bytes) : (ofBytes w).pointee = w.takeWhile (· ≠ 0) := by
  show (w ++ [0]).takeWhile (· ≠ 0) = _
  induction w with
  | nil => rfl
  | cons byte rest ih =>
    by_cases h : byte = 0
    · simp [h]
    · simpa [h] using ih

/-- Both ways of handing the line to a caller in C agree. -/
theorem cString_ofBytes (w : Bytes) : (ofBytes w).cString = (ofBytes w).pointee := by
  rw [cString, beforeZero_ofBytes, pointee_ofBytes]
  rfl

end LineBuffer

end LineConsole
