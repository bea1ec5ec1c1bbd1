import LineConsole.LineBuffer

/-!
Histories of a line buffer, with a saved copy beside it that can be compared and restored.
-/
namespace LineConsole.LineBuffer

inductive Op
  | push (bytes : Bytes)
  | pop
  | clear
  | strip
  | save
  | restore
  | equalsSaved

inductive Answer
  | none
  /-- How many bytes were accepted. -/
  | accepted (count : Nat)
  | popped (byte : Option UInt8)
  | equal (answer : Bool)

structure Bench where
  buffer : LineBuffer := .empty
  saved : LineBuffer := .empty

/-- Pushes every byte, also after one was refused. -/
def pushAll (b : LineBuffer) : Bytes → Nat × LineBuffer
  | [] => (0, b)
  | byte :: rest =>
      let (accepted, b) := b.push byte
      let (count, b) := b.pushAll rest
      (count + if accepted then 1 else 0, b)

def Op.run (s : Bench) : Op → Answer × Bench
  | .push bytes =>
      let (count, buffer) := s.buffer.pushAll bytes
      (.accepted count, { s with buffer })
  | .pop =>
      let (byte, buffer) := s.buffer.pop
      (.popped byte, { s with buffer })
  | .clear => (.none, { s with buffer := .empty })
  | .strip => (.none, { s with buffer := s.buffer.strip })
  | .save => (.none, { s with saved := s.buffer })
  | .restore => (.none, { s with buffer := s.saved })
  | .equalsSaved => (.equal (s.buffer = s.saved), s)

def replay (s : Bench) : List Op → List (Answer × Bench)
  | [] => []
  | op :: rest => op.run s :: replay (op.run s).2 rest

end LineConsole.LineBuffer
