/-!
Text for a stream that is no terminal: control characters and escape sequences are taken out,
and the characters that a terminal would show remain. A machine reads one character after the
other and says of each whether it is shown.
-/
namespace LineConsole.Terminal

/-- What a terminal shows outside of all sequences: everything but control characters, and of
those the blanks. -/
def isPlain (c : Char) : Bool :=
  c ∈ ['\t', '\n', '\x0C', '\r'] || (0x20 ≤ c.toNat && c.toNat != 0x7F)

inductive Sequence
  /-- No sequence. -/
  | ground
  /-- Just after the escape character. -/
  | escape
  /-- After it and a character from space to slash, before the final character. -/
  | designation
  /-- A control sequence, up to its final character. -/
  | control
  /-- A command to the system, up to a bell. -/
  | command
  /-- The head of a device string: nothing yet, parameters, or characters before the final. -/
  | device
  | deviceParameters
  | deviceDesignation
  /-- The body of a string, up to the byte 9C. -/
  | body
  deriving DecidableEq

namespace Sequence

/-- What follows the escape character by its code. -/
def introduced (c : Nat) : Sequence :=
  if c = '['.toNat then .control
  else if c = ']'.toNat then .command
  else if c = 'P'.toNat then .device
  else if c = 'X'.toNat ∨ c = '^'.toNat ∨ c = '_'.toNat then .body
  else if 0x20 ≤ c ∧ c ≤ 0x2F then .designation
  else if 0x30 ≤ c ∧ c ≤ 0x7E then .ground
  else .escape

/-- A character that has no place in a sequence leaves it open. -/
def continued (c : Char) : Sequence → Sequence
  | .ground => .ground
  | .escape => introduced c.toNat
  | .designation => if 0x30 ≤ c.toNat ∧ c.toNat ≤ 0x7E then .ground else .designation
  | .control => if 0x40 ≤ c.toNat ∧ c.toNat ≤ 0x7E then .ground else .control
  | .command => if c.toNat = 0x07 then .ground else .command
  | .device =>
      if 0x20 ≤ c.toNat ∧ c.toNat ≤ 0x2F then .deviceDesignation
      else if 0x30 ≤ c.toNat ∧ c.toNat ≤ 0x3F then .deviceParameters
      else if 0x40 ≤ c.toNat ∧ c.toNat ≤ 0x7E then .body
      else .device
  | .deviceParameters =>
      if 0x20 ≤ c.toNat ∧ c.toNat ≤ 0x2F then .deviceDesignation
      else if 0x3C ≤ c.toNat ∧ c.toNat ≤ 0x7E then .body
      else .deviceParameters
  | .deviceDesignation =>
      if 0x30 ≤ c.toNat ∧ c.toNat ≤ 0x7E then .body else .deviceDesignation
  | .body => if 0x9C ∈ String.utf8EncodeChar c then .ground else .body

/-- Two characters cancel every sequence, and an escape character begins a new one. -/
def next (s : Sequence) (c : Char) : Sequence :=
  if c.toNat = 0x18 ∨ c.toNat = 0x1A then .ground
  else if c.toNat = 0x1B then .escape
  else continued c s

/-- Inside of the sequences without a string, a terminal still obeys control characters, so
blanks other than the space are shown there. -/
def shows (s : Sequence) (c : Char) : Bool :=
  match s with
  | .ground => isPlain c
  | .escape | .designation | .control => isPlain c && c.toNat < 0x20
  | _ => false

end Sequence

structure State where
  sequence : Sequence := .ground
  /-- The last character was shown. A sequence is then suspended until a character is not. -/
  suspended : Bool := false
  deriving DecidableEq

/-- Whether a character is shown, and the state behind it. While a sequence is suspended, a
character of more than one byte ends it for good. -/
def step (s : State) (c : Char) : Bool × State :=
  if s.suspended && isPlain c then (true, if c.toNat < 0x80 then s else {})
  else (s.sequence.shows c, ⟨s.sequence.next c, s.sequence.shows c⟩)

def keep : State → List Char → List Char
  | _, [] => []
  | s, c :: rest => if (step s c).1 then c :: keep (step s c).2 rest else keep (step s c).2 rest

def plain (text : String) : String := String.ofList (keep {} text.toList)

end LineConsole.Terminal
