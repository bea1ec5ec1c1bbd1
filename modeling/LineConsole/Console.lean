import LineConsole.LineBuffer
import LineConsole.Rendering
import LineConsole.Value

/-!
A console: a channel and the line that was read last. Every output operation ends with a
flush, unless a write before it fails. Input takes one byte at a time and nothing beyond the
line, so the rest of the input stays in the channel.
-/
namespace LineConsole

structure Console (σ : Type) where
  channel : σ
  line : LineBuffer := .empty

namespace Console

variable {σ : Type} [Channel σ]

def onChannel (a : Action σ α) : Action (Console σ) α :=
  Fallible.on channel (fun channel c => { c with channel }) a

def newlineBytes : Bytes := [LineBuffer.newline]

/-! Output -/

def newline : Action σ Unit := do
  Channel.writeAll newlineBytes
  Channel.flush

def render (r : Rendering) : Action σ Unit := do
  r.write
  newline

def renderInline (r : Rendering) : Action σ Unit := do
  r.write
  Channel.flush

def writeValue (v : Value) : Action σ Unit := (Rendering.ofPieces v.pieces).write

def print (v : Value) : Action σ Unit := render (.ofPieces v.pieces)

def printInline (v : Value) : Action σ Unit := renderInline (.ofPieces v.pieces)

def writeRest : List Value → Action σ Unit
  | [] => pure ()
  | v :: rest => do
      Channel.writeAll [0x20]
      writeValue v
      writeRest rest

def writeValues : List Value → Action σ Unit
  | [] => pure ()
  | v :: rest => do
      writeValue v
      writeRest rest

def printValues (vs : List Value) : Action σ Unit := do
  writeValues vs
  newline

def printBytes (bytes : Bytes) (withNewline : Bool) : Action σ Unit := do
  Channel.writeAll bytes
  if withNewline then newline else Channel.flush

/-! Input -/

/-- Reads up to `room` more bytes into the line, and no further than a newline. The end of
the input is only a fault if the line is still empty; any other fault empties the line. -/
def fill : Nat → Console σ → Except Fault Unit × Console σ
  | 0, c => (.ok (), c)
  | room + 1, c =>
      match Channel.readByte c.channel with
      | (.ok (some byte), channel) =>
          let c := ⟨channel, (c.line.push byte).2⟩
          if byte = LineBuffer.newline then (.ok (), c) else fill room c
      | (.ok none, channel) =>
          (if c.line.isEmpty then .error .endOfStream else .ok (), { c with channel })
      | (.error e, channel) => (.error e, ⟨channel, .empty⟩)

/-- Reads one line, or 255 bytes of it; its terminator is removed. -/
def readLine : Action (Console σ) Bytes := fun c =>
  match fill (LineBuffer.capacity - 1) { c with line := .empty } with
  | (.ok _, c) => (.ok c.line.strip.bytes, { c with line := c.line.strip })
  | (.error e, c) => (.error e, c)

/-- A prompt that cannot be written reads nothing, and the old line stays. -/
def prompt (text : Bytes) : Action (Console σ) Bytes := do
  onChannel (Channel.writeAll text)
  onChannel Channel.flush
  readLine

/-- The line just read as text. A line that is no text is read all the same. -/
def lineText : Action (Console σ) String := fun c => (c.line.text, c)

def input : Action (Console σ) String := do
  let _ ← readLine
  lineText

def inputPrompt (text : String) : Action (Console σ) String := do
  let _ ← prompt (Utf8.encode text)
  lineText

end Console

end LineConsole
