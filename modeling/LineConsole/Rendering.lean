import LineConsole.Channel

/-!
Text that is written piece by piece. A rendering learns whether each piece could be written
and goes on as it likes; in the end it declares success or failure. Whatever it declares, a
fault of the channel is what counts.
-/
namespace LineConsole

inductive Rendering
  | done (ok : Bool)
  | piece (text : String) (next : Bool → Rendering)

namespace Rendering

/-- Stops at the first piece that cannot be written, and fails there; otherwise ends with
`ok`. -/
def sequence (ok : Bool) : List String → Rendering
  | [] => .done ok
  | text :: rest => .piece text fun
      | true => sequence ok rest
      | false => .done false

def ofPieces : List String → Rendering := sequence true

def failingAtEnd : List String → Rendering := sequence false

def persistent : List String → Rendering
  | [] => .done true
  | text :: rest => .piece text fun _ => persistent rest

/-- What the rendering declares and the last fault of the channel, given the one so far. -/
def runFrom [Channel σ] (last : Option Fault) : Rendering → σ → (Bool × Option Fault) × σ
  | .done ok, s => ((ok, last), s)
  | .piece text next, s =>
      match Channel.writeAll (Utf8.encode text) s with
      | (.ok _, s) => (next true).runFrom last s
      | (.error e, s) => (next false).runFrom (some e) s

/-- A rendering that fails by itself counts as a failed write. -/
def write [Channel σ] (r : Rendering) : Action σ Unit := fun s =>
  match r.runFrom none s with
  | ((_, some e), s) => (.error e, s)
  | ((false, none), s) => (.error .writeFailed, s)
  | ((true, none), s) => (.ok (), s)

end Rendering

end LineConsole
