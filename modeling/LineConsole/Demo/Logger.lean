import LineConsole.Host.Event
import LineConsole.Text.Terminal

/-!
Loggers of a host program. Programs are run with any logger. The one they have by default shows
messages of a level that is high enough, each on a line of its own, as plain text that holds
nothing a terminal would obey.
-/
namespace LineConsole.Demo

open Host

abbrev Logger := List Event → Bytes

abbrev Threshold := Option Level

namespace Threshold

def setting : String := "RUST_LOG"

def default : Threshold := some .warn

def ofName (name : String) : Threshold :=
  match String.ofList (name.toList.map Char.toLower) with
  | "off" => none
  | "error" => some .error
  | "warn" => some .warn
  | "info" => some .info
  | "debug" => some .debug
  | "trace" => some .trace
  | _ => default

def shows (t : Threshold) (level : Level) : Bool := t.any fun lowest => lowest.rank ≤ level.rank

end Threshold

/-- Further lines of a text stand four columns in, so that every message starts a line. -/
def indented (text : String) : String :=
  String.ofList (text.toList.flatMap fun c =>
    if c = '\n' then ['\n', ' ', ' ', ' ', ' '] else [c])

/-- Level names are filled up to five characters. A sequence for terminals that the text leaves
open takes the rest of its line along, and no more. -/
def messageLine (e : Event) : String :=
  let level := e.level.name
  Terminal.plain ("[" ++ level ++ String.ofList (List.replicate (5 - level.length) ' ') ++ " " ++
    e.target ++ "] " ++ indented e.text ++ "\n")

def Threshold.logger (t : Threshold) : Logger := fun log =>
  Utf8.encode (String.join ((log.filter (t.shows ·.level)).map messageLine))

end LineConsole.Demo
