import LineConsole.Value
import LineConsole.Json.Library

/-!
Values as JSON texts: an object whose only member is named for the kind. A string is borrowed
from the text, so one that needs an escape is written but never read back.
-/
namespace LineConsole.Value

def kindName : Value → String
  | .int _ => "Int"
  | .float _ => "Float"
  | .str _ => "Str"

section

variable (json : Json.Library)

def writeContent : Value → List Char
  | .int n => json.writeInt n
  | .float x => json.writeFloat x
  | .str text => json.writeString text

def write (v : Value) : List Char := json.writeVariant v.kindName (some (v.writeContent json))

def readContent (name : String) (text : List Char) : Option Value :=
  if name = "Int" then (json.readInt text).map .int
  else if name = "Float" then (json.readFloat text).map .float
  else if name = "Str" then (json.readBorrowed text).map .str
  else none

def read? (text : List Char) : Option Value := do
  let (name, content) ← json.readVariant text
  readContent json name (← content)

end

def toJson (v : Value) : String := String.ofList (v.write Json.common)

def ofJson? (text : String) : Option Value := read? Json.common text.toList

end LineConsole.Value
