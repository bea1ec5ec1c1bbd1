import LineConsole.Fault
import LineConsole.Literal
import LineConsole.Number.Floor
import LineConsole.Json.Library

/-!
The kinds of errors as JSON texts: their names.
-/
namespace LineConsole

def Json.nameText (name : String) : String := String.ofList (common.writeVariant name none)

namespace Fault

def toJson (f : Fault) : String := Json.nameText f.name

def ofJson? (text : String) : Option Fault := Json.common.readName? all name text.toList

end Fault

namespace LiteralFlaw

def toJson (f : LiteralFlaw) : String := Json.nameText f.name

def ofJson? (text : String) : Option LiteralFlaw := Json.common.readName? all name text.toList

end LiteralFlaw

namespace FloorError

def toJson (e : FloorError) : String := Json.nameText e.name

def ofJson? (text : String) : Option FloorError := Json.common.readName? all name text.toList

end FloorError

end LineConsole
