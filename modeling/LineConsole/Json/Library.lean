import LineConsole.Number.Shortest
import LineConsole.Json.Number

/-!
What a library for JSON texts offers to the types that are written and read with it: texts of
numbers and strings, and of the variants of a type. The types themselves say no more than their
names and contents.
-/
namespace LineConsole.Json

structure Library where
  writeInt : Int32 → List Char
  writeFloat : Single → List Char
  writeString : String → List Char
  /-- A variant of that name, with the text of its content if it has one. -/
  writeVariant : String → Option (List Char) → List Char
  readInt : List Char → Option Int32
  readFloat : List Char → Option Single
  /-- A string that is taken from the text as it stands there. -/
  readBorrowed : List Char → Option String
  readNull : List Char → Bool
  readVariant : List Char → Option (String × Option (List Char))

/-- The word for no value. -/
def null : List Char := ['n', 'u', 'l', 'l']

/-- A library that writes the shortest decimal of a float, and that makes a number with at most
two roundings a double. -/
def common : Library where
  writeInt n := (toString n.toInt).toList
  writeFloat x := if x.isFinite then x.compactText.toList else null
  writeString := quoted
  writeVariant := writeTagged
  readInt text := do (← readNumber text).toInt32?
  readFloat text := do return (← readNumber text).toSingle
  readBorrowed := readAll readPlain
  readNull text := (expectWord null text).any atEnd
  readVariant := readTagged

namespace Library

variable (json : Library)

/-- One of several names without content. A reader also takes it with an empty content. -/
def readName? (all : List α) (name : α → String) (text : List Char) : Option α := do
  let (found, content) ← json.readVariant text
  if content.all json.readNull then all.find? fun a => name a = found else none

end Library

end LineConsole.Json
