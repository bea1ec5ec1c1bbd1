/-!
Strings of JSON texts, and the blanks between tokens. A reader takes a token from the front
of a list of characters and returns the rest, or `none` if no such token stands there.
-/
namespace LineConsole.Json

abbrev Reader (α : Type) := List Char → Option (α × List Char)

def isBlank (c : Char) : Bool := c = ' ' || c = '\t' || c = '\n' || c = '\r'

def skipBlanks (cs : List Char) : List Char := cs.dropWhile isBlank

def expect (c : Char) (cs : List Char) : Option (List Char) :=
  match skipBlanks cs with
  | d :: rest => if c = d then some rest else none
  | [] => none

def expectWord (word : List Char) (cs : List Char) : Option (List Char) :=
  word.isPrefixOf? (skipBlanks cs)

/-- What follows the opening quote of a string that is used as it stands: no escapes and no
control characters. -/
def plainBody : Reader (List Char)
  | [] => none
  | c :: rest =>
      if c = '"' then some ([], rest)
      else if c = '\\' ∨ c.toNat < 0x20 then none
      else (plainBody rest).map fun (cs, rest) => (c :: cs, rest)

def hexValue? (c : Char) : Option Nat :=
  if '0' ≤ c ∧ c ≤ '9' then some (c.toNat - 48)
  else if 'a' ≤ c ∧ c ≤ 'f' then some (c.toNat - 87)
  else if 'A' ≤ c ∧ c ≤ 'F' then some (c.toNat - 55)
  else none

def hexQuad? (a b c d : Char) : Option Nat := do
  let a ← hexValue? a
  let b ← hexValue? b
  let c ← hexValue? c
  let d ← hexValue? d
  return ((a * 16 + b) * 16 + c) * 16 + d

/-- The character after a backslash, other than `u`. -/
def escape? : Char → Option Char
  | '"' => some '"'
  | '\\' => some '\\'
  | '/' => some '/'
  | 'b' => some '\x08'
  | 'f' => some '\x0c'
  | 'n' => some '\n'
  | 'r' => some '\r'
  | 't' => some '\t'
  | _ => none

/-- What follows the opening quote of a name. Names are ASCII, so an escaped surrogate can
only stand in a text that is no name. -/
def nameBody : Reader (List Char)
  | [] => none
  | '"' :: rest => some ([], rest)
  | '\\' :: 'u' :: a :: b :: c :: d :: rest => do
      let code ← hexQuad? a b c d
      if 0xD800 ≤ code ∧ code < 0xE000 then none
      let (cs, rest) ← nameBody rest
      return (Char.ofNat code :: cs, rest)
  | '\\' :: e :: rest => do
      let c ← escape? e
      let (cs, rest) ← nameBody rest
      return (c :: cs, rest)
  | c :: rest =>
      if c = '\\' ∨ c.toNat < 0x20 then none
      else (nameBody rest).map fun (cs, rest) => (c :: cs, rest)

def readPlain (cs : List Char) : Option (String × List Char) := do
  let (body, rest) ← plainBody (← expect '"' cs)
  return (String.ofList body, rest)

def readName (cs : List Char) : Option (String × List Char) := do
  let (body, rest) ← nameBody (← expect '"' cs)
  return (String.ofList body, rest)

def atEnd (cs : List Char) : Bool := (skipBlanks cs).isEmpty

def readAll (reader : Reader α) (cs : List Char) : Option α := do
  let (value, rest) ← reader cs
  if atEnd rest then some value else none

def hexDigit (n : Nat) : Char := Nat.digitChar n

def escapedChar (c : Char) : List Char :=
  match c with
  | '"' => ['\\', '"']
  | '\\' => ['\\', '\\']
  | '\x08' => ['\\', 'b']
  | '\t' => ['\\', 't']
  | '\n' => ['\\', 'n']
  | '\x0c' => ['\\', 'f']
  | '\r' => ['\\', 'r']
  | c =>
      if c.toNat < 0x20 then
        ['\\', 'u', '0', '0', hexDigit (c.toNat / 16), hexDigit (c.toNat % 16)]
      else [c]

def quoted (text : String) : List Char := '"' :: (text.toList.flatMap escapedChar ++ ['"'])

/-- The text of a variant: its name, or an object whose only member has that name. -/
def writeTagged (name : String) : Option (List Char) → List Char
  | none => quoted name
  | some content => '\x7b' :: (quoted name ++ ':' :: (content ++ ['\x7d']))

def beforeBrace (cs : List Char) : Option (List Char) :=
  match cs.reverse.dropWhile isBlank with
  | '\x7d' :: cs => some cs.reverse
  | _ => none

def readTagged (cs : List Char) : Option (String × Option (List Char)) :=
  match skipBlanks cs with
  | '"' :: _ => do return (← readAll readName cs, none)
  | _ => do
      let (name, cs) ← readName (← expect '\x7b' cs)
      return (name, some (← beforeBrace (← expect ':' cs)))

end LineConsole.Json
