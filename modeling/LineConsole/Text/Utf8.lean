/-!
UTF-8 as a machine that takes one byte at a time. It shows each character, and `none` for
each maximal part that starts no character, in the order of the bytes. Both readings of a
byte string follow from this: the strict one wants no `none`, the lossy one replaces it.
-/
namespace LineConsole

abbrev Bytes := List UInt8

namespace Utf8

/-- Between characters, or inside one: its bits so far, the number of bytes owed after the
next, and the range in which the next must lie. -/
inductive State
  | start
  | inside (bits owed low high : Nat)
  deriving DecidableEq

/-- The first byte of a character. Two bytes start at C2, as C0 and C1 would spell ASCII;
E0 and F0 forbid the spellings of shorter ones, ED the surrogates, F4 all above 10FFFF. -/
def first (b : Nat) : List (Option Char) × State :=
  if b < 0x80 then ([some (Char.ofNat b)], .start)
  else if b < 0xC2 then ([none], .start)
  else if b < 0xE0 then ([], .inside (b - 0xC0) 0 0x80 0xBF)
  else if b = 0xE0 then ([], .inside 0 1 0xA0 0xBF)
  else if b = 0xED then ([], .inside 0xD 1 0x80 0x9F)
  else if b < 0xF0 then ([], .inside (b - 0xE0) 1 0x80 0xBF)
  else if b = 0xF0 then ([], .inside 0 2 0x90 0xBF)
  else if b < 0xF4 then ([], .inside (b - 0xF0) 2 0x80 0xBF)
  else if b = 0xF4 then ([], .inside 4 2 0x80 0x8F)
  else ([none], .start)

/-- A byte that does not continue the open character ends it as invalid and starts anew. -/
def step : State → Nat → List (Option Char) × State
  | .start, b => first b
  | .inside bits owed low high, b =>
      if low ≤ b ∧ b ≤ high then
        match owed with
        | 0 => ([some (Char.ofNat (bits * 64 + (b - 0x80)))], .start)
        | owed + 1 => ([], .inside (bits * 64 + (b - 0x80)) owed 0x80 0xBF)
      else
        (none :: (first b).1, (first b).2)

def scanFrom : State → Bytes → List (Option Char)
  | .start, [] => []
  | .inside .., [] => [none]
  | state, b :: rest =>
      (step state b.toNat).1 ++ scanFrom (step state b.toNat).2 rest

def scan (bytes : Bytes) : List (Option Char) := scanFrom .start bytes

def encode (text : String) : Bytes := text.toList.flatMap String.utf8EncodeChar

def decode? (bytes : Bytes) : Option String := ((scan bytes).mapM id).map String.ofList

def lossy (bytes : Bytes) : String :=
  String.ofList ((scan bytes).map (·.getD '\uFFFD'))

/-- The characters in front of each invalid part, even if there are none, then its replacement
character, and at last the characters behind all of them. `run` is what has not been given yet. -/
def lossyPiecesFrom (run : List Char) : List (Option Char) → List String
  | [] => if run.isEmpty then [] else [String.ofList run]
  | some c :: rest => lossyPiecesFrom (run ++ [c]) rest
  | none :: rest => String.ofList run :: "\uFFFD" :: lossyPiecesFrom [] rest

def lossyPieces (bytes : Bytes) : List String := lossyPiecesFrom [] (scan bytes)

end Utf8

end LineConsole
