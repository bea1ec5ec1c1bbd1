/-!
The Fibonacci numbers from 0 on, as far as they fit a 32-bit integer. Two neighbours are
kept as 64-bit integers, so the first number that does not fit is still computed.
-/
namespace LineConsole

structure Fibonacci where
  current : Int64 := 0
  following : Int64 := 1

namespace Fibonacci

/-- An exhausted sequence stays exhausted. -/
def next? (f : Fibonacci) : Option (Int32 × Fibonacci) :=
  if f.current.toInt < 0x80000000 then
    some (f.current.toInt32, ⟨f.following, f.current + f.following⟩)
  else none

def take (f : Fibonacci) : Nat → List Int32
  | 0 => []
  | n + 1 =>
      match f.next? with
      | none => []
      | some (value, f') => value :: f'.take n

def numbers (n : Nat) : List Int32 := ({} : Fibonacci).take n

end Fibonacci

end LineConsole
