import LineConsole.Fibonacci
import LineConsole.Proofs.Output
import Mathlib.Data.Nat.Fib.Basic

/-!
The sequence computes Fibonacci numbers. Its members are the ones that fit a 32-bit integer, of
which there are 47, and no sum of two neighbours leaves the range of 64-bit integers.
-/
namespace LineConsole

/-- A number that is not negative is printed as its decimal digits. -/
theorem Value.text_ofNat {n : Nat} (h : n < 2 ^ 31) :
    (Value.int (Int32.ofNat n)).text = Nat.repr n := by
  have htoInt : (Int32.ofNat n).toInt = n := Int32.toInt_ofNat_of_lt h
  have hpositive : ¬ Int32.ofNat n < 0 := by
    rw [Int32.lt_iff_toInt_lt, htoInt]
    exact Int.not_lt.mpr (Int.natCast_nonneg n)
  rw [text, pieces, if_neg hpositive, htoInt, Int.natAbs_natCast]
  simp

namespace Fibonacci

/-- How many of the numbers fit. -/
def count : Nat := 47

theorem fib_lt_iff (k : Nat) : Nat.fib k < 2 ^ 31 ↔ k < count := by
  constructor
  · intro h
    by_contra hk
    have hmono : Nat.fib 47 ≤ Nat.fib k := Nat.fib_mono (Nat.le_of_not_lt hk)
    have hlast : Nat.fib 47 = 2971215073 := by decide
    omega
  · intro hk
    have hmono : Nat.fib k ≤ Nat.fib 46 := Nat.fib_mono (Nat.le_of_lt_succ hk)
    have hlast : Nat.fib 46 = 1836311903 := by decide
    omega

def behind (k : Nat) : Fibonacci := ⟨Int64.ofNat (Nat.fib k), Int64.ofNat (Nat.fib (k + 1))⟩

theorem behind_zero : behind 0 = {} := rfl

/-- As long as there are members, their neighbours are far below the limits of 64 bits. -/
theorem toInt_ofNat_fib {k : Nat} (hk : k ≤ count + 1) :
    (Int64.ofNat (Nat.fib k)).toInt = Nat.fib k := by
  have hmono : Nat.fib k ≤ Nat.fib 48 := Nat.fib_mono hk
  have hlast : Nat.fib 48 = 4807526976 := by decide
  exact Int64.toInt_ofNat_of_lt (by omega)

theorem next?_behind {k : Nat} (hk : k < count) :
    (behind k).next? = some (Int32.ofNat (Nat.fib k), behind (k + 1)) := by
  have hfits : (behind k).current.toInt < 0x80000000 := by
    have hlt := (fib_lt_iff k).mpr hk
    have hcurrent : (behind k).current.toInt = Nat.fib k := toInt_ofNat_fib (by omega)
    omega
  rw [next?, if_pos hfits]
  simp only [behind, Int64.toInt32_ofNat', ← Int64.ofNat_add, ← Nat.fib_add_two]

theorem next?_behind_count : (behind count).next? = none := by
  have hfits : ¬ (behind count).current.toInt < 0x80000000 := by
    have hnot := (fib_lt_iff count).not.mpr (Nat.lt_irrefl _)
    have hcurrent : (behind count).current.toInt = Nat.fib count := toInt_ofNat_fib (by omega)
    omega
  rw [next?, if_neg hfits]

theorem behind_succ_of_next? {k : Nat} (hk : k ≤ count) {f : Fibonacci} {value : Int32}
    (h : (behind k).next? = some (value, f)) : k < count ∧ f = behind (k + 1) := by
  rcases Nat.lt_or_eq_of_le hk with hlt | rfl
  · rw [next?_behind hlt] at h
    cases h
    exact ⟨hlt, rfl⟩
  · rw [next?_behind_count] at h
    cases h

/-- The states that the sequence passes through. -/
inductive Reached : Fibonacci → Prop
  | start : Reached {}
  | next {f f' : Fibonacci} {value : Int32} (h : Reached f)
      (hnext : f.next? = some (value, f')) : Reached f'

theorem Reached.behind {f : Fibonacci} (h : Reached f) : ∃ k ≤ count, f = behind k := by
  induction h with
  | start => exact ⟨0, Nat.zero_le _, rfl⟩
  | next h hnext ih =>
    obtain ⟨k, hk, rfl⟩ := ih
    obtain ⟨hlt, rfl⟩ := behind_succ_of_next? hk hnext
    exact ⟨k + 1, hlt, rfl⟩

/-- No addition overflows: the new neighbour is the sum of the two old ones as integers. -/
theorem Reached.following {f f' : Fibonacci} {value : Int32} (h : Reached f)
    (hnext : f.next? = some (value, f')) :
    f'.following.toInt = f.current.toInt + f.following.toInt := by
  obtain ⟨k, hk, rfl⟩ := h.behind
  obtain ⟨hlt, rfl⟩ := behind_succ_of_next? hk hnext
  have hcurrent : (Fibonacci.behind k).current.toInt = Nat.fib k := toInt_ofNat_fib (by omega)
  have hfollowing : (Fibonacci.behind k).following.toInt = Nat.fib (k + 1) :=
    toInt_ofNat_fib (by omega)
  have hsum : (Fibonacci.behind (k + 1)).following.toInt = Nat.fib (k + 2) :=
    toInt_ofNat_fib (by omega)
  rw [hcurrent, hfollowing, hsum, Nat.fib_add_two, Int.natCast_add]

theorem take_behind (n : Nat) {k : Nat} (hk : k ≤ count) :
    (behind k).take n =
      (List.range' k (min n (count - k))).map fun i => Int32.ofNat (Nat.fib i) := by
  induction n generalizing k with
  | zero => rw [Nat.zero_min]; rfl
  | succ n ih =>
    rcases Nat.lt_or_eq_of_le hk with hlt | rfl
    · have hlength : min (n + 1) (count - k) = min n (count - (k + 1)) + 1 := by omega
      rw [take, next?_behind hlt, hlength, List.range'_succ]
      simp only [ih hlt, List.map_cons]
    · rw [take, next?_behind_count, Nat.sub_self, Nat.min_zero]
      rfl

/-- The whole sequence in numbers of ordinary size. -/
theorem numbers_eq (n : Nat) :
    numbers n = (List.range (min n count)).map fun i => Int32.ofNat (Nat.fib i) := by
  rw [numbers, ← behind_zero, take_behind n (Nat.zero_le _), List.range_eq_range', Nat.sub_zero]

theorem length_numbers (n : Nat) : (numbers n).length = min n count := by
  rw [numbers_eq, List.length_map, List.length_range]

/-- The decimal lines of the first `n` members. -/
def lines (n : Nat) : Bytes :=
  (List.range (min n count)).flatMap fun i => lineOf (Nat.repr (Nat.fib i))

theorem flatMap_numbers (n : Nat) :
    (numbers n).flatMap (fun value => lineOf (Value.int value).text) = lines n := by
  rw [numbers_eq, List.flatMap_map]
  apply List.flatMap_congr
  intro i hi
  have hlt : i < count := Nat.lt_of_lt_of_le (List.mem_range.mp hi) (Nat.min_le_right _ _)
  rw [Value.text_ofNat ((fib_lt_iff i).mpr hlt)]

end Fibonacci

end LineConsole
