import Mathlib.Algebra.Group.Int.Defs
import Mathlib.Data.Int.Basic

/- Numbers of `w` bits that count positions from a base and wrap. Two positions compare as
   their numbers do where they lie less than half of the numbers apart. -/
namespace SerialNumbers
variable {w : Nat} {base : BitVec w} {a b : Int}

def number (base : BitVec w) (a : Int) : BitVec w := base + BitVec.ofInt w a

theorem number_add (base : BitVec w) (a b : Int) :
    number base a + BitVec.ofInt w b = number base (a + b) := by
  unfold number
  rw [BitVec.ofInt_add, BitVec.add_assoc]

theorem number_zero (base : BitVec w) : number base 0 = base := by
  exact BitVec.add_zero base

theorem number_sub (base : BitVec w) (a b : Int) :
    number base a - number base b = BitVec.ofInt w (a - b) := by
  have sum := number_add base b (a - b)
  rw [Int.add_comm, Int.sub_add_cancel, BitVec.add_comm] at sum
  rw [← sum, BitVec.add_sub_cancel]

theorem toInt_sub (some_bits : 0 < w) (low : -2 ^ (w - 1) ≤ a - b) (high : a - b < 2 ^ (w - 1)) :
    (number base a - number base b).toInt = a - b := by
  rw [number_sub, BitVec.toInt_ofInt_eq_self some_bits low high]

theorem number_inj (some_bits : 0 < w) (low : -2 ^ (w - 1) ≤ a - b)
    (high : a - b < 2 ^ (w - 1)) : number base a = number base b ↔ a = b := by
  constructor
  · intro same
    have distance := @toInt_sub _ base _ _ some_bits low high
    rw [same, BitVec.sub_self, BitVec.toInt_zero] at distance
    omega
  · rintro rfl
    rfl

end SerialNumbers
