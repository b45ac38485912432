import Mathlib.Data.Nat.ModEq

/- One's-complement sums to a base: a carry out of the top comes in again at the bottom, so that a
   sum is known up to multiples of the base less one, and is zero only where every summand is. -/
namespace OnesComplement
open Nat
variable {base half r s t x y n : Nat}

/-- Two numbers with the same one's-complement sum. -/
structure Alike (base r s : Nat) : Prop where
  modulo : r ≡ s [MOD base - 1]
  zero : r = 0 ↔ s = 0

namespace Alike

theorem refl (base r : Nat) : Alike base r r := ⟨.refl _, Iff.rfl⟩

theorem symm (h : Alike base r s) : Alike base s r := ⟨h.modulo.symm, h.zero.symm⟩

theorem trans (h : Alike base r s) (g : Alike base s t) : Alike base r t :=
  ⟨h.modulo.trans g.modulo, h.zero.trans g.zero⟩

theorem add (h : Alike base r s) (g : Alike base x y) : Alike base (r + x) (s + y) :=
  ⟨h.modulo.add g.modulo, by rw [Nat.add_eq_zero_iff, Nat.add_eq_zero_iff, h.zero, g.zero]⟩

theorem mul (h : Alike base r s) : Alike base (n * r) (n * s) := by
  refine ⟨h.modulo.mul_left n, ?_⟩
  rw [mul_eq_zero, mul_eq_zero, h.zero]

theorem scale (positive : 0 < base) (n : Nat) : Alike base (base * n) n := by
  have one : base ≡ 1 [MOD base - 1] := ((modEq_iff_dvd' positive).mpr (dvd_refl _)).symm
  refine ⟨?_, by rw [mul_eq_zero]; omega⟩
  have scaled := one.mul_right n
  rwa [one_mul] at scaled

theorem fold (positive : 0 < base) (r : Nat) : Alike base (r % base + r / base) r := by
  have carried := (refl base (r % base)).add (scale positive (r / base))
  rw [mod_add_div] at carried
  exact carried.symm

theorem swap (positive : 0 < half) (r : Nat) :
    Alike (half * half) (r % half * half + r / half) (half * r) := by
  have whole : half * r = r % half * half + half * half * (r / half) := by
    rw [mul_comm (r % half), mul_assoc, ← mul_add, mod_add_div]
  rw [whole]
  exact (refl _ _).add (scale (Nat.mul_pos positive positive) _).symm

theorem eq_of_lt (h : Alike base r s) (low : r < base) (high : s < base) : r = s := by
  by_cases none_left : r = 0
  · rw [none_left, h.zero.mp none_left]
  · have some_left : s ≠ 0 := fun gone => none_left (h.zero.mpr gone)
    have below : r - 1 ≡ s - 1 [MOD base - 1] := by
      apply ModEq.add_right_cancel' 1
      rw [Nat.sub_add_cancel (by omega), Nat.sub_add_cancel (by omega)]
      exact h.modulo
    have same := below.eq_of_lt_of_lt (by omega) (by omega)
    omega

end Alike

def plus (base r w : Nat) : Nat := if r + w < base then r + w else r + w - (base - 1)

theorem plus_lt (low : r < base) (high : x < base) : plus base r x < base := by
  unfold plus
  split <;> omega

theorem plus_alike (r : Nat) (high : x < base) : Alike base (plus base r x) (r + x) := by
  unfold plus
  split
  · exact .refl _ _
  · refine ⟨?_, by omega⟩
    have whole : r + x - (base - 1) + (base - 1) = r + x := by omega
    have carried := add_modEq_right (n := base - 1) (a := r + x - (base - 1))
    rw [whole] at carried
    exact carried.symm

theorem foldl_plus {ws : List Nat} (low : r < base) (short : ∀ w ∈ ws, w < base) :
    ws.foldl (plus base) r < base ∧ Alike base (ws.foldl (plus base) r) (r + ws.sum) := by
  induction ws generalizing r with
  | nil => exact ⟨low, .refl _ _⟩
  | cons w ws ih =>
    have first := short w (by simp)
    obtain ⟨bound, alike⟩ := ih (plus_lt low first) fun x mem => short x (by simp [mem])
    refine ⟨bound, alike.trans ?_⟩
    rw [List.sum_cons, ← add_assoc]
    exact (plus_alike _ first).add (.refl _ _)

end OnesComplement
