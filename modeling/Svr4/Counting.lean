import Mathlib.Algebra.Order.BigOperators.Group.Finset

/- Counting by sums of ones, and sums in which one term changes. -/
namespace Counting
open Finset

def one (c : Prop) [Decidable c] : Nat := if c then 1 else 0

section
variable {ι : Type} {S : Finset ι} {f g : ι → Nat} {i j k : ι} {c : Prop} [Decidable c]

@[simp] theorem one_true (holds : c) : one c = 1 := if_pos holds

@[simp] theorem one_false (fails : ¬ c) : one c = 0 := if_neg fails

theorem sum_change [DecidableEq ι] (mem : k ∈ S) (others : ∀ i ∈ S, i ≠ k → f i = g i) :
    ∑ i ∈ S, f i + g k = ∑ i ∈ S, g i + f k := by
  rw [← sum_erase_add _ f mem, ← sum_erase_add _ g mem]
  have same : ∑ i ∈ S.erase k, f i = ∑ i ∈ S.erase k, g i := sum_congr rfl fun i hi =>
      others i (mem_of_mem_erase hi) (ne_of_mem_erase hi)
  omega

theorem term_le (mem : k ∈ S) : f k ≤ ∑ i ∈ S, f i := single_le_sum (fun _ _ => Nat.zero_le _) mem

theorem two_terms_le [DecidableEq ι] (first : j ∈ S) (second : k ∈ S) (apart : j ≠ k) :
    f j + f k ≤ ∑ i ∈ S, f i := by
  rw [← sum_erase_add _ f second]
  have here : j ∈ S.erase k := mem_erase.mpr ⟨apart, first⟩
  have part := term_le (f := f) here
  omega

end

end Counting
