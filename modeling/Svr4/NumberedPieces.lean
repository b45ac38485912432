import Mathlib.Data.Finset.Insert
import Mathlib.Data.List.Range

/- Wholes that come in numbered pieces, which arrive in any order and more than once. -/
namespace NumberedPieces
open Function List
variable {δ α : Type} {arrivals : List (δ × Nat)} {n : Nat}

/-- The pieces that are there, of `m` pieces from the `k`-th on. -/
def kept (piece : Nat → α) (got : Finset Nat) (k m : Nat) : List α :=
  ((List.range' k m).filter (· ∈ got)).map piece

def collected [DecidableEq δ] (count : δ → Nat) :
    (δ → Finset Nat) → List (δ × Nat) → List δ
  | _, [] => []
  | got, (d, i) :: arrivals =>
      if ∀ j < count d, j ∈ insert i (got d) then
        d :: collected count (update got d ∅) arrivals
      else collected count (update got d (insert i (got d))) arrivals

section Kept
variable {piece : Nat → α} {got : Finset Nat} {k m i : Nat}

theorem mem_kept {x : α} :
    x ∈ kept piece got k m ↔ ∃ j, (k ≤ j ∧ j < k + m) ∧ j ∈ got ∧ piece j = x := by
  unfold kept
  simp only [mem_map, mem_filter, mem_range'_1, decide_eq_true_eq, and_assoc]

theorem kept_zero : kept piece got k 0 = [] := rfl

theorem kept_succ : kept piece got k (m + 1) =
    (if k ∈ got then [piece k] else []) ++ kept piece got (k + 1) m := by
  unfold kept
  rw [List.range'_succ]
  by_cases mem : k ∈ got
  · rw [if_pos mem, filter_cons_of_pos (by simpa using mem)]
    rfl
  · rw [if_neg mem, filter_cons_of_neg (by simpa using mem)]
    rfl

theorem kept_append (n : Nat) :
    kept piece got k (m + n) = kept piece got k m ++ kept piece got (k + m) n := by
  unfold kept
  rw [← List.range'_append_1, filter_append, map_append]

theorem kept_split (below : i < n) : kept piece got 0 n =
    kept piece got 0 i ++ ((if i ∈ got then [piece i] else []) ++
      kept piece got (i + 1) (n - (i + 1))) := by
  obtain ⟨m, rfl⟩ : ∃ m, n = i + (m + 1) := ⟨n - (i + 1), by omega⟩
  rw [kept_append, Nat.zero_add, kept_succ, show i + (m + 1) - (i + 1) = m by omega]

theorem kept_insert (other : ∀ j, k ≤ j → j < k + m → j ≠ i) :
    kept piece (insert i got) k m = kept piece got k m := by
  unfold kept
  congr 1
  refine filter_congr fun j mem => ?_
  have range := mem_range'_1.mp mem
  rw [decide_eq_decide, Finset.mem_insert, or_iff_right (other j range.1 range.2)]

theorem kept_insert_split (below : i < n) : kept piece (insert i got) 0 n =
    kept piece got 0 i ++ piece i :: kept piece got (i + 1) (n - (i + 1)) := by
  rw [kept_split below, if_pos (Finset.mem_insert_self i got),
    kept_insert fun j _ less => by omega, kept_insert fun j more _ => by omega]
  rfl

theorem kept_all (all : ∀ j, k ≤ j → j < k + m → j ∈ got) :
    kept piece got k m = (List.range' k m).map piece := by
  unfold kept
  rw [filter_eq_self.mpr fun j mem => ?_]
  have range := mem_range'_1.mp mem
  exact decide_eq_true (all j range.1 range.2)

theorem kept_empty : kept piece ∅ k m = [] := by
  unfold kept
  rw [filter_eq_nil_iff.mpr fun j _ => by simp]
  rfl

end Kept

section Collected
variable [DecidableEq δ] {count : δ → Nat} {got : δ → Finset Nat}

def numbers (d : δ) (arrivals : List (δ × Nat)) : List Nat :=
  (arrivals.filter fun a => a.1 = d).map Prod.snd

end Collected
end NumberedPieces
