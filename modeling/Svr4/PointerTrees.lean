import Mathlib.Algebra.Group.Nat.Defs
import Mathlib.Data.List.GetD

/- Trees of pointers with a fixed number of children, read level by level from a store. -/
namespace PointerTrees
open List Nat

theorem length_flatMap {α β : Type} {xs : List α} {f : α → List β} {n : Nat}
    (each : ∀ x ∈ xs, (f x).length = n) : (xs.flatMap f).length = xs.length * n := by
  induction xs with
  | nil => simp
  | cons x xs ih =>
    have rest := ih fun y hy => each y (mem_cons_of_mem _ hy)
    rw [flatMap_cons, length_append, rest, each x mem_cons_self,
      length_cons, succ_mul, add_comm]

theorem getElem_flatMap {α β : Type} {f : α → List β} {n : Nat} (pos : 0 < n) :
    ∀ {xs : List α} (i : Nat), (∀ x ∈ xs, (f x).length = n) →
      (xs.flatMap f)[i]? = xs[i / n]?.bind fun x => (f x)[i % n]? := by
  intro xs
  induction xs with
  | nil => simp
  | cons x xs ih =>
    intro i each
    have first := each x mem_cons_self
    rw [flatMap_cons]
    cases Nat.lt_or_ge i n with
    | inl inside =>
      rw [getElem?_append_left (by omega), div_eq_of_lt inside, mod_eq_of_lt inside]
      rfl
    | inr later =>
      obtain ⟨j, rfl⟩ := Nat.exists_eq_add_of_le later
      rw [getElem?_append_right (by omega), first, Nat.add_sub_cancel_left,
        ih j fun y hy => each y (mem_cons_of_mem _ hy), add_div_left j pos,
        add_mod_left]
      rfl

variable {α : Type} [DecidableEq α] (null : α) (fanout : Nat) (kids : α → List α)

/-- What is below `a` after `n` levels, in order; a null pointer stands for that many nulls. -/
def leaves : Nat → α → List α
  | 0, a => [a]
  | n + 1, a =>
      if a = null then replicate (fanout ^ (n + 1)) null else (kids a).flatMap (leaves n)

def walk (t : Nat) : Nat → α → α
  | 0, a => a
  | n + 1, a =>
      if a = null then null else walk t n ((kids a).getD (t / fanout ^ n % fanout) null)

def nodes : Nat → α → List α
  | 0, _ => []
  | n + 1, a => if a = null then [] else a :: (kids a).flatMap (nodes n)

variable {null fanout kids}

theorem length_leaves (full : ∀ a, (kids a).length = fanout) (n : Nat) (a : α) :
    (leaves null fanout kids n a).length = fanout ^ n := by
  induction n generalizing a with
  | zero => rfl
  | succ n ih =>
    rw [leaves]
    split
    · exact length_replicate
    · rw [length_flatMap fun x _ => ih x, full, pow_succ, mul_comm]

theorem walk_null (t n : Nat) : walk null fanout kids t n null = null := by
  cases n with
  | zero => rfl
  | succ n => rw [walk, if_pos rfl]

theorem leaves_getElem (full : ∀ a, (kids a).length = fanout) (pos : 0 < fanout) (t n : Nat)
    (a : α) : (leaves null fanout kids n a)[t % fanout ^ n]? =
      some (walk null fanout kids t n a) := by
  induction n generalizing a with
  | zero =>
    rw [pow_zero, mod_one]
    rfl
  | succ n ih =>
    rw [leaves, walk]
    have smaller : t % fanout ^ (n + 1) < fanout ^ (n + 1) := Nat.mod_lt _ (Nat.pow_pos pos)
    split
    · rw [getElem?_replicate, if_pos smaller]
    · have child : t / fanout ^ n % fanout < (kids a).length := by
        rw [full]
        exact mod_lt _ pos
      rw [getElem_flatMap (Nat.pow_pos pos) _ fun x _ => length_leaves full n x,
        pow_succ, mod_mul_right_div_self, mod_mul_right_mod,
        getElem?_eq_getElem child, getD_eq_getElem _ _ child]
      exact ih _

theorem leaves_congr {kids' : α → List α} {n : Nat} {a : α}
    (same : ∀ x ∈ nodes null kids n a, kids' x = kids x) :
    leaves null fanout kids' n a = leaves null fanout kids n a := by
  induction n generalizing a with
  | zero => rfl
  | succ n ih =>
    rw [leaves, leaves]
    by_cases h : a = null
    · rw [if_pos h, if_pos h]
    rw [if_neg h, if_neg h]
    rw [nodes, if_neg h] at same
    rw [same a mem_cons_self]
    have below : (kids a).map (leaves null fanout kids' n) =
        (kids a).map (leaves null fanout kids n) :=
      map_congr_left fun x hx => ih fun y hy =>
        same y (mem_cons_of_mem _ (mem_flatMap.mpr ⟨x, hx, hy⟩))
    rw [flatMap_def, flatMap_def, below]

theorem take_filter {xs : List α} {k : Nat} (long : k ≤ xs.length)
    (live : null ∉ xs.take k) : (xs.filter (· ≠ null)).take k = xs.take k := by
  have kept : (xs.take k).filter (· ≠ null) = xs.take k :=
    filter_eq_self.mpr fun x hx => decide_eq_true fun eq => live (eq ▸ hx)
  calc (xs.filter (· ≠ null)).take k
      = ((xs.take k ++ xs.drop k).filter (· ≠ null)).take k := by rw [take_append_drop]
    _ = (xs.take k ++ (xs.drop k).filter (· ≠ null)).take k := by rw [filter_append, kept]
    _ = xs.take k := by
        rw [take_append_of_le_length (by rw [length_take]; omega), take_take, Nat.min_self]

end PointerTrees
