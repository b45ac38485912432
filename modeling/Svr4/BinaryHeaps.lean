import Mathlib.Data.Multiset.Range

/- Binary heaps in an array, with a hole that rises or sinks until it can be filled. -/
namespace BinaryHeaps
open Function Multiset
variable {α β : Type}

def parent (i : Nat) : Nat := (i - 1) / 2

theorem parent_lt {i : Nat} (positive : 0 < i) : parent i < i := by
  unfold parent
  omega

section Order
variable [LinearOrder β] {key : α → β} {a : Nat → α} {n hole : Nat} {x : α}

def Heap (key : α → β) (a : Nat → α) (n : Nat) : Prop :=
  ∀ i, 0 < i → i < n → key (a (parent i)) ≤ key (a i)

theorem Heap.root_least (heap : Heap key a n) : ∀ i < n, key (a 0) ≤ key (a i) := by
  intro i
  induction i using Nat.strongRecOn with
  | ind i ih =>
    intro below
    rcases Nat.eq_zero_or_pos i with rfl | positive
    · exact le_refl _
    · have above := parent_lt positive
      exact le_trans (ih (parent i) above (by omega)) (heap i positive below)

theorem Heap.fewer {m : Nat} (heap : Heap key a n) (fewer : m ≤ n) : Heap key a m :=
  fun i positive below => heap i positive (by omega)

/-- Entries are in order but for those at the hole, whose children are not before its parent. -/
structure Holed (key : α → β) (a : Nat → α) (n hole : Nat) : Prop where
  apart : ∀ i, 0 < i → i < n → i ≠ hole → parent i ≠ hole → key (a (parent i)) ≤ key (a i)
  across : 0 < hole → ∀ i, 0 < i → i < n → parent i = hole →
    key (a (parent hole)) ≤ key (a i)

theorem Heap.holed (heap : Heap key a n) (hole : Nat) : Holed key a n hole where
  apart i positive below _ _ := heap i positive below
  across hole_positive i positive below child := by
    have hole_below : hole < n := by
      have := parent_lt positive
      omega
    have upper := heap hole hole_positive hole_below
    have lower := heap i positive below
    rw [child] at lower
    exact le_trans upper lower

theorem Holed.fill (holed : Holed key a n hole) (above : 0 < hole → key (a (parent hole)) ≤ key x)
    (below : ∀ i, 0 < i → i < n → parent i = hole → key x ≤ key (a i)) :
    Heap key (update a hole x) n := by
  intro i positive inside
  have strictly := parent_lt positive
  by_cases at_hole : i = hole
  · rw [at_hole] at positive strictly ⊢
    rw [update_self, update_of_ne (by omega)]
    exact above positive
  · rw [update_of_ne at_hole]
    by_cases child : parent i = hole
    · rw [child, update_self]
      exact below i positive inside child
    · rw [update_of_ne child]
      exact holed.apart i positive inside at_hole child

/-- The parent of the hole moves down into it. -/
theorem Holed.rise (holed : Holed key a n hole) (positive : 0 < hole) (inside : hole < n) :
    Holed key (update a hole (a (parent hole))) n (parent hole) where
  apart i i_positive i_inside other not_child := by
    by_cases at_hole : i = hole
    · exact absurd (congrArg parent at_hole) not_child
    · rw [update_of_ne at_hole]
      by_cases child : parent i = hole
      · rw [child, update_self]
        exact holed.across positive i i_positive i_inside child
      · rw [update_of_ne child]
        exact holed.apart i i_positive i_inside at_hole child
  across parent_positive i i_positive i_inside child := by
    have up := parent_lt positive
    have up_again := parent_lt parent_positive
    have upper := holed.apart (parent hole) parent_positive (by omega) (by omega) (by omega)
    rw [update_of_ne (show parent (parent hole) ≠ hole by omega)]
    by_cases at_hole : i = hole
    · rw [at_hole, update_self]
      exact upper
    · rw [update_of_ne at_hole]
      have lower := holed.apart i i_positive i_inside at_hole (by omega)
      rw [child] at lower
      exact le_trans upper lower

/-- A child of the hole that is not after the other one moves up into it. -/
theorem Holed.sink {child : Nat} (holed : Holed key a n hole) (positive : 0 < child)
    (inside : child < n) (is_child : parent child = hole)
    (least : ∀ i, 0 < i → i < n → parent i = hole → key (a child) ≤ key (a i)) :
    Holed key (update a hole (a child)) n child where
  apart i i_positive i_inside other not_child := by
    have strictly := parent_lt i_positive
    by_cases at_hole : i = hole
    · rw [at_hole] at strictly i_positive ⊢
      rw [update_self, update_of_ne (by omega)]
      exact holed.across i_positive child positive inside is_child
    · rw [update_of_ne at_hole]
      by_cases sibling : parent i = hole
      · rw [sibling, update_self]
        exact least i i_positive i_inside sibling
      · rw [update_of_ne sibling]
        exact holed.apart i i_positive i_inside at_hole sibling
  across _ i i_positive i_inside grandchild := by
    have strictly := parent_lt i_positive
    have down := parent_lt positive
    rw [is_child, update_self, update_of_ne (show i ≠ hole by omega)]
    have lower := holed.apart i i_positive i_inside (by omega) (by omega)
    rw [grandchild] at lower
    exact lower

end Order

section Contents
variable {a b : Nat → α} {n j k : Nat} {x : α}

/-- The first `n` entries, each as often as it occurs. -/
def contents (a : Nat → α) (n : Nat) : Multiset α := (range n).map a

theorem contents_succ (a : Nat → α) (n : Nat) : contents a (n + 1) = a n ::ₘ contents a n := by
  unfold contents
  rw [range_succ, map_cons]

theorem mem_contents {x : α} : x ∈ contents a n ↔ ∃ i < n, a i = x := by
  unfold contents
  simp only [mem_map, mem_range]

theorem contents_congr (same : ∀ i < n, a i = b i) : contents a n = contents b n :=
  map_congr rfl fun i mem => same i (mem_range.mp mem)

theorem contents_update (inside : j < n) :
    a j ::ₘ contents (update a j x) n = x ::ₘ contents a n := by
  induction n with
  | zero => exact absurd inside (Nat.not_lt_zero j)
  | succ n ih =>
    rw [contents_succ, contents_succ]
    rcases Nat.lt_succ_iff_lt_or_eq.mp inside with earlier | rfl
    · rw [update_of_ne (show n ≠ j by omega), cons_swap, ih earlier, cons_swap]
    · rw [update_self, contents_congr fun i below => update_of_ne (show i ≠ j by omega) x a,
        cons_swap]

theorem contents_move (first : j < n) (second : k < n) (differ : j ≠ k) :
    contents (update (update a j (a k)) k x) n = contents (update a j x) n := by
  have filled := contents_update (a := update a j (a k)) (x := x) second
  rw [update_of_ne differ.symm] at filled
  have moved := contents_update (a := a) (x := a k) first
  have there := contents_update (a := a) (x := x) first
  apply (cons_inj_right (a k)).mp
  apply (cons_inj_right (a j)).mp
  rw [filled, cons_swap, moved, cons_swap x, ← there, cons_swap (a k)]

end Contents

end BinaryHeaps
