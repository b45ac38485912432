import Mathlib.Data.List.Nodup

/- A list whose cells point to both neighbours, with pointers to its first and its last cell.
   Cells that are not on the list may hold anything. -/
namespace DoublyLinked
open Function List Option

structure DList (α : Type) where
  next : α → Option α
  prev : α → Option α
  first : Option α
  last : Option α

namespace DList
variable {α : Type} {test : α → Bool}

def Between (next prev : α → Option α) : Option α → List α → Option α → Prop
  | _, [], _ => True
  | left, a :: xs, right =>
      prev a = left ∧ next a = xs.head?.or right ∧ Between next prev (some a) xs right

/-- `next` leads through the cells and ends behind them. -/
def Forward (next : α → Option α) : List α → Prop
  | [] => True
  | a :: xs => next a = xs.head? ∧ Forward next xs

/-- These are the cells of the list, in this order. -/
structure Holds (d : DList α) (xs : List α) : Prop where
  nodup : xs.Nodup
  first : d.first = xs.head?
  last : d.last = xs.getLast?
  linked : Between d.next d.prev none xs none

def walk (next : α → Option α) : Nat → Option α → List α
  | fuel + 1, some a => a :: walk next fuel (next a)
  | _, _ => []

/-- `while (test(p)) p = p->next;` -/
def skipWhile (next : α → Option α) (test : α → Bool) : Nat → Option α → Option α
  | fuel + 1, some p => if test p then skipWhile next test fuel (next p) else some p
  | _, _ => none

section operations
variable [DecidableEq α] (d : DList α) (a b : α)

def insertBefore : DList α :=
  { d with
    next := match d.prev b with
      | some p => update (update d.next a (some b)) p (some a)
      | none => update d.next a (some b)
    prev := update (update d.prev a (d.prev b)) b (some a)
    first := match d.prev b with
      | some _ => d.first
      | none => some a }

def insertAfter : DList α :=
  { d with
    next := update (update d.next a (d.next b)) b (some a)
    prev := match d.next b with
      | some n => update (update d.prev n (some a)) a (some b)
      | none => update d.prev a (some b)
    last := match d.next b with
      | some _ => d.last
      | none => some a }

/-- Put `a` behind `b`, which is the last cell. -/
def tackOn : DList α :=
  { d with
    next := update (update d.next a none) b (some a)
    prev := update d.prev a (some b)
    last := some a }

def pushFront : DList α :=
  { next := update d.next a d.first
    prev := match d.first with
      | some f => update (update d.prev f (some a)) a none
      | none => update d.prev a none
    first := some a
    last := match d.first with
      | some _ => d.last
      | none => some a }

def single : DList α :=
  { next := update d.next a none
    prev := update d.prev a none
    first := some a
    last := some a }

def remove : DList α :=
  { next := match d.prev a with
      | some p => update (update d.next p (d.next a)) a none
      | none => update d.next a none
    prev := match d.next a with
      | some n => update (update d.prev n (d.prev a)) a none
      | none => update d.prev a none
    first := match d.prev a with
      | some _ => d.first
      | none => d.next a
    last := match d.next a with
      | some _ => d.last
      | none => d.prev a }

def pop : DList α :=
  { next := update d.next a none
    prev := match d.next a with
      | some n => update (update d.prev n none) a none
      | none => update d.prev a none
    first := d.next a
    last := match d.next a with
      | some _ => d.last
      | none => none }

end operations

variable {next next' prev prev' : α → Option α} {left right left' right' : Option α} {xs ys : List α}
  {d : DList α} {a b p : α} {fuel : Nat}

theorem between_append : Between next prev left (xs ++ ys) right ↔
    Between next prev left xs (ys.head?.or right) ∧
      Between next prev (xs.getLast?.or left) ys right := by
  induction xs generalizing left with
  | nil => simp [Between]
  | cons x xs ih =>
    have front : (xs ++ ys).head?.or right = xs.head?.or (ys.head?.or right) := by
      rw [head?_append, Option.or_assoc]
    have back : (x :: xs).getLast?.or left = xs.getLast?.or (some x) := by
      rw [getLast?_cons]
      cases xs.getLast? <;> rfl
    simp only [cons_append, Between, ih, front, back, and_assoc]

theorem Between.congr (linked : Between next prev left xs right)
    (same : ∀ x ∈ xs, next' x = next x ∧ prev' x = prev x) : Between next' prev' left xs right := by
  induction xs generalizing left with
  | nil => trivial
  | cons x xs ih =>
    obtain ⟨behind, ahead, rest⟩ := linked
    obtain ⟨same_next, same_prev⟩ := same x mem_cons_self
    refine ⟨same_prev.trans behind, same_next.trans ahead, ?_⟩
    exact ih rest fun y mem => same y (mem_cons_of_mem _ mem)

theorem Between.forward (linked : Between next prev left xs none) : Forward next xs := by
  induction xs generalizing left with
  | nil => trivial
  | cons x xs ih =>
    obtain ⟨-, ahead, rest⟩ := linked
    rw [or_none] at ahead
    exact ⟨ahead, ih rest⟩

theorem Forward.congr (forward : Forward next xs) (same : ∀ x ∈ xs, next' x = next x) :
    Forward next' xs := by
  induction xs with
  | nil => trivial
  | cons x xs ih =>
    exact ⟨(same x mem_cons_self).trans forward.1,
      ih forward.2 fun y mem => same y (mem_cons_of_mem _ mem)⟩

theorem Forward.walk_eq (forward : Forward next xs) (enough : xs.length ≤ fuel) :
    walk next fuel xs.head? = xs := by
  induction xs generalizing fuel with
  | nil => cases fuel <;> rfl
  | cons x xs ih =>
    obtain ⟨fuel, rfl⟩ := Nat.exists_eq_succ_of_ne_zero (Nat.ne_zero_of_lt enough)
    change x :: walk next fuel (next x) = x :: xs
    rw [forward.1, ih forward.2 (Nat.le_of_succ_le_succ enough)]

/-- The loop stops at the first cell that fails the test. -/
theorem Forward.skipWhile_eq (forward : Forward next (xs ++ b :: ys))
    (pass : ∀ x ∈ xs, test x = true) (stop : test b = false) (enough : xs.length < fuel) :
    skipWhile next test fuel (xs ++ b :: ys).head? = some b := by
  induction xs generalizing fuel with
  | nil =>
    obtain ⟨fuel, rfl⟩ := Nat.exists_eq_add_one_of_ne_zero (Nat.ne_of_gt enough)
    change (if test b then _ else some b) = some b
    rw [stop]
    rfl
  | cons x xs ih =>
    obtain ⟨fuel, rfl⟩ := Nat.exists_eq_succ_of_ne_zero (Nat.ne_zero_of_lt enough)
    change (if test x then skipWhile next test fuel (next x) else some x) = some b
    rw [if_pos (pass x mem_cons_self), forward.1]
    exact ih forward.2 (fun y mem => pass y (mem_cons_of_mem _ mem)) (Nat.lt_of_succ_lt_succ enough)

theorem Forward.skipWhile_none (forward : Forward next xs) (pass : ∀ x ∈ xs, test x = true) :
    skipWhile next test fuel xs.head? = none := by
  induction xs generalizing fuel with
  | nil => cases fuel <;> rfl
  | cons x xs ih =>
    cases fuel with
    | zero => rfl
    | succ fuel =>
      change (if test x then skipWhile next test fuel (next x) else some x) = none
      rw [if_pos (pass x mem_cons_self), forward.1]
      exact ih forward.2 fun y mem => pass y (mem_cons_of_mem _ mem)

theorem Holds.forward (holds : Holds d xs) : Forward d.next xs := holds.linked.forward

theorem Holds.next_eq (holds : Holds d (xs ++ a :: ys)) : d.next a = ys.head? := by
  obtain ⟨-, -, ahead, -⟩ := between_append.mp holds.linked
  rw [or_none] at ahead
  exact ahead

theorem Holds.prev_eq (holds : Holds d (xs ++ a :: ys)) : d.prev a = xs.getLast? := by
  obtain ⟨-, behind, -⟩ := between_append.mp holds.linked
  rw [or_none] at behind
  exact behind

theorem Holds.congr {d' : DList α} (holds : Holds d xs) (first : d'.first = d.first)
    (last : d'.last = d.last) (same : ∀ x ∈ xs, d'.next x = d.next x ∧ d'.prev x = d.prev x) :
    Holds d' xs :=
  ⟨holds.nodup, first.trans holds.first, last.trans holds.last, holds.linked.congr same⟩

theorem holds_nil (first : d.first = none) (last : d.last = none) : Holds d [] :=
  ⟨nodup_nil, first, last, trivial⟩

section relinking
variable [DecidableEq α]

theorem Between.relink_right (linked : Between next prev left xs right) (nodup : xs.Nodup)
    (behind : ∀ x ∈ xs, prev' x = prev x)
    (ahead : ∀ x ∈ xs, next' x = if xs.getLast? = some x then right' else next x) :
    Between next' prev' left xs right' := by
  induction xs generalizing left with
  | nil => trivial
  | cons x xs ih =>
    obtain ⟨before, after, rest⟩ := linked
    obtain ⟨off, distinct⟩ := nodup_cons.mp nodup
    refine ⟨(behind x mem_cons_self).trans before, ?_, ?_⟩
    · rw [ahead x mem_cons_self, after]
      cases xs with
      | nil => exact if_pos rfl
      | cons y ys =>
        refine if_neg fun same => off ?_
        exact mem_of_getLast? same
    · refine ih rest distinct (fun y mem => behind y (mem_cons_of_mem _ mem)) ?_
      intro y mem
      rw [ahead y (mem_cons_of_mem _ mem)]
      cases xs with
      | nil => exact absurd mem not_mem_nil
      | cons z zs => rw [getLast?_cons_cons]

theorem Between.relink_left (linked : Between next prev left xs right) (nodup : xs.Nodup)
    (ahead : ∀ x ∈ xs, next' x = next x)
    (behind : ∀ x ∈ xs, prev' x = if xs.head? = some x then left' else prev x) :
    Between next' prev' left' xs right := by
  cases xs with
  | nil => trivial
  | cons x xs =>
    obtain ⟨-, after, rest⟩ := linked
    obtain ⟨off, -⟩ := nodup_cons.mp nodup
    refine ⟨(behind x mem_cons_self).trans (if_pos rfl),
      (ahead x mem_cons_self).trans after, rest.congr ?_⟩
    intro y mem
    have other : ¬some x = some y := by
      rintro ⟨⟩
      exact off mem
    exact ⟨ahead y (mem_cons_of_mem _ mem), (behind y (mem_cons_of_mem _ mem)).trans (if_neg other)⟩

end relinking

section operations
variable [DecidableEq α] (d : DList α) (a b x : α)

theorem insertBefore_next : (d.insertBefore a b).next x =
    if d.prev b = some x then some a else if x = a then some b else d.next x := by
  unfold insertBefore
  cases d.prev b <;> simp [update_apply, eq_comm]

theorem insertBefore_prev : (d.insertBefore a b).prev x =
    if x = b then some a else if x = a then d.prev b else d.prev x := by
  simp [insertBefore, update_apply]

theorem insertAfter_next : (d.insertAfter a b).next x =
    if x = b then some a else if x = a then d.next b else d.next x := by
  simp [insertAfter, update_apply]

theorem insertAfter_prev : (d.insertAfter a b).prev x =
    if x = a then some b else if d.next b = some x then some a else d.prev x := by
  unfold insertAfter
  cases d.next b <;> simp [update_apply, eq_comm]

theorem pushFront_next : (d.pushFront a).next x = if x = a then d.first else d.next x := by
  simp [pushFront, update_apply]

theorem pushFront_prev : (d.pushFront a).prev x =
    if x = a then none else if d.first = some x then some a else d.prev x := by
  unfold pushFront
  cases d.first <;> simp [update_apply, eq_comm]

theorem remove_next : (d.remove a).next x =
    if x = a then none else if d.prev a = some x then d.next a else d.next x := by
  unfold remove
  cases d.prev a <;> simp [update_apply, eq_comm]

theorem remove_prev : (d.remove a).prev x =
    if x = a then none else if d.next a = some x then d.prev a else d.prev x := by
  unfold remove
  cases d.next a <;> simp [update_apply, eq_comm]

variable {d a b x}

theorem tackOn_eq (end_here : d.next b = none) : d.tackOn a b = d.insertAfter a b := by
  unfold tackOn insertAfter
  rw [end_here]

theorem single_eq (empty : d.first = none) : d.single a = d.pushFront a := by
  unfold single pushFront
  rw [empty]

theorem pop_eq (first_here : d.prev a = none) : d.pop a = d.remove a := by
  unfold pop remove
  rw [first_here]

theorem Holds.insertBefore_ok (holds : Holds d (xs ++ b :: ys)) (off : a ∉ xs ++ b :: ys) :
    Holds (d.insertBefore a b) (xs ++ a :: b :: ys) := by
  obtain ⟨front_nodup, back_nodup, apart⟩ := nodup_append.mp holds.nodup
  obtain ⟨front, back⟩ := between_append.mp holds.linked
  have before := holds.prev_eq
  have off_xs : ∀ y ∈ xs, y ≠ a := fun y mem same => off (same ▸ mem_append_left _ mem)
  have off_back : ∀ y ∈ b :: ys, y ≠ a := fun y mem same =>
    off (same ▸ mem_append_right _ mem)
  have not_last : ¬xs.getLast? = some a := fun same => off_xs a (mem_of_getLast? same) rfl
  refine ⟨?_, ?_, ?_, ?_⟩
  · rw [nodup_middle]
    exact nodup_cons.mpr ⟨off, holds.nodup⟩
  · unfold insertBefore
    rw [before, holds.first]
    cases xs with
    | nil => rfl
    | cons x xs => rw [getLast?_cons]; rfl
  · refine holds.last.trans ?_
    simp
  · refine between_append.mpr ⟨?_, ?_, ?_, ?_⟩
    · refine front.relink_right front_nodup ?_ ?_
      · intro y mem
        rw [insertBefore_prev, if_neg (apart y mem b mem_cons_self), if_neg (off_xs y mem)]
      · intro y mem
        rw [insertBefore_next, before, if_neg (off_xs y mem)]
        rfl
    · rw [insertBefore_prev, if_neg (Ne.symm (off_back b mem_cons_self)), if_pos rfl, before,
        or_none]
    · rw [insertBefore_next, before, if_neg not_last, if_pos rfl]
      rfl
    · refine back.relink_left back_nodup ?_ ?_
      · intro y mem
        have other : ¬xs.getLast? = some y := fun same =>
          apart y (mem_of_getLast? same) y mem rfl
        rw [insertBefore_next, before, if_neg other, if_neg (off_back y mem)]
      · intro y mem
        rw [insertBefore_prev, if_neg (off_back y mem)]
        simp [eq_comm]

theorem Holds.insertAfter_ok (holds : Holds d (xs ++ b :: ys)) (off : a ∉ xs ++ b :: ys) :
    Holds (d.insertAfter a b) (xs ++ b :: a :: ys) := by
  have split : xs ++ b :: ys = (xs ++ [b]) ++ ys := by simp
  have after := holds.next_eq
  rw [split] at holds off
  obtain ⟨front_nodup, back_nodup, apart⟩ := nodup_append.mp holds.nodup
  obtain ⟨front, back⟩ := between_append.mp holds.linked
  have off_front : ∀ y ∈ xs ++ [b], y ≠ a := fun y mem same =>
    off (same ▸ mem_append_left _ mem)
  have off_ys : ∀ y ∈ ys, y ≠ a := fun y mem same => off (same ▸ mem_append_right _ mem)
  have b_mem : b ∈ xs ++ [b] := mem_append_right _ (mem_singleton_self b)
  have target : xs ++ b :: a :: ys = (xs ++ [b]) ++ a :: ys := by simp
  rw [target]
  refine ⟨?_, ?_, ?_, ?_⟩
  · rw [nodup_middle]
    exact nodup_cons.mpr ⟨off, holds.nodup⟩
  · refine holds.first.trans ?_
    simp
  · unfold insertAfter
    rw [after, holds.last]
    cases ys with
    | nil => simp
    | cons y ys => simp
  · refine between_append.mpr ⟨?_, ?_, ?_, ?_⟩
    · refine front.relink_right front_nodup ?_ ?_
      · intro y mem
        have other : ¬ys.head? = some y := fun same =>
          apart y mem y (mem_of_head? same) rfl
        rw [insertAfter_prev, if_neg (off_front y mem), after, if_neg other]
      · intro y mem
        rw [insertAfter_next, if_neg (off_front y mem)]
        simp [eq_comm]
    · rw [insertAfter_prev, if_pos rfl]
      simp
    · rw [insertAfter_next, if_neg (Ne.symm (off_front b b_mem)), if_pos rfl, after, or_none]
    · refine back.relink_left back_nodup ?_ ?_
      · intro y mem
        rw [insertAfter_next, if_neg (Ne.symm (apart b b_mem y mem)), if_neg (off_ys y mem)]
      · intro y mem
        rw [insertAfter_prev, if_neg (off_ys y mem), after]

theorem Holds.tackOn_ok (holds : Holds d xs) (end_here : xs.getLast? = some b) (off : a ∉ xs) :
    Holds (d.tackOn a b) (xs ++ [a]) := by
  obtain ⟨ws, rfl⟩ := getLast?_eq_some_iff.mp end_here
  rw [tackOn_eq (holds.next_eq)]
  have behind := holds.insertAfter_ok off
  rwa [append_cons] at behind

theorem Holds.pushFront_ok (holds : Holds d xs) (off : a ∉ xs) :
    Holds (d.pushFront a) (a :: xs) := by
  have off_xs : ∀ y ∈ xs, y ≠ a := fun y mem same => off (same ▸ mem)
  refine ⟨nodup_cons.mpr ⟨off, holds.nodup⟩, rfl, ?_, ?_, ?_, ?_⟩
  · unfold pushFront
    rw [holds.first, holds.last]
    cases xs with
    | nil => rfl
    | cons x xs => rw [getLast?_cons_cons]; rfl
  · rw [pushFront_prev, if_pos rfl]
  · rw [pushFront_next, if_pos rfl, holds.first, or_none]
  · refine holds.linked.relink_left holds.nodup ?_ ?_
    · intro y mem
      rw [pushFront_next, if_neg (off_xs y mem)]
    · intro y mem
      rw [pushFront_prev, if_neg (off_xs y mem), holds.first]

theorem Holds.single_ok (holds : Holds d []) : Holds (d.single a) [a] := by
  rw [single_eq holds.first]
  exact holds.pushFront_ok not_mem_nil

theorem Holds.remove_ok (holds : Holds d (xs ++ a :: ys)) : Holds (d.remove a) (xs ++ ys) := by
  obtain ⟨front_nodup, back_nodup, apart⟩ := nodup_append.mp holds.nodup
  obtain ⟨off_ys, rest_nodup⟩ := nodup_cons.mp back_nodup
  obtain ⟨front, -, -, back⟩ := between_append.mp holds.linked
  have before := holds.prev_eq
  have after := holds.next_eq
  have front_a : ∀ y ∈ xs, y ≠ a := fun y mem => apart y mem a mem_cons_self
  have back_a : ∀ y ∈ ys, y ≠ a := fun y mem same => off_ys (same ▸ mem)
  refine ⟨(nodup_middle.mp holds.nodup).of_cons, ?_, ?_, ?_⟩
  · unfold remove
    rw [before, holds.first, after]
    cases xs with
    | nil => rfl
    | cons x xs => rw [getLast?_cons]; rfl
  · unfold remove
    rw [before, holds.last, after]
    cases ys with
    | nil => simp
    | cons y ys => simp
  · refine between_append.mpr ⟨?_, ?_⟩
    · refine front.relink_right front_nodup ?_ ?_
      · intro y mem
        have other : ¬ys.head? = some y := fun same =>
          apart y mem y (mem_cons_of_mem _ (mem_of_head? same)) rfl
        rw [remove_prev, if_neg (front_a y mem), after, if_neg other]
      · intro y mem
        rw [remove_next, if_neg (front_a y mem), before, after, or_none]
    · refine back.relink_left rest_nodup ?_ ?_
      · intro y mem
        have other : ¬xs.getLast? = some y := fun same =>
          apart y (mem_of_getLast? same) y (mem_cons_of_mem _ mem) rfl
        rw [remove_next, if_neg (back_a y mem), before, if_neg other]
      · intro y mem
        rw [remove_prev, if_neg (back_a y mem), before, after, or_none]

/-- The insertions write to no `next` outside the list. -/
theorem Holds.insertBefore_frame (holds : Holds d (xs ++ b :: ys)) (outside : x ∉ xs ++ b :: ys)
    (other : x ≠ a) : (d.insertBefore a b).next x = d.next x := by
  have not_before : ¬d.prev b = some x := by
    rw [holds.prev_eq]
    exact fun last => outside (mem_append_left _ (mem_of_getLast? last))
  rw [insertBefore_next, if_neg not_before, if_neg other]

theorem insertAfter_frame (outside : x ∉ xs ++ b :: ys)
    (other : x ≠ a) : (d.insertAfter a b).next x = d.next x := by
  have not_b : x ≠ b := fun same => outside (same ▸ mem_append_right _ mem_cons_self)
  rw [insertAfter_next, if_neg not_b, if_neg other]

theorem Holds.tackOn_frame (holds : Holds d xs) (end_here : xs.getLast? = some b)
    (outside : x ∉ xs) (other : x ≠ a) : (d.tackOn a b).next x = d.next x := by
  obtain ⟨ws, rfl⟩ := getLast?_eq_some_iff.mp end_here
  rw [tackOn_eq holds.next_eq]
  exact insertAfter_frame outside other

end operations

end DList
end DoublyLinked
