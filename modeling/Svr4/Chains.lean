import Mathlib.Data.List.Nodup

/- Null-terminated chains through the `next` fields of cells that stay where they are.
   Several chains may share the fields, as long as no cell is on two of them. -/
namespace NextChains
open List Nat Function

/-- From `head` the fields lead through these cells to `tail`. -/
def Segment (next : Nat → Option Nat) : Option Nat → List Nat → Option Nat → Prop
  | head, [], tail => head = tail
  | head, a :: xs, tail => head = some a ∧ Segment next (next a) xs tail

def Path (next : Nat → Option Nat) (head : Option Nat) (xs : List Nat) : Prop :=
  Segment next head xs none

/-- `for (p = head; p != NULL; p = p->next) if (p->next == a) break;` in at most `fuel` rounds. -/
def before (next : Nat → Option Nat) (a : Nat) : Nat → Option Nat → Option Nat
  | fuel + 1, some p => if next p = some a then some p else before next a fuel (next p)
  | _, _ => none

/-- Take `a` off the chain at `head`, if it is on it. The field of `a` is left alone. -/
def unlink (next : Nat → Option Nat) (head : Option Nat) (a fuel : Nat) :
    (Nat → Option Nat) × Option Nat :=
  if head = some a then (next, next a)
  else
    match before next a fuel head with
    | some p => (update next p (next a), head)
    | none => (next, head)

/-- The cells from `p` on, `fuel` of them at most. -/
def collect (next : Nat → Option Nat) : Nat → Option Nat → List Nat
  | fuel + 1, some p => p :: collect next fuel (next p)
  | _, _ => []

/-- `while (p->next) p = p->next;` -/
def last (next : Nat → Option Nat) : Nat → Nat → Nat
  | fuel + 1, p =>
      match next p with
      | some q => last next fuel q
      | none => p
  | 0, p => p

variable {next next' : Nat → Option Nat} {head tail : Option Nat} {xs ys : List Nat}
  {a p fuel : Nat}

theorem segment_append : Segment next head (xs ++ ys) tail ↔
    ∃ middle, Segment next head xs middle ∧ Segment next middle ys tail := by
  induction xs generalizing head with
  | nil => simp [Segment]
  | cons x xs ih => simp [Segment, ih, and_assoc]

theorem Segment.congr (path : Segment next head xs tail) (same : ∀ x ∈ xs, next' x = next x) :
    Segment next' head xs tail := by
  induction xs generalizing head with
  | nil => exact path
  | cons x xs ih =>
    obtain ⟨here, rest⟩ := path
    refine ⟨here, ?_⟩
    rw [same x mem_cons_self]
    exact ih rest fun y mem => same y (mem_cons_of_mem _ mem)

theorem Segment.update (path : Segment next head xs tail) (off : a ∉ xs) (value : Option Nat) :
    Segment (update next a value) head xs tail := by
  apply path.congr
  intro x mem
  apply update_of_ne
  rintro rfl
  exact off mem

theorem path_nil : Path next none [] := rfl

theorem Path.unique (path : Path next head xs) (other : Path next head ys) : xs = ys := by
  induction xs generalizing head ys with
  | nil =>
    obtain rfl : head = none := path
    cases ys with
    | nil => rfl
    | cons y ys => exact nomatch other.1
  | cons x xs ih =>
    obtain ⟨rfl, rest⟩ := path
    cases ys with
    | nil => exact nomatch show some x = none from other
    | cons y ys =>
      obtain ⟨same, rest'⟩ := other
      cases same
      rw [ih rest rest']

theorem Path.collect_eq (path : Path next head xs) (enough : xs.length ≤ fuel) :
    collect next fuel head = xs := by
  induction xs generalizing head fuel with
  | nil =>
    obtain rfl : head = none := path
    cases fuel <;> rfl
  | cons x xs ih =>
    obtain ⟨rfl, rest⟩ := path
    obtain ⟨fuel, rfl⟩ := Nat.exists_eq_succ_of_ne_zero (Nat.ne_zero_of_lt enough)
    exact congrArg (x :: ·) (ih rest (le_of_succ_le_succ enough))

theorem Path.last_eq (path : Path next (some p) (xs ++ [a])) (enough : xs.length ≤ fuel) :
    last next fuel p = a := by
  induction xs generalizing p fuel with
  | nil =>
    obtain ⟨same, here⟩ := path
    obtain rfl := Option.some.inj same
    have ends : next p = none := here
    cases fuel with
    | zero => rfl
    | succ fuel => simp [last, ends]
  | cons x xs ih =>
    obtain ⟨same, rest⟩ := path
    obtain rfl := Option.some.inj same
    obtain ⟨fuel, rfl⟩ := Nat.exists_eq_succ_of_ne_zero (Nat.ne_zero_of_lt enough)
    obtain ⟨q, here⟩ : ∃ q, next p = some q := by
      cases xs with
      | nil => exact ⟨a, rest.1⟩
      | cons y xs => exact ⟨y, rest.1⟩
    rw [here] at rest
    simp only [last, here]
    exact ih rest (le_of_succ_le_succ enough)

/-- `a->next = head; head = a;` -/
theorem Path.push (path : Path next head xs) (off : a ∉ xs) :
    Path (update next a head) (some a) (a :: xs) := by
  refine ⟨rfl, ?_⟩
  rw [update_self]
  exact path.update off head

theorem Path.pop (path : Path next (some a) xs) : ∃ ys, xs = a :: ys ∧ Path next (next a) ys := by
  cases xs with
  | nil => exact nomatch show some a = none from path
  | cons x ys =>
    obtain ⟨same, rest⟩ := path
    cases same
    exact ⟨ys, rfl, rest⟩

theorem Path.before_eq (path : Path next head (xs ++ p :: a :: ys))
    (nodup : (xs ++ p :: a :: ys).Nodup) (enough : xs.length < fuel) :
    before next a fuel head = some p := by
  induction xs generalizing head fuel with
  | nil =>
    obtain ⟨rfl, here, -⟩ := path
    obtain ⟨fuel, rfl⟩ := Nat.exists_eq_add_one_of_ne_zero (Nat.ne_of_gt enough)
    exact if_pos here
  | cons x xs ih =>
    obtain ⟨rfl, rest⟩ := path
    obtain ⟨-, distinct⟩ := nodup_cons.mp nodup
    obtain ⟨fuel, rfl⟩ := Nat.exists_eq_succ_of_ne_zero (Nat.ne_zero_of_lt enough)
    -- `a` comes later, so the next cell is another one
    have other : next x ≠ some a := by
      intro here
      rw [here] at rest
      cases xs with
      | nil =>
        obtain ⟨same, -⟩ := rest
        cases same
        simp at distinct
      | cons y xs =>
        obtain ⟨same, -⟩ := rest
        cases same
        simp at distinct
    change (if next x = some a then some x else before next a fuel (next x)) = some p
    rw [if_neg other]
    exact ih rest distinct (lt_of_succ_lt_succ enough)

theorem Path.head_eq (path : Path next head xs) : head = xs.head? := by
  cases xs with
  | nil => exact path
  | cons x xs => exact path.1

theorem Path.next_eq (path : Path next head (xs ++ a :: ys)) : next a = ys.head? := by
  obtain ⟨middle, -, -, rest⟩ := segment_append.mp path
  exact Path.head_eq rest

/-- `p->next = a->next;` takes `a` off its chain, with `p` in front of it. -/
theorem Path.skip (path : Path next head (xs ++ p :: a :: ys)) (nodup : (xs ++ p :: a :: ys).Nodup) :
    Path (update next p (next a)) head (xs ++ p :: ys) := by
  obtain ⟨middle, first, rfl, here, rest⟩ := segment_append.mp path
  obtain ⟨-, distinct, apart⟩ := nodup_append.mp nodup
  have p_off : p ∉ xs := fun early => apart p early p mem_cons_self rfl
  have p_ys : p ∉ ys := fun late =>
    (nodup_cons.mp distinct).1 (mem_cons_of_mem _ late)
  refine segment_append.mpr ⟨some p, Segment.update first p_off _, rfl, ?_⟩
  rw [update_self]
  exact Segment.update rest p_ys _

/-- `last->next = a;` -/
theorem Path.concat (path : Path next head (xs ++ [p])) (nodup : (xs ++ [p]).Nodup)
    (off : a ∉ xs ++ [p]) (last : next a = none) :
    Path (update next p (some a)) head (xs ++ [p] ++ [a]) := by
  obtain ⟨middle, first, rfl, -⟩ := segment_append.mp path
  obtain ⟨-, -, apart⟩ := nodup_append.mp nodup
  have p_off : p ∉ xs := fun early => apart p early p (mem_singleton_self p) rfl
  have other : a ≠ p := by
    rintro rfl
    simp at off
  rw [append_assoc]
  refine segment_append.mpr ⟨some p, Segment.update first p_off _, rfl, ?_⟩
  rw [update_self]
  refine ⟨rfl, ?_⟩
  rw [update_of_ne other]
  exact last

theorem path_array {n : Nat} (pos : 0 < n) (links : ∀ i, i + 1 < n → next i = some (i + 1))
    (last : next (n - 1) = none) : Path next (some 0) (List.range n) := by
  have from_there : ∀ m i, i + m + 1 = n → Path next (some i) ((List.range (m + 1)).map (i + ·)) := by
    intro m
    induction m with
    | zero =>
      intro i there
      refine ⟨rfl, ?_⟩
      rw [← there, Nat.add_zero, Nat.add_sub_cancel] at last
      exact last
    | succ m ih =>
      intro i there
      have rest := ih (i + 1) (by omega)
      have shifted : (List.range (m + 1)).map ((i + ·) ∘ succ) =
          (List.range (m + 1)).map (i + 1 + ·) := by
        apply map_congr_left
        intro j _
        simp only [comp]
        omega
      rw [range_succ_eq_map, map_cons, map_map, shifted]
      refine ⟨rfl, ?_⟩
      change Segment next (next i) _ none
      rw [links i (by omega)]
      exact rest
  obtain ⟨m, rfl⟩ := Nat.exists_eq_add_one_of_ne_zero (Nat.ne_of_gt pos)
  have whole := from_there m 0 (by omega)
  simp only [Nat.zero_add, map_id'] at whole
  exact whole

/-- `unlink` takes a cell off its chain and writes to no cell outside it. -/
theorem Path.unlink_ok (path : Path next head xs) (nodup : xs.Nodup) (mem : a ∈ xs)
    (enough : xs.length ≤ fuel) : Path (unlink next head a fuel).1 (unlink next head a fuel).2
      (xs.erase a) ∧ ∀ x, x ∉ xs → (unlink next head a fuel).1 x = next x := by
  obtain ⟨us, vs, rfl⟩ := append_of_mem mem
  have off : a ∉ us := fun early =>
    (nodup_append.mp nodup).2.2 a early a mem_cons_self rfl
  rw [erase_append_right _ off, erase_cons_head]
  rcases eq_nil_or_concat us with rfl | ⟨us, p, rfl⟩
  · obtain ⟨rfl, rest⟩ := path
    unfold unlink
    rw [if_pos rfl]
    exact ⟨rest, fun _ _ => rfl⟩
  rw [concat_eq_append, append_assoc, singleton_append] at *
  have other : head ≠ some a := by
    rintro rfl
    obtain ⟨zs, eq, -⟩ := path.pop
    cases us with
    | nil => simp_all
    | cons u us => simp_all
  have long : us.length < fuel := by
    rw [length_append, length_cons] at enough
    omega
  unfold unlink
  rw [if_neg other, path.before_eq nodup long, append_assoc, singleton_append]
  refine ⟨path.skip nodup, ?_⟩
  intro x outside
  apply update_of_ne
  rintro rfl
  simp at outside

end NextChains
