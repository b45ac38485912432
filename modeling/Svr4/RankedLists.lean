import Mathlib.Data.List.Pairwise
import Mathlib.Data.List.TakeWhile

/- Lists in descending order of a rank, with insertion behind and in front of the elements
   of the same rank. -/
namespace RankedLists
open List
variable {α : Type} (rank : α → Nat) {t : α}

def Sorted (xs : List α) : Prop := xs.Pairwise fun x y => rank y ≤ rank x

def insertBack (a : α) (xs : List α) : List α :=
  xs.takeWhile (fun x => rank a ≤ rank x) ++ a :: xs.dropWhile (fun x => rank a ≤ rank x)

def insertFront (a : α) (xs : List α) : List α :=
  xs.takeWhile (fun x => rank a < rank x) ++ a :: xs.dropWhile (fun x => rank a < rank x)

def ranked (r : Nat) (xs : List α) : List α := xs.filter fun x => rank x = r

variable {rank} {rank' : α → Nat} {a : α} {xs ys : List α} {r : Nat}

theorem Sorted.congr (sorted : Sorted rank xs) (same : ∀ x ∈ xs, rank' x = rank x) :
    Sorted rank' xs := by
  refine List.Pairwise.imp_of_mem ?_ sorted
  intro x y x_mem y_mem le
  rwa [same x x_mem, same y y_mem]

theorem Sorted.cut (sorted : Sorted rank xs) (p : Nat → Bool)
    (up : ∀ m n, m ≤ n → p m = true → p n = true) :
    (∀ x ∈ xs.takeWhile (fun x => p (rank x)), p (rank x) = true) ∧
      ∀ x ∈ xs.dropWhile (fun x => p (rank x)), p (rank x) = false := by
  induction xs with
  | nil => simp
  | cons x xs ih =>
    obtain ⟨above, rest⟩ := pairwise_cons.mp sorted
    cases passed : p (rank x) with
    | true =>
      rw [takeWhile_cons_of_pos (p := fun x => p (rank x)) passed,
        dropWhile_cons_of_pos (p := fun x => p (rank x)) passed]
      obtain ⟨front, back⟩ := ih rest
      refine ⟨?_, back⟩
      intro y mem
      rcases mem_cons.mp mem with rfl | mem
      · exact passed
      · exact front y mem
    | false =>
      have stop : ¬p (rank x) = true := by simp [passed]
      rw [takeWhile_cons_of_neg (p := fun x => p (rank x)) stop,
        dropWhile_cons_of_neg (p := fun x => p (rank x)) stop]
      refine ⟨fun y mem => absurd mem not_mem_nil, ?_⟩
      intro y mem
      rcases mem_cons.mp mem with rfl | mem
      · exact passed
      · by_contra pass
        exact stop (up _ _ (above y mem) (by simpa using pass))

theorem insert_between {p : α → Bool} (pass : ∀ x ∈ xs, p x = true) (stop : ∀ x ∈ ys, p x = false) :
    (xs ++ ys).takeWhile p ++ a :: (xs ++ ys).dropWhile p = xs ++ a :: ys := by
  rw [takeWhile_append_of_pos pass, dropWhile_append_of_pos pass]
  cases ys with
  | nil => simp
  | cons y ys =>
    have here := Bool.eq_false_iff.mp (stop y mem_cons_self)
    rw [takeWhile_cons_of_neg here, dropWhile_cons_of_neg here, append_nil]

/-- The place of `a` is between those that pass and the first that does not. -/
theorem insertBack_eq (front : ∀ x ∈ xs, rank a ≤ rank x) (back : ∀ x ∈ ys, rank x < rank a) :
    insertBack rank a (xs ++ ys) = xs ++ a :: ys :=
  insert_between (by simpa using front) (by simpa using back)

theorem insertFront_eq (front : ∀ x ∈ xs, rank a < rank x) (back : ∀ x ∈ ys, rank x ≤ rank a) :
    insertFront rank a (xs ++ ys) = xs ++ a :: ys :=
  insert_between (by simpa using front) (by simpa using back)

theorem insertBack_perm (a : α) (xs : List α) : (insertBack rank a xs).Perm (a :: xs) := by
  have split : xs.takeWhile (fun x => rank a ≤ rank x) ++ xs.dropWhile (fun x => rank a ≤ rank x) =
      xs := takeWhile_append_dropWhile
  exact perm_middle.trans (by rw [split])

theorem insertFront_perm (a : α) (xs : List α) : (insertFront rank a xs).Perm (a :: xs) := by
  have split : xs.takeWhile (fun x => rank a < rank x) ++ xs.dropWhile (fun x => rank a < rank x) =
      xs := takeWhile_append_dropWhile
  exact perm_middle.trans (by rw [split])

theorem sublist_insertBack (a : α) (xs : List α) : xs.Sublist (insertBack rank a xs) := by
  have split : xs.takeWhile (fun x => rank a ≤ rank x) ++ xs.dropWhile (fun x => rank a ≤ rank x) =
      xs := takeWhile_append_dropWhile
  have wider := (sublist_cons_self a (xs.dropWhile fun x => rank a ≤ rank x)).append_left
    (xs.takeWhile fun x => rank a ≤ rank x)
  rwa [split] at wider

theorem sublist_insertFront (a : α) (xs : List α) : xs.Sublist (insertFront rank a xs) := by
  have split : xs.takeWhile (fun x => rank a < rank x) ++ xs.dropWhile (fun x => rank a < rank x) =
      xs := takeWhile_append_dropWhile
  have wider := (sublist_cons_self a (xs.dropWhile fun x => rank a < rank x)).append_left
    (xs.takeWhile fun x => rank a < rank x)
  rwa [split] at wider

theorem Sorted.middle (sorted : Sorted rank (xs ++ ys)) (front : ∀ x ∈ xs, rank a ≤ rank x)
    (back : ∀ x ∈ ys, rank x ≤ rank a) : Sorted rank (xs ++ a :: ys) := by
  obtain ⟨first, last, across⟩ := pairwise_append.mp sorted
  refine pairwise_append.mpr ⟨first, pairwise_cons.mpr ⟨back, last⟩, ?_⟩
  intro x x_mem y y_mem
  rcases mem_cons.mp y_mem with rfl | y_mem
  · exact front x x_mem
  · exact across x x_mem y y_mem

theorem Sorted.place_back (sorted : Sorted rank xs) (r : Nat) : ∃ us vs, xs = us ++ vs ∧
    (∀ x ∈ us, r ≤ rank x) ∧ ∀ x ∈ vs, rank x < r := by
  obtain ⟨front, back⟩ := sorted.cut (fun n => decide (r ≤ n)) (by simp; omega)
  exact ⟨_, _, (takeWhile_append_dropWhile).symm, by simpa using front, by simpa using back⟩

theorem Sorted.place_front (sorted : Sorted rank xs) (r : Nat) : ∃ us vs, xs = us ++ vs ∧
    (∀ x ∈ us, r < rank x) ∧ ∀ x ∈ vs, rank x ≤ r := by
  obtain ⟨front, back⟩ := sorted.cut (fun n => decide (r < n)) (by simp; omega)
  exact ⟨_, _, (takeWhile_append_dropWhile).symm, by simpa using front, by simpa using back⟩

theorem ranked_none (others : ∀ x ∈ xs, rank x ≠ r) : ranked rank r xs = [] := by
  apply filter_eq_nil_iff.mpr
  intro x mem
  simpa using others x mem

theorem ranked_all (same : ∀ x ∈ xs, rank x = r) : ranked rank r xs = xs := by
  apply filter_eq_self.mpr
  intro x mem
  simpa using same x mem

section
variable (sorted : Sorted rank xs)
include sorted

theorem ranked_insertBack (r : Nat) : ranked rank r (insertBack rank a xs) =
    ranked rank r xs ++ if rank a = r then [a] else [] := by
  obtain ⟨us, vs, rfl, front, back⟩ := sorted.place_back (rank a)
  rw [insertBack_eq front back]
  by_cases here : rank a = r
  · subst here
    have none_behind : ranked rank (rank a) vs = [] := ranked_none fun x mem => (back x mem).ne
    unfold ranked at *
    rw [filter_append, filter_append, filter_cons_of_pos (by simp), none_behind,
      append_nil, if_pos rfl]
  · unfold ranked
    rw [filter_append, filter_append, filter_cons_of_neg (by simpa using here),
      if_neg here, append_nil]

theorem ranked_insertFront (r : Nat) :
    ranked rank r (insertFront rank a xs) = (if rank a = r then [a] else []) ++ ranked rank r xs := by
  obtain ⟨us, vs, rfl, front, back⟩ := sorted.place_front (rank a)
  rw [insertFront_eq front back]
  by_cases here : rank a = r
  · subst here
    have none_before : ranked rank (rank a) us = [] := ranked_none fun x mem => (front x mem).ne'
    unfold ranked at *
    rw [filter_append, filter_append, filter_cons_of_pos (by simp), none_before,
      nil_append, nil_append, if_pos rfl, singleton_append]
  · unfold ranked
    rw [filter_append, filter_append, filter_cons_of_neg (by simpa using here),
      if_neg here, nil_append]

theorem Sorted.ranked_block (r : Nat) :
    ∃ us vs, xs = us ++ ranked rank r xs ++ vs ∧ (∀ x ∈ us, r < rank x) ∧ ∀ x ∈ vs, rank x < r := by
  obtain ⟨us, rest, rfl, above, upto⟩ := sorted.place_front r
  obtain ⟨mid, vs, rfl, from_r, below⟩ := Sorted.place_back (pairwise_append.mp sorted).2.1 r
  refine ⟨us, vs, ?_, above, below⟩
  have mid_all : ranked rank r mid = mid := ranked_all fun x mem =>
    Nat.le_antisymm (upto x (mem_append_left _ mem)) (from_r x mem)
  have none_before : ranked rank r us = [] := ranked_none fun x mem => (above x mem).ne'
  have none_behind : ranked rank r vs = [] := ranked_none fun x mem => (below x mem).ne
  unfold ranked at *
  rw [filter_append, filter_append, mid_all, none_before, none_behind]
  simp

theorem Sorted.above_last (last : xs.getLast? = some t) {x : α} (mem : x ∈ xs) :
    rank t ≤ rank x := by
  obtain ⟨ws, rfl⟩ := List.getLast?_eq_some_iff.mp last
  rcases mem_append.mp mem with early | late
  · exact (pairwise_append.mp sorted).2.2 x early t (mem_singleton_self t)
  · rw [mem_singleton.mp late]

theorem Sorted.at_last_ranked (last : (ranked rank r xs).getLast? = some t) :
    ∃ us vs, xs = us ++ t :: vs ∧ (∀ x ∈ us ++ [t], r ≤ rank x) ∧ ∀ x ∈ vs, rank x < r := by
  obtain ⟨us, vs, split, above, below⟩ := sorted.ranked_block r
  obtain ⟨ws, block⟩ := List.getLast?_eq_some_iff.mp last
  refine ⟨us ++ ws, vs, ?_, ?_, below⟩
  · rw [split, block]
    simp
  · intro x mem
    rw [append_assoc, ← block] at mem
    rcases mem_append.mp mem with early | late
    · exact (above x early).le
    · have := (mem_filter.mp late).2
      exact (of_decide_eq_true this).ge

theorem Sorted.at_first_ranked (first : (ranked rank r xs).head? = some t) :
    ∃ us vs, xs = us ++ t :: vs ∧ (∀ x ∈ us, r < rank x) ∧ ∀ x ∈ t :: vs, rank x ≤ r := by
  obtain ⟨us, vs, split, above, below⟩ := sorted.ranked_block r
  obtain ⟨ws, block⟩ := List.head?_eq_some_iff.mp first
  refine ⟨us, ws ++ vs, ?_, above, ?_⟩
  · rw [split, block]
    simp
  · intro x mem
    rw [← cons_append, ← block] at mem
    rcases mem_append.mp mem with early | late
    · have := (mem_filter.mp early).2
      exact (of_decide_eq_true this).le
    · exact (below x late).le

end

end RankedLists
