import Mathlib.Algebra.Order.Floor.Div
import Mathlib.Tactic.Ring

/- host_tools/fs/ufs.py: the sizes of the allocations that a file of some size has, block by
   block, and how they are brought up to date when the file has grown. -/
namespace UfsSizes
open List

def UFS_NDADDR : Nat := 12

/-- What the sizes depend on: fragments that divide the blocks. -/
structure Fs where
  bsize : Nat
  fsize : Nat
  bsize_pos : 0 < bsize
  fsize_dvd : fsize ∣ bsize

variable (fs : Fs) {k r : Nat}

def ufs_fragroundup (size : Nat) : Nat :=
  if size = 0 then 0 else (size + fs.fsize - 1) / fs.fsize * fs.fsize

def needed_blocks (size : Nat) : Nat := (size + fs.bsize - 1) / fs.bsize

def allocation (needed logical_bytes : Nat) : Nat :=
  if logical_bytes = fs.bsize ∨ UFS_NDADDR < needed then fs.bsize
  else ufs_fragroundup fs logical_bytes

def whole_loop (needed remaining : Nat) : List Nat :=
  if 0 < remaining then
    allocation fs needed (min fs.bsize remaining) :: whole_loop needed (remaining - fs.bsize)
  else []
termination_by remaining
decreasing_by
  have := fs.bsize_pos
  omega

def ufs_allocation_byte_sizes (size : Nat) : List Nat :=
  if size = 0 then [] else whole_loop fs (needed_blocks fs size) size

/-- `for block_index in range(old_needed_blocks, new_needed_blocks)` -/
def range_loop (needed : Nat) : Nat → Nat → List Nat
  | 0, _ => []
  | rounds + 1, remaining =>
      allocation fs needed (min fs.bsize remaining) ::
        range_loop needed rounds (remaining - fs.bsize)

def extend_ufs_allocation_byte_sizes (current_allocations : List Nat) (old_size new_size : Nat) :
    List Nat :=
  if new_size ≤ old_size then ufs_allocation_byte_sizes fs new_size
  else
    let old_needed := if old_size = 0 then 0 else needed_blocks fs old_size
    let new_needed := needed_blocks fs new_size
    if current_allocations.length ≠ old_needed then ufs_allocation_byte_sizes fs new_size
    else if old_needed ≤ UFS_NDADDR ∧ UFS_NDADDR < new_needed then
      ufs_allocation_byte_sizes fs new_size
    else if new_needed = old_needed then
      let requested_allocations := ufs_allocation_byte_sizes fs new_size
      if requested_allocations = current_allocations then current_allocations
      else requested_allocations
    else
      current_allocations ++
        range_loop fs new_needed (new_needed - old_needed) (new_size - old_needed * fs.bsize)

def grow : List Nat → Nat → List Nat → List (List Nat)
  | _, _, [] => []
  | current, old_size, new_size :: sizes =>
      let extended := extend_ufs_allocation_byte_sizes fs current old_size new_size
      extended :: grow extended new_size sizes

/-- The last allocation of the old size is right in the new one: it is in the last block still, or
filled up, or all blocks are whole now. -/
def Settled (old_size new_size : Nat) : Prop :=
  needed_blocks fs old_size = needed_blocks fs new_size ∨
    UFS_NDADDR < needed_blocks fs new_size ∨ fs.bsize ∣ ufs_fragroundup fs old_size

variable {fs} {needed rounds remaining size old_size new_size : Nat}

theorem fsize_pos (fs : Fs) : 0 < fs.fsize := Nat.pos_of_dvd_of_pos fs.fsize_dvd fs.bsize_pos

theorem needed_zero : needed_blocks fs 0 = 0 := by
  apply Nat.div_eq_of_lt
  have := fs.bsize_pos
  omega

theorem needed_spec (fs : Fs) (some : 0 < size) :
    ∃ k, needed_blocks fs size = k + 1 ∧ k * fs.bsize < size ∧ size ≤ (k + 1) * fs.bsize := by
  have bsize := fs.bsize_pos
  have low := Nat.div_mul_le_self (size + fs.bsize - 1) fs.bsize
  have high := Nat.lt_div_mul_add bsize (a := size + fs.bsize - 1)
  have first : 1 ≤ needed_blocks fs size := (Nat.one_le_div_iff bsize).mpr (by omega)
  obtain ⟨k, count⟩ := Nat.exists_eq_add_of_le' first
  have count' : (size + fs.bsize - 1) / fs.bsize = k + 1 := count
  rw [count', add_mul, one_mul] at low high
  refine ⟨k, count, by omega, ?_⟩
  rw [add_mul, one_mul]
  omega

theorem needed_of_bounds (low : k * fs.bsize < size) (high : size ≤ (k + 1) * fs.bsize) :
    needed_blocks fs size = k + 1 := by
  rw [add_mul, one_mul] at high
  apply Nat.div_eq_of_lt_le
  · rw [Nat.add_mul, Nat.one_mul]
    omega
  · rw [Nat.succ_mul, Nat.add_mul, Nat.one_mul]
    omega

theorem whole_loop_eq (needed remaining : Nat) : whole_loop fs needed remaining =
      range_loop fs needed (needed_blocks fs remaining) remaining := by
  induction remaining using Nat.strong_induction_on with
  | _ remaining ih =>
    rw [whole_loop]
    have bsize := fs.bsize_pos
    split
    · next some =>
      obtain ⟨k, count, low, high⟩ := needed_spec fs some
      rw [count, range_loop, ih _ (by omega)]
      congr 2
      rcases eq_zero_or_pos k with rfl | more
      · rw [Nat.sub_eq_zero_of_le (by omega), needed_zero]
      · obtain ⟨k, rfl⟩ := Nat.exists_eq_add_one_of_ne_zero (Nat.ne_of_gt more)
        rw [add_mul, one_mul] at low high
        exact needed_of_bounds (by omega) (by omega)
    · obtain rfl : remaining = 0 := by omega
      rw [needed_zero, range_loop]

theorem range_loop_eq (low : rounds * fs.bsize < remaining)
    (high : remaining ≤ (rounds + 1) * fs.bsize) :
    range_loop fs needed (rounds + 1) remaining =
      List.replicate rounds fs.bsize ++ [allocation fs needed (remaining - rounds * fs.bsize)] := by
  induction rounds generalizing remaining with
  | zero =>
    rw [range_loop, range_loop, min_eq_right (by omega)]
    simp
  | succ rounds ih =>
    rw [add_mul, one_mul] at low high
    have whole : allocation fs needed fs.bsize = fs.bsize := if_pos (.inl rfl)
    rw [range_loop, ih (by omega) (by omega), min_eq_left (by omega), whole,
      replicate_succ, cons_append, add_mul, one_mul,
      Nat.sub_sub, Nat.add_comm fs.bsize]

theorem sizes_eq (count : needed_blocks fs size = k + 1) (low : k * fs.bsize < size)
    (high : size ≤ (k + 1) * fs.bsize) :
    ufs_allocation_byte_sizes fs size =
      List.replicate k fs.bsize ++ [allocation fs (k + 1) (size - k * fs.bsize)] := by
  rw [ufs_allocation_byte_sizes, if_neg (by omega), whole_loop_eq, count]
  exact range_loop_eq low high

theorem sizes_length : (ufs_allocation_byte_sizes fs size).length = needed_blocks fs size := by
  rcases eq_zero_or_pos size with rfl | some
  · rw [needed_zero]
    rfl
  · obtain ⟨k, count, low, high⟩ := needed_spec fs some
    rw [sizes_eq count low high, count]
    simp

theorem fragroundup_whole : ufs_fragroundup fs fs.bsize = fs.bsize := by
  obtain ⟨frag, whole⟩ := fs.fsize_dvd
  have fsize := fsize_pos fs
  have bsize := fs.bsize_pos
  rw [ufs_fragroundup, if_neg (by omega), whole]
  rw [show fs.fsize * frag + fs.fsize - 1 = fs.fsize - 1 + fs.fsize * frag by omega,
    Nat.add_mul_div_left _ _ fsize, Nat.div_eq_of_lt (by omega), Nat.zero_add, Nat.mul_comm]

theorem fragroundup_add (k : Nat) (some : 0 < r) :
    ufs_fragroundup fs (k * fs.bsize + r) = k * fs.bsize + ufs_fragroundup fs r := by
  obtain ⟨frag, whole⟩ := fs.fsize_dvd
  have fsize := fsize_pos fs
  rw [ufs_fragroundup, ufs_fragroundup, if_neg (by omega), if_neg (by omega), whole]
  rw [show k * (fs.fsize * frag) + r + fs.fsize - 1 =
      r + fs.fsize - 1 + fs.fsize * (k * frag) by rw [mul_left_comm k]; omega,
    Nat.add_mul_div_left _ _ fsize]
  ring

theorem fragroundup_bounds (fs : Fs) (some : 0 < r) (within : r ≤ fs.bsize) :
    0 < ufs_fragroundup fs r ∧ ufs_fragroundup fs r ≤ fs.bsize := by
  obtain ⟨frag, whole⟩ := fs.fsize_dvd
  have fsize := fsize_pos fs
  rw [ufs_fragroundup, if_neg (by omega)]
  constructor
  · exact Nat.mul_pos ((Nat.one_le_div_iff fsize).mpr (by omega)) fsize
  · rw [whole, mul_comm]
    apply Nat.mul_le_mul_left
    apply Nat.le_of_lt_succ
    rw [Nat.div_lt_iff_lt_mul fsize, Nat.succ_mul, Nat.mul_comm frag, ← whole]
    omega

/-- In direct blocks the last allocation is whole when the size in fragments is one of whole blocks.
-/
theorem allocation_whole_iff (direct : needed ≤ UFS_NDADDR) (low : k * fs.bsize < size)
    (high : size ≤ (k + 1) * fs.bsize) :
    allocation fs needed (size - k * fs.bsize) = fs.bsize ↔ fs.bsize ∣ ufs_fragroundup fs size := by
  obtain ⟨r, rfl⟩ := Nat.exists_eq_add_of_lt low
  rw [add_mul, one_mul] at high
  have within : r + 1 ≤ fs.bsize := by omega
  rw [show k * fs.bsize + r + 1 - k * fs.bsize = r + 1 by omega, add_assoc,
    fragroundup_add k (Nat.succ_pos r), Nat.dvd_add_right (Nat.dvd_mul_left _ _)]
  have rounded : allocation fs needed (r + 1) = ufs_fragroundup fs (r + 1) := by
    unfold allocation
    split
    · next whole =>
      rw [whole.resolve_right (by omega), fragroundup_whole]
    · rfl
  obtain ⟨some, most⟩ := fragroundup_bounds fs (Nat.succ_pos r) within
  rw [rounded]
  exact ⟨fun whole => whole ▸ dvd_refl _, fun dvd => le_antisymm most (Nat.le_of_dvd some dvd)⟩

theorem sizes_cut {k n : Nat} (count : needed_blocks fs size = n + 1) (more : k < n) :
    ufs_allocation_byte_sizes fs size = List.replicate (k + 1) fs.bsize ++
        range_loop fs (n + 1) (n + 1 - (k + 1)) (size - (k + 1) * fs.bsize) := by
  have some : 0 < size := by
    rcases eq_zero_or_pos size with rfl | some
    · rw [needed_zero] at count
      omega
    · exact some
  obtain ⟨n', count', low, high⟩ := needed_spec fs some
  obtain rfl : n = n' := by omega
  obtain ⟨j, rfl⟩ := Nat.exists_eq_add_of_lt more
  rw [sizes_eq count low high, show k + j + 1 + 1 - (k + 1) = j + 1 by omega]
  rw [show k + j + 1 = k + 1 + j by omega] at low high ⊢
  rw [add_mul (k + 1) j] at low
  rw [add_assoc, add_mul (k + 1) (j + 1)] at high
  rw [range_loop_eq (by omega) (by omega), replicate_add, append_assoc,
    Nat.add_mul (k + 1) j, Nat.sub_sub]

theorem extend_eq_iff (grows : old_size ≤ new_size) :
    extend_ufs_allocation_byte_sizes fs (ufs_allocation_byte_sizes fs old_size) old_size new_size =
      ufs_allocation_byte_sizes fs new_size ↔ Settled fs old_size new_size := by
  unfold extend_ufs_allocation_byte_sizes Settled
  split
  · next _ =>
    obtain rfl : old_size = new_size := by omega
    exact ⟨fun _ => .inl rfl, fun _ => rfl⟩
  have old_needed : (if old_size = 0 then 0 else needed_blocks fs old_size) =
      needed_blocks fs old_size := by
    split
    · next nothing => rw [nothing, needed_zero]
    · rfl
  dsimp only
  rw [old_needed, if_neg (not_not.mpr sizes_length)]
  split
  · next indirect => exact ⟨fun _ => .inr (.inl indirect.2), fun _ => rfl⟩
  next direct =>
  split
  · next same =>
    refine ⟨fun _ => .inl same.symm, fun _ => ?_⟩
    split
    · next requested => exact requested.symm
    · rfl
  next grown =>
  rcases eq_zero_or_pos old_size with rfl | some
  · refine ⟨fun _ => .inr (.inr (dvd_zero _)), fun _ => ?_⟩
    rw [needed_zero, zero_mul]
    unfold ufs_allocation_byte_sizes
    rw [if_pos rfl, if_neg (by omega), whole_loop_eq]
    rfl
  obtain ⟨k, count, low, high⟩ := needed_spec fs some
  obtain ⟨n, count', low', high'⟩ := needed_spec fs (show 0 < new_size by omega)
  -- the sizes differ by the last allocation of the old one only
  have more : k < n := by
    have : k < n + 1 := Nat.lt_of_mul_lt_mul_right (Nat.lt_of_lt_of_le low
      (le_trans grows high'))
    omega
  rw [count, count', sizes_cut count' more, append_left_inj, sizes_eq count low high,
    replicate_succ', append_right_inj, singleton_inj]
  by_cases few : n + 1 ≤ UFS_NDADDR
  · rw [allocation_whole_iff (by omega) low high]
    constructor
    · intro whole
      exact .inr (.inr whole)
    · rintro (same | indirect | whole)
      · omega
      · omega
      · exact whole
  · exact ⟨fun _ => .inr (.inl (by omega)), fun _ => if_pos (.inr (by omega))⟩

/-- A file that grows by steps has the allocations of its size exactly when each step leaves its
last one right. -/
theorem grow_eq_iff {sizes : List Nat} (increasing : (old_size :: sizes).IsChain (· ≤ ·)) :
    grow fs (ufs_allocation_byte_sizes fs old_size) old_size sizes =
        sizes.map (ufs_allocation_byte_sizes fs) ↔
      (old_size :: sizes).IsChain (Settled fs) := by
  induction sizes generalizing old_size with
  | nil => simp [grow]
  | cons new_size sizes ih =>
    rw [isChain_cons_cons] at increasing ⊢
    rw [grow, map_cons, ← extend_eq_iff increasing.1]
    constructor
    · intro all
      obtain ⟨first, rest⟩ := List.cons.inj all
      rw [first] at rest
      exact ⟨first, (ih increasing.2).mp rest⟩
    · rintro ⟨first, rest⟩
      rw [first, (ih increasing.2).mpr rest]

/-- Bringing the sizes up to date is computing them, over every chain of steps, exactly when no step
goes on to a later direct block from a partly filled one. -/
theorem extend_matches_full (fs : Fs) :
    (∀ old_size new_size, old_size ≤ new_size →
      (extend_ufs_allocation_byte_sizes fs (ufs_allocation_byte_sizes fs old_size) old_size
        new_size = ufs_allocation_byte_sizes fs new_size ↔ Settled fs old_size new_size)) ∧
    ∀ old_size sizes, (old_size :: sizes).IsChain (· ≤ ·) →
      (grow fs (ufs_allocation_byte_sizes fs old_size) old_size sizes =
        sizes.map (ufs_allocation_byte_sizes fs) ↔ (old_size :: sizes).IsChain (Settled fs)) :=
  ⟨fun _ _ grows => extend_eq_iff grows, fun _ _ increasing => grow_eq_iff increasing⟩

def quarters : Fs := ⟨4096, 1024, by decide, by decide⟩

theorem extend_matches_full_quarters :
    extend_ufs_allocation_byte_sizes quarters (ufs_allocation_byte_sizes quarters 4096) 4096 5000 =
      ufs_allocation_byte_sizes quarters 5000 :=
  ((extend_matches_full quarters).1 4096 5000 (by decide)).mpr (.inr (.inr (by decide)))

/-- A file of one byte grows by a block: its first block is left a fragment. -/
theorem extend_keeps_fragment :
    extend_ufs_allocation_byte_sizes quarters (ufs_allocation_byte_sizes quarters 1) 1 4097 =
      [1024, 1024] ∧ ufs_allocation_byte_sizes quarters 4097 = [4096, 1024] := by
  simp [extend_ufs_allocation_byte_sizes, ufs_allocation_byte_sizes, whole_loop, range_loop,
    allocation, needed_blocks, ufs_fragroundup, quarters, UFS_NDADDR]

end UfsSizes
