import Svr4.PointerTrees

/- host_tools/fs/ufs.py: the blocks of a file in one list, holes left out, and the tree of pointers
   that it comes from. -/
namespace DataBlocks
open PointerTrees List

variable (read_ufs_pointer_block : Nat → List Nat)

/-- The loop of `collect_indirect_data_blocks` over the pointers of a block. -/
def collectLoop (child : Nat → Option Nat → List Nat) (max_blocks : Option Nat) :
    List Nat → List Nat → List Nat
  | [], blocks => blocks
  | pointer :: rest, blocks =>
      if pointer = 0 then collectLoop child max_blocks rest blocks
      else
        let blocks := blocks ++ child pointer (max_blocks.map (· - blocks.length))
        match max_blocks with
        | none => collectLoop child max_blocks rest blocks
        | some limit =>
          if limit ≤ blocks.length then blocks.take limit
          else collectLoop child max_blocks rest blocks

def collect_indirect_data_blocks : Nat → Nat → Option Nat → List Nat
  | 0, _, _ => []
  | levels + 1, fs_block, max_blocks =>
      if fs_block = 0 ∨ max_blocks = some 0 then []
      else
        let child :=
          match levels with
          | 0 => fun pointer _ => [pointer]
          | _ + 1 => collect_indirect_data_blocks levels
        collectLoop child max_blocks (read_ufs_pointer_block fs_block) []

def needed_blocks (block_size size : Nat) : Nat :=
  if size = 0 then 0 else (size + block_size - 1) / block_size

variable (direct_blocks indirect_blocks : List Nat)

/-- The loop over the roots of the indirect trees, with `levels` counted from 1. -/
def indirectLoop (needed : Nat) : Nat → List Nat → List Nat → List Nat
  | _, [], blocks => blocks.take needed
  | levels, root_block :: rest, blocks =>
      let blocks := blocks ++
        collect_indirect_data_blocks read_ufs_pointer_block levels root_block
          (some (needed - blocks.length))
      if needed ≤ blocks.length then blocks.take needed
      else indirectLoop needed (levels + 1) rest blocks

def directLoop (needed : Nat) : List Nat → List Nat → List Nat
  | [], blocks => indirectLoop read_ufs_pointer_block needed 1 indirect_blocks blocks
  | fs_block :: rest, blocks =>
      if fs_block = 0 then directLoop needed rest blocks
      else
        let blocks := blocks ++ [fs_block]
        if needed ≤ blocks.length then blocks.take needed else directLoop needed rest blocks

/-- The list that the source keeps in the inode with its size and its pointers as the key. -/
def ufs_inode_data_blocks (needed : Nat) : List Nat :=
  directLoop read_ufs_pointer_block indirect_blocks needed direct_blocks []

/-- What the roots of the indirect trees give, with `levels` counted up. -/
def below (f : Nat → Nat → List Nat) : Nat → List Nat → List Nat
  | _, [] => []
  | levels, root :: rest => f levels root ++ below f (levels + 1) rest

/-- The pointers of the file, one for each logical block, 0 for a hole. -/
def logical_blocks (nindir : Nat) : List Nat :=
  direct_blocks ++ below (leaves 0 nindir read_ufs_pointer_block) 1 indirect_blocks

variable {read_ufs_pointer_block direct_blocks indirect_blocks}
variable {limit nindir : Nat} {blocks part : List Nat}

def live (blocks : List Nat) : List Nat := blocks.filter (· ≠ 0)

@[simp] theorem live_nil : live [] = [] := rfl

theorem live_append (xs ys : List Nat) : live (xs ++ ys) = live xs ++ live ys := filter_append xs ys

theorem live_hole (xs : List Nat) : live (0 :: xs) = live xs := rfl

theorem live_cons {b : Nat} (mapped : b ≠ 0) (xs : List Nat) : live (b :: xs) = b :: live xs :=
  filter_cons_of_pos (by simpa using mapped)

theorem live_replicate (n : Nat) : live (List.replicate n 0) = [] := by
  induction n with
  | zero => rfl
  | succ n ih => rw [replicate_succ, live_hole, ih]

theorem live_leaves_null (kids : Nat → List Nat) (n fanout : Nat) :
    live (leaves 0 fanout kids n 0) = [] := by
  cases n with
  | zero => rfl
  | succ n =>
    rw [leaves, if_pos rfl]
    exact live_replicate _

theorem take_full (rest : List Nat)
    (full : limit ≤ (blocks ++ part.take (limit - blocks.length)).length) :
    (blocks ++ part.take (limit - blocks.length)).take limit =
      (blocks ++ (part ++ rest)).take limit := by
  rw [length_append, length_take] at full
  have kept : limit - blocks.length ≤ part.length := by omega
  rw [take_append, take_take, Nat.min_self, take_append, take_append_of_le_length kept]

theorem take_short (short : ¬ limit ≤ (blocks ++ part.take (limit - blocks.length)).length) :
    part.take (limit - blocks.length) = part := by
  rw [length_append, length_take] at short
  exact take_of_length_le (by omega)

theorem collectLoop_eq {child : Nat → Option Nat → List Nat} {g : Nat → List Nat}
    (hole : live (g 0) = []) (spec : ∀ p ≠ 0, ∀ m > 0, child p (some m) = (live (g p)).take m)
    (pointers : List Nat) :
    ∀ blocks, blocks.length < limit → collectLoop child (some limit) pointers blocks =
        (blocks ++ live (pointers.flatMap g)).take limit := by
  induction pointers with
  | nil =>
    intro blocks room
    rw [flatMap_nil, live_nil, append_nil, take_of_length_le (Nat.le_of_lt room)]
    rfl
  | cons p rest ih =>
    intro blocks room
    rw [collectLoop, flatMap_cons, live_append]
    by_cases null : p = 0
    · rw [if_pos null, ih blocks room, null, hole, nil_append]
    rw [if_neg null]
    dsimp only [Option.map]
    rw [spec p null _ (by omega)]
    split
    · next full => exact take_full _ full
    · next short =>
      have whole := take_short short
      rw [whole] at short ⊢
      rw [ih _ (by omega), append_assoc]

theorem collect_eq (n b m : Nat) : collect_indirect_data_blocks read_ufs_pointer_block (n + 1) b (some m) =
      (live (leaves 0 nindir read_ufs_pointer_block (n + 1) b)).take m := by
  induction n generalizing b m with
  | zero =>
    rw [collect_indirect_data_blocks, leaves]
    by_cases null : b = 0
    · rw [if_pos (.inl null), if_pos null, live_replicate, take_nil]
    by_cases none : m = 0
    · rw [if_pos (.inr (congrArg some none)), none, take_zero]
    rw [if_neg (by simp [null, none]), if_neg null]
    refine collectLoop_eq (g := leaves 0 nindir read_ufs_pointer_block 0) rfl ?_ _ []
      (Nat.pos_of_ne_zero none)
    intro p mapped m pos
    rw [leaves, live_cons mapped, live_nil, take_of_length_le pos]
  | succ n ih =>
    rw [collect_indirect_data_blocks, leaves]
    by_cases null : b = 0
    · rw [if_pos (.inl null), if_pos null, live_replicate, take_nil]
    by_cases none : m = 0
    · rw [if_pos (.inr (congrArg some none)), none, take_zero]
    rw [if_neg (by simp [null, none]), if_neg null]
    exact collectLoop_eq (live_leaves_null _ _ _) (fun p _ m _ => ih p m) _ []
      (Nat.pos_of_ne_zero none)

theorem indirectLoop_eq (needed n : Nat) (roots blocks : List Nat) :
    indirectLoop read_ufs_pointer_block needed (n + 1) roots blocks =
      (blocks ++ live (below (leaves 0 nindir read_ufs_pointer_block) (n + 1)
        roots)).take needed := by
  induction roots generalizing n blocks with
  | nil =>
    rw [indirectLoop, below, live_nil, append_nil]
  | cons root rest ih =>
    rw [indirectLoop, below, live_append]
    rw [collect_eq]
    split
    · next full => exact take_full _ full
    · next short => rw [take_short short, ih, append_assoc]

theorem directLoop_eq (needed : Nat) (rest blocks : List Nat) :
    directLoop read_ufs_pointer_block indirect_blocks needed rest blocks =
      (blocks ++ live (rest ++ below (leaves 0 nindir read_ufs_pointer_block) 1
        indirect_blocks)).take needed := by
  induction rest generalizing blocks with
  | nil => exact indirectLoop_eq needed 0 indirect_blocks blocks
  | cons b rest ih =>
    rw [directLoop, cons_append]
    by_cases null : b = 0
    · rw [if_pos null, ih, null, live_hole]
    rw [if_neg null, live_cons null]
    have joined := append_cons blocks b (live (rest ++
      below (leaves 0 nindir read_ufs_pointer_block) 1 indirect_blocks))
    rw [joined]
    dsimp only
    split
    · next full => rw [take_append_of_le_length full]
    · exact ih _

theorem data_blocks_eq (nindir needed : Nat) :
    ufs_inode_data_blocks read_ufs_pointer_block direct_blocks indirect_blocks needed =
      (live (logical_blocks read_ufs_pointer_block direct_blocks indirect_blocks nindir)).take
        needed := by
  unfold ufs_inode_data_blocks
  rw [directLoop_eq, nil_append]
  rfl

end DataBlocks
