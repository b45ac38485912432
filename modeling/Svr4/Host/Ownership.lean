import Svr4.Host.AllocationSizes
import Svr4.Host.DataBlocks
import Svr4.Host.FsckScan

/- host_tools/fs/ufs.py: which fragments the blocks of an inode are, as the reconciliation of the
   bitmaps takes them and as the places of the blocks in the file have it. -/
namespace UfsReconcile
open DataBlocks UfsGroups UfsFsck List

structure Volume extends Layout where
  bsize_pos : 0 < bsize
  frag_fsize : frag * fsize = bsize
  fpg_pos : 0 < fpg

variable (fs : Volume) (pointers : Nat → List Nat) {x n : Nat}

def Volume.sizes : UfsSizes.Fs :=
  ⟨fs.bsize, fs.fsize, fs.bsize_pos, ⟨fs.frag, by rw [← fs.frag_fsize, Nat.mul_comm]⟩⟩

def collect_indirect_pointer_blocks : Nat → Nat → List Nat
  | 0, _ => []
  | 1, fs_block => if fs_block = 0 then [] else [fs_block]
  | levels + 2, fs_block =>
      if fs_block = 0 then []
      else
        fs_block :: (pointers fs_block).flatMap fun child =>
          if child = 0 then [] else collect_indirect_pointer_blocks (levels + 1) child

def needed_blocks (inode : Inode) : Nat := DataBlocks.needed_blocks fs.bsize inode.size

def ufs_inode_data_blocks (inode : Inode) : List Nat :=
  DataBlocks.ufs_inode_data_blocks pointers inode.direct_blocks inode.indirect_blocks
    (needed_blocks fs inode)

def ufs_inode_pointer_blocks (inode : Inode) : List Nat :=
  inode.indirect_blocks.zipIdx.flatMap fun p =>
    collect_indirect_pointer_blocks pointers (p.2 + 1) p.1

def frag_count (size index : Nat) : Nat :=
  match (UfsSizes.ufs_allocation_byte_sizes fs.sizes size)[index]? with
  | some allocation_size => max 1 (allocation_size / fs.fsize)
  | none => fs.frag

def block_fragments (fs_block n : Nat) : List Nat := (List.range n).map (fs_block + ·)

/-- `_ufs_inode_owned_fragments`; no order of them matters. -/
def ufs_inode_owned_fragments (inode : Inode) : List Nat :=
  ((ufs_inode_data_blocks fs pointers inode).zipIdx.flatMap fun p =>
      if p.1 = 0 then [] else block_fragments p.1 (frag_count fs inode.size p.2)) ++
    (ufs_inode_pointer_blocks pointers inode).flatMap fun fs_block =>
      if fs_block = 0 then [] else block_fragments fs_block fs.frag

def file_blocks (inode : Inode) : List Nat :=
  logical_blocks pointers inode.direct_blocks inode.indirect_blocks fs.nindir

/-- The fragments of an inode: those that the place of each block within its size asks for, and the
pointer blocks. -/
def Owns (inode : Inode) (x : Nat) : Prop :=
  (∃ i fs_block j, i < needed_blocks fs inode ∧
      (file_blocks fs pointers inode)[i]? = some fs_block ∧ fs_block ≠ 0 ∧
      j < frag_count fs inode.size i ∧ x = fs_block + j) ∨
    ∃ fs_block ∈ ufs_inode_pointer_blocks pointers inode, fs_block ≠ 0 ∧
      ∃ j < fs.frag, x = fs_block + j

def blocks_before (inode : Inode) (i : Nat) : Nat :=
  ((file_blocks fs pointers inode).take i).countP (· ≠ 0)

/-- A fragment behind the end of a block, or of a block behind the end of the file, that comes in as
a block is taken to be where it would be without holes. -/
def Excess (inode : Inode) (x : Nat) : Prop :=
  ∃ i fs_block j, (file_blocks fs pointers inode)[i]? = some fs_block ∧ fs_block ≠ 0 ∧
    blocks_before fs pointers inode i < needed_blocks fs inode ∧
    j < frag_count fs inode.size (blocks_before fs pointers inode i) ∧ x = fs_block + j ∧
    (needed_blocks fs inode ≤ i ∨ frag_count fs inode.size i ≤ j)

section Lists
variable {A : Type} {p : A → Bool} {l : List A}

theorem filter_getElem_iff {k : Nat} {a : A} :
    (l.filter p)[k]? = some a ↔ ∃ i, l[i]? = some a ∧ p a = true ∧ (l.take i).countP p = k := by
  induction l generalizing k with
  | nil => simp
  | cons b l ih =>
    have split : (∃ i, (b :: l)[i]? = some a ∧ p a = true ∧ ((b :: l).take i).countP p = k) ↔
        (b = a ∧ p a = true ∧ 0 = k) ∨
          ∃ i, l[i]? = some a ∧ p a = true ∧ (b :: l.take i).countP p = k := by
      constructor
      · rintro ⟨i | i, here, kept, count⟩
        · exact .inl ⟨Option.some.inj here, kept, count⟩
        · exact .inr ⟨i, here, kept, count⟩
      · rintro (⟨rfl, kept, count⟩ | ⟨i, here, kept, count⟩)
        · exact ⟨0, rfl, kept, count⟩
        · exact ⟨i + 1, here, kept, count⟩
    rw [split]
    cases kept : p b with
    | false =>
      rw [filter_cons_of_neg (by simp [kept]), ih]
      constructor
      · rintro ⟨i, here, keeps, count⟩
        exact .inr ⟨i, here, keeps, by rw [countP_cons_of_neg (by simp [kept]), count]⟩
      · rintro (⟨rfl, keeps, -⟩ | ⟨i, here, keeps, count⟩)
        · rw [kept] at keeps
          cases keeps
        · exact ⟨i, here, keeps, by rwa [countP_cons_of_neg (by simp [kept])] at count⟩
    | true =>
      rw [filter_cons_of_pos kept]
      cases k with
      | zero =>
        constructor
        · intro first
          obtain rfl := Option.some.inj first
          exact .inl ⟨rfl, kept, rfl⟩
        · rintro (⟨rfl, -, -⟩ | ⟨i, -, -, count⟩)
          · rfl
          · rw [countP_cons_of_pos kept] at count
            cases count
      | succ k =>
        rw [getElem?_cons_succ, ih]
        constructor
        · rintro ⟨i, here, keeps, count⟩
          exact .inr ⟨i, here, keeps, by rw [countP_cons_of_pos kept, count]⟩
        · rintro (⟨-, -, zero⟩ | ⟨i, here, keeps, count⟩)
          · cases zero
          · rw [countP_cons_of_pos kept] at count
            exact ⟨i, here, keeps, Nat.succ.inj count⟩

end Lists

section Blocks
variable {fs pointers} {inode : Inode}

theorem data_blocks_eq : ufs_inode_data_blocks fs pointers inode =
    (live (file_blocks fs pointers inode)).take (needed_blocks fs inode) :=
  DataBlocks.data_blocks_eq _ _

theorem mem_block_fragments {fs_block n x : Nat} :
    x ∈ block_fragments fs_block n ↔ ∃ j < n, x = fs_block + j := by
  unfold block_fragments
  rw [mem_map]
  constructor
  · rintro ⟨j, mem, rfl⟩
    exact ⟨j, mem_range.mp mem, rfl⟩
  · rintro ⟨j, mem, rfl⟩
    exact ⟨j, mem_range.mpr mem, rfl⟩

theorem mem_owned_fragments : x ∈ ufs_inode_owned_fragments fs pointers inode ↔
    (∃ i fs_block j, (file_blocks fs pointers inode)[i]? = some fs_block ∧ fs_block ≠ 0 ∧
      blocks_before fs pointers inode i < needed_blocks fs inode ∧
      j < frag_count fs inode.size (blocks_before fs pointers inode i) ∧ x = fs_block + j) ∨
    ∃ fs_block ∈ ufs_inode_pointer_blocks pointers inode, fs_block ≠ 0 ∧
      ∃ j < fs.frag, x = fs_block + j := by
  unfold ufs_inode_owned_fragments
  rw [mem_append]
  refine or_congr ?_ ?_
  · rw [mem_flatMap, data_blocks_eq]
    constructor
    · rintro ⟨⟨fs_block, k⟩, mem, covers⟩
      have there := mem_zipIdx_iff_getElem?.mp mem
      rw [getElem?_take] at there
      split at there
      · next inside =>
        obtain ⟨i, here, some, rfl⟩ := filter_getElem_iff.mp there
        have some : fs_block ≠ 0 := by simpa using some
        rw [if_neg some] at covers
        obtain ⟨j, within, rfl⟩ := mem_block_fragments.mp covers
        exact ⟨i, fs_block, j, here, some, inside, within, rfl⟩
      · cases there
    · rintro ⟨i, fs_block, j, here, some, inside, within, rfl⟩
      refine ⟨(fs_block, blocks_before fs pointers inode i), ?_, ?_⟩
      · rw [mem_zipIdx_iff_getElem?, getElem?_take, if_pos inside]
        exact filter_getElem_iff.mpr ⟨i, here, by simpa using some, rfl⟩
      · rw [if_neg some]
        exact mem_block_fragments.mpr ⟨j, within, rfl⟩
  · rw [mem_flatMap]
    constructor
    · rintro ⟨fs_block, mem, covers⟩
      split at covers
      · cases covers
      · next some => exact ⟨fs_block, mem, some, mem_block_fragments.mp covers⟩
    · rintro ⟨fs_block, mem, some, covers⟩
      refine ⟨fs_block, mem, ?_⟩
      rw [if_neg some]
      exact mem_block_fragments.mpr covers

theorem frag_count_antitone {size i k : Nat} (later : k ≤ i)
    (within : i < (UfsSizes.ufs_allocation_byte_sizes fs.sizes size).length) :
    frag_count fs size i ≤ frag_count fs size k := by
  rcases eq_or_lt_of_le later with rfl | before
  · exact le_refl _
  have some : 0 < size := by
    rcases eq_zero_or_pos size with rfl | some
    · exact absurd within (by simp [UfsSizes.ufs_allocation_byte_sizes])
    · exact some
  obtain ⟨n, count, low, high⟩ := UfsSizes.needed_spec fs.sizes some
  rw [UfsSizes.sizes_length, count] at within
  unfold frag_count
  rw [UfsSizes.sizes_eq count low high]
  have whole : UfsSizes.allocation fs.sizes (n + 1) (size - n * fs.sizes.bsize) ≤
      fs.sizes.bsize := by
    rw [add_mul, one_mul] at high
    unfold UfsSizes.allocation
    split
    · exact le_refl _
    · exact (UfsSizes.fragroundup_bounds fs.sizes (by omega) (by omega)).2
  rw [getElem?_append_left (i := k) (by rw [length_replicate]; omega),
    getElem?_replicate, if_pos (by omega)]
  rcases lt_or_ge i n with inner | last
  · rw [getElem?_append_left (by rw [length_replicate]; omega), getElem?_replicate, if_pos inner]
  · obtain rfl : i = n := by omega
    rw [getElem?_append_right (by rw [length_replicate]), length_replicate,
      Nat.sub_self, getElem?_cons_zero]
    exact max_le_max (Nat.le_refl 1) (Nat.div_le_div_right whole)

theorem sizes_length_needed :
    (UfsSizes.ufs_allocation_byte_sizes fs.sizes inode.size).length = needed_blocks fs inode := by
  rw [UfsSizes.sizes_length, needed_blocks, DataBlocks.needed_blocks]
  split
  · next zero => rw [zero, UfsSizes.needed_zero]
  · rfl

theorem blocks_before_le (i : Nat) : blocks_before fs pointers inode i ≤ i :=
  (countP_le_length).trans (length_take_le _ _)

theorem mem_owned_iff : x ∈ ufs_inode_owned_fragments fs pointers inode ↔
    Owns fs pointers inode x ∨ Excess fs pointers inode x := by
  rw [mem_owned_fragments]
  constructor
  · rintro (⟨i, fs_block, j, here, some, inside, within, rfl⟩ | indirect)
    · by_cases right : i < needed_blocks fs inode ∧ j < frag_count fs inode.size i
      · exact .inl (.inl ⟨i, fs_block, j, right.1, here, some, right.2, rfl⟩)
      · exact .inr ⟨i, fs_block, j, here, some, inside, within, rfl, by omega⟩
    · exact .inl (.inr indirect)
  · rintro ((⟨i, fs_block, j, inside, here, some, within, rfl⟩ | indirect) | excess)
    · have before : blocks_before fs pointers inode i ≤ i := blocks_before_le i
      refine .inl ⟨i, fs_block, j, here, some, by omega, ?_, rfl⟩
      refine lt_of_lt_of_le within (frag_count_antitone before ?_)
      rw [sizes_length_needed]
      exact inside
    · exact .inr indirect
    · obtain ⟨i, fs_block, j, here, some, inside, within, rfl, -⟩ := excess
      exact .inl ⟨i, fs_block, j, here, some, inside, within, rfl⟩

theorem no_excess
    (full : ∀ i < needed_blocks fs inode, ∃ fs_block ≠ 0, (file_blocks fs pointers inode)[i]? =
      some fs_block) :
    ¬ Excess fs pointers inode x := by
  have all : ∀ i ≤ needed_blocks fs inode, blocks_before fs pointers inode i = i := by
    intro i
    induction i with
    | zero => exact fun _ => rfl
    | succ i ih =>
      intro within
      obtain ⟨fs_block, some, here⟩ := full i (by omega)
      have before := ih (by omega)
      unfold blocks_before at before ⊢
      rw [take_add_one, here, countP_append, before]
      simp [some]
  rintro ⟨i, fs_block, j, -, -, inside, within, -, out⟩
  rcases lt_or_ge i (needed_blocks fs inode) with early | late
  · rw [all i (by omega)] at within
    omega
  · have monotone : needed_blocks fs inode ≤ blocks_before fs pointers inode i := by
      rw [← all _ (le_refl _)]
      exact (take_sublist_take_left late).countP_le
    omega

end Blocks

end UfsReconcile
