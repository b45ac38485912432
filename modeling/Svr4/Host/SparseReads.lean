import Svr4.Host.DataBlocks
import Svr4.Ufs.Blklist

/- host_tools/fs/ufs.py and fs/ufs/ufs_bmap.c: which blocks of an image hold a file. -/
namespace BlockMap
open DataBlocks PointerTrees List

abbrev Bytes := List UInt8

/-- common.py -/
def SECTOR_SIZE : Nat := 512
def UFS_NDADDR : Nat := 12
/-- sys/fs/ufs_inode.h -/
def NIADDR : Nat := 3

/-- What `filesystem.start_offset` and `filesystem.details` say of the blocks. -/
structure Filesystem where
  start_offset : Nat
  bsize : Nat
  nindir : Nat
  fsbtodb : Nat

structure Inode where
  size : Nat
  direct_blocks : List Nat
  indirect_blocks : List Nat
  direct_count : direct_blocks.length = UFS_NDADDR
  indirect_count : indirect_blocks.length = NIADDR

/-- `image[start:stop]` -/
def slice (image : Bytes) (start stop : Nat) : Bytes := (image.drop start).take (stop - start)

/-- `int.from_bytes(buffer[offset:offset + 4], 'little')` -/
def u32 (buffer : Bytes) (offset : Nat) : Nat :=
  (slice buffer offset (offset + 4)).foldr (fun byte rest => byte.toNat + 256 * rest) 0

variable (fs : Filesystem) (image : Bytes) (inode : Inode)

def ufs_fsbtobytes (fs_block : Nat) : Nat := (fs_block <<< fs.fsbtodb) * SECTOR_SIZE

def ufs_data_block_offset (fs_block : Nat) : Nat := fs.start_offset + ufs_fsbtobytes fs fs_block

def read_ufs_pointer_block (fs_block : Nat) : List Nat :=
  let block_offset := ufs_data_block_offset fs fs_block
  let raw := slice image block_offset (block_offset + fs.bsize)
  (range fs.nindir).map fun index => u32 raw (index * 4)

def needed_blocks : Nat := DataBlocks.needed_blocks fs.bsize inode.size

def ufs_inode_data_blocks : List Nat :=
  DataBlocks.ufs_inode_data_blocks (read_ufs_pointer_block fs image) inode.direct_blocks
    inode.indirect_blocks (needed_blocks fs inode)

/-- What block `block_index` adds to the data of `read_ufs_data_range`. -/
def blockPart (data_blocks : List Nat) (offset end_offset block_index : Nat) : Bytes :=
  let fs_block := data_blocks.getD block_index 0
  let logical_start := block_index * fs.bsize
  let block_inner_start := offset - logical_start
  let block_inner_end := min fs.bsize (end_offset - logical_start)
  if block_inner_end ≤ block_inner_start then []
  else
    let block_offset := ufs_data_block_offset fs fs_block
    slice image (block_offset + block_inner_start) (block_offset + block_inner_end)

def read_ufs_data_range (data_blocks : List Nat) (offset size : Nat) : Bytes :=
  if size = 0 then []
  else
    let end_offset := offset + size
    let start_block := offset / fs.bsize
    let end_block := min data_blocks.length ((end_offset + fs.bsize - 1) / fs.bsize)
    (range' start_block (end_block - start_block)).flatMap
      (blockPart fs image data_blocks offset end_offset)

def read_ufs_inode_range (offset size : Int) : Bytes :=
  if size ≤ 0 ∨ (inode.size : Int) ≤ offset then []
  else
    let clamped_offset := max 0 offset
    let clamped_size := min size (inode.size - clamped_offset)
    if clamped_size ≤ 0 then []
    else read_ufs_data_range fs image (ufs_inode_data_blocks fs image inode)
      clamped_offset.toNat clamped_size.toNat

def fetch (tbn : Nat) : Nat → Nat → Nat → Nat
  | 0, _, nb => nb
  | levels + 1, sh, nb =>
      let bap := read_ufs_pointer_block fs image nb
      let sh := sh / fs.nindir
      let i := tbn / sh % fs.nindir
      let nb := bap.getD i 0
      if nb = 0 then 0 else fetch tbn levels sh nb

/-- The block of `*bnp` for a read, 0 for `UFS_HOLE`; `none` is the error `EFBIG`. -/
def ufs_bmap (lbn : Nat) : Option Nat :=
  if lbn < UFS_NDADDR then some (inode.direct_blocks.getD lbn 0)
  else
    match BlockLists.levels fs.nindir NIADDR 1 (lbn - UFS_NDADDR) with
    | none => none
    | some (j, sh, tbn) =>
      let nb := inode.indirect_blocks.getD (NIADDR - j) 0
      if nb = 0 then some 0 else some (fetch fs image tbn (NIADDR + 1 - j) sh nb)

/-- The byte of the file at `pos` as the kernel reads it. -/
def kernel_byte (pos : Nat) : Option UInt8 :=
  match ufs_bmap fs image inode (pos / fs.bsize) with
  | none => none
  | some 0 => some 0
  | some nb => image[ufs_data_block_offset fs nb + pos % fs.bsize]?

def positions (offset size : Int) : List Nat :=
  let start := (max 0 offset).toNat
  range' start (min size (inode.size - max 0 offset)).toNat

def ReadsAgree : Prop :=
  ∀ offset size : Int, (read_ufs_inode_range fs image inode offset size).map some =
    (positions inode offset size).map (kernel_byte fs image inode)

end BlockMap

/- The flattened list of the host tools against the tree that the kernel walks. -/
namespace BlockMap
open DataBlocks PointerTrees List

variable (fs : Filesystem) (image : Bytes) (inode : Inode)

def logical_blocks : List Nat :=
  DataBlocks.logical_blocks (read_ufs_pointer_block fs image) inode.direct_blocks
    inode.indirect_blocks fs.nindir

def pointer_blocks : List Nat :=
  below (nodes 0 (read_ufs_pointer_block fs image)) 1 inode.indirect_blocks

/-- An image and an inode on it whose blocks are where they can be read. -/
structure Sound : Prop where
  bsize_pos : 0 < fs.bsize
  nindir_pos : 0 < fs.nindir
  addressable : needed_blocks fs inode ≤ (logical_blocks fs image inode).length
  begins : ∀ b ∈ logical_blocks fs image inode, b ≠ 0 →
    ufs_data_block_offset fs b < image.length
  inside : ∀ pos < inode.size, ∀ b, (logical_blocks fs image inode)[pos / fs.bsize]? = some b →
    b ≠ 0 → ufs_data_block_offset fs b + pos % fs.bsize < image.length
  apart : ∀ b ∈ logical_blocks fs image inode, b ≠ 0 →
    ∀ p ∈ pointer_blocks fs image inode, ufs_data_block_offset fs b < ufs_data_block_offset fs p ∨
      ufs_data_block_offset fs p + fs.bsize ≤ ufs_data_block_offset fs b

/-- Another content of the image that leaves the pointers of the inode alone. -/
structure SameTree (image' : Bytes) : Prop where
  length_eq : image'.length = image.length
  pointers : ∀ p ∈ pointer_blocks fs image inode,
    read_ufs_pointer_block fs image' p = read_ufs_pointer_block fs image p

variable {fs image inode}

theorem pointer_count (b : Nat) : (read_ufs_pointer_block fs image b).length = fs.nindir := by
  unfold read_ufs_pointer_block
  rw [length_map, length_range]

theorem data_blocks_eq : ufs_inode_data_blocks fs image inode =
    (live (logical_blocks fs image inode)).take (needed_blocks fs inode) :=
  DataBlocks.data_blocks_eq _ _

theorem fetch_eq (pos : 0 < fs.nindir) (t levels : Nat) {nb : Nat} (mapped : nb ≠ 0) :
    fetch fs image t levels (fs.nindir ^ levels) nb =
      walk 0 fs.nindir (read_ufs_pointer_block fs image) t levels nb := by
  induction levels generalizing nb with
  | zero => rfl
  | succ levels ih =>
    rw [fetch, walk, if_neg mapped, Nat.pow_succ, Nat.mul_div_cancel _ pos]
    split
    · next null => rw [null, walk_null]
    · next mapped => exact ih mapped

theorem levels_le {nindir j sh tbn : Nat} {found : Nat × Nat × Nat}
    (h : BlockLists.levels nindir j sh tbn = some found) : found.1 ≤ j := by
  induction j generalizing sh tbn with
  | zero => cases h
  | succ j ih =>
    rw [BlockLists.levels] at h
    split at h
    · cases h
      exact Nat.le_refl _
    · exact Nat.le_succ_of_le (ih h)

theorem indirection_eq (pos : 0 < fs.nindir) (n : Nat) : ∀ (roots : List Nat) (tbn : Nat),
      (below (leaves 0 fs.nindir (read_ufs_pointer_block fs image)) (n + 1) roots)[tbn]? =
        match BlockLists.levels fs.nindir roots.length (fs.nindir ^ n) tbn with
        | none => none
        | some (j, sh, tbn) =>
          let nb := roots.getD (roots.length - j) 0
          if nb = 0 then some 0
          else some (fetch fs image tbn (n + 1 + (roots.length - j)) sh nb) := by
  intro roots
  induction roots generalizing n with
  | nil => intro tbn; rfl
  | cons root rest ih =>
    intro tbn
    have size : (leaves 0 fs.nindir (read_ufs_pointer_block fs image) (n + 1) root).length =
        fs.nindir ^ (n + 1) := length_leaves pointer_count (n + 1) root
    rw [below, length_cons, BlockLists.levels, ← Nat.pow_succ]
    by_cases here : tbn < fs.nindir ^ (n + 1)
    · have leaf : (leaves 0 fs.nindir (read_ufs_pointer_block fs image) (n + 1) root)[
          tbn % fs.nindir ^ (n + 1)]? = _ := leaves_getElem pointer_count pos tbn (n + 1) root
      rw [Nat.mod_eq_of_lt here] at leaf
      rw [if_pos here, getElem?_append_left (by omega), leaf]
      dsimp only
      rw [Nat.sub_self, getD_cons_zero, Nat.add_zero]
      split
      · next null => rw [null, walk_null]
      · next mapped => rw [fetch_eq pos _ _ mapped]
    · rw [if_neg here, getElem?_append_right (by omega), size, ih]
      cases found : BlockLists.levels fs.nindir rest.length (fs.nindir ^ (n + 1)) (tbn - fs.nindir ^ (n + 1)) with
      | none => rfl
      | some at_level =>
        have level := levels_le found
        have deeper : rest.length + 1 - at_level.1 = rest.length - at_level.1 + 1 := by omega
        dsimp only
        rw [deeper, getD_cons_succ, Nat.add_assoc, Nat.add_comm 1]

theorem bmap_eq (pos : 0 < fs.nindir) (lbn : Nat) :
    ufs_bmap fs image inode lbn = (logical_blocks fs image inode)[lbn]? := by
  unfold ufs_bmap logical_blocks DataBlocks.logical_blocks
  by_cases direct : lbn < UFS_NDADDR
  · have inside : lbn < inode.direct_blocks.length := inode.direct_count ▸ direct
    rw [if_pos direct, getElem?_append_left inside, getElem?_eq_getElem inside,
      getD_eq_getElem _ _ inside]
  have past : inode.direct_blocks.length ≤ lbn := inode.direct_count ▸ Nat.le_of_not_lt direct
  rw [if_neg direct, getElem?_append_right past, inode.direct_count,
    indirection_eq pos 0, inode.indirect_count, Nat.pow_zero]
  cases found : BlockLists.levels fs.nindir NIADDR 1 (lbn - UFS_NDADDR) with
  | none => rfl
  | some at_level =>
    have level := levels_le found
    have same : NIADDR + 1 - at_level.1 = 0 + 1 + (NIADDR - at_level.1) := by omega
    dsimp only
    rw [same]

/-- The tree with blocks that cannot be read has the same look-up where they all can. -/
theorem ufs_bmap_readable {device : BlockLists.Fs} {ip : BlockLists.Inode BlockLists.NDADDR}
    (readable : ∀ b, device.readable b) (words : device.words = read_ufs_pointer_block fs image)
    (direct : ip.direct = inode.direct_blocks) (indirect : ip.indirect = inode.indirect_blocks)
    (lbn : Nat) : BlockLists.ufs_bmap device ip lbn =
      (ufs_bmap fs image inode lbn).elim (.error .EFBIG) .ok := by
  have fanout : device.nindir = fs.nindir := by
    have count : (read_ufs_pointer_block fs image 0).length = fs.nindir := pointer_count 0
    rw [← count, ← words]
    exact (device.full 0).symm
  have fetched : ∀ tbn turns sh nb, BlockLists.fetch device tbn turns sh nb =
      .ok (fetch fs image tbn turns sh nb) := by
    intro tbn turns
    induction turns with
    | zero => exact fun _ _ => rfl
    | succ turns ih =>
      intro sh nb
      rw [BlockLists.fetch, fetch, if_pos (readable nb), words, fanout]
      dsimp only
      split
      · rfl
      · exact ih _ _
  have same : BlockLists.NDADDR = UFS_NDADDR ∧ BlockLists.NIADDR = NIADDR := ⟨rfl, rfl⟩
  unfold BlockLists.ufs_bmap ufs_bmap
  rw [direct, indirect, fanout, same.1, same.2]
  split
  · rfl
  cases found : BlockLists.levels fs.nindir NIADDR 1 (lbn - UFS_NDADDR) with
  | none => rfl
  | some at_level =>
    have level := levels_le found
    have turns : NIADDR + 1 - at_level.1 = NIADDR - at_level.1 + 1 := by omega
    dsimp only
    rw [turns]
    split
    · rfl
    · exact fetched _ _ _ _

end BlockMap
