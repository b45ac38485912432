import Svr4.Host.SparseReads

/- Reads of a file with holes: what the host returns and what the kernel does. -/
namespace BlockMap
open DataBlocks PointerTrees List Nat

variable {fs : Filesystem} {image image' : Bytes} {inode : Inode} {i p : Nat}

def host_byte (fs : Filesystem) (image : Bytes) (data_blocks : List Nat) (pos : Nat) :
    Option UInt8 :=
  image[ufs_data_block_offset fs (data_blocks.getD (pos / fs.bsize) 0) + pos % fs.bsize]?

def span (lo hi : Nat) : List Nat := range' lo (hi - lo)

theorem span_nil {lo hi : Nat} (h : hi ≤ lo) : span lo hi = [] := by
  rw [span, Nat.sub_eq_zero_of_le h]
  rfl

theorem span_append {lo mid hi : Nat} (h₁ : lo ≤ mid) (h₂ : mid ≤ hi) :
    span lo mid ++ span mid hi = span lo hi := by
  have joined := range'_append_1 (s := lo) (m := mid - lo) (n := hi - mid)
  rw [Nat.add_sub_cancel' h₁] at joined
  rw [span, span, span, joined]
  congr 1
  omega

theorem span_blocks (bsize offset stop : Nat) (k : Nat) : ∀ a, (List.range' a k).flatMap
        (fun i => span (max offset (i * bsize)) (min stop (i * bsize + bsize))) =
      span (max offset (a * bsize)) (min stop (a * bsize + k * bsize)) := by
  induction k with
  | zero =>
    intro a
    rw [span_nil (by omega)]
    rfl
  | succ k ih =>
    intro a
    rw [range'_succ, flatMap_cons, ih, succ_mul, succ_mul]
    by_cases inside : stop ≤ a * bsize + bsize
    · rw [span_nil (show min stop _ ≤ max offset (a * bsize + bsize) by omega), append_nil]
      congr 1
      omega
    · by_cases before : offset ≤ a * bsize + bsize
      · rw [max_eq_right before, min_eq_right (by omega), span_append (by omega) (by omega)]
        congr 1
        omega
      · rw [span_nil (show min stop (a * bsize + bsize) ≤ max offset _ by omega), nil_append]
        congr 1 <;> omega

theorem filter_span (start n stop : Nat) :
    (range' start n).filter (· < stop) = span start (min (start + n) stop) := by
  induction n generalizing start with
  | zero =>
    rw [span_nil (by omega)]
    rfl
  | succ n ih =>
    rw [range'_succ]
    by_cases inside : start < stop
    · rw [filter_cons_of_pos (by simpa using inside), ih, span, span]
      have count : min (start + (n + 1)) stop - start =
          min (start + 1 + n) stop - (start + 1) + 1 := by omega
      rw [count, range'_succ]
    · rw [filter_cons_of_neg (by simpa using inside), ih, span_nil (by omega), span_nil (by omega)]

theorem slice_bytes {image : Bytes} {start stop : Nat} (h : stop ≤ image.length) :
    (slice image start stop).map some = (span start stop).map (image[·]?) := by
  refine ext_getElem? fun i => ?_
  rw [slice, span, getElem?_map, getElem?_map, getElem?_take, getElem?_drop]
  by_cases inside : i < stop - start
  · rw [if_pos inside, getElem?_range' inside, one_mul,
      getElem?_eq_getElem (by omega), Option.map_some, Option.map_some,
      getElem?_eq_getElem (by omega)]
  · rw [if_neg inside, getElem?_eq_none (by rw [length_range']; omega)]
    rfl

theorem blockPart_bytes (pos : 0 < fs.bsize) {data_blocks : List Nat} {offset stop i : Nat}
    (inside : ∀ p, offset ≤ p → p < stop → p / fs.bsize = i →
      ufs_data_block_offset fs (data_blocks.getD i 0) + p % fs.bsize < image.length) :
    (blockPart fs image data_blocks offset stop i).map some =
      (span (max offset (i * fs.bsize)) (min stop (i * fs.bsize + fs.bsize))).map
        (host_byte fs image data_blocks) := by
  have within : ∀ p, i * fs.bsize ≤ p → p < i * fs.bsize + fs.bsize →
      p / fs.bsize = i ∧ p % fs.bsize = p - i * fs.bsize := by
    intro p lower upper
    obtain ⟨r, rfl⟩ := Nat.exists_eq_add_of_le lower
    have small : r < fs.bsize := by omega
    rw [add_comm, add_mul_div_right _ _ pos, add_mul_mod_self_right,
      div_eq_of_lt small, mod_eq_of_lt small]
    omega
  unfold blockPart
  dsimp only
  split
  · next empty =>
    rw [span_nil (by omega)]
    rfl
  next some_bytes =>
  have last := within (min stop (i * fs.bsize + fs.bsize) - 1) (by omega) (by omega)
  have fits := inside (min stop (i * fs.bsize + fs.bsize) - 1) (by omega) (by omega) last.1
  rw [slice_bytes (by omega)]
  -- the same positions, counted from the start of the block
  refine ext_getElem? fun n => ?_
  rw [getElem?_map, getElem?_map, span, span]
  by_cases short : n < min stop (i * fs.bsize + fs.bsize) - max offset (i * fs.bsize)
  · have here := within (max offset (i * fs.bsize) + n) (by omega) (by omega)
    rw [getElem?_range' (by omega), getElem?_range' short, Option.map_some,
      Option.map_some, one_mul, host_byte, here.1, here.2]
    congr 2
    omega
  · rw [getElem?_eq_none (by rw [length_range']; omega),
      getElem?_eq_none (by rw [length_range']; omega)]
    rfl

theorem read_ufs_data_range_bytes (pos : 0 < fs.bsize) {data_blocks : List Nat}
    {offset size : Nat}
    (inside : ∀ p, offset ≤ p → p < offset + size → p / fs.bsize < data_blocks.length →
      ufs_data_block_offset fs (data_blocks.getD (p / fs.bsize) 0) + p % fs.bsize < image.length) :
    (read_ufs_data_range fs image data_blocks offset size).map some =
      (span offset (min (offset + size) (data_blocks.length * fs.bsize))).map
        (host_byte fs image data_blocks) := by
  unfold read_ufs_data_range
  split
  · next none =>
    rw [span_nil (by omega)]
    rfl
  next some_bytes =>
  have parts : ∀ i ∈ range' (offset / fs.bsize) (min data_blocks.length
        ((offset + size + fs.bsize - 1) / fs.bsize) - offset / fs.bsize),
      (blockPart fs image data_blocks offset (offset + size) i).map some =
        (span (max offset (i * fs.bsize)) (min (offset + size) (i * fs.bsize + fs.bsize))).map
          (host_byte fs image data_blocks) := by
    intro i mem
    refine blockPart_bytes pos fun p lower upper at_block => ?_
    rw [mem_range'_1] at mem
    have listed := inside p lower upper (by omega)
    rwa [at_block] at listed
  rw [map_flatMap, flatMap_def, map_congr_left parts, ← flatMap_def, ← map_flatMap, span_blocks]
  congr 1
  have start := div_mul_le_self offset fs.bsize
  by_cases past : data_blocks.length ≤ offset / fs.bsize
  · have whole : data_blocks.length * fs.bsize ≤ offset / fs.bsize * fs.bsize :=
      mul_le_mul_right _ past
    rw [Nat.sub_eq_zero_of_le (by omega), Nat.zero_mul, span_nil (by omega), span_nil (by omega)]
  have up : offset + size ≤ (offset + size + fs.bsize - 1) / fs.bsize * fs.bsize := by
    have cover := lt_div_mul_add pos (a := offset + size + fs.bsize - 1)
    omega
  by_cases all : data_blocks.length ≤ (offset + size + fs.bsize - 1) / fs.bsize
  · rw [Nat.min_eq_left all, ← Nat.add_mul, Nat.add_sub_cancel' (by omega),
      max_eq_left start]
  · have reach : (offset + size + fs.bsize - 1) / fs.bsize * fs.bsize ≤
        data_blocks.length * fs.bsize := mul_le_mul_right _ (by omega)
    have first : offset / fs.bsize ≤ (offset + size + fs.bsize - 1) / fs.bsize :=
      Nat.div_le_div_right (by omega)
    rw [Nat.min_eq_right (Nat.le_of_not_le all), ← Nat.add_mul, Nat.add_sub_cancel' first,
      max_eq_left start, min_eq_left up, min_eq_left (by omega)]

theorem SameTree.refl : SameTree fs image inode image := ⟨rfl, fun _ _ => rfl⟩

theorem SameTree.logical (same : SameTree fs image inode image') :
    logical_blocks fs image' inode = logical_blocks fs image inode := by
  have trees : ∀ (levels : Nat) (roots : List Nat),
      (∀ p ∈ below (nodes 0 (read_ufs_pointer_block fs image)) levels roots,
        read_ufs_pointer_block fs image' p = read_ufs_pointer_block fs image p) →
      below (leaves 0 fs.nindir (read_ufs_pointer_block fs image')) levels roots =
        below (leaves 0 fs.nindir (read_ufs_pointer_block fs image)) levels roots := by
    intro levels roots
    induction roots generalizing levels with
    | nil => exact fun _ => rfl
    | cons root rest ih =>
      intro agree
      rw [below, below, leaves_congr fun p mem => agree p (mem_append_left _ mem),
        ih _ fun p mem => agree p (mem_append_right _ mem)]
  unfold logical_blocks DataBlocks.logical_blocks
  rw [trees _ _ same.pointers]

theorem SameTree.data_blocks (same : SameTree fs image inode image') :
    ufs_inode_data_blocks fs image' inode = ufs_inode_data_blocks fs image inode := by
  rw [data_blocks_eq, data_blocks_eq, same.logical]

theorem SameTree.of_set {addr : Nat} (byte : UInt8)
    (apart : ∀ p ∈ pointer_blocks fs image inode, addr < ufs_data_block_offset fs p ∨
      ufs_data_block_offset fs p + fs.bsize ≤ addr) :
    SameTree fs image inode (image.set addr byte) := by
  refine ⟨length_set, fun p mem => ?_⟩
  have raw : slice (image.set addr byte) (ufs_data_block_offset fs p)
      (ufs_data_block_offset fs p + fs.bsize) =
        slice image (ufs_data_block_offset fs p) (ufs_data_block_offset fs p + fs.bsize) := by
    refine ext_getElem? fun i => ?_
    rw [slice, slice, getElem?_take, getElem?_take, getElem?_drop, getElem?_drop]
    split
    · rw [getElem?_set_ne]
      cases apart p mem <;> omega
    · rfl
  unfold read_ufs_pointer_block
  dsimp only
  rw [raw]

theorem lt_needed (pos : 0 < fs.bsize) :
    i < needed_blocks fs inode ↔ i * fs.bsize < inode.size := by
  unfold needed_blocks DataBlocks.needed_blocks
  split
  · next empty => simp [empty]
  · next nonempty =>
    rw [lt_iff_add_one_le, le_div_iff_mul_le pos, succ_mul]
    omega

theorem mem_positions {offset size : Int} (mem : p ∈ positions inode offset size) :
    p < inode.size := by
  unfold positions at mem
  rw [mem_range'_1] at mem
  omega

theorem read_ufs_inode_range_bytes {data_blocks : List Nat}
    (listed : ufs_inode_data_blocks fs image inode = data_blocks) (pos : 0 < fs.bsize)
    (offset size : Int)
    (inside : ∀ p ∈ positions inode offset size, p / fs.bsize < data_blocks.length →
      ufs_data_block_offset fs (data_blocks.getD (p / fs.bsize) 0) + p % fs.bsize < image.length) :
    (read_ufs_inode_range fs image inode offset size).map some =
      ((positions inode offset size).filter (· < data_blocks.length * fs.bsize)).map
        (host_byte fs image data_blocks) := by
  unfold read_ufs_inode_range
  by_cases empty : min size (inode.size - max 0 offset) ≤ 0
  · have none : positions inode offset size = [] := by
      unfold positions
      rw [Int.toNat_of_nonpos empty]
      rfl
    rw [none, if_pos empty, ite_self]
    rfl
  · rw [if_neg (by omega), if_neg empty, listed, read_ufs_data_range_bytes pos]
    · congr 1
      unfold positions
      generalize (max 0 offset).toNat = start
      generalize (min size (inode.size - max 0 offset)).toNat = n
      exact (filter_span _ _ _).symm
    · intro p lower upper
      refine inside p ?_
      exact mem_range'_1.mpr ⟨lower, upper⟩

theorem kernel_byte_hole (pos : 0 < fs.nindir)
    (hole : (logical_blocks fs image inode)[p / fs.bsize]? = some 0) :
    kernel_byte fs image inode p = some 0 := by
  unfold kernel_byte
  rw [bmap_eq pos, hole]
  rfl

theorem kernel_byte_mapped (pos : 0 < fs.nindir) {p b : Nat} (mapped : b ≠ 0)
    (at_block : (logical_blocks fs image inode)[p / fs.bsize]? = some b) :
    kernel_byte fs image inode p = image[ufs_data_block_offset fs b + p % fs.bsize]? := by
  unfold kernel_byte
  rw [bmap_eq pos, at_block]
  cases b with
  | zero => exact absurd rfl mapped
  | succ b => rfl

theorem reads_agree_of_no_hole (sound : Sound fs image inode)
    (no_hole : 0 ∉ (logical_blocks fs image inode).take (needed_blocks fs inode))
    (same : SameTree fs image inode image') : ReadsAgree fs image' inode := by
  intro offset size
  have list : ufs_inode_data_blocks fs image' inode =
      (logical_blocks fs image inode).take (needed_blocks fs inode) := by
    rw [same.data_blocks, data_blocks_eq]
    exact take_filter sound.addressable no_hole
  have length : ((logical_blocks fs image inode).take (needed_blocks fs inode)).length =
      needed_blocks fs inode := by
    rw [length_take, min_eq_left sound.addressable]
  have mapped : ∀ p ∈ positions inode offset size, ∃ b ≠ 0,
      (logical_blocks fs image inode)[p / fs.bsize]? = some b ∧
      ((logical_blocks fs image inode).take (needed_blocks fs inode)).getD (p / fs.bsize) 0 =
        b := by
    intro p mem
    have small : p / fs.bsize < needed_blocks fs inode := (lt_needed sound.bsize_pos).mpr
        (lt_of_le_of_lt (div_mul_le_self _ _) (mem_positions mem))
    have found := getElem?_eq_getElem (length.symm ▸ small)
    refine ⟨_, fun null => no_hole (null ▸ getElem_mem (length.symm ▸ small)), ?_, ?_⟩
    · rw [← found, getElem?_take, if_pos small]
    · rw [getD_eq_getElem _ _ (length.symm ▸ small)]
  rw [read_ufs_inode_range_bytes list sound.bsize_pos]
  · rw [filter_eq_self.mpr]
    · refine map_congr_left fun p mem => ?_
      obtain ⟨b, live, at_block, listed⟩ := mapped p mem
      rw [host_byte, listed, kernel_byte_mapped sound.nindir_pos live]
      rw [same.logical, at_block]
    · intro p mem
      have whole : inode.size ≤ needed_blocks fs inode * fs.bsize := Nat.le_of_not_lt fun short =>
          lt_irrefl _ ((lt_needed sound.bsize_pos).mpr short)
      have below := mem_positions mem
      rw [length]
      exact decide_eq_true (by omega)
  · intro p mem _
    obtain ⟨b, live, at_block, listed⟩ := mapped p mem
    rw [listed, same.length_eq]
    exact sound.inside p (mem_positions mem) b at_block live

theorem hole_disagrees (sound : Sound fs image inode) (below : i < needed_blocks fs inode)
    (hole : (logical_blocks fs image inode)[i]? = some 0) :
    ∃ image', SameTree fs image inode image' ∧ ¬ ReadsAgree fs image' inode := by
  have pos := sound.bsize_pos
  have in_file := (lt_needed pos).mp below
  have one : positions inode ((i * fs.bsize : Nat) : Int) 1 = [i * fs.bsize] := by
    unfold positions
    have start : (max 0 ((i * fs.bsize : Nat) : Int)).toNat = i * fs.bsize := by omega
    have count : (min 1 ((inode.size : Int) - max 0 ((i * fs.bsize : Nat) : Int))).toNat = 1 := by
      omega
    rw [start, count]
    rfl
  have block : i * fs.bsize / fs.bsize = i := Nat.mul_div_cancel _ pos
  have zero : ∀ {image'}, SameTree fs image inode image' →
      kernel_byte fs image' inode (i * fs.bsize) = some 0 := by
    intro image' same
    refine kernel_byte_hole sound.nindir_pos ?_
    rw [same.logical, block, hole]
  cases found : (ufs_inode_data_blocks fs image inode)[i]? with
  | none =>
    refine ⟨image, SameTree.refl, fun agree => ?_⟩
    have short := getElem?_eq_none_iff.mp found
    have read := agree ((i * fs.bsize : Nat) : Int) 1
    rw [read_ufs_inode_range_bytes rfl pos _ _ ?_, one, map_singleton,
      zero SameTree.refl] at read
    · have past : ¬ i * fs.bsize < (ufs_inode_data_blocks fs image inode).length * fs.bsize :=
        not_lt.mpr (mul_le_mul_right _ short)
      rw [filter_cons_of_neg (by simpa using past)] at read
      cases read
    · intro p mem
      rw [one, mem_singleton] at mem
      rw [mem, block]
      intro inside
      omega
  | some b =>
    obtain ⟨inside, rfl⟩ := List.getElem?_eq_some_iff.mp found
    have mem := getElem_mem inside
    generalize (ufs_inode_data_blocks fs image inode)[i] = b at found mem
    have listed := mem
    rw [data_blocks_eq] at listed
    have kept := mem_filter.mp (mem_of_mem_take listed)
    have mapped : b ≠ 0 := by simpa using kept.2
    have starts := sound.begins b kept.1 mapped
    -- any byte may stand at the start of that block
    have same : SameTree fs image inode (image.set (ufs_data_block_offset fs b) 1) :=
      SameTree.of_set 1 (sound.apart b kept.1 mapped)
    refine ⟨_, same, fun agree => ?_⟩
    have read := agree ((i * fs.bsize : Nat) : Int) 1
    have at_start : (ufs_inode_data_blocks fs image inode).getD i 0 = b := by
      rw [getD_eq_getElem?_getD, found]
      rfl
    rw [read_ufs_inode_range_bytes same.data_blocks pos _ _ ?_, one, map_singleton,
      zero same] at read
    · have reached : i * fs.bsize < (ufs_inode_data_blocks fs image inode).length * fs.bsize :=
        mul_lt_mul_of_pos_right inside pos
      rw [filter_cons_of_pos (by simpa using reached), filter_nil, map_singleton,
        host_byte, block, at_start, mul_mod_left, add_zero,
        getElem?_set_self starts] at read
      cases read
    · intro p mem
      rw [one, mem_singleton] at mem
      rw [mem, block, at_start, mul_mod_left, length_set]
      exact fun _ => starts

/-- The host reads what the kernel's block map says, whatever the data, exactly when no block below
the end of the file is a hole. -/
theorem sparse_reads_agree_iff (sound : Sound fs image inode) :
    (∀ image', SameTree fs image inode image' → ReadsAgree fs image' inode) ↔
      0 ∉ (logical_blocks fs image inode).take (needed_blocks fs inode) := by
  constructor
  · intro agree hole
    obtain ⟨i, at_hole⟩ := mem_iff_getElem?.mp hole
    rw [getElem?_take] at at_hole
    split at at_hole
    · next below =>
      obtain ⟨image', same, wrong⟩ := hole_disagrees sound below at_hole
      exact wrong (agree image' same)
    · cases at_hole
  · exact fun no_hole image' same => reads_agree_of_no_hole sound no_hole same

def three_blocks : Filesystem := ⟨0, 4096, 1024, 1⟩

def three_blocks_image : Bytes :=
  replicate 4096 0 ++ replicate 4096 7 ++ replicate 4096 9

def two_blocks (b₀ b₁ : Nat) : Inode := ⟨8192, b₀ :: b₁ :: replicate 10 0, [0, 0, 0], rfl, rfl⟩

/-- A file whose first block is a hole reads as if it began with its second block. -/
theorem first_block_hole_read : ¬ ReadsAgree three_blocks three_blocks_image (two_blocks 0 4) := by
  intro agree
  have first := agree 0 1
  revert first
  decide +kernel

theorem two_blocks_sound : Sound three_blocks three_blocks_image (two_blocks 4 8) := by
  have only : ∀ b ∈ logical_blocks three_blocks three_blocks_image (two_blocks 4 8), b ≠ 0 →
      b = 4 ∨ b = 8 := by
    intro b mem mapped
    have kept : b ∈ live (logical_blocks three_blocks three_blocks_image (two_blocks 4 8)) :=
      mem_filter.mpr ⟨mem, by simpa using mapped⟩
    unfold logical_blocks DataBlocks.logical_blocks two_blocks at kept
    rw [live_append, below, below, below, below, live_append, live_append, live_append,
      live_leaves_null, live_leaves_null, live_leaves_null] at kept
    simpa [live] using kept
  have placed : ∀ b ∈ logical_blocks three_blocks three_blocks_image (two_blocks 4 8), b ≠ 0 →
      ufs_data_block_offset three_blocks b + 4096 ≤ three_blocks_image.length := by
    intro b mem mapped
    have length : three_blocks_image.length = 12288 := by
      unfold three_blocks_image
      rw [length_append, length_append, length_replicate, length_replicate, length_replicate]
    rw [length]
    obtain rfl | rfl := only b mem mapped
    · decide
    · decide
  constructor
  · decide
  · decide
  · refine le_trans ?_ (length_append ▸ le_add_right _ _)
    decide
  · intro b mem mapped
    exact Nat.lt_of_lt_of_le (Nat.lt_add_of_pos_right (by decide)) (placed b mem mapped)
  · intro pos _ b at_block mapped
    have fits := placed b (mem_of_getElem? at_block) mapped
    have short : pos % three_blocks.bsize < 4096 := mod_lt _ (by decide)
    omega
  · intro b _ _ p mem
    cases mem

theorem two_blocks_agree : ReadsAgree three_blocks three_blocks_image (two_blocks 4 8) :=
  (sparse_reads_agree_iff two_blocks_sound).mpr (by
    unfold logical_blocks DataBlocks.logical_blocks
    rw [take_append_of_le_length (by decide)]
    decide) _ SameTree.refl

end BlockMap
