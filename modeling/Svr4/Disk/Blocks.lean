import Svr4.Disk.Inspection

/- What is parsed from the blocks that are built. -/
namespace Disk
open ByteImages List Option

section Numbers
variable {n v a : Nat} {i : Int} {bs base : List Nat} {ws : List (Write Nat)}

theorem unsigned_some (h : unsigned n v = some bs) : v < 256 ^ n ∧ bs = to_bytes n v := by
  unfold unsigned at h
  split at h
  · next small => exact ⟨small, (some.inj h).symm⟩
  · exact absurd h (by simp)

theorem signed_some (h : signed n i = some bs) :
    (-(256 ^ n : Nat) ≤ 2 * i ∧ 2 * i < (256 ^ n : Nat)) ∧ bs = to_signed n i := by
  unfold signed at h
  split at h
  · next small => exact ⟨small, (some.inj h).symm⟩
  · exact absurd h (by simp)

theorem number_lay (fits : ∀ w ∈ ws, w.Fits base.length) (apart : ws.Pairwise Write.Apart)
    (mem : ⟨a, n, to_bytes n v⟩ ∈ ws) (small : v < 256 ^ n) :
    from_bytes (slice (lay base ws) a n) = v := by
  have read := slice_lay (i := 0) (n := n) fits apart mem (by simp)
  have whole := slice_all (to_bytes n v)
  rw [length_to_bytes] at whole
  rw [show slice (lay base ws) a n = to_bytes n v from read.trans whole, from_to_bytes small]

theorem signed_lay (fits : ∀ w ∈ ws, w.Fits base.length) (apart : ws.Pairwise Write.Apart)
    (mem : ⟨a, n, to_signed n i⟩ ∈ ws)
    (small : -(256 ^ n : Nat) ≤ 2 * i ∧ 2 * i < (256 ^ n : Nat)) :
    from_signed (slice (lay base ws) a n) = i := by
  have read := slice_lay (i := 0) (n := n) fits apart mem (by simp)
  have whole := slice_all (to_signed n i)
  rw [length_to_signed] at whole
  rw [show slice (lay base ws) a n = to_signed n i from read.trans whole,
    from_to_signed small.1 small.2]

theorem slice_agree {raw sector : List Nat} {m k : Nat} (same : slice raw k m = slice sector 0 m)
    (within : a + n ≤ m) : slice raw (k + a) n = slice sector a n := by
  have inner := congrArg (slice · a n) same
  rw [slice_slice within, slice_slice within, Nat.zero_add] at inner
  exact inner

end Numbers

section Pdinfo
variable {geometry : RawDiskGeometry} {logical_sector_0 vtoc_ptr vtoc_len alt_ptr alt_len : Nat}
  {sector raw : List Nat}

def pdinfo_writes (geometry : RawDiskGeometry)
    (logical_sector_0 vtoc_ptr vtoc_len alt_ptr alt_len : Nat) : List (Write Nat) :=
  [⟨0, 4, to_bytes 4 0⟩, ⟨4, 4, to_bytes 4 VALID_PD⟩, ⟨8, 4, to_bytes 4 1⟩,
    ⟨24, 4, to_bytes 4 geometry.cylinders⟩, ⟨28, 4, to_bytes 4 geometry.heads⟩,
    ⟨32, 4, to_bytes 4 geometry.sectors_per_track⟩, ⟨36, 4, to_bytes 4 SECTOR_SIZE⟩,
    ⟨40, 4, to_bytes 4 logical_sector_0⟩, ⟨84, 4, to_bytes 4 vtoc_ptr⟩,
    ⟨88, 2, to_bytes 2 vtoc_len⟩, ⟨92, 4, to_bytes 4 alt_ptr⟩,
    ⟨96, 2, to_bytes 2 alt_len⟩]

section
variable
  (built : build_pdinfo geometry logical_sector_0 vtoc_ptr vtoc_len alt_ptr alt_len = some sector)
include built

theorem built_pdinfo : (geometry.cylinders < 256 ^ 4 ∧ geometry.heads < 256 ^ 4 ∧
      geometry.sectors_per_track < 256 ^ 4 ∧ logical_sector_0 < 256 ^ 4 ∧ vtoc_ptr < 256 ^ 4 ∧
      vtoc_len < 256 ^ 2 ∧ alt_ptr < 256 ^ 4 ∧ alt_len < 256 ^ 2) ∧
    sector = lay (replicate SECTOR_SIZE 0)
      (pdinfo_writes geometry logical_sector_0 vtoc_ptr vtoc_len alt_ptr alt_len) := by
  unfold build_pdinfo at built
  simp only [bind_eq_bind, bind_eq_some_iff, Option.pure_def, some.injEq]
    at built
  obtain ⟨cylinders, h1, heads, h2, sectors, h3, logical, h4, vptr, h5, vlen, h6, aptr, h7, alen,
    h8, rfl⟩ := built
  obtain ⟨l1, rfl⟩ := unsigned_some h1
  obtain ⟨l2, rfl⟩ := unsigned_some h2
  obtain ⟨l3, rfl⟩ := unsigned_some h3
  obtain ⟨l4, rfl⟩ := unsigned_some h4
  obtain ⟨l5, rfl⟩ := unsigned_some h5
  obtain ⟨l6, rfl⟩ := unsigned_some h6
  obtain ⟨l7, rfl⟩ := unsigned_some h7
  obtain ⟨l8, rfl⟩ := unsigned_some h8
  exact ⟨⟨l1, l2, l3, l4, l5, l6, l7, l8⟩, rfl⟩

theorem parse_built_pdinfo : sector.length = SECTOR_SIZE ∧
    ∀ raw : List Nat, 98 ≤ raw.length → slice raw 0 98 = slice sector 0 98 → parse_pdinfo raw = some
        { drive_id := 0
          sanity := VALID_PD
          version := 1
          serial := []
          cylinders := geometry.cylinders
          tracks := geometry.heads
          sectors := geometry.sectors_per_track
          bytes_per_sector := SECTOR_SIZE
          logical_sector_0 := logical_sector_0
          vtoc_ptr := vtoc_ptr
          vtoc_len := vtoc_len
          alt_ptr := alt_ptr
          alt_len := alt_len } := by
  obtain ⟨⟨l1, l2, l3, l4, l5, l6, l7, l8⟩, sector_eq⟩ := built_pdinfo built
  generalize ws_eq :
    pdinfo_writes geometry logical_sector_0 vtoc_ptr vtoc_len alt_ptr alt_len = ws at sector_eq
  unfold pdinfo_writes at ws_eq
  have fits : ∀ w ∈ ws, w.Fits (replicate SECTOR_SIZE 0).length := by
    rw [← ws_eq, length_replicate]
    simp [Write.Fits, SECTOR_SIZE]
  have apart : ws.Pairwise Write.Apart := by
    rw [← ws_eq]
    simp [Write.Apart]
  refine ⟨?_, fun raw long same => ?_⟩
  · rw [sector_eq, length_lay fits, length_replicate]
  · have field : ∀ a n v, a + n ≤ 98 → (⟨a, n, to_bytes n v⟩ : Write Nat) ∈ ws → v < 256 ^ n →
        from_bytes (slice raw a n) = v := by
      intro a n v within mem small
      rw [← Nat.zero_add a, slice_agree same within, sector_eq]
      exact number_lay fits apart mem small
    have blank : slice raw 12 12 = replicate 12 0 := by
      rw [← Nat.zero_add 12, slice_agree same (by decide), sector_eq, slice_lay_apart fits]
      · exact slice_replicate 0 SECTOR_SIZE (by decide)
      · rw [← ws_eq]
        simp
    unfold parse_pdinfo u32 u16
    rw [if_neg (by omega), blank, field 0 4 0 (by decide) (by simp [← ws_eq]) (by decide),
      field 4 4 VALID_PD (by decide) (by simp [← ws_eq]) (by decide),
      field 8 4 1 (by decide) (by simp [← ws_eq]) (by decide),
      field 24 4 _ (by decide) (by simp [← ws_eq]) l1, field 28 4 _ (by decide) (by simp [← ws_eq]) l2,
      field 32 4 _ (by decide) (by simp [← ws_eq]) l3,
      field 36 4 SECTOR_SIZE (by decide) (by simp [← ws_eq]) (by decide),
      field 40 4 _ (by decide) (by simp [← ws_eq]) l4, field 84 4 _ (by decide) (by simp [← ws_eq]) l5,
      field 88 2 _ (by decide) (by simp [← ws_eq]) l6, field 92 4 _ (by decide) (by simp [← ws_eq]) l7,
      field 96 2 _ (by decide) (by simp [← ws_eq]) l8]
    rfl

end

end Pdinfo

section Vtoc
variable {volume sector raw : List Nat} {partitions : List VtocPartition}
  {partition : VtocPartition}

def entry_writes (partition : VtocPartition) : List (Write Nat) :=
  [⟨60 + partition.index * 12, 2, to_bytes 2 partition.tag⟩,
    ⟨60 + partition.index * 12 + 2, 2, to_bytes 2 partition.flag⟩,
    ⟨60 + partition.index * 12 + 4, 4, to_signed 4 partition.start_sector⟩,
    ⟨60 + partition.index * 12 + 8, 4, to_signed 4 partition.sector_count⟩]

structure VtocPartition.Fits (partition : VtocPartition) : Prop where
  tag : partition.tag < 256 ^ 2
  flag : partition.flag < 256 ^ 2
  start_sector : -(256 ^ 4 : Nat) ≤ 2 * partition.start_sector ∧
    2 * partition.start_sector < (256 ^ 4 : Nat)
  sector_count : -(256 ^ 4 : Nat) ≤ 2 * partition.sector_count ∧
    2 * partition.sector_count < (256 ^ 4 : Nat)

theorem vtoc_entry_some {entry : List (Write Nat)} (written : vtoc_entry partition = some entry) :
    partition.Fits ∧ entry = entry_writes partition := by
  unfold vtoc_entry at written
  simp only [bind_eq_bind, bind_eq_some_iff, Option.pure_def, some.injEq]
    at written
  obtain ⟨tag, h1, flag, h2, start, h3, count, h4, rfl⟩ := written
  obtain ⟨l1, rfl⟩ := unsigned_some h1
  obtain ⟨l2, rfl⟩ := unsigned_some h2
  obtain ⟨l3, rfl⟩ := signed_some h3
  obtain ⟨l4, rfl⟩ := signed_some h4
  exact ⟨⟨l1, l2, l3, l4⟩, rfl⟩

theorem vtoc_entries_some {entries : List (List (Write Nat))}
    (written : partitions.mapM vtoc_entry = some entries) :
    (∀ p ∈ partitions, p.Fits) ∧ entries = partitions.map entry_writes := by
  induction partitions generalizing entries with
  | nil =>
    obtain rfl : entries = [] := by simpa using written.symm
    exact ⟨by simp, rfl⟩
  | cons p ps ih =>
    rw [mapM_cons] at written
    simp only [bind_eq_bind, bind_eq_some_iff, Option.pure_def, some.injEq]
      at written
    obtain ⟨entry, first, rest, others, rfl⟩ := written
    obtain ⟨fits, rfl⟩ := vtoc_entry_some first
    obtain ⟨all, rfl⟩ := ih others
    refine ⟨fun q mem => ?_, rfl⟩
    rcases mem_cons.mp mem with rfl | later
    · exact fits
    · exact all q later

theorem entry_within {w : Write Nat} (mem : w ∈ entry_writes partition) : w.bytes.length = w.len ∧
      60 + partition.index * 12 ≤ w.start ∧ w.start + w.len ≤ 60 + partition.index * 12 + 12 := by
  simp only [entry_writes, mem_cons, not_mem_nil, or_false] at mem
  rcases mem with rfl | rfl | rfl | rfl
  all_goals
    refine ⟨by simp, ?_, ?_⟩
    all_goals
      dsimp only
      omega

theorem entry_apart (partition : VtocPartition) :
    (entry_writes partition).Pairwise Write.Apart := by
  simp [entry_writes, Write.Apart]

def vtoc_writes (volume : List Nat) (partitions : List VtocPartition) : List (Write Nat) :=
  [⟨0, 4, to_bytes 4 VTOC_SANE⟩, ⟨4, 4, to_bytes 4 1⟩,
    ⟨8, 8, volume.take 8 ++ replicate (8 - volume.length) 0⟩,
    ⟨16, 2, to_bytes 2 ((partitions.map fun partition => partition.index + 1).foldl max 0)⟩] ++
      (partitions.map entry_writes).flatten

theorem built_vtoc (built : build_vtoc volume partitions = some sector) :
    (∀ p ∈ partitions, p.Fits) ∧
      (partitions.map fun partition => partition.index + 1).foldl max 0 < 256 ^ 2 ∧
      sector = lay (replicate SECTOR_SIZE 0) (vtoc_writes volume partitions) := by
  unfold build_vtoc at built
  simp only [bind_eq_bind, bind_eq_some_iff, Option.pure_def, some.injEq]
    at built
  obtain ⟨count, h1, entries, h2, rfl⟩ := built
  obtain ⟨small, rfl⟩ := unsigned_some h1
  obtain ⟨fits, rfl⟩ := vtoc_entries_some h2
  exact ⟨fits, small, rfl⟩

theorem vtoc_writes_fit (indices : ∀ p ∈ partitions, p.index < 16) :
    ∀ w ∈ vtoc_writes volume partitions, w.Fits (replicate SECTOR_SIZE 0).length := by
  intro w mem
  rw [length_replicate]
  rcases mem_append.mp mem with head | entry
  · simp only [mem_cons, not_mem_nil, or_false] at head
    rcases head with rfl | rfl | rfl | rfl
    · simp [Write.Fits, SECTOR_SIZE]
    · simp [Write.Fits, SECTOR_SIZE]
    · refine ⟨?_, show 8 + 8 ≤ 512 by decide⟩
      rw [length_append, length_take, length_replicate]
      dsimp only
      omega
    · simp [Write.Fits, SECTOR_SIZE]
  · obtain ⟨p, in_partitions, in_entry⟩ := mem_flatten.mp entry |>.imp' id fun _ h => h
    obtain ⟨q, q_mem, rfl⟩ := mem_map.mp in_partitions
    obtain ⟨exact_, -, below⟩ := entry_within in_entry
    have := indices q q_mem
    exact ⟨exact_, by unfold SECTOR_SIZE; omega⟩

theorem vtoc_writes_apart (distinct : (partitions.map VtocPartition.index).Nodup) :
    (vtoc_writes volume partitions).Pairwise Write.Apart := by
  unfold vtoc_writes
  rw [pairwise_append]
  refine ⟨by simp [Write.Apart], ?_, ?_⟩
  · rw [pairwise_flatten]
    refine ⟨fun entry mem => ?_, ?_⟩
    · obtain ⟨p, -, rfl⟩ := mem_map.mp mem
      exact entry_apart p
    · rw [pairwise_map]
      unfold Nodup at distinct
      rw [pairwise_map] at distinct
      refine distinct.imp fun {p q} differ v v_mem w w_mem => ?_
      obtain ⟨-, v_low, v_high⟩ := entry_within v_mem
      obtain ⟨-, w_low, w_high⟩ := entry_within w_mem
      unfold Write.Apart
      omega
  · intro v v_mem w w_mem
    obtain ⟨entry, in_entries, in_entry⟩ := mem_flatten.mp w_mem
    obtain ⟨p, -, rfl⟩ := mem_map.mp in_entries
    obtain ⟨-, low, -⟩ := entry_within in_entry
    simp only [mem_cons, not_mem_nil, or_false] at v_mem
    left
    rcases v_mem with rfl | rfl | rfl | rfl
    all_goals
      dsimp only
      omega

theorem slice_drop (raw : List Nat) (offset a n : Nat) :
    slice (raw.drop offset) a n = slice raw (offset + a) n := by
  unfold slice
  rw [drop_drop]

theorem takeWhile_blank (l : List Nat) (k : Nat) :
    (l ++ replicate k 0).takeWhile (· ≠ 0) = l.takeWhile (· ≠ 0) := by
  induction l with
  | nil => cases k <;> rfl
  | cons x l ih => rw [cons_append, takeWhile_cons, takeWhile_cons, ih]

theorem parse_built_vtoc (distinct : (partitions.map VtocPartition.index).Nodup)
    (indices : ∀ p ∈ partitions, p.index < 16)
    (built : build_vtoc volume partitions = some sector) : sector.length = SECTOR_SIZE ∧
    ∀ (raw : List Nat) (offset : Nat), offset + 252 ≤ raw.length →
      slice raw offset 252 = slice sector 0 252 →
      ∃ info, parse_vtoc raw offset = some info ∧ info.sanity = VTOC_SANE ∧ info.version = 1 ∧
        info.volume = (volume.take 8).takeWhile (· ≠ 0) ∧
        info.partition_count = (partitions.map fun partition => partition.index + 1).foldl max 0 ∧
        (∀ p ∈ partitions, info.partitions[p.index]? = some p) ∧
        ∀ i < 16, (∀ p ∈ partitions, p.index ≠ i) → info.partitions[i]? = some ⟨i, 0, 0, 0, 0⟩ := by
  obtain ⟨numbers, count, sector_eq⟩ := built_vtoc built
  have fits := @vtoc_writes_fit volume partitions indices
  have apart := @vtoc_writes_apart volume partitions distinct
  refine ⟨by rw [sector_eq, length_lay fits, length_replicate], fun raw offset long same => ?_⟩
  have view : ∀ a n, a + n ≤ 252 → slice (raw.drop offset) a n =
      slice (lay (replicate SECTOR_SIZE 0) (vtoc_writes volume partitions)) a n := by
    intro a n within
    rw [slice_drop, slice_agree same within, sector_eq]
  have header : ∀ a n v, a + n ≤ 252 →
      (⟨a, n, to_bytes n v⟩ : Write Nat) ∈ vtoc_writes volume partitions → v < 256 ^ n →
        from_bytes (slice (raw.drop offset) a n) = v := by
    intro a n v within mem small
    rw [view a n within]
    exact number_lay fits apart mem small
  refine ⟨_, if_neg (by rw [length_drop]; omega), ?_, ?_, ?_, ?_, ?_, ?_⟩
  · exact header 0 4 _ (by decide) (by simp [vtoc_writes]) (by decide)
  · exact header 4 4 _ (by decide) (by simp [vtoc_writes]) (by decide)
  · have name : slice (raw.drop offset) 8 8 = volume.take 8 ++ replicate (8 - volume.length) 0 := by
      rw [view 8 8 (by decide)]
      have read := slice_lay (w := ⟨8, 8, volume.take 8 ++ replicate (8 - volume.length) 0⟩)
        (i := 0) (n := 8) fits apart (by simp [vtoc_writes]) (by simp)
      refine read.trans ?_
      unfold slice
      rw [drop_zero, take_of_length_le]
      rw [length_append, length_take, length_replicate]
      omega
    rw [name, takeWhile_blank]
  · exact header 16 2 _ (by decide) (by simp [vtoc_writes]) count
  · intro p mem
    have below := indices p mem
    have within_entry : ∀ w ∈ entry_writes p, w ∈ vtoc_writes volume partitions := fun w in_entry =>
      mem_append_right _ (mem_flatten.mpr ⟨_, mem_map_of_mem mem, in_entry⟩)
    have numbers := numbers p mem
    have tag : u16 (slice (raw.drop offset) (60 + p.index * 12) 12) 0 = p.tag := by
      unfold u16
      rw [slice_slice (by decide)]
      exact header _ 2 _ (by omega) (within_entry _ (by simp [entry_writes])) numbers.tag
    have flag : u16 (slice (raw.drop offset) (60 + p.index * 12) 12) 2 = p.flag := by
      unfold u16
      rw [slice_slice (by decide)]
      exact header _ 2 _ (by omega) (within_entry _ (by simp [entry_writes])) numbers.flag
    have start_sector :
        i32 (slice (raw.drop offset) (60 + p.index * 12) 12) 4 = p.start_sector := by
      unfold i32
      rw [slice_slice (by decide), view _ 4 (by omega)]
      exact signed_lay fits apart (within_entry _ (by simp [entry_writes])) numbers.start_sector
    have sector_count :
        i32 (slice (raw.drop offset) (60 + p.index * 12) 12) 8 = p.sector_count := by
      unfold i32
      rw [slice_slice (by decide), view _ 4 (by omega)]
      exact signed_lay fits apart (within_entry _ (by simp [entry_writes])) numbers.sector_count
    rw [getElem?_map, getElem?_range below]
    show some (VtocPartition.mk p.index (u16 (slice (raw.drop offset) (60 + p.index * 12) 12) 0)
      (u16 (slice (raw.drop offset) (60 + p.index * 12) 12) 2)
      (i32 (slice (raw.drop offset) (60 + p.index * 12) 12) 4)
      (i32 (slice (raw.drop offset) (60 + p.index * 12) 12) 8)) = some p
    rw [tag, flag, start_sector, sector_count]
  · intro i below unused
    have blank : slice (raw.drop offset) (60 + i * 12) 12 = replicate 12 0 := by
      rw [view _ 12 (by omega), slice_lay_apart fits]
      · exact slice_replicate 0 SECTOR_SIZE (by unfold SECTOR_SIZE; omega)
      · intro w mem
        rcases mem_append.mp mem with head | entry
        · right
          simp only [mem_cons, not_mem_nil, or_false] at head
          rcases head with rfl | rfl | rfl | rfl
          all_goals
            dsimp only
            omega
        · obtain ⟨entry, in_entries, in_entry⟩ := mem_flatten.mp entry
          obtain ⟨p, p_mem, rfl⟩ := mem_map.mp in_entries
          obtain ⟨-, low, high⟩ := entry_within in_entry
          have := unused p p_mem
          omega
    rw [getElem?_map, getElem?_range below]
    rw [map_some, parse_vtoc_partition, blank]
    rfl

end Vtoc

theorem parse_built_alt_info : build_empty_alt_info.length = 2048 ∧
    parse_alt_info build_empty_alt_info 0 =
      some ⟨ALT_SANITY, ALT_VERSION, ⟨0, 0, 0, []⟩, ⟨0, 0, 0, []⟩⟩ := by
  decide +kernel

section Mbr
variable {geometry : RawDiskGeometry} {disk_addressing : Addressing}
  {unix_partition_start unix_partition_size : Nat} {boot_code entry sector : List Nat}

def RawDiskGeometry.chs_sectors (geometry : RawDiskGeometry) : Nat :=
  MAX_CHS_CYLINDERS * geometry.heads * geometry.sectors_per_track

def PartitionEntry.Covers (p : PartitionEntry) (geometry : RawDiskGeometry) (start size : Nat) : Prop :=
  p.start_lba = start ∧ p.sector_count = size ∧
    (start < geometry.chs_sectors → geometry.sector p.start_chs = start) ∧
    (start + (size - 1) < geometry.chs_sectors → geometry.sector p.end_chs = start + (size - 1))

section
variable (valid : geometry.Valid disk_addressing)
  (inside : ValidUnixPartition geometry.total_sectors unix_partition_start unix_partition_size)
include valid inside

theorem serialized_entry {saturate : Bool}
    (serialized : serialize_partition_entry unix_partition_start unix_partition_size geometry
      saturate = some entry) : entry.length = 16 ∧
    ∀ index, ∃ p, parse_partition_entry index entry = some p ∧ p.bootable = true ∧
      p.partition_type = UNIXWARE_PARTITION_TYPE ∧
      p.Covers geometry unix_partition_start unix_partition_size := by
  obtain ⟨first, some_sectors, last⟩ := inside
  unfold serialize_partition_entry at serialized
  simp only [bind_eq_bind, bind_eq_some_iff, Option.pure_def, some.injEq]
    at serialized
  obtain ⟨start_chs, start_eq, end_chs, end_eq, lba, lba_eq, count, count_eq, rfl⟩ := serialized
  obtain ⟨lba_small, rfl⟩ := unsigned_some lba_eq
  obtain ⟨count_small, rfl⟩ := unsigned_some count_eq
  obtain ⟨start_length, start_back⟩ := decode_encode_chs valid start_eq
  obtain ⟨end_length, end_back⟩ := decode_encode_chs valid end_eq
  match start_chs, start_length with
  | [a, b, c], _ =>
    match end_chs, end_length with
    | [d, e, f], _ =>
      have long : ([0x80] ++ [a, b, c] ++ [UNIXWARE_PARTITION_TYPE] ++ [d, e, f] ++
          to_bytes 4 unix_partition_start ++ to_bytes 4 unix_partition_size).length = 16 := by simp
      refine ⟨long, fun index => ⟨_, if_neg (not_not_intro long), rfl, rfl, ?_, ?_, ?_, ?_⟩⟩
      · exact from_to_bytes lba_small
      · exact from_to_bytes count_small
      · exact fun fits => start_back (by omega) (by omega) fits
      · exact fun fits => end_back (by omega) (by omega) fits

theorem parse_built_mbr
    (built : build_mbr geometry unix_partition_start unix_partition_size boot_code disk_addressing
      = some sector) : sector.length = SECTOR_SIZE ∧
    ∃ partitions p, parse_mbr_sector sector = some (0xAA55, partitions) ∧
      find_active_unix_partition partitions = some p ∧
      p.Covers geometry unix_partition_start unix_partition_size := by
  unfold build_mbr at built
  split at built
  · exact absurd built (by simp)
  next short =>
  simp only [bind_eq_bind, bind_eq_some_iff, Option.pure_def, some.injEq]
    at built
  obtain ⟨entry, serialized, sector_eq⟩ := built
  obtain ⟨entry_length, back⟩ := serialized_entry valid inside serialized
  obtain ⟨p, parsed, bootable, type_eq, facts⟩ := back 1
  obtain ⟨ws, ws_eq⟩ : ∃ ws : List (Write Nat), ws =
      [put 0 boot_code, ⟨446, 16, entry⟩, put 510 (to_bytes 2 0xAA55)] := ⟨_, rfl⟩
  rw [← ws_eq] at sector_eq
  have fits : ∀ w ∈ ws, w.Fits (replicate SECTOR_SIZE 0).length := by
    rw [ws_eq, length_replicate]
    intro w mem
    simp only [mem_cons, not_mem_nil, or_false] at mem
    rcases mem with rfl | rfl | rfl
    · refine ⟨rfl, ?_⟩
      show 0 + boot_code.length ≤ 512
      omega
    · exact ⟨entry_length, show 446 + 16 ≤ 512 by decide⟩
    · exact ⟨rfl, by decide⟩
  have apart : ws.Pairwise Write.Apart := by
    rw [ws_eq]
    simp only [pairwise_cons, mem_cons, not_mem_nil, or_false, forall_eq_or_imp,
      forall_eq, Write.Apart, put, length_to_bytes]
    simp
    omega
  have long : sector.length = SECTOR_SIZE := by
    rw [← sector_eq, length_lay fits, length_replicate]
  have signature : u16 sector 510 = 0xAA55 := by
    rw [← sector_eq]
    exact number_lay fits apart (by rw [ws_eq]; simp [put]) (by decide)
  have first : slice sector 446 16 = entry := by
    have read := slice_lay (w := ⟨446, 16, entry⟩) (i := 0) (n := 16) fits apart
      (by rw [ws_eq]; simp) (by simp)
    rw [← sector_eq]
    refine read.trans ?_
    rw [← entry_length, slice_all]
  have other : ∀ i, 0 < i → i < 4 → slice sector (446 + i * 16) 16 = replicate 16 0 := by
    intro i positive below
    rw [← sector_eq, slice_lay_apart fits]
    · exact slice_replicate 0 SECTOR_SIZE (by unfold SECTOR_SIZE; omega)
    · rw [ws_eq]
      intro w mem
      simp only [mem_cons, not_mem_nil, or_false] at mem
      rcases mem with rfl | rfl | rfl
      · right
        show 0 + boot_code.length ≤ _
        omega
      · right
        show 446 + 16 ≤ _
        omega
      · left
        show _ ≤ 510
        omega
  obtain ⟨blank, blank_parsed⟩ : ∃ blank : Nat → PartitionEntry, ∀ index,
      parse_partition_entry index (replicate 16 0) = some (blank index) :=
    ⟨_, fun index => rfl⟩
  refine ⟨long, [p, blank 2, blank 3, blank 4], p, ?_, ?_, facts⟩
  · unfold parse_mbr_sector
    rw [if_neg (not_not_intro long), signature]
    show (do
      let partitions ← [0, 1, 2, 3].mapM fun index =>
        parse_partition_entry (index + 1) (slice sector (446 + index * 16) 16)
      return (0xAA55, partitions)) = _
    simp only [mapM_cons, mapM_nil, other 1 (by decide) (by decide),
      other 2 (by decide) (by decide), other 3 (by decide) (by decide), blank_parsed]
    rw [show 446 + 0 * 16 = 446 from rfl, first, parsed]
    rfl
  · unfold find_active_unix_partition
    rw [find?_cons_of_pos (by simp [bootable, type_eq])]
    rfl

end

end Mbr

end Disk
