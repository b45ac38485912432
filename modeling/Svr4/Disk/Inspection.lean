import Mathlib.Tactic.Ring
import Svr4.ByteImages

/- host_tools/disk/create.py: an empty disk image. A number that is refused when it is negative,
   here or by `to_bytes`, is a Nat; where Python raises, nothing is returned. -/
namespace Disk
open ByteImages Nat

def SECTOR_SIZE : Nat := 512
def UNIXWARE_PARTITION_TYPE : Nat := 0x63
def HDPDLOC : Nat := 29
def VALID_PD : Nat := 0xCA5E600D
def VTOC_SANE : Nat := 0x600DDEEE
def ALT_SANITY : Nat := 0xDEADBEEF
def ALT_VERSION : Nat := 0x02
def MAX_ALTENTS : Nat := 253
def MAX_CHS_CYLINDERS : Nat := 1024
def MAX_KERNEL_CHS_HEADS : Nat := 16
def MAX_CHS_SECTORS_PER_TRACK : Nat := 63

inductive Addressing
  | chs
  | lba28
  deriving DecidableEq

structure RawDiskGeometry where
  cylinders : Nat
  heads : Nat
  sectors_per_track : Nat

structure VtocPartition where
  index : Nat
  tag : Nat
  flag : Nat
  start_sector : Int
  sector_count : Int
  deriving DecidableEq

namespace RawDiskGeometry
variable (geometry : RawDiskGeometry)

def total_sectors : Nat := geometry.cylinders * geometry.heads * geometry.sectors_per_track

def max_chs_lba : Nat := geometry.total_sectors - 1

def Valid (disk_addressing : Addressing) : Prop :=
  0 < geometry.cylinders ∧ 0 < geometry.heads ∧ 0 < geometry.sectors_per_track ∧
    (disk_addressing = .chs → geometry.cylinders ≤ MAX_CHS_CYLINDERS) ∧
    geometry.heads ≤ MAX_KERNEL_CHS_HEADS ∧
    geometry.sectors_per_track ≤ MAX_CHS_SECTORS_PER_TRACK

instance (disk_addressing : Addressing) : Decidable (geometry.Valid disk_addressing) :=
  inferInstanceAs (Decidable (_ ∧ _))

def encode_chs (lba : Nat) (saturate : Bool) : Option (List Nat) :=
  if lba = 0 then some [0, 0, 0]
  else if geometry.max_chs_lba < lba ∧ saturate = false then none
  else
    let lba := if geometry.max_chs_lba < lba then geometry.max_chs_lba else lba
    let lba :=
      if saturate then
        min lba (MAX_CHS_CYLINDERS * geometry.heads * geometry.sectors_per_track - 1)
      else lba
    let sectors_per_cylinder := geometry.heads * geometry.sectors_per_track
    let cylinder := lba / sectors_per_cylinder
    let temp := lba % sectors_per_cylinder
    let head := temp / geometry.sectors_per_track
    let sector := temp % geometry.sectors_per_track + 1
    let sector_byte := (sector &&& 0x3F) ||| ((cylinder >>> 2) &&& 0xC0)
    some [head &&& 0xFF, sector_byte &&& 0xFF, cylinder &&& 0xFF]

end RawDiskGeometry

def ValidUnixPartition (total_sectors unix_partition_start unix_partition_size : Nat) : Prop :=
  1 ≤ unix_partition_start ∧ 0 < unix_partition_size ∧
    unix_partition_start + unix_partition_size ≤ total_sectors

instance (total start size : Nat) : Decidable (ValidUnixPartition total start size) :=
  inferInstanceAs (Decidable (_ ∧ _))

def ValidVtocPartitions (unix_partition_start unix_partition_size : Nat)
    (partitions : List VtocPartition) : Prop :=
  (partitions.map VtocPartition.index).Nodup ∧
    ∀ partition ∈ partitions, partition.index < 16 ∧ 0 ≤ partition.start_sector ∧
      0 ≤ partition.sector_count ∧ unix_partition_start ≤ partition.start_sector ∧
      partition.start_sector + partition.sector_count ≤ unix_partition_start + unix_partition_size

instance (start size : Nat) (partitions : List VtocPartition) :
    Decidable (ValidVtocPartitions start size partitions) := inferInstanceAs (Decidable (_ ∧ _))

def unsigned (n v : Nat) : Option (List Nat) := if v < 256 ^ n then some (to_bytes n v) else none

def signed (n : Nat) (v : Int) : Option (List Nat) :=
  if -(256 ^ n : Nat) ≤ 2 * v ∧ 2 * v < (256 ^ n : Nat) then some (to_signed n v) else none

def put (start : Nat) (bytes : List Nat) : Write Nat := ⟨start, bytes.length, bytes⟩

def serialize_partition_entry (start_lba sector_count : Nat) (geometry : RawDiskGeometry)
    (saturate_chs : Bool) : Option (List Nat) := do
  let start_chs ← geometry.encode_chs start_lba saturate_chs
  let end_chs ← geometry.encode_chs (start_lba + (sector_count - 1)) saturate_chs
  let lba ← unsigned 4 start_lba
  let count ← unsigned 4 sector_count
  return [0x80] ++ start_chs ++ [UNIXWARE_PARTITION_TYPE] ++ end_chs ++ lba ++ count

def build_mbr (geometry : RawDiskGeometry) (unix_partition_start unix_partition_size : Nat)
    (boot_code : List Nat) (disk_addressing : Addressing) : Option (List Nat) :=
  if 446 < boot_code.length then none
  else do
    let entry ← serialize_partition_entry unix_partition_start unix_partition_size geometry
      (disk_addressing == .lba28)
    return lay (List.replicate SECTOR_SIZE 0)
      [put 0 boot_code, ⟨446, 16, entry⟩, put 510 (to_bytes 2 0xAA55)]

def build_pdinfo (geometry : RawDiskGeometry)
    (logical_sector_0 vtoc_ptr vtoc_len alt_ptr alt_len : Nat) : Option (List Nat) := do
  let cylinders ← unsigned 4 geometry.cylinders
  let heads ← unsigned 4 geometry.heads
  let sectors ← unsigned 4 geometry.sectors_per_track
  let logical_sector_0 ← unsigned 4 logical_sector_0
  let vtoc_ptr ← unsigned 4 vtoc_ptr
  let vtoc_len ← unsigned 2 vtoc_len
  let alt_ptr ← unsigned 4 alt_ptr
  let alt_len ← unsigned 2 alt_len
  return lay (List.replicate SECTOR_SIZE 0)
    [⟨0, 4, to_bytes 4 0⟩, ⟨4, 4, to_bytes 4 VALID_PD⟩, ⟨8, 4, to_bytes 4 1⟩, ⟨24, 4, cylinders⟩,
      ⟨28, 4, heads⟩, ⟨32, 4, sectors⟩, ⟨36, 4, to_bytes 4 SECTOR_SIZE⟩,
      ⟨40, 4, logical_sector_0⟩, ⟨84, 4, vtoc_ptr⟩, ⟨88, 2, vtoc_len⟩, ⟨92, 4, alt_ptr⟩,
      ⟨96, 2, alt_len⟩]

def vtoc_entry (partition : VtocPartition) : Option (List (Write Nat)) := do
  let entry_offset := 60 + partition.index * 12
  let tag ← unsigned 2 partition.tag
  let flag ← unsigned 2 partition.flag
  let start_sector ← signed 4 partition.start_sector
  let sector_count ← signed 4 partition.sector_count
  return [⟨entry_offset, 2, tag⟩, ⟨entry_offset + 2, 2, flag⟩, ⟨entry_offset + 4, 4, start_sector⟩,
    ⟨entry_offset + 8, 4, sector_count⟩]

/-- The volume's name as the eight bytes that it is encoded to. -/
def build_vtoc (volume : List Nat) (partitions : List VtocPartition) : Option (List Nat) := do
  let partition_count := (partitions.map fun partition => partition.index + 1).foldl max 0
  let count ← unsigned 2 partition_count
  let entries ← partitions.mapM vtoc_entry
  return lay (List.replicate SECTOR_SIZE 0)
    ([⟨0, 4, to_bytes 4 VTOC_SANE⟩, ⟨4, 4, to_bytes 4 1⟩,
      ⟨8, 8, volume.take 8 ++ List.replicate (8 - volume.length) 0⟩, ⟨16, 2, count⟩] ++
        entries.flatten)

def build_empty_alt_info : List Nat :=
  let track_table_offset := 8
  let sector_table_offset := track_table_offset + 8 + MAX_ALTENTS * 4
  lay (List.replicate 2048 0)
    [⟨0, 4, to_bytes 4 ALT_SANITY⟩, ⟨4, 2, to_bytes 2 ALT_VERSION⟩, ⟨6, 2, to_bytes 2 0⟩,
      ⟨track_table_offset, 2, to_bytes 2 0⟩, ⟨track_table_offset + 2, 2, to_bytes 2 0⟩,
      ⟨track_table_offset + 4, 4, to_signed 4 0⟩,
      ⟨sector_table_offset, 2, to_bytes 2 0⟩, ⟨sector_table_offset + 2, 2, to_bytes 2 0⟩,
      ⟨sector_table_offset + 4, 4, to_signed 4 0⟩]

def create_raw_image_skeleton (geometry : RawDiskGeometry)
    (unix_partition_start unix_partition_size : Nat) (volume : List Nat)
    (slices : List VtocPartition) (mbr_boot_code : List Nat) (disk_addressing : Addressing) :
    Option (List Nat) :=
  if geometry.Valid disk_addressing ∧
      ValidUnixPartition geometry.total_sectors unix_partition_start unix_partition_size ∧
      ValidVtocPartitions unix_partition_start unix_partition_size slices then do
    let mbr ← build_mbr geometry unix_partition_start unix_partition_size mbr_boot_code
      disk_addressing
    let vtoc_ptr := HDPDLOC * SECTOR_SIZE + 100
    let vtoc_len := 316
    let alt_ptr := 30 * SECTOR_SIZE
    let alt_info := build_empty_alt_info
    let alt_len := alt_info.length
    let pdinfo_sector := unix_partition_start + HDPDLOC
    let pdinfo ← build_pdinfo geometry unix_partition_start vtoc_ptr vtoc_len alt_ptr alt_len
    let vtoc_sector := unix_partition_start + vtoc_ptr / SECTOR_SIZE
    let vtoc_offset := vtoc_ptr % SECTOR_SIZE
    let vtoc_block ← build_vtoc volume slices
    let image_offset := vtoc_sector * SECTOR_SIZE + vtoc_offset
    if geometry.total_sectors * SECTOR_SIZE < image_offset + vtoc_block.length then none
    else
      let alt_sector := unix_partition_start + alt_ptr / SECTOR_SIZE
      let alt_offset := alt_ptr % SECTOR_SIZE
      let alt_image_offset := alt_sector * SECTOR_SIZE + alt_offset
      if geometry.total_sectors * SECTOR_SIZE < alt_image_offset + alt_info.length then none
      else
        return lay (List.replicate (geometry.total_sectors * SECTOR_SIZE) 0)
          [put 0 mbr, put (pdinfo_sector * SECTOR_SIZE) pdinfo, put image_offset vtoc_block,
            put alt_image_offset alt_info]
  else none

end Disk

/- host_tools/disk/mbr.py, svr4.py and inspect.py: what is read from a disk image. -/
namespace Disk
open ByteImages Nat

structure PartitionEntry where
  index : Nat
  bootable : Bool
  partition_type : Nat
  start_lba : Nat
  sector_count : Nat
  start_chs : Nat × Nat × Nat
  end_chs : Nat × Nat × Nat

structure PdInfo where
  drive_id : Nat
  sanity : Nat
  version : Nat
  serial : List Nat
  cylinders : Nat
  tracks : Nat
  sectors : Nat
  bytes_per_sector : Nat
  logical_sector_0 : Nat
  vtoc_ptr : Nat
  vtoc_len : Nat
  alt_ptr : Nat
  alt_len : Nat

structure VtocInfo where
  sanity : Nat
  version : Nat
  volume : List Nat
  partition_count : Nat
  partitions : List VtocPartition

structure AltTableInfo where
  used : Nat
  reserved : Nat
  base_sector : Int
  bad_entries : List Int
  deriving DecidableEq

structure AltInfo where
  sanity : Nat
  version : Nat
  track_table : AltTableInfo
  sector_table : AltTableInfo
  deriving DecidableEq

def u16 (raw : List Nat) (offset : Nat) : Nat := from_bytes (slice raw offset 2)

def u32 (raw : List Nat) (offset : Nat) : Nat := from_bytes (slice raw offset 4)

def i32 (raw : List Nat) (offset : Nat) : Int := from_signed (slice raw offset 4)

def decode_chs (raw : List Nat) : Nat × Nat × Nat :=
  let head := raw.getD 0 0
  let sector := raw.getD 1 0 &&& 0x3F
  let cylinder := ((raw.getD 1 0 &&& 0xC0) <<< 2) ||| raw.getD 2 0
  (cylinder, head, sector)

def parse_partition_entry (index : Nat) (raw : List Nat) : Option PartitionEntry :=
  if raw.length ≠ 16 then none
  else
    some
      { index := index
        bootable := raw.getD 0 0 == 0x80
        start_chs := decode_chs (slice raw 1 3)
        partition_type := raw.getD 4 0
        end_chs := decode_chs (slice raw 5 3)
        start_lba := u32 raw 8
        sector_count := u32 raw 12 }

def parse_mbr_sector (sector : List Nat) : Option (Nat × List PartitionEntry) :=
  if sector.length ≠ SECTOR_SIZE then none
  else do
    let partitions ← (List.range 4).mapM fun index =>
      parse_partition_entry (index + 1) (slice sector (446 + index * 16) 16)
    return (u16 sector 510, partitions)

def find_active_unix_partition (partitions : List PartitionEntry) : Option PartitionEntry :=
  (partitions.find? fun p => p.bootable && p.partition_type == UNIXWARE_PARTITION_TYPE).or
    (partitions.find? fun p => p.partition_type == UNIXWARE_PARTITION_TYPE)

def parse_pdinfo (raw : List Nat) : Option PdInfo :=
  if raw.length < 98 then none
  else
    some
      { drive_id := u32 raw 0
        sanity := u32 raw 4
        version := u32 raw 8
        serial := (slice raw 12 12).takeWhile (· ≠ 0)
        cylinders := u32 raw 24
        tracks := u32 raw 28
        sectors := u32 raw 32
        bytes_per_sector := u32 raw 36
        logical_sector_0 := u32 raw 40
        vtoc_ptr := u32 raw 84
        vtoc_len := u16 raw 88
        alt_ptr := u32 raw 92
        alt_len := u16 raw 96 }

def parse_vtoc_partition (view : List Nat) (index : Nat) : VtocPartition :=
  let entry := slice view (60 + index * 12) 12
  { index := index
    tag := u16 entry 0
    flag := u16 entry 2
    start_sector := i32 entry 4
    sector_count := i32 entry 8 }

def parse_vtoc (raw : List Nat) (offset : Nat) : Option VtocInfo :=
  let view := raw.drop offset
  if view.length < 60 + 16 * 12 then none
  else
    some
      { sanity := u32 view 0
        version := u32 view 4
        volume := (slice view 8 8).takeWhile (· ≠ 0)
        partition_count := u16 view 16
        partitions := (List.range 16).map (parse_vtoc_partition view) }

def parse_alt_table (raw : List Nat) (offset entry_count : Nat) : Option (AltTableInfo × Nat) :=
  let end_offset := offset + 8 + entry_count * 4
  if raw.length < end_offset then none
  else
    some
      ({ used := u16 raw offset
         reserved := entry_count
         base_sector := i32 raw (offset + 4)
         bad_entries := (List.range entry_count).map fun i => i32 raw (offset + 8 + i * 4) },
        end_offset)

def parse_alt_info (raw : List Nat) (offset : Nat) : Option AltInfo :=
  let view := raw.drop offset
  if view.length < 16 then none
  else
    (parse_alt_table view 8 (u16 view 10)).bind fun (track_table, next_offset) =>
      if view.length < next_offset + 4 then none
      else
        (parse_alt_table view next_offset (u16 view (next_offset + 2))).map fun (sector_table, _) =>
          { sanity := u32 view 0
            version := u16 view 4
            track_table := track_table
            sector_table := sector_table }

def read_sector (image : List Nat) (sector_number sector_count : Nat) : List Nat :=
  slice image (sector_number * SECTOR_SIZE) (sector_count * SECTOR_SIZE)

def read_pdinfo (image : List Nat) (partition_start : Nat) : Option PdInfo :=
  parse_pdinfo (read_sector image (partition_start + HDPDLOC) 1)

/-- How many sectors hold `len` bytes at `offset` in the first of them, and no fewer than one
    sector's bytes. -/
def spanned (offset len : Nat) : Nat :=
  max 1 ((offset + max len SECTOR_SIZE + SECTOR_SIZE - 1) / SECTOR_SIZE)

def read_vtoc (image : List Nat) (partition_start : Nat) (pdinfo : PdInfo) : Option VtocInfo :=
  let vtoc_sector := partition_start + pdinfo.vtoc_ptr / SECTOR_SIZE
  let vtoc_offset := pdinfo.vtoc_ptr % SECTOR_SIZE
  parse_vtoc (read_sector image vtoc_sector (spanned vtoc_offset pdinfo.vtoc_len)) vtoc_offset

/-- None also where there are no alternates, or invalid ones. -/
def read_alt_info (image : List Nat) (partition_start : Nat) (pdinfo : PdInfo) : Option AltInfo :=
  if pdinfo.alt_len = 0 then none
  else do
    let alt_sector := partition_start + pdinfo.alt_ptr / SECTOR_SIZE
    let alt_offset := pdinfo.alt_ptr % SECTOR_SIZE
    let alt_info ← parse_alt_info
      (read_sector image alt_sector (spanned alt_offset pdinfo.alt_len)) alt_offset
    if alt_info.sanity = ALT_SANITY ∧ alt_info.version = ALT_VERSION then return alt_info else none

end Disk

/- Cylinder, head and sector of an address, and back. -/
namespace Disk
open ByteImages Nat

def RawDiskGeometry.sector (geometry : RawDiskGeometry) (chs : Nat × Nat × Nat) : Nat :=
  (chs.1 * geometry.heads + chs.2.1) * geometry.sectors_per_track + (chs.2.2 - 1)

theorem low_bits : ∀ b < 64, b &&& 0x3F = b := by decide

theorem high_bits : ∀ b < 256, b &&& 0xC0 = 64 * (b / 64) := by decide +kernel

theorem packed_bits : ∀ hi < 4, ∀ lo < 64, (64 * hi ||| lo) = 64 * hi + lo := by decide

theorem byte_bits {b : Nat} (small : b < 256) : b &&& 0xFF = b := by
  rw [show 0xFF = 2 ^ 8 - 1 from rfl, and_two_pow_sub_one_eq_mod, mod_eq_of_lt small]

theorem decode_packed {head sector cylinder : Nat} (sectors : sector < 64)
    (cylinders : cylinder < 1024) (heads : head < 256) :
    decode_chs [head &&& 0xFF,
      ((sector &&& 0x3F) ||| ((cylinder >>> 2) &&& 0xC0)) &&& 0xFF, cylinder &&& 0xFF] =
      (cylinder, head, sector) := by
  have shifted : cylinder >>> 2 = cylinder / 4 := shiftRight_eq_div_pow cylinder 2
  have high : (cylinder >>> 2) &&& 0xC0 = 64 * (cylinder / 256) := by
    rw [shifted, high_bits _ (by omega), Nat.div_div_eq_div_mul]
  have packed : (sector &&& 0x3F) ||| ((cylinder >>> 2) &&& 0xC0) =
      64 * (cylinder / 256) + sector := by
    rw [low_bits sector sectors, high, Nat.or_comm, packed_bits _ (by omega) _ sectors]
  have low : cylinder &&& 0xFF = cylinder % 256 := by
    rw [show 0xFF = 2 ^ 8 - 1 from rfl, and_two_pow_sub_one_eq_mod]
  rw [packed, byte_bits (show 64 * (cylinder / 256) + sector < 256 by omega), low, byte_bits heads]
  show (((64 * (cylinder / 256) + sector) &&& 0xC0) <<< 2 ||| cylinder % 256, head,
    (64 * (cylinder / 256) + sector) &&& 0x3F) = _
  have top : ((64 * (cylinder / 256) + sector) &&& 0xC0) <<< 2 = 2 ^ 8 * (cylinder / 256) := by
    rw [high_bits _ (by omega), shiftLeft_eq]
    omega
  have bottom : (64 * (cylinder / 256) + sector) &&& 0x3F = sector := by
    rw [show 0x3F = 2 ^ 6 - 1 from rfl, and_two_pow_sub_one_eq_mod]
    omega
  rw [top, bottom, ← two_pow_add_eq_or_of_lt (mod_lt _ (by decide))]
  congr 1
  omega

theorem decode_encode_chs {geometry : RawDiskGeometry} {disk_addressing : Addressing}
    (valid : geometry.Valid disk_addressing) {lba : Nat} {saturate : Bool} {raw : List Nat}
    (encoded : geometry.encode_chs lba saturate = some raw) : raw.length = 3 ∧
      (0 < lba → lba < geometry.total_sectors →
        lba < MAX_CHS_CYLINDERS * geometry.heads * geometry.sectors_per_track →
          geometry.sector (decode_chs raw) = lba) := by
  obtain ⟨-, heads, sectors, -, most_heads, most_sectors⟩ := valid
  unfold RawDiskGeometry.encode_chs at encoded
  split at encoded
  · next zero =>
    cases encoded
    exact ⟨rfl, fun positive => absurd zero (by omega)⟩
  split at encoded
  · exact absurd encoded (by simp)
  cases encoded
  refine ⟨rfl, fun positive inside fits => ?_⟩
  have kept : ¬ geometry.max_chs_lba < lba := by
    unfold RawDiskGeometry.max_chs_lba
    omega
  have same : (if saturate = true then
      min (if geometry.max_chs_lba < lba then geometry.max_chs_lba else lba)
        (MAX_CHS_CYLINDERS * geometry.heads * geometry.sectors_per_track - 1)
      else if geometry.max_chs_lba < lba then geometry.max_chs_lba else lba) = lba := by
    rw [if_neg kept, min_eq_left (by omega), ite_self]
  rw [same]
  obtain ⟨h, h_eq⟩ : ∃ h, h = geometry.heads := ⟨_, rfl⟩
  obtain ⟨n, n_eq⟩ : ∃ n, n = geometry.sectors_per_track := ⟨_, rfl⟩
  have most_heads' : h ≤ 16 := h_eq ▸ most_heads
  have most_sectors' : n ≤ 63 := n_eq ▸ most_sectors
  rw [← h_eq] at heads fits ⊢
  rw [← n_eq] at sectors fits ⊢
  have track := mod_lt lba (mul_pos heads sectors)
  have head : lba % (h * n) / n < h := (div_lt_iff_lt_mul sectors).mpr track
  have sector := mod_lt (lba % (h * n)) sectors
  have cylinder : lba / (h * n) < 1024 := by
    rw [div_lt_iff_lt_mul (mul_pos heads sectors), ← mul_assoc]
    exact fits
  rw [decode_packed (by omega) cylinder (by omega)]
  unfold RawDiskGeometry.sector
  rw [← h_eq, ← n_eq, Nat.add_sub_cancel]
  calc (lba / (h * n) * h + lba % (h * n) / n) * n + lba % (h * n) % n
      = h * n * (lba / (h * n)) + (n * (lba % (h * n) / n) + lba % (h * n) % n) := by ring
    _ = h * n * (lba / (h * n)) + lba % (h * n) := by rw [div_add_mod]
    _ = lba := div_add_mod lba (h * n)

end Disk
