import Svr4.Disk.Blocks

/- The image is read back to the facts that it was made from. -/
namespace Disk
open ByteImages List Option

section Image
variable {geometry : RawDiskGeometry} {disk_addressing : Addressing}
  {start size : Nat} {volume boot_code image : List Nat} {slices : List VtocPartition}

structure Laid (geometry : RawDiskGeometry) (disk_addressing : Addressing) (start size : Nat)
    (volume boot_code : List Nat) (slices : List VtocPartition) (image : List Nat)
    (mbr pdinfo vtoc alt_info : List Nat) : Prop where
  valid : geometry.Valid disk_addressing
  inside : ValidUnixPartition geometry.total_sectors start size
  slices_valid : ValidVtocPartitions start size slices
  mbr_built : build_mbr geometry start size boot_code disk_addressing = some mbr
  pdinfo_built : build_pdinfo geometry start (29 * 512 + 100) 316 (30 * 512) 2048 = some pdinfo
  vtoc_built : build_vtoc volume slices = some vtoc
  alt_built : build_empty_alt_info = alt_info
  room : (start + 30) * 512 + 2048 ≤ geometry.total_sectors * 512
  image_eq : image = lay (List.replicate (geometry.total_sectors * 512) 0)
    [put 0 mbr, put ((start + 29) * 512) pdinfo, put ((start + 29) * 512 + 100) vtoc,
      put ((start + 30) * 512) alt_info]

theorem created_image
    (created : create_raw_image_skeleton geometry start size volume slices boot_code
      disk_addressing = some image) : ∃ mbr pdinfo vtoc alt_info, Laid geometry disk_addressing
        start size volume boot_code slices image mbr pdinfo vtoc alt_info := by
  unfold create_raw_image_skeleton at created
  have alt_length := parse_built_alt_info.1
  obtain ⟨alt_info, alt_eq⟩ : ∃ alt_info, build_empty_alt_info = alt_info := ⟨_, rfl⟩
  rw [alt_eq] at alt_length created
  split at created
  · next accepted =>
    obtain ⟨valid, inside, slices_valid⟩ := accepted
    simp only [bind_eq_bind, bind_eq_some_iff, alt_length] at created
    obtain ⟨mbr, mbr_built, pdinfo, pdinfo_built, vtoc, vtoc_built, rest⟩ := created
    have vtoc_sector : start + (HDPDLOC * SECTOR_SIZE + 100) / SECTOR_SIZE = start + 29 := rfl
    have vtoc_offset : (HDPDLOC * SECTOR_SIZE + 100) % SECTOR_SIZE = 100 := rfl
    have alt_sector : start + 30 * SECTOR_SIZE / SECTOR_SIZE = start + 30 := rfl
    have alt_offset : 30 * SECTOR_SIZE % SECTOR_SIZE = 0 := rfl
    have vtoc_at : HDPDLOC = 29 := rfl
    have sector_size : SECTOR_SIZE = 512 := rfl
    rw [vtoc_sector, vtoc_offset, alt_sector, alt_offset, vtoc_at, sector_size] at rest
    split at rest
    · exact absurd rest (by simp)
    · split at rest
      · exact absurd rest (by simp)
      · next room =>
        simp only [Option.pure_def, Option.some.injEq, add_zero] at rest
        refine ⟨mbr, pdinfo, vtoc, alt_info, valid, inside, slices_valid, mbr_built, pdinfo_built,
          vtoc_built, alt_eq, ?_, rest.symm⟩
        omega
  · exact absurd created (by simp)

variable {mbr pdinfo vtoc alt_info : List Nat}

/-- The VTOC's block starts in the sector of the pdinfo, and the alternates are written over
    its end. -/
theorem Laid.slices_of_image (laid : Laid geometry disk_addressing start size volume boot_code
      slices image mbr pdinfo vtoc alt_info)
    (mbr_length : mbr.length = 512) (pdinfo_length : pdinfo.length = 512)
    (vtoc_length : vtoc.length = 512) (alt_length : alt_info.length = 2048) :
    image.length = geometry.total_sectors * 512 ∧ slice image 0 512 = mbr ∧
      slice image ((start + 29) * 512) 98 = slice pdinfo 0 98 ∧
      slice image ((start + 29) * 512 + 100) 252 = slice vtoc 0 252 ∧
      slice image ((start + 30) * 512) 2048 = alt_info := by
  have room := laid.room
  obtain ⟨blank, blank_eq⟩ : ∃ blank : List Nat,
      List.replicate (geometry.total_sectors * 512) 0 = blank := ⟨_, rfl⟩
  have blank_length : blank.length = geometry.total_sectors * 512 := by
    rw [← blank_eq, length_replicate]
  have image_eq := laid.image_eq
  obtain ⟨p, p_eq⟩ : ∃ p, p = (start + 29) * 512 := ⟨_, rfl⟩
  obtain ⟨a, a_eq⟩ : ∃ a, a = (start + 30) * 512 := ⟨_, rfl⟩
  rw [blank_eq, ← p_eq, ← a_eq] at image_eq
  rw [← p_eq, ← a_eq]
  have fits : ∀ w ∈ [put 0 mbr, put p pdinfo, put (p + 100) vtoc, put a alt_info],
      w.Fits blank.length := by
    rw [blank_length]
    intro w mem
    simp only [mem_cons, not_mem_nil, or_false] at mem
    rcases mem with rfl | rfl | rfl | rfl
    all_goals
      unfold Write.Fits put
      dsimp only
      omega
  refine ⟨by rw [image_eq, length_lay fits, blank_length], ?_, ?_, ?_, ?_⟩
  · have read := slice_lay_later (w := put 0 mbr) (i := 0) (n := 512)
      [] fits
      (by
        simp only [mem_cons, not_mem_nil, or_false, forall_eq_or_imp, forall_eq, put]
        omega)
      (by simp [put, mbr_length])
    rw [image_eq]
    refine read.trans ?_
    rw [← mbr_length]
    exact slice_all mbr
  · have read := slice_lay_later (w := put p pdinfo) (i := 0) (n := 98)
      [put 0 mbr] fits
      (by
        simp only [mem_cons, not_mem_nil, or_false, forall_eq_or_imp, forall_eq, put]
        omega)
      (by simp [put, pdinfo_length])
    rw [image_eq]
    exact read
  · have read := slice_lay_later (w := put (p + 100) vtoc) (i := 0) (n := 252)
      [put 0 mbr, put p pdinfo] fits
      (by
        simp only [mem_cons, not_mem_nil, or_false, forall_eq, put]
        omega)
      (by simp [put, vtoc_length])
    rw [image_eq]
    exact read
  · have read := slice_lay_later (w := put a alt_info) (i := 0) (n := 2048)
      [put 0 mbr, put p pdinfo, put (p + 100) vtoc] fits
      (by simp)
      (by simp [put, alt_length])
    rw [image_eq]
    refine read.trans ?_
    rw [← alt_length]
    exact slice_all alt_info

end Image

/-- Where the pdinfo has the pdinfo, the VTOC and the alternates, and how many bytes they are. -/
def metadata_areas (partition_start : Nat) (pdinfo : PdInfo) : List (Nat × Nat) :=
  [((partition_start + HDPDLOC) * SECTOR_SIZE, 98),
    (partition_start * SECTOR_SIZE + pdinfo.vtoc_ptr, pdinfo.vtoc_len),
    (partition_start * SECTOR_SIZE + pdinfo.alt_ptr, pdinfo.alt_len)]

def AreaCovers (area : Nat × Nat) (byte : Nat) : Prop := area.1 ≤ byte ∧ byte < area.1 + area.2

def VtocPartition.Covers (slice : VtocPartition) (byte : Nat) : Prop :=
  slice.start_sector * SECTOR_SIZE ≤ byte ∧
    byte < (slice.start_sector + slice.sector_count) * SECTOR_SIZE

section Layout
variable {geometry : RawDiskGeometry} {disk_addressing : Addressing} {start size : Nat}
  {volume boot_code image : List Nat} {slices : List VtocPartition} {info : PdInfo}

theorem covered_iff {slice : VtocPartition} (vtoc_ptr : info.vtoc_ptr = 29 * 512 + 100)
    (vtoc_len : info.vtoc_len = 316) (alt_ptr : info.alt_ptr = 30 * 512)
    (alt_len : info.alt_len = 2048) :
    (∃ area ∈ metadata_areas start info, ∃ byte, AreaCovers area byte ∧ slice.Covers byte) ↔
      ∃ sector : Nat, slice.start_sector ≤ sector ∧
        sector < slice.start_sector + slice.sector_count ∧
        start + 29 ≤ sector ∧ sector < start + 34 := by
  unfold metadata_areas VtocPartition.Covers AreaCovers HDPDLOC SECTOR_SIZE
  rw [vtoc_ptr, vtoc_len, alt_ptr, alt_len]
  constructor
  · rintro ⟨area, mem, byte, covered, low, high⟩
    refine ⟨byte / 512, by omega, by omega, ?_⟩
    simp only [mem_cons, not_mem_nil, or_false] at mem
    rcases mem with rfl | rfl | rfl
    all_goals omega
  · rintro ⟨sector, low, high, after, below⟩
    by_cases first : sector = start + 29
    · refine ⟨_, mem_cons_self .., sector * 512, ?_, by omega, by omega⟩
      omega
    · refine ⟨_, mem_cons_of_mem _ (mem_cons_of_mem _ (mem_cons_self ..)),
        sector * 512, ?_, by omega, by omega⟩
      omega

theorem length_read_sector {total sector count : Nat} (length : image.length = total * 512)
    (room : (start + 30) * 512 + 2048 ≤ total * 512) (below : sector + count ≤ 34) :
    (read_sector image (start + sector) count).length = count * SECTOR_SIZE := by
  have within : start + sector + count ≤ total := by omega
  refine length_slice ?_
  rw [length, ← add_mul]
  exact Nat.mul_le_mul_right SECTOR_SIZE within

theorem read_vtoc_at (vtoc_ptr : info.vtoc_ptr = 29 * 512 + 100) (vtoc_len : info.vtoc_len = 316) :
    read_vtoc image start info = parse_vtoc (read_sector image (start + 29) 2) 100 := by
  have at_sector : (29 * 512 + 100) / SECTOR_SIZE = 29 := by decide
  have at_byte : (29 * 512 + 100) % SECTOR_SIZE = 100 := by decide
  have sectors : spanned 100 316 = 2 := by decide
  unfold read_vtoc
  rw [vtoc_ptr, vtoc_len, at_sector, at_byte]
  dsimp only
  rw [sectors]

theorem read_alt_info_at {alt_info : AltInfo} (alt_ptr : info.alt_ptr = 30 * 512)
    (alt_len : info.alt_len = 2048)
    (parsed : parse_alt_info (read_sector image (start + 30) 4) 0 = some alt_info)
    (sane : alt_info.sanity = ALT_SANITY ∧ alt_info.version = ALT_VERSION) :
    read_alt_info image start info = some alt_info := by
  have at_sector : 30 * 512 / SECTOR_SIZE = 30 := by decide
  have at_byte : 30 * 512 % SECTOR_SIZE = 0 := by decide
  have sectors : spanned 0 2048 = 4 := by decide
  unfold read_alt_info
  rw [alt_ptr, alt_len, at_sector, at_byte, if_neg (by decide)]
  dsimp only
  rw [sectors, parsed]
  exact if_pos sane

structure PdInfo.Describes (pdinfo : PdInfo) (geometry : RawDiskGeometry) (start : Nat) :
    Prop where
  sanity : pdinfo.sanity = VALID_PD
  cylinders : pdinfo.cylinders = geometry.cylinders
  tracks : pdinfo.tracks = geometry.heads
  sectors : pdinfo.sectors = geometry.sectors_per_track
  bytes_per_sector : pdinfo.bytes_per_sector = SECTOR_SIZE
  logical_sector_0 : pdinfo.logical_sector_0 = start
  vtoc_ptr : pdinfo.vtoc_ptr = 29 * 512 + 100
  vtoc_len : pdinfo.vtoc_len = 316
  alt_ptr : pdinfo.alt_ptr = 30 * 512
  alt_len : pdinfo.alt_len = 2048

theorem Laid.read_pdinfo_back {mbr sector vtoc_block alt_block : List Nat}
    (laid : Laid geometry disk_addressing start size volume boot_code slices image mbr sector
      vtoc_block alt_block) (mbr_length : mbr.length = 512) (vtoc_length : vtoc_block.length = 512)
    (alt_length : alt_block.length = 2048) :
    ∃ pdinfo, read_pdinfo image start = some pdinfo ∧ pdinfo.Describes geometry start := by
  obtain ⟨pdinfo_length, parsed_pdinfo⟩ := parse_built_pdinfo laid.pdinfo_built
  obtain ⟨image_length, -, pdinfo_read, -, -⟩ :=
    laid.slices_of_image mbr_length pdinfo_length vtoc_length alt_length
  have back := parsed_pdinfo (read_sector image (start + HDPDLOC) 1)
    (by rw [length_read_sector image_length laid.room (by decide)]; decide)
    (by
      rw [read_sector, slice_slice (by decide), add_zero]
      exact pdinfo_read)
  obtain ⟨pdinfo, pdinfo_eq⟩ : ∃ pdinfo, read_pdinfo image start = some pdinfo := ⟨_, back⟩
  have same := some.inj (pdinfo_eq.symm.trans back)
  refine ⟨pdinfo, pdinfo_eq, ?_⟩
  rw [same]
  exact ⟨rfl, rfl, rfl, rfl, rfl, rfl, rfl, rfl, rfl, rfl⟩

/-- What was accepted is read back. The areas are apart; a slice overlaps them if it has one of the
sectors 29 to 33. -/
theorem image_is_read_back
    (created : create_raw_image_skeleton geometry start size volume slices boot_code
      disk_addressing = some image) :
    ∃ partitions partition pdinfo vtoc alt_info,
      parse_mbr_sector (read_sector image 0 1) = some (0xAA55, partitions) ∧
      find_active_unix_partition partitions = some partition ∧
      (partition.start_lba = start ∧ partition.sector_count = size) ∧
      (start < geometry.chs_sectors → geometry.sector partition.start_chs = start) ∧
      (start + (size - 1) < geometry.chs_sectors →
        geometry.sector partition.end_chs = start + (size - 1)) ∧
      read_pdinfo image partition.start_lba = some pdinfo ∧
      pdinfo.Describes geometry start ∧
      read_vtoc image partition.start_lba pdinfo = some vtoc ∧
      (vtoc.sanity = VTOC_SANE ∧ ∀ slice ∈ slices, vtoc.partitions[slice.index]? = some slice) ∧
      read_alt_info image partition.start_lba pdinfo = some alt_info ∧
      (alt_info.track_table = ⟨0, 0, 0, []⟩ ∧ alt_info.sector_table = ⟨0, 0, 0, []⟩) ∧
      (metadata_areas start pdinfo).Pairwise
        (fun a b => ∀ byte, ¬ (AreaCovers a byte ∧ AreaCovers b byte)) ∧
      ∀ slice ∈ slices,
        (∃ area ∈ metadata_areas start pdinfo, ∃ byte, AreaCovers area byte ∧ slice.Covers byte) ↔
          ∃ sector : Nat, slice.start_sector ≤ sector ∧
            sector < slice.start_sector + slice.sector_count ∧
            start + 29 ≤ sector ∧ sector < start + 34 := by
  obtain ⟨mbr, sector, vtoc_block, alt_block, laid⟩ := created_image created
  obtain ⟨mbr_length, partitions, partition, parsed_mbr, active, lba, count, first, last⟩ :=
    parse_built_mbr laid.valid laid.inside laid.mbr_built
  obtain ⟨pdinfo_length, -⟩ := parse_built_pdinfo laid.pdinfo_built
  obtain ⟨vtoc_length, parsed_vtoc⟩ := parse_built_vtoc laid.slices_valid.1
    (fun p mem => (laid.slices_valid.2 p mem).1) laid.vtoc_built
  obtain ⟨alt_length, parsed_alt⟩ := parse_built_alt_info
  rw [laid.alt_built] at alt_length parsed_alt
  obtain ⟨image_length, mbr_read, -, vtoc_read, alt_read⟩ :=
    laid.slices_of_image mbr_length pdinfo_length vtoc_length alt_length
  obtain ⟨pdinfo, pdinfo_eq, facts⟩ := laid.read_pdinfo_back mbr_length vtoc_length alt_length
  obtain ⟨vtoc, vtoc_back, sanity, -, -, -, listed, -⟩ := parsed_vtoc
    (read_sector image (start + 29) 2) 100
    (by rw [length_read_sector image_length laid.room (by decide)]; decide)
    ((slice_slice (by decide)).trans vtoc_read)
  refine ⟨partitions, partition, pdinfo, vtoc,
    ⟨ALT_SANITY, ALT_VERSION, ⟨0, 0, 0, []⟩, ⟨0, 0, 0, []⟩⟩, ?_, active, ⟨lba, count⟩, first, last,
    ?_, facts, ?_, ⟨sanity, listed⟩, ?_, ⟨rfl, rfl⟩, ?_,
    fun slice _ => covered_iff facts.vtoc_ptr facts.vtoc_len facts.alt_ptr facts.alt_len⟩
  · have read : read_sector image 0 1 = mbr := mbr_read
    rw [read]
    exact parsed_mbr
  · rw [lba]
    exact pdinfo_eq
  · rw [lba, read_vtoc_at facts.vtoc_ptr facts.vtoc_len]
    exact vtoc_back
  · have read : read_sector image (start + 30) 4 = alt_block := alt_read
    rw [lba]
    exact read_alt_info_at facts.alt_ptr facts.alt_len (by rw [read]; exact parsed_alt) ⟨rfl, rfl⟩
  · unfold metadata_areas AreaCovers HDPDLOC SECTOR_SIZE
    rw [facts.vtoc_ptr, facts.vtoc_len, facts.alt_ptr, facts.alt_len]
    simp only [pairwise_cons, mem_cons, not_mem_nil, or_false, forall_eq_or_imp,
      forall_eq]
    refine ⟨⟨fun byte => ?_, fun byte => ?_⟩, fun byte => ?_, ?_⟩
    · omega
    · omega
    · omega
    · exact ⟨nofun, List.Pairwise.nil⟩

end Layout

/-- One track of 63 sectors, with the partition after the first one and a slice in it. -/
theorem track_is_read_back : ∃ image,
    create_raw_image_skeleton ⟨1, 1, 63⟩ 1 62 [] [⟨1, 2, 0, 40, 20⟩] [] .chs = some image ∧
      ∃ partitions partition, parse_mbr_sector (read_sector image 0 1) = some (0xAA55, partitions) ∧
        find_active_unix_partition partitions = some partition ∧ partition.start_lba = 1 := by
  obtain ⟨image, created⟩ := isSome_iff_exists.mp (show (create_raw_image_skeleton
    ⟨1, 1, 63⟩ 1 62 [] [⟨1, 2, 0, 40, 20⟩] [] .chs).isSome = true by decide +kernel)
  obtain ⟨partitions, partition, -, -, -, parsed, active, facts, -⟩ := image_is_read_back created
  exact ⟨image, created, partitions, partition, parsed, active, facts.1⟩

/-- The slice of test_disk_layout.py -/
def stand : VtocPartition := ⟨10, 9, 0x200, 48, 64⟩

/-- It is accepted, and it covers the last two sectors of the alternates. -/
theorem stand_slice_overlaps : ∃ image,
    create_raw_image_skeleton ⟨32, 4, 17⟩ 16 512 [83, 86, 82, 52] [stand] [] .chs = some image ∧
      ∃ pdinfo, read_pdinfo image 16 = some pdinfo ∧ ∃ area ∈ metadata_areas 16 pdinfo,
        ∃ byte, AreaCovers area byte ∧ stand.Covers byte := by
  obtain ⟨image, created⟩ := isSome_iff_exists.mp (show (create_raw_image_skeleton
    ⟨32, 4, 17⟩ 16 512 [83, 86, 82, 52] [stand] [] .chs).isSome = true by decide +kernel)
  obtain ⟨mbr, sector, vtoc_block, alt_block, laid⟩ := created_image created
  have mbr_length := (parse_built_mbr laid.valid laid.inside laid.mbr_built).1
  have vtoc_length := (parse_built_vtoc laid.slices_valid.1
    (fun p mem => (laid.slices_valid.2 p mem).1) laid.vtoc_built).1
  have alt_length := parse_built_alt_info.1
  rw [laid.alt_built] at alt_length
  obtain ⟨pdinfo, read, facts⟩ := laid.read_pdinfo_back mbr_length vtoc_length alt_length
  refine ⟨image, created, pdinfo, read, ?_⟩
  rw [covered_iff facts.vtoc_ptr facts.vtoc_len facts.alt_ptr facts.alt_len]
  exact ⟨48, by decide, by decide, by decide, by decide⟩

end Disk
