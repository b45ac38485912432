import Mathlib.Algebra.GroupWithZero.Nat
import Svr4.Host.Summary

/- host_tools/fs/ufs_fsck.py: the check of an image. The cylinder groups have the right magic,
   the inodes lie inside the image, and the blocks of a directory belong to it alone, so that
   its records are those of its inode number. -/
namespace UfsFsck
open UfsGroups

def UFS_IFMT : Nat := 0o170000
def UFS_IFCHR : Nat := 0o020000
def UFS_IFDIR : Nat := 0o040000
def UFS_IFBLK : Nat := 0o060000
def SECTOR_SIZE : Nat := 512

structure Layout extends Geometry where
  bsize : Nat
  fsize : Nat
  nindir : Nat
  fpg : Nat
  dsize : Nat
  cgoffset : Nat
  cgmask : Nat
  cblkno : Nat
  dblkno : Nat
  cpg : Nat
  ncyl : Nat

structure Inode where
  mode : Nat
  size : Nat
  nlink : Fin 65536
  blocks : Nat
  direct_blocks : List Nat
  indirect_blocks : List Nat
  /-- owner, times, flags and generation -/
  attributes : List Nat
  deriving DecidableEq

/-- A record of a directory that names an inode. -/
structure Record where
  name : String
  inode : Nat
  deriving DecidableEq

/-- The fields of a group header in front of its counts and tables. -/
structure Header where
  link : Nat
  time : Nat
  cgx : Nat
  ncyl : Nat
  niblk : Nat
  rotor : Nat
  frotor : Nat
  irotor : Nat
  deriving DecidableEq

structure Disk where
  inodes : Nat → Inode
  groups : Nat → Group
  headers : Nat → Header
  fs_cs : Nat → Counts
  totals : Counts
  records : Nat → List Record
  pointers : Nat → List Nat

def ufs_is_directory (inode : Inode) : Bool := inode.mode &&& UFS_IFMT = UFS_IFDIR

def is_device (inode : Inode) : Bool :=
  inode.mode &&& UFS_IFMT = UFS_IFCHR ∨ inode.mode &&& UFS_IFMT = UFS_IFBLK

section Positions
variable (fs : Layout)

def ufs_cgbase (cg : Nat) : Nat := fs.fpg * cg

def ufs_cgstart (cg : Nat) : Nat := ufs_cgbase fs cg + fs.cgoffset * (cg - (cg &&& fs.cgmask))

def ufs_cgdmin (cg : Nat) : Nat := ufs_cgstart fs cg + fs.dblkno

def outrange (blk cnt : Nat) : Bool :=
  let cg := blk / fs.fpg
  if fs.dsize < blk + cnt then true
  else if blk < ufs_cgdmin fs cg then ufs_cgbase fs cg + fs.cblkno < blk + cnt
  else ufs_cgbase fs (cg + 1) < blk + cnt

end Positions

inductive UFSFsckIssue
  | bad_block (inode block : Nat) (message : String)
  | duplicate_block (inode block : Nat) (message : String)
  | partially_allocated_inode (inode : Nat) (message : String)
  | unknown_file_type (inode mode : Nat)
  | incorrect_block_count (inode actual expected size : Nat)
  | summary_mismatch (cg : Nat) (ondisk actual : Counts)
  | cached_summary_mismatch (cg : Nat) (ondisk actual : Counts)
  | summary_information_mismatch (cg : Nat)
  | directory_entry_to_invalid_inode (inode entry_inode : Nat) (entry_name : String)
  | directory_entry_to_free_inode (inode entry_inode : Nat) (entry_name : String)
  | link_count_mismatch (inode actual expected : Nat)
  | bitmap_mismatch (cg inode_mismatch_count free_mismatch_count : Nat)
  | superblock_summary_mismatch (ondisk actual : Counts)
  deriving DecidableEq

def free_with_data : String := "inode bitmap says free but inode contains data"

def issue_is_fixable : UFSFsckIssue → Bool
  | .bitmap_mismatch .. | .link_count_mismatch .. | .summary_information_mismatch _
  | .summary_mismatch .. | .cached_summary_mismatch .. | .superblock_summary_mismatch .. =>
    true
  | .partially_allocated_inode _ message => message = free_with_data
  | _ => false

def is_repaired : UFSFsckIssue → Bool
  | .directory_entry_to_free_inode _ _ _ => true
  | issue => issue_is_fixable issue

/-- What a scan has come to: the fragments counted, those seen, and the issues. -/
structure Scanned where
  counted_fragments : Nat
  seen_blocks : List Nat
  issues : List UFSFsckIssue

section Scan
variable (fs : Layout) (pointers : Nat → List Nat) (inode_number : Nat)

def Scanned.add (s : Scanned) (issue : UFSFsckIssue) : Scanned :=
  { s with issues := s.issues ++ [issue] }

/-- The fragments of a block, from which each may be seen once. -/
def Scanned.see (message : String) (s : Scanned) (block numfrags : Nat) : Scanned :=
  (List.range numfrags).foldl
    (fun s k =>
      if block + k ∈ s.seen_blocks then s.add (.duplicate_block inode_number (block + k) message)
      else { s with seen_blocks := (block + k) :: s.seen_blocks })
    s

def scan_data_block (bad duplicated : String) (s : Scanned) (block numfrags : Nat) : Scanned :=
  let s := { s with counted_fragments := s.counted_fragments + numfrags }
  if outrange fs block numfrags then s.add (.bad_block inode_number block bad)
  else s.see inode_number duplicated block numfrags

/-- `xs[:k]` -/
def slice_to {α : Type} (xs : List α) (k : Int) : List α :=
  if 0 ≤ k then xs.take k.toNat else xs.take (xs.length - k.natAbs)

def iter_pointer_issues : Nat → Nat → Int → Scanned → Scanned
  | 0, _, _, s => s
  | next_level + 1, blkno, isize, s =>
      let s := { s with counted_fragments := s.counted_fragments + fs.frag }
      if outrange fs blkno fs.frag then
        s.add (.bad_block inode_number blkno "indirect block is out of range")
      else
        let s := s.see inode_number "indirect block fragment is duplicated" blkno fs.frag
        let size_per_block := fs.bsize * fs.nindir ^ next_level
        let needed_indirects := min (isize / size_per_block + 1) fs.nindir
        (slice_to (pointers blkno) needed_indirects).zipIdx.foldl
          (fun s p =>
            if p.1 = 0 then s
            else if 0 < next_level then
              iter_pointer_issues next_level p.1 (isize - (p.2 + 1) * size_per_block) s
            else
              scan_data_block fs inode_number "data block is out of range"
                "data block fragment is duplicated" s p.1 fs.frag)
          s

/-- How many fragments a direct block has with `ndb` blocks of the file left behind it. -/
def numfrags (size : Nat) (ndb : Int) : Nat :=
  if ndb = 0 ∧ size % fs.bsize ≠ 0 then (size % fs.bsize + fs.fsize - 1) / fs.fsize else fs.frag

def scan_direct (size : Nat) : List Nat → Int → Scanned → Scanned
  | [], _, s => s
  | block :: direct_blocks, ndb, s =>
      if block = 0 then scan_direct size direct_blocks (ndb - 1) s
      else
        scan_direct size direct_blocks (ndb - 1)
          (scan_data_block fs inode_number "direct block is out of range"
            "direct block fragment is duplicated" s block (numfrags fs size (ndb - 1)))

def scan_inode_blocks (inode : Inode) (s : Scanned) : Scanned :=
  let ndb := (inode.size + fs.bsize - 1) / fs.bsize
  let s := scan_direct fs inode_number inode.size inode.direct_blocks ndb s
  inode.indirect_blocks.zipIdx.foldl
    (fun s p =>
      if p.1 = 0 then s
      else iter_pointer_issues fs pointers inode_number (p.2 + 1) p.1
        (inode.size - (fs.bsize * 12 : Nat)) s)
    s

end Scan

section Analysis
variable (now : Nat) (fs : Layout) (disk : Disk)

/-- The inodes that `inode_states` has. -/
def inode_known (n : Nat) : Bool := 2 ≤ n ∧ n < fs.ipg * fs.ncg

def is_ufs_inode_used (n : Nat) : Bool := (disk.groups (n / fs.ipg)).used (n % fs.ipg)

/-- In use with a type: what the bitmap and the inode both call a file. -/
def is_live (n : Nat) : Bool := is_ufs_inode_used fs disk n ∧ (disk.inodes n).mode ≠ 0

def contains_data (inode : Inode) : Bool :=
  inode.mode ≠ 0 ∨ inode.size ≠ 0 ∨ inode.direct_blocks.any (· ≠ 0) ∨
    inode.indirect_blocks.any (· ≠ 0)

structure Walk where
  seen_blocks : List Nat
  issues : List UFSFsckIssue
  allocated_inodes : Nat
  ndir : Int
  nifree : Int

def Walk.add (w : Walk) (issue : UFSFsckIssue) : Walk := { w with issues := w.issues ++ [issue] }

def check_blocks (n : Nat) (w : Walk) : Walk :=
  let inode := disk.inodes n
  let scanned := scan_inode_blocks fs disk.pointers n inode ⟨0, w.seen_blocks, w.issues⟩
  let expected_sectors := scanned.counted_fragments * (fs.fsize / SECTOR_SIZE)
  let w := { w with seen_blocks := scanned.seen_blocks, issues := scanned.issues }
  if expected_sectors ≠ inode.blocks then
    w.add (.incorrect_block_count n inode.blocks expected_sectors inode.size)
  else w

def check_type (n : Nat) (w : Walk) : Walk :=
  let inode := disk.inodes n
  if ufs_is_directory inode then { w with ndir := w.ndir + 1 }
  else if inode.mode &&& UFS_IFMT = UFS_IFMT then w.add (.unknown_file_type n inode.mode)
  else w

def check_inode (cg : Nat) (w : Walk) (inode_index : Nat) : Walk :=
  let n := cg * fs.ipg + inode_index
  let inode := disk.inodes n
  if n < 2 then w
  else if (disk.groups cg).used inode_index = false then
    if contains_data inode then w.add (.partially_allocated_inode n free_with_data) else w
  else
    let w := { w with nifree := w.nifree - 1, allocated_inodes := w.allocated_inodes + 1 }
    if inode.mode = 0 then
      w.add (.partially_allocated_inode n "inode bitmap says used but inode mode is zero")
    else
      let w := check_type disk n w
      -- the first direct block of a device has its number
      if is_device inode then w else check_blocks fs disk n w

def actual_nbfree (g : Group) : Nat :=
  (List.range (g.ndblk / fs.frag)).countP fun block =>
    free_count g.free (block * fs.frag) fs.frag = fs.frag

def actual_nffree (g : Group) : Nat :=
  ((List.range (g.ndblk / fs.frag)).map fun block =>
    let free_fragments := free_count g.free (block * fs.frag) fs.frag
    if free_fragments = fs.frag then 0 else free_fragments).sum +
  free_count g.free (g.ndblk / fs.frag * fs.frag) (g.ndblk - g.ndblk / fs.frag * fs.frag)

/-- The part of `expected_ufs_cg_header` in front of the counts; `now` is `time.time()`. -/
def expected_header (cg ndblk : Nat) (h : Header) : Header where
  link := 0
  time := if h.time = 0 then 0 else min h.time now
  cgx := cg
  ncyl := if fs.cpg = 0 then 0 else if cg = fs.ncg - 1 then fs.ncyl % fs.cpg else fs.cpg
  niblk := fs.ipg
  rotor := if h.rotor < ndblk then h.rotor else 0
  frotor := if h.frotor < ndblk then h.frotor else 0
  irotor := if h.irotor < fs.ipg then h.irotor else 0

def directory_inode (n : Nat) : Bool := ufs_is_directory (disk.inodes n)

/-- The issues about the summaries of one group, which has the counts `actual_summary`. -/
def summary_issues (cg : Nat) (actual_summary : Counts) : List UFSFsckIssue :=
  let g := disk.groups cg
  (if g.counts ≠ actual_summary then [.summary_mismatch cg g.counts actual_summary] else []) ++
  (if csum_present fs.toGeometry cg && decide (disk.fs_cs cg ≠ actual_summary) then
    [.cached_summary_mismatch cg (disk.fs_cs cg) actual_summary] else []) ++
  (if disk.headers cg ≠ expected_header now fs cg g.ndblk (disk.headers cg) ∨
      g.counts ≠ expected_counts fs.toGeometry (directory_inode disk) cg g false ∨
      g.tables ≠ (scan fs.toGeometry g).tables then [.summary_information_mismatch cg] else [])

def walk_group (cg : Nat) (w : Walk) : Walk :=
  (List.range fs.ipg).foldl (check_inode fs disk cg) { w with ndir := 0, nifree := fs.ipg }

def actual_summary (cg : Nat) (w : Walk) : Counts :=
  ⟨w.ndir, actual_nbfree fs (disk.groups cg), if cg = 0 then w.nifree - 2 else w.nifree,
    actual_nffree fs (disk.groups cg)⟩

/-- The loop over the groups: the walk so far with the sum of the counts. -/
def check_group (s : Walk × Counts) (cg : Nat) : Walk × Counts :=
  let w := walk_group fs disk cg s.1
  let counts := actual_summary fs disk cg w
  ({ w with issues := w.issues ++ summary_issues now fs disk cg counts }, s.2 + counts)

def reserved_blocks : List Nat :=
  (List.range fs.ncg).flatMap fun cg =>
    (List.range (ufs_cgdmin fs cg - ufs_cgbase fs cg)).map (ufs_cgbase fs cg + ·)

def check_groups : Walk × Counts :=
  (List.range fs.ncg).foldl (check_group now fs disk)
    (⟨reserved_blocks fs, [], 0, 0, 0⟩, Counts.zero)

def known_inodes : List Nat := (List.range (fs.ipg * fs.ncg)).filter (2 ≤ ·)

def live_directories : List Nat :=
  (known_inodes fs).filter fun n => is_live fs disk n && ufs_is_directory (disk.inodes n)

def reference_count (n : Nat) : Nat :=
  ((live_directories fs disk).flatMap disk.records).countP fun record => record.inode = n

def record_issues (d : Nat) (record : Record) : List UFSFsckIssue :=
  if record.name = "." ∨ record.name = ".." then []
  else if record.inode < 2 ∨ fs.ipg * fs.ncg ≤ record.inode then
    [.directory_entry_to_invalid_inode d record.inode record.name]
  else if is_live fs disk record.inode then []
  else [.directory_entry_to_free_inode d record.inode record.name]

def directory_issues : List UFSFsckIssue :=
  (live_directories fs disk).flatMap fun d =>
    (disk.records d).flatMap (record_issues fs disk d)

def link_issues : List UFSFsckIssue :=
  (known_inodes fs).flatMap fun n =>
    let expected_nlink := reference_count fs disk n
    let actual_nlink := (disk.inodes n).nlink
    if is_live fs disk n ∧ 0 < expected_nlink ∧ expected_nlink ≠ actual_nlink.val then
      [.link_count_mismatch n actual_nlink expected_nlink]
    else []

def expected_used (cg inode_index : Nat) : Bool :=
  let n := cg * fs.ipg + inode_index
  (decide (cg = 0) && decide (n < 2)) || (inode_known fs n && decide ((disk.inodes n).mode ≠ 0))

def data_frag_start (cg : Nat) : Nat := ufs_cgdmin fs cg - ufs_cgbase fs cg

def data_frags (cg ndblk : Nat) : List Nat :=
  (List.range ndblk).filter (data_frag_start fs cg ≤ ·)

def bitmap_issues (seen_blocks : List Nat) : List UFSFsckIssue :=
  (List.range fs.ncg).flatMap fun cg =>
    let g := disk.groups cg
    let inode_mismatch_count :=
      (List.range fs.ipg).countP fun i => expected_used fs disk cg i ≠ g.used i
    let free_mismatch_count :=
      (data_frags fs cg g.ndblk).countP fun f => ufs_cgbase fs cg + f ∈ seen_blocks ∧ g.free f
    if 0 < inode_mismatch_count ∨ 0 < free_mismatch_count then
      [.bitmap_mismatch cg inode_mismatch_count free_mismatch_count]
    else []

structure UFSFsckReport where
  allocated_inodes : Nat
  issues : List UFSFsckIssue
  superblock_totals : Counts
  recomputed_totals : Counts

def analyze_ufs_filesystem : UFSFsckReport :=
  let (w, recomputed_totals) := check_groups now fs disk
  { allocated_inodes := w.allocated_inodes
    issues := w.issues ++ directory_issues fs disk ++ link_issues fs disk ++
      bitmap_issues fs disk w.seen_blocks ++
      if disk.totals ≠ recomputed_totals then
        [.superblock_summary_mismatch disk.totals recomputed_totals]
      else []
    superblock_totals := disk.totals
    recomputed_totals := recomputed_totals }

end Analysis

structure Repair where
  disk : Disk
  cleared_inodes : List Nat
  removed_directory_entries : List (Nat × String)
  repaired_links : List Nat
  rebuilt_bitmaps : Bool
  rebuilt_summaries : Bool
  modified : Bool

section Repairs
variable (now : Nat) (fs : Layout)

scoped instance neZero_ushort : NeZero 65536 := ⟨by decide⟩

def cleared (inode : Inode) : Inode :=
  ⟨0, 0, 0, 0, inode.direct_blocks.map fun _ => 0, inode.indirect_blocks.map fun _ => 0,
    inode.attributes.map fun _ => 0⟩

def clear_ufs_inode (disk : Disk) (n : Nat) : Disk :=
  { disk with inodes := Function.update disk.inodes n (cleared (disk.inodes n)) }

/-- `nlink.to_bytes(2)` raises for a larger number -/
def write_ufs_inode_nlink (disk : Disk) (n nlink : Nat) : Option Disk :=
  if fits : nlink < 65536 then
    some { disk with
      inodes := Function.update disk.inodes n { disk.inodes n with nlink := ⟨nlink, fits⟩ } }
  else none

/-- The first record of that name goes; without one there is an error. -/
def delete_ufs_directory_entry (disk : Disk) (d : Nat) (name : String) : Option Disk :=
  if (disk.records d).any (·.name = name) then
    some { disk with
      records := Function.update disk.records d ((disk.records d).eraseP (·.name = name)) }
  else none

def repair_issue (r : Repair) : UFSFsckIssue → Option Repair
  | .directory_entry_to_free_inode d _ name =>
      if (d, name) ∈ r.removed_directory_entries then some r
      else if (r.disk.inodes d).mode = 0 ∨ ufs_is_directory (r.disk.inodes d) = false then some r
      else
        (delete_ufs_directory_entry r.disk d name).map fun disk =>
          { r with
            disk := disk
            removed_directory_entries := (d, name) :: r.removed_directory_entries
            modified := true }
  | .link_count_mismatch n _ expected =>
      if n ∈ r.repaired_links then some r
      else
        (write_ufs_inode_nlink r.disk n expected).map fun disk =>
          { r with disk := disk, repaired_links := n :: r.repaired_links, modified := true }
  | .bitmap_mismatch _ _ _ =>
      some { r with rebuilt_bitmaps := true, rebuilt_summaries := true, modified := true }
  | .summary_information_mismatch _ | .summary_mismatch .. | .cached_summary_mismatch ..
  | .superblock_summary_mismatch .. =>
    some { r with rebuilt_summaries := true, modified := true }
  | .partially_allocated_inode n message =>
      if message ≠ free_with_data ∨ n ∈ r.cleared_inodes then some r
      else
        some { r with
          disk := clear_ufs_inode r.disk n
          cleared_inodes := r.cleared_inodes ++ [n]
          modified := true }
  | _ => some r

def inode_in_use (disk : Disk) (n : Nat) : Bool :=
  n < 2 ∨ (inode_known fs n ∧ (disk.inodes n).mode ≠ 0)

/-- The blocks seen by the second scan, which takes every inode with a type. -/
def rebuilt_blocks (disk : Disk) : List Nat :=
  (known_inodes fs).foldl
    (fun seen n =>
      if (disk.inodes n).mode = 0 then seen
      else (scan_inode_blocks fs disk.pointers n (disk.inodes n) ⟨0, seen, []⟩).seen_blocks)
    (reserved_blocks fs)

def rebuild_bitmaps (disk : Disk) : Disk :=
  { disk with
    groups := fun cg =>
      if cg < fs.ncg then
        let g := disk.groups cg
        { g with
          used := fun i =>
            if i < fs.ipg then inode_in_use fs disk (cg * fs.ipg + i) else g.used i
          free := fun f =>
            if data_frag_start fs cg ≤ f ∧ f < g.ndblk then
              decide (ufs_cgbase fs cg + f ∉ rebuilt_blocks fs disk)
            else g.free f }
      else disk.groups cg }

def summary_image (disk : Disk) : Image :=
  ⟨disk.groups, directory_inode disk, disk.fs_cs, disk.totals⟩

def recompute_ufs_summary_counts (disk : Disk) : Disk :=
  let image := (summary_image disk).write_ufs_summary_counts fs.toGeometry false
  { disk with
    groups := image.groups
    fs_cs := image.fs_cs
    totals := image.totals
    headers := fun cg =>
      if cg < fs.ncg then expected_header now fs cg (disk.groups cg).ndblk (disk.headers cg)
      else disk.headers cg }

def Repair.finish (r : Repair) : Disk :=
  let disk := if r.rebuilt_bitmaps then rebuild_bitmaps fs r.disk else r.disk
  if r.cleared_inodes ≠ [] ∨ r.repaired_links ≠ [] ∨ r.rebuilt_summaries then
    recompute_ufs_summary_counts now fs disk
  else disk

def repair_ufs_filesystem (disk : Disk) : Option (Disk × List Nat × Bool) :=
  ((analyze_ufs_filesystem now fs disk).issues.foldlM repair_issue
    ⟨disk, [], [], [], false, false, false⟩).map fun r =>
      (r.finish now fs, r.cleared_inodes, r.modified)

end Repairs
end UfsFsck
