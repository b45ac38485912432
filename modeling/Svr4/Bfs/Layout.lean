import Svr4.Bfs.Image
import Svr4.Extents

/- bfs_compact: every file slides down to the block behind its predecessor. -/
namespace Bfs
open ByteMoves

def next_bound (bs : Bsuper) : Option Nat → Nat
  | none => (bs.bsup_end + 1) / BFS_BSIZE
  | some off => (bs.inodes off).d_sblock

def next_scan (bs : Bsuper) (curblock : Nat) : List Nat → Option Nat → Option Nat
  | [], off => off
  | i :: is, off =>
    let dir := bs.inodes i
    if dir.d_ino = 0 then next_scan bs curblock is off
    else if curblock < dir.d_sblock ∧ dir.d_sblock < next_bound bs off then
      next_scan bs curblock is (some i)
    else next_scan bs curblock is off

def bfs_getnxtcblock (bs : Bsuper) (curblock : Nat) : Option Nat :=
  next_scan bs curblock (List.range bs.slots) none

/-- The copying loop of bfs_shiftfile, for at most `fuel` turns. -/
def shift_loop (d_eblock : Nat) : Nat → Nat → Nat → Nat → (Nat → UInt8) → Option (Nat → UInt8)
  | 0, _, fromblock, _, disk => if fromblock = d_eblock + 1 then some disk else none
  | fuel + 1, maxshift, fromblock, toblock, disk =>
    if fromblock = d_eblock + 1 then some disk else
    let maxshift := min maxshift ((d_eblock - fromblock + 1) * BFS_BSIZE)
    shift_loop d_eblock fuel maxshift (fromblock + maxshift / BFS_BSIZE)
      (toblock + maxshift / BFS_BSIZE)
      (transfer disk (fromblock * BFS_BSIZE) (toblock * BFS_BSIZE) maxshift)

/-- Shift a file down by `gapsize` blocks. The sanity words for fsck are left out. -/
def bfs_shiftfile (bs : Bsuper) (dir : Dirent) (gapsize off : Nat) : Option (Bsuper × Dirent) := do
  let toblock := dir.d_sblock - gapsize
  let eof := if dir.d_eoffset / BFS_BSIZE = dir.d_eblock ∧ dir.d_sblock ≤ dir.d_eblock
    then dir.d_eoffset - dir.d_sblock * BFS_BSIZE + toblock * BFS_BSIZE else dir.d_eoffset
  let disk ← shift_loop dir.d_eblock (dir.d_eblock + 1 - dir.d_sblock)
    (min BFSBUFSIZE (gapsize * BFS_BSIZE)) dir.d_sblock toblock bs.disk
  let dir := { dir with
    d_sblock := dir.d_sblock - gapsize, d_eblock := dir.d_eblock - gapsize, d_eoffset := eof }
  return (BFS_PUTINODE { bs with disk := disk } off dir, dir)

def compact_file (bs : Bsuper) (off eblock : Nat) : Option (Bsuper × Dirent) :=
  let dir := bs.inodes off
  if dir.d_sblock ≠ eblock + 1 ∧ dir.d_sblock ≠ eblock then
    bfs_shiftfile bs dir (dir.d_sblock - eblock - 1) off
  else some (bs, dir)

def compact_loop : Nat → Bsuper → Nat → Nat → Option Bsuper
  | 0, _, _, _ => none
  | fuel + 1, bs, off, eblock => do
    let (bs, dir) ← compact_file bs off eblock
    match bfs_getnxtcblock bs dir.d_eblock with
    | none => return bs
    | some off => compact_loop fuel bs off dir.d_eblock

def bfs_compact (bs : Bsuper) : Option Bsuper := do
  let bs := BFS_LOCK bs
  let off ← bfs_getnxtcblock bs 0
  let bs ← compact_loop ((bs.bsup_end + 1) / BFS_BSIZE) bs off (bs.bsup_start / BFS_BSIZE)
  return bfs_unlock { bs with bsup_compacted := true }

end Bfs

/- Where the files lie, as a layout of block extents. -/
namespace Bfs
open ByteMoves BlockExtents

/-- A nonempty file's inode: its fields agree and stay inside the data of the device. -/
structure Placed (im : Image) (d : Dirent) : Prop where
  start : im.bsup_start ≤ d.d_sblock * BFS_BSIZE
  bytes : d.d_sblock * BFS_BSIZE ≤ d.d_eoffset
  eblock : d.d_eblock = d.d_eoffset / BFS_BSIZE
  stop : d.d_eoffset ≤ im.bsup_end

def extent (d : Dirent) : Option Extent :=
  if d.d_ino ≠ 0 ∧ d.d_sblock ≠ 0 then some ⟨d.d_sblock, d.d_eblock - d.d_sblock⟩ else none

def Image.layout (im : Image) : Nat → Option Extent :=
  fun k => if k < im.slots then extent (im.inodes k) else none

/-- A well-formed image: whole inodes before the data, whole blocks of data, each nonempty file on
its own. -/
structure Laid (im : Image) : Prop where
  start : BFS_DIRSTART ≤ im.bsup_start
  aligned : (im.bsup_start - BFS_DIRSTART) % DIRENT_SIZE = 0
  whole : (im.bsup_end + 1) % BFS_BSIZE = 0
  placed : ∀ k < im.slots, (im.inodes k).d_ino ≠ 0 → (im.inodes k).d_sblock ≠ 0 →
    Placed im (im.inodes k)
  empty : ∀ k < im.slots, (im.inodes k).d_ino ≠ 0 → (im.inodes k).d_sblock = 0 →
    (im.inodes k).d_eblock = 0
  apart : Apart im.layout

def Image.floor (im : Image) : Nat := im.bsup_start / BFS_BSIZE + 1

def Image.length (im : Image) (k : Nat) : Nat :=
  if (im.inodes k).d_sblock = 0 then 0
  else (im.inodes k).d_eoffset + 1 - (im.inodes k).d_sblock * BFS_BSIZE

def Image.contents (im : Image) (k : Nat) : List UInt8 :=
  slice im.disk ((im.inodes k).d_sblock * BFS_BSIZE) (im.length k)

theorem Placed.order {im : Image} {d : Dirent} (placed : Placed im d) :
    d.d_sblock ≤ d.d_eblock := by
  rw [placed.eblock, Nat.le_div_iff_mul_le (by decide)]
  exact placed.bytes

theorem Placed.inside {im : Image} {d : Dirent} (placed : Placed im d) :
    d.d_eblock * BFS_BSIZE ≤ d.d_eoffset ∧ d.d_eoffset < (d.d_eblock + 1) * BFS_BSIZE := by
  have eq := placed.eblock
  unfold BFS_BSIZE at *
  omega

theorem Placed.below_end {im : Image} {d : Dirent} (placed : Placed im d)
    (whole : (im.bsup_end + 1) % BFS_BSIZE = 0) : d.d_eblock < (im.bsup_end + 1) / BFS_BSIZE := by
  have inside := placed.inside
  have stop := placed.stop
  unfold BFS_BSIZE at *
  omega

theorem layout_eq_some {im : Image} {k : Nat} {e : Extent} : im.layout k = some e ↔
    k < im.slots ∧ (im.inodes k).d_ino ≠ 0 ∧ (im.inodes k).d_sblock ≠ 0 ∧
      e = ⟨(im.inodes k).d_sblock, (im.inodes k).d_eblock - (im.inodes k).d_sblock⟩ := by
  unfold Image.layout extent
  constructor
  · intro at_k
    by_cases inside : k < im.slots
    · rw [if_pos inside] at at_k
      by_cases full : (im.inodes k).d_ino ≠ 0 ∧ (im.inodes k).d_sblock ≠ 0
      · rw [if_pos full] at at_k
        exact ⟨inside, full.1, full.2, (Option.some.inj at_k).symm⟩
      · rw [if_neg full] at at_k
        cases at_k
    · rw [if_neg inside] at at_k
      cases at_k
  · rintro ⟨inside, live, full, rfl⟩
    rw [if_pos inside, if_pos ⟨live, full⟩]

theorem layout_of_full {im : Image} {k : Nat} (inside : k < im.slots)
    (live : (im.inodes k).d_ino ≠ 0) (full : (im.inodes k).d_sblock ≠ 0) :
    im.layout k = some ⟨(im.inodes k).d_sblock, (im.inodes k).d_eblock - (im.inodes k).d_sblock⟩ :=
  layout_eq_some.mpr ⟨inside, live, full, rfl⟩

namespace Laid
variable {im : Image} (laid : Laid im) {k : Nat} {e : Extent}
include laid

theorem placed_of_layout (at_k : im.layout k = some e) : Placed im (im.inodes k) := by
  obtain ⟨inside, live, full, _⟩ := layout_eq_some.mp at_k
  exact laid.placed k inside live full

omit laid in
theorem first_eq (at_k : im.layout k = some e) : e.first = (im.inodes k).d_sblock := by
  obtain ⟨_, _, _, rfl⟩ := layout_eq_some.mp at_k
  rfl

theorem last_eq (at_k : im.layout k = some e) : e.last = (im.inodes k).d_eblock := by
  have order := (laid.placed_of_layout at_k).order
  obtain ⟨_, _, _, rfl⟩ := layout_eq_some.mp at_k
  exact Nat.add_sub_cancel' order

theorem below_end (at_k : im.layout k = some e) : e.last < (im.bsup_end + 1) / BFS_BSIZE := by
  rw [laid.last_eq at_k]
  exact (laid.placed_of_layout at_k).below_end laid.whole

end Laid

namespace Laid
variable {im : Image} (laid : Laid im) {k : Nat} {e : Extent}
include laid

omit laid in
theorem length_eq (at_k : im.layout k = some e) :
    im.length k = (im.inodes k).d_eoffset + 1 - (im.inodes k).d_sblock * BFS_BSIZE := by
  obtain ⟨_, _, full, _⟩ := layout_eq_some.mp at_k
  unfold Image.length
  rw [if_neg full]

theorem bytes_inside (at_k : im.layout k = some e) : 0 < im.length k ∧
    (im.inodes k).d_sblock * BFS_BSIZE + im.length k = (im.inodes k).d_eoffset + 1 ∧
    (im.inodes k).d_eoffset + 1 ≤ (e.last + 1) * BFS_BSIZE := by
  have placed := laid.placed_of_layout at_k
  have inside := placed.inside
  have bytes := placed.bytes
  rw [length_eq at_k, laid.last_eq at_k]
  omega

end Laid

def Image.put (im : Image) (k : Nat) (d : Dirent) : Image :=
  { im with inodes := Function.update im.inodes k d }

@[simp] theorem put_inodes_self (im : Image) (k : Nat) (d : Dirent) :
    (im.put k d).inodes k = d := by
  simp [Image.put]

theorem put_inodes_of_ne (im : Image) {j k : Nat} (d : Dirent) (ne : j ≠ k) :
    (im.put k d).inodes j = im.inodes j := by
  simp [Image.put, Function.update_of_ne ne]

@[simp] theorem put_slots (im : Image) (k : Nat) (d : Dirent) : (im.put k d).slots = im.slots := rfl

theorem put_layout (im : Image) {k : Nat} (inside : k < im.slots) (d : Dirent) :
    (im.put k d).layout = Function.update im.layout k (extent d) := by
  funext j
  by_cases same : j = k
  · subst same
    simp only [Image.layout, put_slots, put_inodes_self, Function.update_self, if_pos inside]
  · rw [Function.update_of_ne same]
    simp only [Image.layout, put_slots, put_inodes_of_ne im d same]

theorem Laid.put {im : Image} (laid : Laid im) {k : Nat} (inside : k < im.slots) {d : Dirent}
    (placed : d.d_ino ≠ 0 → d.d_sblock ≠ 0 → Placed im d)
    (empty : d.d_ino ≠ 0 → d.d_sblock = 0 → d.d_eblock = 0)
    (apart : Apart (Function.update im.layout k (extent d))) : Laid (im.put k d) := by
  refine ⟨laid.start, laid.aligned, laid.whole, ?_, ?_, by rw [put_layout im inside]; exact apart⟩
  · intro j hj
    by_cases same : j = k
    · subst same
      rw [put_inodes_self]
      intro live full
      have := placed live full
      exact { this with }
    · rw [put_inodes_of_ne im d same]
      intro live full
      have := laid.placed j hj live full
      exact { this with }
  · intro j hj
    by_cases same : j = k
    · subst same
      rw [put_inodes_self]
      exact empty
    · rw [put_inodes_of_ne im d same]
      exact laid.empty j hj

theorem Laid.with_disk {im : Image} (laid : Laid im) (disk : Nat → UInt8) :
    Laid { im with disk := disk } :=
  { laid with placed := fun k hk live full =>
      have := laid.placed k hk live full
      { this with } }

end Bfs
