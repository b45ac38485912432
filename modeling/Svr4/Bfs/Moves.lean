import Svr4.Bfs.Directory

/- bfs_filetoend: a file is copied behind the last one. -/
namespace Bfs
open ByteMoves BlockExtents

/-- How many bytes the loop moves: its test leaves out a last byte that needs a chunk of its own. -/
def copied (len : Nat) : Nat := if 1 < len ∧ len % MAXBSIZE = 1 then len - 1 else len

theorem copy_loop_eq (d_eoffset : Nat) : ∀ (fuel offset1 offset2 len : Nat) (disk : Nat → UInt8),
    0 < len → d_eoffset + 1 = offset2 + len → len ≤ fuel →
    ∃ disk', copy_loop d_eoffset (min len MAXBSIZE) fuel offset1 offset2 disk =
        some (offset1 + copied len, disk') ∧
      (1 < len → copy_loop d_eoffset MAXBSIZE fuel offset1 offset2 disk =
        some (offset1 + copied len, disk')) ∧
      (offset2 + len ≤ offset1 → disk' = transfer disk offset2 offset1 (copied len)) := by
  intro fuel
  induction fuel with
  | zero => intro offset1 offset2 len disk pos _ short; omega
  | succ fuel ih =>
    intro offset1 offset2 len disk pos ends short
    have rest : d_eoffset - offset2 + 1 = len := by omega
    by_cases small : len ≤ MAXBSIZE
    · -- one chunk
      have all : copied len = len := by
        unfold copied
        rw [if_neg]
        unfold MAXBSIZE at *
        omega
      have done : ¬ offset2 + len < d_eoffset := by omega
      have chunk : min len MAXBSIZE = len := min_eq_left small
      refine ⟨transfer disk offset2 offset1 len, ?_, ?_, fun _ => by rw [all]⟩
      · rw [copy_loop, rest, chunk, min_self, if_neg done, all]
      · intro _
        rw [copy_loop, rest, chunk, if_neg done, all]
    · have chunk : min len MAXBSIZE = MAXBSIZE := min_eq_right (by omega)
      have both : ∃ disk', copy_loop d_eoffset MAXBSIZE (fuel + 1) offset1 offset2 disk =
            some (offset1 + copied len, disk') ∧
          (offset2 + len ≤ offset1 → disk' = transfer disk offset2 offset1 (copied len)) := by
        rw [copy_loop, rest, chunk]
        by_cases more : offset2 + MAXBSIZE < d_eoffset
        · rw [if_pos more]
          obtain ⟨len', hl⟩ : ∃ len', len' = len - MAXBSIZE := ⟨_, rfl⟩
          have left : copied len = MAXBSIZE + copied len' := by
            unfold copied MAXBSIZE at *
            split <;> split <;> omega
          have bound : copied len' ≤ len' := by
            unfold copied
            split <;> omega
          obtain ⟨disk', _, run, same⟩ := ih (offset1 + MAXBSIZE) (offset2 + MAXBSIZE) len'
            (transfer disk offset2 offset1 MAXBSIZE) (by omega) (by omega)
            (by unfold MAXBSIZE at *; omega)
          refine ⟨disk', ?_, fun apart => ?_⟩
          · rw [run (by omega), left, add_assoc]
          · rw [same (by omega), left, transfer_transfer disk (.inr (by omega))]
        · rw [if_neg more]
          have last : copied len = MAXBSIZE := by
            unfold copied MAXBSIZE at *
            split <;> omega
          rw [last]
          exact ⟨_, rfl, fun _ => rfl⟩
      obtain ⟨disk', run, same⟩ := both
      rw [chunk]
      exact ⟨disk', run, fun _ => run, same⟩

/-- The lengths that arrive whole. -/
def WholeMove (len : Nat) : Prop := len % MAXBSIZE = 1 → len = 1

theorem copied_whole {len : Nat} (whole : WholeMove len) : copied len = len := by
  unfold copied
  rw [if_neg]
  intro ⟨long, last⟩
  have := whole last
  omega

/- The block behind the last file. -/

theorem below_next {bs : Bsuper} (sums : bs.Sums) {j : Nat} {b : Extent}
    (at_j : bs.layout j = some b) : b.last < (bfs_nextfile bs).2 := by
  have top := sums.last
  unfold bfs_nextfile
  cases last : bs.bsup_lastfile with
  | none =>
    rw [last] at top
    rw [top j] at at_j
    cases at_j
  | some l =>
    rw [last] at top
    obtain ⟨e, at_l, above⟩ := top
    have ends := sums.laid.last_eq at_l
    show b.last < (bs.inodes l).d_eblock + 1
    by_cases same : j = l
    · subst same
      obtain rfl := Option.some.inj (at_j.symm.trans at_l)
      omega
    · have before := above j b same at_j
      have := e.first_le_last
      unfold Extent.Before at before
      omega

theorem next_start {bs : Bsuper} (sums : bs.Sums) :
    bs.bsup_start ≤ (bfs_nextfile bs).2 * BFS_BSIZE ∧ (bfs_nextfile bs).2 ≠ 0 := by
  have rooted := sums.rooted
  have at_root := layout_of_full rooted.slot rooted.live rooted.full
  have below := below_next sums at_root
  have placed := sums.laid.placed root rooted.slot rooted.live rooted.full
  have first := Extent.first_le_last
    ⟨(bs.inodes root).d_sblock, (bs.inodes root).d_eblock - (bs.inodes root).d_sblock⟩
  have up : (bs.inodes root).d_sblock * BFS_BSIZE ≤ (bfs_nextfile bs).2 * BFS_BSIZE :=
    Nat.mul_le_mul_right _ (Nat.le_of_lt (Nat.lt_of_le_of_lt first below))
  exact ⟨le_trans placed.start up, by omega⟩

theorem next_supported {bs : Bsuper} (sums : bs.Sums) (more : Nat) :
    Supported bs.toImage.floor bs.layout ⟨(bfs_nextfile bs).2, more⟩ := by
  have top := sums.last
  unfold bfs_nextfile
  cases last : bs.bsup_lastfile with
  | none => exact .inl (le_refl _)
  | some l =>
    rw [last] at top
    obtain ⟨e, at_l, _⟩ := top
    refine .inr ⟨l, e, at_l, ?_⟩
    rw [sums.laid.last_eq at_l]

def Fits (bs : Bsuper) (v : Nat) : Prop :=
  (bfs_nextfile bs).2 * BFS_BSIZE + ((bs.inodes v).d_eoffset - (bs.inodes v).d_sblock * BFS_BSIZE) ≤
    bs.bsup_end

def Image.moved (im : Image) (v nb : Nat) (disk : Nat → UInt8) : Image :=
  { im with disk := disk }.put v ((im.inodes v).startAt nb)

section Move
variable {bs : Bsuper} {v : Nat}

theorem length_of_file (laid : Laid bs.toImage) (inside : v < bs.slots)
    (live : (bs.inodes v).d_ino ≠ 0) (full : (bs.inodes v).d_sblock ≠ 0) :
    0 < bs.length v ∧
      (bs.inodes v).d_sblock * BFS_BSIZE + bs.length v = (bs.inodes v).d_eoffset + 1 := by
  obtain ⟨pos, ends, _⟩ := laid.bytes_inside (layout_of_full inside live full)
  exact ⟨pos, ends⟩

section
variable (sums : bs.Sums) (inside : v < bs.slots) (live : (bs.inodes v).d_ino ≠ 0)
  (full : (bs.inodes v).d_sblock ≠ 0) (fits : Fits bs v)
include sums inside live full fits

theorem startAt_placed : Placed bs.toImage ((bs.inodes v).startAt (bfs_nextfile bs).2) := by
  have placed := sums.laid.placed v inside live full
  refine placed.startAt (next_start sums).1 ?_
  unfold Fits at fits
  omega

theorem moved_sums (disk : Nat → UInt8) :
    Sums (bs.toImage.moved v (bfs_nextfile bs).2 disk) bs.bsup_freeblocks bs.bsup_freedrents
      (some v) false := by
  have placed := startAt_placed sums inside live full fits
  have pos := (next_start sums).2
  have old := layout_of_full inside live full
  have extent_new := extent_startAt live pos
  have with_disk := sums.with_disk disk
  have raised := Sums.raise with_disk inside
    (d := (bs.inodes v).startAt (bfs_nextfile bs).2) live live
    pos rfl { placed with }
    (fun j b _ at_j => below_next sums at_j) (fun absurd : false = true => by cases absurd)
  have same : (bs.bsup_freeblocks + blocks (bs.layout v) -
      blocks (extent ((bs.inodes v).startAt (bfs_nextfile bs).2)) : Int) = bs.bsup_freeblocks := by
    rw [old, extent_new]
    simp only [blocks]
    omega
  rw [← same]
  exact raised

end

theorem moved_inode (im : Image) (v nb : Nat) (disk : Nat → UInt8) :
    (im.moved v nb disk).inodes v = (im.inodes v).startAt nb := put_inodes_self _ _ _

section
variable (sums : bs.Sums) (inside : v < bs.slots) (live : (bs.inodes v).d_ino ≠ 0)
  (full : (bs.inodes v).d_sblock ≠ 0)
include sums inside live full

theorem moved_length (disk : Nat → UInt8) :
    (bs.toImage.moved v (bfs_nextfile bs).2 disk).length v = bs.length v := by
  have placed := sums.laid.placed v inside live full
  have pos := (next_start sums).2
  unfold Image.length
  rw [moved_inode, if_neg full,
    if_neg (show ((bs.inodes v).startAt (bfs_nextfile bs).2).d_sblock ≠ 0 from pos)]
  have := placed.bytes
  simp only [Dirent.startAt]
  omega

/-- A move touches no bytes of other files, and the moved one has the bytes that were at `src`. -/
theorem moved_contents {src : Nat} {disk : Nat → UInt8}
    (from_src : disk = transfer bs.disk src ((bfs_nextfile bs).2 * BFS_BSIZE) (bs.length v)) :
    (∀ j e, j ≠ v → bs.layout j = some e →
      (bs.toImage.moved v (bfs_nextfile bs).2 disk).contents j = bs.contents j) ∧
    (bs.toImage.moved v (bfs_nextfile bs).2 disk).contents v = slice bs.disk src (bs.length v) := by
  constructor
  · intro j e ne at_j
    have inode : (bs.toImage.moved v (bfs_nextfile bs).2 disk).inodes j = bs.inodes j :=
      put_inodes_of_ne _ _ ne
    have length : (bs.toImage.moved v (bfs_nextfile bs).2 disk).length j = bs.length j := by
      unfold Image.length
      rw [inode]
    have own := sums.laid.bytes_inside at_j
    have below : (e.last + 1) * BFS_BSIZE ≤ (bfs_nextfile bs).2 * BFS_BSIZE :=
      Nat.mul_le_mul_right _ (below_next sums at_j)
    unfold Image.contents
    rw [length, inode]
    rw [from_src]
    apply slice_transfer_of_apart
    omega
  · unfold Image.contents
    rw [moved_length sums inside live full, moved_inode]
    rw [from_src]
    exact slice_transfer _ _ _ _ (le_refl _)

end

/-- A copy of the inode that is as long as the file, wherever it says the file lies. -/
structure Copy (bs : Bsuper) (v : Nat) (dir : Dirent) : Prop where
  number : dir.d_ino = (bs.inodes v).d_ino
  nlink : dir.va_nlink = (bs.inodes v).va_nlink
  bytes : dir.d_sblock * BFS_BSIZE + bs.length v = dir.d_eoffset + 1

theorem move_direct (sums : bs.Sums) (inside : v < bs.slots) (live : (bs.inodes v).d_ino ≠ 0)
    (full : (bs.inodes v).d_sblock ≠ 0) (fits : Fits bs v) (no_io : bs.bsup_ioinprog ≤ 1)
    {dir : Dirent} (copy : Copy bs v dir) {nomem : Bool}
    (whole : nomem = false → WholeMove (bs.length v)) (fuel : Nat) :
    ∃ disk, bfs_filetoend nomem (fuel + 1) bs dir v = some (if nomem then
        (some .ENOMEM, BFS_LOCK bs)
      else (none, { bs with
        toImage := bs.toImage.moved v (bfs_nextfile bs).2 disk,
        bsup_lastfile := some v, bsup_compacted := false, bsup_fslocked := false })) ∧
      (nomem = false → dir.d_eoffset + 1 ≤ (bfs_nextfile bs).2 * BFS_BSIZE →
        disk = transfer bs.disk (dir.d_sblock * BFS_BSIZE) ((bfs_nextfile bs).2 * BFS_BSIZE)
          (bs.length v)) := by
  obtain ⟨pos, ends⟩ := length_of_file sums.laid inside live full
  have placed := sums.laid.placed v inside live full
  have bytes := copy.bytes
  have quiet : ¬ 1 < (BFS_LOCK bs).bsup_ioinprog := not_lt.mpr no_io
  have size : dir.d_eoffset - dir.d_sblock * BFS_BSIZE =
      (bs.inodes v).d_eoffset - (bs.inodes v).d_sblock * BFS_BSIZE := by omega
  have room : ¬ (BFS_LOCK bs).bsup_end <
      (bfs_nextfile (BFS_LOCK bs)).2 * BFS_BSIZE + (dir.d_eoffset - dir.d_sblock * BFS_BSIZE) := by
    rw [size]
    exact not_lt.mpr fits
  have len : dir.d_eoffset - dir.d_sblock * BFS_BSIZE + 1 = bs.length v := by omega
  rw [bfs_filetoend, if_neg quiet]
  simp only [if_neg room]
  cases nomem with
  | true => exact ⟨bs.disk, rfl, fun absurd => by cases absurd⟩
  | false =>
    obtain ⟨disk, loop, _, apart⟩ := copy_loop_eq dir.d_eoffset (bs.length v)
      ((bfs_nextfile bs).2 * BFS_BSIZE) (dir.d_sblock * BFS_BSIZE) (bs.length v) bs.disk pos
      (by omega) (le_refl _)
    rw [copied_whole (whole rfl)] at loop apart
    have next : bfs_nextfile (BFS_LOCK bs) = bfs_nextfile bs := rfl
    have disk_eq : (BFS_LOCK bs).disk = bs.disk := rfl
    have inode : (⟨dir.d_ino, (bfs_nextfile bs).2,
        ((bfs_nextfile bs).2 * BFS_BSIZE + bs.length v - 1) / BFS_BSIZE,
        (bfs_nextfile bs).2 * BFS_BSIZE + bs.length v - 1, dir.va_nlink⟩ : Dirent) =
        (bs.inodes v).startAt (bfs_nextfile bs).2 := by
      have last := placed.inside
      rw [copy.number, copy.nlink]
      congr 1
      · unfold BFS_BSIZE at *
        omega
      · omega
    refine ⟨disk, ?_, fun _ below => apart (by omega)⟩
    simp only [Bool.false_eq_true, if_false, len, next, disk_eq, loop, Option.bind_eq_bind,
      Option.bind_some, inode]
    rfl

end Move

end Bfs
