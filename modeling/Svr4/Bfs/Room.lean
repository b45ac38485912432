import Svr4.Bfs.Writing

/- The room there is behind the last file, and bfs_filetoend. -/
namespace Bfs
open ByteMoves BlockExtents Nat

def Image.reach (im : Image) : Nat :=
  BlockExtents.reach im.floor (Finset.range im.slots) im.layout

def Image.place (im : Image) (v : Nat) : Nat :=
  BlockExtents.reach im.floor (Finset.range im.slots) (Function.update im.layout v none)

def Image.CopyFits (im : Image) (v : Nat) : Prop :=
  im.reach * BFS_BSIZE + im.length v ≤ im.bsup_end + 1

theorem Laid.grounded {im : Image} (laid : Laid im) :
    Grounded im.floor (Finset.range im.slots) im.layout := by
  constructor
  · intro i e at_i
    exact Finset.mem_range.mpr (layout_eq_some.mp at_i).1
  · intro i e at_i
    have start := (laid.placed_of_layout at_i).start
    rw [← Laid.first_eq at_i] at start
    have := Nat.div_le_of_le_mul (Nat.le_trans start (Nat.le_of_eq (Nat.mul_comm _ _)))
    unfold Image.floor
    omega

section Reach
variable {bs : Bsuper} {v : Nat}

theorem floor_le_next (sums : bs.Sums) : bs.toImage.floor ≤ (bfs_nextfile bs).2 := by
  have rooted := sums.rooted
  have at_root := layout_of_full rooted.slot rooted.live rooted.full
  have low := sums.laid.grounded.low root _ at_root
  have below := below_next sums at_root
  have := Extent.first_le_last
    ⟨(bs.inodes root).d_sblock, (bs.inodes root).d_eblock - (bs.inodes root).d_sblock⟩
  omega

theorem reach_le_next (sums : bs.Sums) : bs.toImage.reach ≤ (bfs_nextfile bs).2 :=
  sums.laid.grounded.reach_le sums.laid.apart (fun _ _ at_i => below_next sums at_i)
    (floor_le_next sums)

theorem some_last (sums : bs.Sums) : ∃ l e, bs.bsup_lastfile = some l ∧
    bs.layout l = some e ∧ Topmost bs.layout l := by
  have top := sums.last
  cases last : bs.bsup_lastfile with
  | none =>
    rw [last] at top
    have nothing := top root
    rw [layout_of_full sums.rooted.slot sums.rooted.live sums.rooted.full] at nothing
    cases nothing
  | some l =>
    rw [last] at top
    obtain ⟨e, at_l, above⟩ := top
    exact ⟨l, e, rfl, at_l, e, at_l, above⟩

theorem next_of_packed (sums : bs.Sums) (packed : bs.bsup_compacted = true) :
    (bfs_nextfile bs).2 = bs.toImage.reach := by
  obtain ⟨l, e, last, at_l, top⟩ := some_last sums
  have all := sums.laid.grounded.reach_of_packed sums.laid.apart (sums.packed packed) top at_l
  unfold bfs_nextfile Image.reach
  rw [all, sums.laid.last_eq at_l, last]

theorem place_of_last (sums : bs.Sums) (not_root : v ≠ root) (last : bs.bsup_lastfile = some v) :
    bs.toImage.place v ≤ (bs.inodes v).d_sblock ∧
      (bs.bsup_compacted = true → bs.toImage.place v = (bs.inodes v).d_sblock) := by
  have top := sums.last
  rw [last] at top
  obtain ⟨e, at_v, above⟩ := top
  have rooted := sums.rooted
  have at_root := layout_of_full rooted.slot rooted.live rooted.full
  have first := Laid.first_eq at_v
  have ends := sums.laid.last_eq at_v
  have next : (bfs_nextfile bs).2 = e.last + 1 := by
    unfold bfs_nextfile
    rw [last, ends]
  have high : bs.toImage.floor ≤ e.first := by
    have low := sums.laid.grounded.low root _ at_root
    have before := above root _ not_root.symm at_root
    have := Extent.first_le_last
      ⟨(bs.inodes root).d_sblock, (bs.inodes root).d_eblock - (bs.inodes root).d_sblock⟩
    unfold Extent.Before at before
    omega
  have without := reach_clear (sums.laid.grounded.inside v e at_v) at_v high
  have last_block : e.last = e.first + e.more := rfl
  constructor
  · have := reach_le_next sums
    unfold Image.reach at this
    unfold Image.place
    omega
  · intro packed
    have := next_of_packed sums packed
    unfold Image.reach at this
    unfold Image.place
    omega

theorem place_of_empty {im : Image} (nothing : im.layout v = none) : im.place v = im.reach := by
  unfold Image.place Image.reach
  rw [← nothing, Function.update_eq_self]

end Reach

structure Alike (im im' : Image) (v : Nat) : Prop where
  start : im'.bsup_start = im.bsup_start
  stop : im'.bsup_end = im.bsup_end
  slots : im'.slots = im.slots
  place : im'.place v = im.place v
  length : im'.length v = im.length v
  number : (im'.inodes v).d_ino = (im.inodes v).d_ino
  empty : (im'.inodes v).d_sblock = 0 ↔ (im.inodes v).d_sblock = 0

theorem Alike.trans {a b c : Image} {v : Nat} (one : Alike a b v) (two : Alike b c v) :
    Alike a c v :=
  ⟨two.start.trans one.start, two.stop.trans one.stop, two.slots.trans one.slots,
    two.place.trans one.place, two.length.trans one.length, two.number.trans one.number,
    two.empty.trans one.empty⟩

theorem Slid.floor {im im' : Image} (slid : Slid im im') : im'.floor = im.floor := by
  unfold Image.floor
  rw [slid.start]

theorem Slid.reach {im im' : Image} (slid : Slid im im') : im'.reach = im.reach := by
  unfold Image.reach
  rw [slid.floor, slid.slots]
  exact Lowered.reach _ slid.rearranged slid.lowered

theorem Slid.alike {im im' : Image} (slid : Slid im im') {v : Nat} (inside : v < im.slots)
    (live : (im.inodes v).d_ino ≠ 0) : Alike im im' v where
  start := slid.start
  stop := slid.stop
  slots := slid.slots
  place := by
    unfold Image.place
    rw [slid.floor, slid.slots]
    exact Lowered.reach _ (slid.rearranged.clear v) (slid.lowered.clear v)
  length := by
    by_cases empty : (im.inodes v).d_sblock = 0
    · have still : (im'.inodes v).d_sblock = 0 :=
        (not_iff_not.mp (slid.sblock_ne inside live)).mpr empty
      unfold Image.length
      rw [if_pos empty, if_pos still]
    · exact slid.length v _ (layout_of_full inside live empty)
  number := slid.number v
  empty := not_iff_not.mp (slid.sblock_ne inside live)

section Filetoend
variable {bs : Bsuper} {v : Nat}

section
variable (sums : bs.Sums) (inside : v < bs.slots) (live : (bs.inodes v).d_ino ≠ 0)
  (full : (bs.inodes v).d_sblock ≠ 0)
include sums inside live full

theorem moved_alike (disk : Nat → UInt8) :
    Alike bs.toImage (bs.toImage.moved v (bfs_nextfile bs).2 disk) v where
  start := rfl
  stop := rfl
  slots := rfl
  place := by
    unfold Image.place
    have layout : (bs.toImage.moved v (bfs_nextfile bs).2 disk).layout = _ :=
      put_layout _ (show v < _ from inside) _
    rw [layout, Function.update_idem]
    rfl
  length := moved_length sums inside live full disk
  number := by
    rw [moved_inode]
    rfl
  empty := by
    rw [moved_inode]
    exact iff_of_false (next_start sums).2 full

theorem fits_iff : Fits bs v ↔ (bfs_nextfile bs).2 * BFS_BSIZE + bs.length v ≤ bs.bsup_end + 1 := by
  obtain ⟨pos, ends⟩ := length_of_file sums.laid inside live full
  unfold Fits
  omega

theorem Fits.copy_fits (fits : Fits bs v) : bs.CopyFits v := by
  have room := (fits_iff sums inside live full).mp fits
  have := mul_le_mul_right BFS_BSIZE (reach_le_next sums)
  unfold Image.CopyFits
  omega

theorem fits_of_packed (packed : bs.bsup_compacted = true) : Fits bs v ↔ bs.CopyFits v := by
  rw [fits_iff sums inside live full, next_of_packed sums packed]
  rfl

end

/-- The copy is made from where the file lies: there is room at once, or compaction leaves it there.
-/
def InPlace (bs : Bsuper) (v : Nat) : Prop := Fits bs v ∨ PackedTo bs.toImage.floor bs.layout v

theorem moved_unharmed (sums : bs.Sums) (inside : v < bs.slots) (live : (bs.inodes v).d_ino ≠ 0)
    (full : (bs.inodes v).d_sblock ≠ 0) {disk : Nat → UInt8}
    (from_here : disk = transfer bs.disk ((bs.inodes v).d_sblock * BFS_BSIZE)
      ((bfs_nextfile bs).2 * BFS_BSIZE) (bs.length v)) {j : Nat} (j_inside : j < bs.slots)
    (j_live : (bs.inodes j).d_ino ≠ 0) :
    Unharmed bs.toImage (bs.toImage.moved v (bfs_nextfile bs).2 disk) j := by
  obtain ⟨others, own⟩ := moved_contents sums inside live full from_here
  have alike := moved_alike sums inside live full disk
  by_cases same : j = v
  · subst same
    exact ⟨alike.number, alike.empty, fun _ => own⟩
  · have inode : (bs.toImage.moved v (bfs_nextfile bs).2 disk).inodes j = bs.inodes j :=
      put_inodes_of_ne _ _ same
    refine ⟨by rw [inode], by rw [inode], fun _ => ?_⟩
    by_cases empty : (bs.inodes j).d_sblock = 0
    · rw [contents_of_empty empty, contents_of_empty (by rw [inode]; exact empty)]
    · exact others j _ same (layout_of_full j_inside j_live empty)

theorem Slid.copy_fits {im im' : Image} (slid : Slid im im') (alike : Alike im im' v) :
    im'.CopyFits v ↔ im.CopyFits v := by
  unfold Image.CopyFits
  rw [slid.reach, alike.length, alike.stop]

section
variable (sums : bs.Sums) (inside : v < bs.slots) (live : (bs.inodes v).d_ino ≠ 0)
  (full : (bs.inodes v).d_sblock ≠ 0)
include sums inside live full

theorem Copy.self : Copy bs v (bs.inodes v) :=
  ⟨rfl, rfl, (length_of_file sums.laid inside live full).2⟩

theorem filetoend_short (short : ¬ Fits bs v) (no_io : bs.bsup_ioinprog ≤ 1) {dir : Dirent}
    (copy : Copy bs v dir) (nomem : Bool) (fuel : Nat) :
    bfs_filetoend nomem (fuel + 1) bs dir v =
      if bs.bsup_compacted then some (some .ENOSPC, bfs_unlock bs)
      else (bfs_compact (BFS_LOCK bs)).bind fun bs =>
        bfs_filetoend nomem fuel (bfs_unlock bs) dir v := by
  obtain ⟨pos, ends⟩ := length_of_file sums.laid inside live full
  have quiet : ¬ 1 < (BFS_LOCK bs).bsup_ioinprog := not_lt.mpr no_io
  have room : (BFS_LOCK bs).bsup_end <
      (bfs_nextfile (BFS_LOCK bs)).2 * BFS_BSIZE + (dir.d_eoffset - dir.d_sblock * BFS_BSIZE) := by
    have size : dir.d_eoffset - dir.d_sblock * BFS_BSIZE =
        (bs.inodes v).d_eoffset - (bs.inodes v).d_sblock * BFS_BSIZE := by
      have := copy.bytes
      omega
    rw [size]
    exact Nat.lt_of_not_le short
  rw [bfs_filetoend, if_neg quiet]
  simp only [if_pos room]
  cases compacted : bs.bsup_compacted with
  | true =>
    have same : (BFS_LOCK bs).bsup_compacted = true := compacted
    simp only [same]
    rfl
  | false =>
    have same : (BFS_LOCK bs).bsup_compacted = false := compacted
    simp only [same]
    rfl

end

theorem Alike.refl (im : Image) (v : Nat) : Alike im im v := ⟨rfl, rfl, rfl, rfl, rfl, rfl, Iff.rfl⟩

structure Ended (bs bs' : Bsuper) (v : Nat) (nomem : Bool) (r : Option Errno) : Prop where
  sums : bs'.Sums
  ioinprog : bs'.bsup_ioinprog = bs.bsup_ioinprog
  inomap : bs'.bsup_inomap = bs.bsup_inomap
  locked : bs'.bsup_fslocked = decide (r = some .ENOMEM)
  alike : Alike bs.toImage bs'.toImage v
  outcome : (r = none ∧ bs'.bsup_lastfile = some v) ∨
    (r = some .ENOMEM ∧ bs.CopyFits v ∧ nomem = true) ∨ (r = some .ENOSPC ∧ ¬ bs.CopyFits v)
  unharmed : (bs.CopyFits v → nomem = false → InPlace bs v) →
    ∀ j < bs.slots, (bs.inodes j).d_ino ≠ 0 → Unharmed bs.toImage bs'.toImage j

theorem filetoend_spec (sums : bs.Sums) (inside : v < bs.slots) (live : (bs.inodes v).d_ino ≠ 0)
    (full : (bs.inodes v).d_sblock ≠ 0) (no_io : bs.bsup_ioinprog ≤ 1) {nomem : Bool}
    (whole : bs.CopyFits v → nomem = false → WholeMove (bs.length v)) :
    ∃ r bs', bfs_filetoend nomem 2 bs (bs.inodes v) v = some (r, bs') ∧ Ended bs bs' v nomem r := by
  have own := Copy.self sums inside live full
  by_cases fits : Fits bs v
  · have room := fits.copy_fits sums inside live full
    obtain ⟨disk, run, copied⟩ := move_direct sums inside live full fits no_io own (whole room) 1
    rw [run]
    cases nomem with
    | true =>
      exact ⟨_, _, rfl, sums, rfl, rfl, rfl, Alike.refl _ _,
        .inr (.inl ⟨rfl, room, rfl⟩), fun _ j _ _ => Unharmed.refl _ j⟩
    | false =>
      refine ⟨_, _, rfl, moved_sums sums inside live full fits disk, rfl, rfl, rfl,
        moved_alike sums inside live full disk, .inl ⟨rfl, rfl⟩, ?_⟩
      intro _ j j_inside j_live
      refine moved_unharmed sums inside live full (copied rfl ?_) j_inside j_live
      have at_v := layout_of_full inside live full
      have high := (sums.laid.bytes_inside at_v).2.2
      exact le_trans high (mul_le_mul_right _ (below_next sums at_v))
  rw [filetoend_short sums inside live full fits no_io own]
  cases compacted : bs.bsup_compacted with
  | true =>
    rw [if_pos rfl]
    have none_fits : ¬ bs.CopyFits v :=
      fun room => fits ((fits_of_packed sums inside live full compacted).mpr room)
    exact ⟨_, _, rfl, sums, rfl, rfl, rfl, Alike.refl _ _,
      .inr (.inr ⟨rfl, none_fits⟩), fun _ j _ _ => Unharmed.refl _ j⟩
  | false =>
    rw [if_neg Bool.false_ne_true]
    obtain ⟨im, compact, slid, sums₁⟩ := compact_sums (show (BFS_LOCK bs).Sums from sums)
    rw [compact, Option.bind_some]
    obtain ⟨bs₁, h₁⟩ : ∃ bs₁ : Bsuper, bs₁ = { bs with
      toImage := im, bsup_compacted := true, bsup_fslocked := false } := ⟨_, rfl⟩
    have state : bfs_unlock { BFS_LOCK bs with
        toImage := im, bsup_compacted := true, bsup_fslocked := false } = bs₁ := by
      rw [h₁]
      rfl
    rw [state]
    have image : bs₁.toImage = im := by rw [h₁]
    have sums_in : bs₁.Sums := by
      rw [h₁]
      exact sums₁
    have alike : Alike bs.toImage im v := Slid.alike slid inside live
    have inside₁ : v < bs₁.slots := by
      rw [image, alike.slots]
      exact inside
    have live₁ : (bs₁.inodes v).d_ino ≠ 0 := by
      rw [image, alike.number]
      exact live
    have full₁ : (bs₁.inodes v).d_sblock ≠ 0 := by
      rw [image]
      exact fun empty => full (alike.empty.mp empty)
    have no_io₁ : bs₁.bsup_ioinprog ≤ 1 := by
      rw [h₁]
      exact no_io
    have stale : Copy bs₁ v (bs.inodes v) := by
      refine ⟨?_, ?_, ?_⟩
      · rw [image]
        exact (slid.number v).symm
      · rw [image]
        exact (slid.nlink v).symm
      · rw [image, alike.length]
        exact own.bytes
    have packed₁ : bs₁.bsup_compacted = true := by rw [h₁]
    have room_iff : Fits bs₁ v ↔ bs.CopyFits v := by
      rw [fits_of_packed sums_in inside₁ live₁ full₁ packed₁, image]
      exact Slid.copy_fits slid alike
    by_cases fits₁ : Fits bs₁ v
    · have room := room_iff.mp fits₁
      have whole₁ : nomem = false → WholeMove (bs₁.length v) := by
        rw [image, alike.length]
        exact whole room
      obtain ⟨disk, run, copied⟩ :=
        move_direct sums_in inside₁ live₁ full₁ fits₁ no_io₁ stale whole₁ 0
      rw [run]
      cases nomem with
      | true =>
        refine ⟨_, _, rfl, sums_in, by rw [h₁]; rfl, by rw [h₁]; rfl, rfl, ?_,
          .inr (.inl ⟨rfl, room, rfl⟩), ?_⟩
        · rw [show (BFS_LOCK bs₁).toImage = im from image]
          exact alike
        · intro _ j j_inside j_live
          rw [show (BFS_LOCK bs₁).toImage = im from image]
          exact slid.unharmed j_inside j_live
      | false =>
        refine ⟨_, _, rfl, moved_sums sums_in inside₁ live₁ full₁ fits₁ disk, by rw [h₁],
          by rw [h₁], rfl, ?_, .inl ⟨rfl, rfl⟩, ?_⟩
        · have moved := moved_alike sums_in inside₁ live₁ full₁ disk
          rw [image] at moved
          have both := alike.trans moved
          rw [← image] at both
          exact both
        · intro in_place j j_inside j_live
          have packed := (in_place room rfl).resolve_left fits
          have at_v := layout_of_full inside live full
          have stays := packed.stays slid.rearranged slid.lowered at_v
          have same_start : (im.inodes v).d_sblock = (bs.inodes v).d_sblock :=
            (Laid.first_eq stays).symm
          have high := (slid.laid.bytes_inside stays).2
          have from_here := copied rfl (by
            have below := below_next sums_in (show bs₁.layout v = some _ by rw [image]; exact stays)
            have up := mul_le_mul_right BFS_BSIZE (succ_le_of_lt below)
            have ends := own.bytes
            have same_length : im.length v = bs.length v := alike.length
            rw [same_start] at high
            have := le_trans high.2 up
            omega)
          rw [← same_start, show im.inodes v = bs₁.inodes v by rw [image]] at from_here
          have first := slid.unharmed j_inside j_live
          have second := moved_unharmed sums_in inside₁ live₁ full₁ from_here
            (show j < bs₁.slots by rw [image, alike.slots]; exact j_inside)
            (show (bs₁.inodes j).d_ino ≠ 0 by rw [image, slid.number]; exact j_live)
          rw [← image] at first
          exact first.trans second
    · rw [filetoend_short sums_in inside₁ live₁ full₁ fits₁ no_io₁ stale, packed₁, if_pos rfl]
      refine ⟨_, _, rfl, sums_in, by rw [h₁]; rfl, by rw [h₁]; rfl, rfl, ?_,
        .inr (.inr ⟨rfl, fun room => fits₁ (room_iff.mpr room)⟩), ?_⟩
      · rw [show (bfs_unlock bs₁).toImage = im from image]
        exact alike
      · intro _ j j_inside j_live
        rw [show (bfs_unlock bs₁).toImage = im from image]
        exact slid.unharmed j_inside j_live

end Filetoend

end Bfs
