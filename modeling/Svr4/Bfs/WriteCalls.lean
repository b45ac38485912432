import Svr4.Bfs.Room

/- bfs_write as a whole: the file may have to be moved and the file system compacted before
   the bytes go out. -/
namespace Bfs
open ByteMoves BlockExtents Option

def Image.write_at (im : Image) (v : Nat) (uio : Uio) : Nat :=
  if uio.append = true ∧ (im.inodes v).d_sblock ≠ 0 then im.length v else uio.uio_offset

def Image.data_end (im : Image) (v : Nat) (uio : Uio) : Nat :=
  im.place v * BFS_BSIZE + im.write_at v uio + uio.bytes.length

def MustMove (bs : Bsuper) (v : Nat) (uio : Uio) : Prop :=
  (bs.inodes v).d_sblock ≠ 0 ∧ bs.bsup_lastfile ≠ some v ∧
    bs.length v ≤ bs.write_at v uio + uio.bytes.length

def GoesLast (bs : Bsuper) (v : Nat) (uio : Uio) : Prop :=
  (bs.inodes v).d_sblock = 0 ∨ bs.bsup_lastfile = some v ∨ MustMove bs v uio

structure Ready (bs : Bsuper) (v : Nat) : Prop where
  sums : bs.Sums
  inside : v < bs.slots
  not_root : v ≠ root
  live : (bs.inodes v).d_ino ≠ 0
  unlocked : bs.bsup_fslocked = false
  no_io : bs.bsup_ioinprog = 0
  free : bs.bsup_inomap v = false

structure WriteDone (bs bs' : Bsuper) (v : Nat) (uio : Uio) (r : Option Errno) : Prop where
  sums : bs'.Sums
  ioinprog : bs'.bsup_ioinprog = bs.bsup_ioinprog
  inomap : bs'.bsup_inomap = bs.bsup_inomap
  locked : bs'.bsup_fslocked = decide (r = some .ENOMEM)
  nomem : r = some .ENOMEM → MustMove bs v uio ∧ bs.CopyFits v ∧ uio.nomem = true
  full : r = some .ENOSPC → (MustMove bs v uio ∧ ¬ bs.CopyFits v) ∨
    (GoesLast bs v uio ∧ bs.bsup_end < bs.data_end v uio)
  wrote : (MustMove bs v uio → bs.CopyFits v → uio.nomem = false → InPlace bs v) →
    Wrote bs.toImage bs'.toImage v (bs.write_at v uio) uio.bytes r

section Full
variable {bs : Bsuper} {v at_ : Nat} {uio : Uio} {r : Option Errno} {bytes : List UInt8}
  {im im' : Image}

theorem unheld (ready : Ready bs v) : BFS_INOUNLOCK (bs.held v) v = BFS_IOBEGIN bs := by
  unfold BFS_INOUNLOCK Bsuper.held BFS_IOBEGIN
  simp only [locked_section ready.free]

theorem begun (bs : Bsuper) : (BFS_IOBEGIN bs).bsup_compacted = bs.bsup_compacted := rfl

theorem write_full_eq (ready : Ready bs v) (full : (bs.inodes v).d_sblock ≠ 0)
    (some_bytes : uio.bytes ≠ []) [Decidable (MustMove bs v uio)] (fuel : Nat) :
    bfs_write (fuel + 1) bs v uio = if MustMove bs v uio then
        (bfs_filetoend uio.nomem 2 (BFS_IOBEGIN bs) (bs.inodes v) v).bind fun out =>
          if out.1.isSome then some (out.1, BFS_IOEND out.2)
          else bfs_write fuel (BFS_IOEND out.2) v uio
      else if bs.bsup_end < (bs.inodes v).d_sblock * BFS_BSIZE + bs.write_at v uio +
          uio.bytes.length then
        if bs.bsup_compacted then some (some .ENOSPC, BFS_IOEND (BFS_IOBEGIN bs))
        else (bfs_compact (BFS_IOBEGIN bs)).bind fun bs => bfs_write fuel (BFS_IOEND bs) v uio
      else (write_out (bs.held v) v uio (bs.full_target v)
          ((bs.inodes v).d_sblock * BFS_BSIZE + bs.write_at v uio)).bind fun out =>
        some (out.1, BFS_IOEND (BFS_INOUNLOCK out.2 v)) := by
  obtain ⟨pos, ends⟩ := length_of_file ready.sums.laid ready.inside ready.live full
  have target : open_target (bs.held v) v uio.uio_offset =
      some (some (bs.full_target v), bs.held v) := if_neg full
  have offset : (if uio.append = true then (bs.inodes v).d_eoffset + 1
      else (bs.inodes v).d_sblock * BFS_BSIZE + uio.uio_offset) =
      (bs.inodes v).d_sblock * BFS_BSIZE + bs.write_at v uio := by
    unfold Image.write_at
    by_cases append : uio.append = true
    · rw [if_pos append, if_pos ⟨append, full⟩]
      exact ends.symm
    · rw [if_neg append, if_neg fun both => append both.1]
  have move : (bs.full_target v).dir.d_eoffset < (bs.inodes v).d_sblock * BFS_BSIZE +
        bs.write_at v uio + uio.bytes.length ∧ (bs.full_target v).lastfile ≠ some v ↔
      MustMove bs v uio := by
    show (bs.inodes v).d_eoffset < _ ∧ bs.bsup_lastfile ≠ some v ↔ _
    constructor
    · exact fun ⟨past, other⟩ => ⟨full, other, by omega⟩
    · exact fun ⟨_, other, past⟩ => ⟨by omega, other⟩
  rw [bfs_write, if_neg some_bytes]
  simp only [bind_eq_bind, enter_eq ready.unlocked ready.free]
  rw [if_neg (show ¬ ((bs.held v).inodes v).d_ino = 0 from ready.live), target, bind_some]
  simp only
  have offset' : (if uio.append = true then (bs.full_target v).dir.d_eoffset + 1
      else (bs.full_target v).dir.d_sblock * BFS_BSIZE + uio.uio_offset) = _ := offset
  rw [offset']
  by_cases must : MustMove bs v uio
  · rw [if_pos must, if_pos (move.mpr must), unheld ready]
    rfl
  rw [if_neg must, if_neg fun past => must (move.mp past)]
  by_cases short : bs.bsup_end < (bs.inodes v).d_sblock * BFS_BSIZE + bs.write_at v uio +
      uio.bytes.length
  · rw [if_pos short, if_pos (show (bs.held v).bsup_end < _ from short), unheld ready]
    rw [begun]
    cases bs.bsup_compacted <;> rfl
  · rw [if_neg short, if_neg (show ¬ (bs.held v).bsup_end < _ from short)]
    rfl

theorem Alike.write_at (alike : Alike im im' v) : im'.write_at v uio = im.write_at v uio := by
  have full : (im'.inodes v).d_sblock ≠ 0 ↔ (im.inodes v).d_sblock ≠ 0 := not_congr alike.empty
  unfold Image.write_at
  rw [alike.length]
  simp only [full]

theorem Alike.data_end (alike : Alike im im' v) : im'.data_end v uio = im.data_end v uio := by
  unfold Image.data_end
  rw [alike.place, alike.write_at]

theorem Wrote.after {a b c : Image} (alike : Alike a b v) (inside : v < a.slots)
    (live : (a.inodes v).d_ino ≠ 0) (first : ∀ j < a.slots, (a.inodes j).d_ino ≠ 0 → Unharmed a b j)
    (wrote : Wrote b c v at_ bytes r) : Wrote a c v at_ bytes r := by
  have own := first v inside live
  refine ⟨wrote.start.trans alike.start, wrote.stop.trans alike.stop, ?_,
    wrote.number.trans own.number, ?_⟩
  · intro j j_inside ne j_live
    have one := first j j_inside j_live
    exact one.trans (wrote.others j (by rw [alike.slots]; exact j_inside) ne
      (by rw [one.number]; exact j_live))
  · rw [← own.contents live]
    exact wrote.self

theorem wrote_nothing {a b : Image} {at_ : Nat} {bytes : List UInt8} {e : Errno}
    (alike : Alike a b v) (inside : v < a.slots) (live : (a.inodes v).d_ino ≠ 0)
    (first : ∀ j < a.slots, (a.inodes j).d_ino ≠ 0 → Unharmed a b j) :
    Wrote a b v at_ bytes (some e) := by
  have own := first v inside live
  refine ⟨alike.start, alike.stop, fun j j_inside _ j_live => first j j_inside j_live, own.number,
    0, Nat.zero_le _, ?_, fun _ _ => rfl, ?_⟩
  · intro absurd
    cases absurd
  · rw [List.take_zero, overwrite_nil, own.contents live]

theorem WriteDone.carry {bs₁ bs' : Bsuper} (ready : Ready bs v) (done : WriteDone bs₁ bs' v uio r)
    (settled : ¬ MustMove bs₁ v uio) (goes : GoesLast bs₁ v uio → GoesLast bs v uio)
    (alike : Alike bs.toImage bs₁.toImage v) (ioinprog : bs₁.bsup_ioinprog = bs.bsup_ioinprog)
    (inomap : bs₁.bsup_inomap = bs.bsup_inomap)
    (unharmed : (MustMove bs v uio → bs.CopyFits v → uio.nomem = false → InPlace bs v) → ∀ j <
      bs.slots, (bs.inodes j).d_ino ≠ 0 → Unharmed bs.toImage bs₁.toImage j) :
    WriteDone bs bs' v uio r where
  sums := done.sums
  ioinprog := done.ioinprog.trans ioinprog
  inomap := done.inomap.trans inomap
  locked := done.locked
  nomem failed := absurd (done.nomem failed).1 settled
  full failed := by
    rcases done.full failed with ⟨must, _⟩ | ⟨last, past⟩
    · exact absurd must settled
    · rw [alike.data_end, alike.stop] at past
      exact .inr ⟨goes last, past⟩
  wrote in_place := by
    have wrote := done.wrote fun must => absurd must settled
    rw [alike.write_at] at wrote
    exact wrote.after alike ready.inside ready.live (unharmed in_place)

theorem left_state (bs : Bsuper) : BFS_IOEND (BFS_IOBEGIN bs) = bs := rfl

theorem out_done {out : Bsuper} (ready : Ready bs v) (sums : out.Sums) (kept : Kept (bs.held v) out)
    (result : r = none ∨ r = some .EFAULT)
    (wrote : Wrote bs.toImage out.toImage v (bs.write_at v uio) uio.bytes r) :
    WriteDone bs (BFS_IOEND (BFS_INOUNLOCK out v)) v uio r := by
  have left := leave_kept ready.free kept
  have not_full : r ≠ some .ENOMEM ∧ r ≠ some .ENOSPC := by
    rcases result with rfl | rfl <;> exact ⟨by decide, by decide⟩
  refine ⟨sums, left.ioinprog, left.inomap, ?_, fun failed => absurd failed not_full.1,
    fun failed => absurd failed not_full.2, fun _ => wrote⟩
  rw [decide_eq_false not_full.1]
  exact left.fslocked.trans ready.unlocked

theorem write_here (ready : Ready bs v) (full : (bs.inodes v).d_sblock ≠ 0)
    (some_bytes : uio.bytes ≠ []) (settled : ¬ MustMove bs v uio)
    (fits : (bs.inodes v).d_sblock * BFS_BSIZE + bs.write_at v uio + uio.bytes.length ≤ bs.bsup_end)
    (fuel : Nat) :
    ∃ r bs', bfs_write (fuel + 1) bs v uio = some (r, bs') ∧ WriteDone bs bs' v uio r := by
  obtain ⟨pos, ends⟩ := length_of_file ready.sums.laid ready.inside ready.live full
  have reach : bs.bsup_lastfile = some v ∨ (bs.inodes v).d_sblock * BFS_BSIZE +
      bs.write_at v uio + uio.bytes.length ≤ (bs.inodes v).d_eoffset := by
    by_cases last : bs.bsup_lastfile = some v
    · exact .inl last
    · refine .inr (not_lt.mp fun past => settled ⟨full, last, by omega⟩)
  classical
  rw [write_full_eq ready full some_bytes, if_neg settled, if_neg (not_lt.mpr fits)]
  obtain ⟨r, out, run, sums, kept, result, wrote⟩ :=
    write_out_full (show (bs.held v).Sums from ready.sums) ready.inside ready.live full some_bytes fits reach
  have whole : (bs.held v).full_target v = bs.full_target v := rfl
  have same : (bs.held v).inodes v = bs.inodes v := rfl
  rw [whole, same] at run
  rw [run, bind_some]
  exact ⟨_, _, rfl, out_done ready sums kept result wrote⟩

theorem Ready.after {bs₁ : Bsuper} (ready : Ready bs v) (alike : Alike bs.toImage bs₁.toImage v)
    (sums : bs₁.Sums) (unlocked : bs₁.bsup_fslocked = false)
    (ioinprog : bs₁.bsup_ioinprog = bs.bsup_ioinprog)
    (inomap : bs₁.bsup_inomap = bs.bsup_inomap) : Ready bs₁ v := by
  refine ⟨sums, ?_, ready.not_root, ?_, unlocked, ioinprog.trans ready.no_io, ?_⟩
  · rw [alike.slots]
    exact ready.inside
  · rw [alike.number]
    exact ready.live
  · rw [inomap]
    exact ready.free

abbrev Bsuper.packed (bs : Bsuper) (im : Image) : Bsuper :=
  { bs with toImage := im, bsup_compacted := true, bsup_fslocked := false }

section
variable (ready : Ready bs v)
include ready

theorem compact_ready (io : Nat) (locks : Nat → Bool) : ∃ im,
    bfs_compact { bs with bsup_ioinprog := io, bsup_inomap := locks } =
      some { bs.packed im with bsup_ioinprog := io, bsup_inomap := locks } ∧
    Ready (bs.packed im) v ∧ Slid bs.toImage im := by
  obtain ⟨im, run, slid, sums⟩ := compact_sums (show Bsuper.Sums
    { bs with bsup_ioinprog := io, bsup_inomap := locks } from ready.sums)
  exact ⟨im, run, ready.after (Slid.alike slid ready.inside ready.live) sums rfl rfl rfl, slid⟩

theorem compact_begun : ∃ im, bfs_compact (BFS_IOBEGIN bs) =
    some (BFS_IOBEGIN (bs.packed im)) ∧ Ready (bs.packed im) v ∧ Slid bs.toImage im :=
  compact_ready ready _ _

theorem failed_done (last : GoesLast bs v uio) (past : bs.bsup_end < bs.data_end v uio) :
    WriteDone bs bs v uio (some .ENOSPC) where
  sums := ready.sums
  ioinprog := rfl
  inomap := rfl
  locked := ready.unlocked
  nomem failed := by cases failed
  full _ := .inr ⟨last, past⟩
  wrote _ := wrote_nothing (Alike.refl _ _) ready.inside ready.live fun j _ _ => Unharmed.refl _ j

section
variable (full : (bs.inodes v).d_sblock ≠ 0) (some_bytes : uio.bytes ≠ [])
  (settled : ¬ MustMove bs v uio)
include full some_bytes settled

theorem write_packed (packed : bs.bsup_compacted = true) (fuel : Nat) :
    ∃ r bs', bfs_write (fuel + 1) bs v uio = some (r, bs') ∧ WriteDone bs bs' v uio r := by
  by_cases short : bs.bsup_end <
      (bs.inodes v).d_sblock * BFS_BSIZE + bs.write_at v uio + uio.bytes.length
  · have last : bs.bsup_lastfile = some v := by
      by_contra other
      obtain ⟨pos, ends⟩ := length_of_file ready.sums.laid ready.inside ready.live full
      have stop := (ready.sums.laid.placed v ready.inside ready.live full).stop
      exact settled ⟨full, other, by omega⟩
    classical
    rw [write_full_eq ready full some_bytes, if_neg settled, if_pos short, packed, if_pos rfl,
      left_state]
    refine ⟨_, _, rfl, failed_done ready (.inr (.inl last)) ?_⟩
    unfold Image.data_end
    rw [(place_of_last ready.sums ready.not_root last).2 packed]
    exact short
  · exact write_here ready full some_bytes settled (not_lt.mp short) fuel

theorem write_settled (fuel : Nat) :
    ∃ r bs', bfs_write (fuel + 2) bs v uio = some (r, bs') ∧ WriteDone bs bs' v uio r := by
  by_cases short : bs.bsup_end <
      (bs.inodes v).d_sblock * BFS_BSIZE + bs.write_at v uio + uio.bytes.length
  · cases packed : bs.bsup_compacted with
    | true => exact write_packed ready full some_bytes settled packed (fuel + 1)
    | false =>
      obtain ⟨im, run, ready₁, slid⟩ := compact_begun ready
      have alike := slid.alike ready.inside ready.live
      have settled₁ : ¬ MustMove (bs.packed im) v uio := by
        rintro ⟨full₁, other, past⟩
        rw [alike.length, alike.write_at] at past
        exact settled ⟨full, other, past⟩
      have full₁ : (im.inodes v).d_sblock ≠ 0 := fun empty => full (alike.empty.mp empty)
      obtain ⟨r, bs', run₁, done⟩ := write_packed ready₁ full₁ some_bytes settled₁ rfl fuel
      classical
      rw [write_full_eq ready full some_bytes, if_neg settled, if_pos short, packed,
        if_neg Bool.false_ne_true, run, bind_some, left_state]
      have goes : GoesLast (bs.packed im) v uio → GoesLast bs v uio := by
        rintro (empty | last | must)
        · exact absurd empty full₁
        · exact .inr (.inl last)
        · exact absurd must settled₁
      exact ⟨r, bs', run₁, done.carry ready settled₁ goes alike rfl rfl
        fun _ j j_inside j_live => slid.unharmed j_inside j_live⟩
  · exact write_here ready full some_bytes settled (not_lt.mp short) (fuel + 1)

end

theorem write_moved (some_bytes : uio.bytes ≠ []) (must : MustMove bs v uio)
    (whole : bs.CopyFits v → uio.nomem = false → WholeMove (bs.length v)) (fuel : Nat) :
    ∃ r bs', bfs_write (fuel + 3) bs v uio = some (r, bs') ∧ WriteDone bs bs' v uio r := by
  have full := must.1
  have no_io : (BFS_IOBEGIN bs).bsup_ioinprog ≤ 1 := by
    show bs.bsup_ioinprog + 1 ≤ 1
    rw [ready.no_io]
  obtain ⟨r, out, run, ended⟩ :=
    filetoend_spec (show (BFS_IOBEGIN bs).Sums from ready.sums) ready.inside ready.live full no_io whole
  have ioinprog : (BFS_IOEND out).bsup_ioinprog = bs.bsup_ioinprog := by
    show out.bsup_ioinprog - 1 = _
    rw [ended.ioinprog]
    rfl
  have alike : Alike bs.toImage (BFS_IOEND out).toImage v := ended.alike
  have unharmed : (MustMove bs v uio → bs.CopyFits v → uio.nomem = false → InPlace bs v) →
      ∀ j < bs.slots, (bs.inodes j).d_ino ≠ 0 → Unharmed bs.toImage (BFS_IOEND out).toImage j :=
    fun in_place => ended.unharmed fun room mem => in_place must room mem
  classical
  have run' : bfs_filetoend uio.nomem 2 (BFS_IOBEGIN bs) (bs.inodes v) v = some (r, out) := run
  rw [write_full_eq ready full some_bytes, if_pos must, run', bind_some]
  rcases ended.outcome with ⟨rfl, last⟩ | ⟨rfl, room, nomem⟩ | ⟨rfl, no_room⟩
  · have settled : ¬ MustMove (BFS_IOEND out) v uio := fun again => again.2.1 last
    have ready₁ := ready.after alike ended.sums ended.locked ioinprog ended.inomap
    have full₁ : ((BFS_IOEND out).inodes v).d_sblock ≠ 0 := fun empty => full (alike.empty.mp empty)
    obtain ⟨r, bs', run₁, done⟩ := write_settled ready₁ full₁ some_bytes settled fuel
    exact ⟨r, bs', run₁, done.carry ready settled (fun _ => .inr (.inr must)) alike ioinprog
      ended.inomap unharmed⟩
  · refine ⟨_, _, rfl, ended.sums, ioinprog, ended.inomap, ended.locked,
      fun _ => ⟨must, room, nomem⟩, ?_, fun in_place => ?_⟩
    · intro absurd
      cases absurd
    · exact wrote_nothing alike ready.inside ready.live (unharmed in_place)
  · refine ⟨_, _, rfl, ended.sums, ioinprog, ended.inomap, ended.locked, ?_,
      fun _ => .inl ⟨must, no_room⟩, fun in_place => ?_⟩
    · intro absurd
      cases absurd
    · exact wrote_nothing alike ready.inside ready.live (unharmed in_place)

end

end Full

/- An empty file gets the block behind the last file. -/

section Empty
variable {bs : Bsuper} {v : Nat} {uio : Uio}

/-- The state find_room leaves: it may have compacted the file system. -/
structure Roomed (bs bs₁ : Bsuper) (v : Nat) : Prop where
  ready : Ready bs₁ v
  slid : Slid bs.toImage bs₁.toImage
  kept : bs.bsup_compacted = true → bs₁.bsup_compacted = true
  ioinprog : bs₁.bsup_ioinprog = bs.bsup_ioinprog
  inomap : bs₁.bsup_inomap = bs.bsup_inomap

theorem find_room_eq (fuel : Nat) : find_room (fuel + 1) (bs.held v) =
    if bs.bsup_end < (bfs_nextfile bs).2 * BFS_BSIZE then
      if bs.bsup_compacted then some (none, bs.held v)
      else (bfs_compact (bs.held v)).bind (find_room fuel)
    else some (some (bfs_nextfile bs).2, bs.held v) := by
  have next : bfs_nextfile (bs.held v) = bfs_nextfile bs := rfl
  have stop : (bs.held v).bsup_end = bs.bsup_end := rfl
  have same : (bs.held v).bsup_compacted = bs.bsup_compacted := rfl
  rw [find_room]
  simp only [next, stop, same]
  cases bs.bsup_compacted <;> rfl

theorem find_room_spec (ready : Ready bs v) : ∃ room bs₁, find_room 2 (bs.held v) =
      some (room, bs₁.held v) ∧ Roomed bs bs₁ v ∧
    (room = some (bfs_nextfile bs₁).2 ∨ room = none ∧ bs₁.bsup_compacted = true ∧
      bs₁.bsup_end < (bfs_nextfile bs₁).2 * BFS_BSIZE) := by
  have here : Roomed bs bs v := ⟨ready, Slid.refl ready.sums.laid, id, rfl, rfl⟩
  rw [find_room_eq]
  split
  · next short =>
    split
    · next packed => exact ⟨_, bs, rfl, here, .inr ⟨rfl, packed, short⟩⟩
    obtain ⟨im, run, ready₁, slid⟩ := compact_ready ready (bs.held v).bsup_ioinprog
      (bs.held v).bsup_inomap
    have state : bfs_compact (bs.held v) = some ((bs.packed im).held v) := run
    have there : Roomed bs (bs.packed im) v := ⟨ready₁, slid, fun _ => rfl, rfl, rfl⟩
    rw [state, bind_some, find_room_eq, if_pos (show (bs.packed im).bsup_compacted from rfl)]
    split
    · next short₁ => exact ⟨_, _, rfl, there, .inr ⟨rfl, rfl, short₁⟩⟩
    · exact ⟨_, _, rfl, there, .inl rfl⟩
  · exact ⟨_, bs, rfl, here, .inl rfl⟩

theorem write_empty_eq (ready : Ready bs v) (empty : (bs.inodes v).d_sblock = 0)
    (some_bytes : uio.bytes ≠ []) (fuel : Nat) :
    ∃ bs₁, Roomed bs bs₁ v ∧ bfs_write (fuel + 1) bs v uio =
      if bs₁.bsup_end < (bfs_nextfile bs₁).2 * BFS_BSIZE + uio.uio_offset + uio.bytes.length then
        if bs₁.bsup_compacted then some (some .ENOSPC, bs₁)
        else (bfs_compact (BFS_IOBEGIN bs₁)).bind fun bs => bfs_write fuel (BFS_IOEND bs) v uio
      else (write_out (bs₁.held v) v uio (bs₁.fresh_target v uio.uio_offset)
          ((bfs_nextfile bs₁).2 * BFS_BSIZE + uio.uio_offset)).bind fun out =>
        some (out.1, BFS_IOEND (BFS_INOUNLOCK out.2 v)) := by
  obtain ⟨room, bs₁, run, roomed, outcome⟩ := find_room_spec ready
  refine ⟨bs₁, roomed, ?_⟩
  have dir : (bs.held v).inodes v = bs₁.inodes v := by
    have nothing : bs.layout v = none := by
      show (if v < bs.slots then extent _ else none) = none
      rw [if_pos ready.inside, extent_of_free (.inr empty)]
    exact (roomed.slid.idle v nothing).symm
  have target : open_target (bs.held v) v uio.uio_offset =
      some (room.map fun nb => ⟨(bs₁.inodes v).openAt nb uio.uio_offset, 0, nb * BFS_BSIZE - 1,
        some v⟩, bs₁.held v) := by
    have empty₁ : (bs₁.inodes v).d_sblock = 0 := by
      rw [← dir]
      exact empty
    unfold open_target
    simp only [run, bind_eq_bind, bind_some, dir, if_pos empty₁]
    rfl
  rw [bfs_write, if_neg some_bytes]
  simp only [bind_eq_bind, enter_eq ready.unlocked ready.free]
  rw [if_neg (show ¬ ((bs.held v).inodes v).d_ino = 0 from ready.live), target, bind_some]
  rcases outcome with rfl | ⟨rfl, packed, short⟩
  · simp only [map_some]
    have offset : (if uio.append = true then
        ((bs₁.inodes v).openAt (bfs_nextfile bs₁).2 uio.uio_offset).d_eoffset + 1
        else ((bs₁.inodes v).openAt (bfs_nextfile bs₁).2 uio.uio_offset).d_sblock * BFS_BSIZE +
          uio.uio_offset) = (bfs_nextfile bs₁).2 * BFS_BSIZE + uio.uio_offset := by
      have low := Nat.le_mul_of_pos_left BFS_BSIZE (pos_of_ne_zero (next_start roomed.ready.sums).2)
      have block : 0 < BFS_BSIZE := by decide
      split
      · show (bfs_nextfile bs₁).2 * BFS_BSIZE + uio.uio_offset - 1 + 1 = _
        omega
      · rfl
    rw [offset, if_neg fun both => both.2 rfl]
    have stop : (bs₁.held v).bsup_end = bs₁.bsup_end := rfl
    rw [stop]
    by_cases short : bs₁.bsup_end <
        (bfs_nextfile bs₁).2 * BFS_BSIZE + uio.uio_offset + uio.bytes.length
    · rw [if_pos short, if_pos short, unheld roomed.ready]
      rw [begun]
      cases bs₁.bsup_compacted <;> rfl
    · rw [if_neg short, if_neg short]
      rfl
  · have past : bs₁.bsup_end <
        (bfs_nextfile bs₁).2 * BFS_BSIZE + uio.uio_offset + uio.bytes.length := by
      omega
    rw [if_pos past, packed, if_pos rfl, map_none]
    simp only [unheld roomed.ready, left_state]
    rfl

theorem Roomed.alike {bs₁ : Bsuper} (roomed : Roomed bs bs₁ v) (ready : Ready bs v) :
    Alike bs.toImage bs₁.toImage v := roomed.slid.alike ready.inside ready.live

theorem Roomed.carry {bs₁ bs' : Bsuper} {r : Option Errno} (roomed : Roomed bs bs₁ v)
    (ready : Ready bs v) (empty : (bs.inodes v).d_sblock = 0) (done : WriteDone bs₁ bs' v uio r) :
    WriteDone bs bs' v uio r :=
  have alike := roomed.alike ready
  done.carry ready (fun must => must.1 (alike.empty.mpr empty)) (fun _ => .inl empty) alike
    roomed.ioinprog roomed.inomap fun _ _ j_inside j_live => roomed.slid.unharmed j_inside j_live

theorem data_end_of_empty (empty : (bs.inodes v).d_sblock = 0) :
    bs.data_end v uio = bs.toImage.reach * BFS_BSIZE + uio.uio_offset + uio.bytes.length := by
  have nothing : bs.layout v = none := by
    show (if v < bs.slots then extent _ else none) = none
    rw [extent_of_free (.inr empty), ite_self]
  have start : bs.write_at v uio = uio.uio_offset := if_neg fun both => both.2 empty
  unfold Image.data_end
  rw [place_of_empty nothing, start]

theorem write_empty_turn (ready : Ready bs v) (empty : (bs.inodes v).d_sblock = 0)
    (some_bytes : uio.bytes ≠ [])
    (fault : bs.data_end v uio ≤ bs.bsup_end → uio.readable < uio.bytes.length →
      uio.readable < min MAXBSIZE uio.bytes.length) (fuel : Nat) :
    (∃ r bs', bfs_write (fuel + 1) bs v uio = some (r, bs') ∧ WriteDone bs bs' v uio r) ∨
    (bs.bsup_compacted = false ∧ ∃ bs₁, Roomed bs bs₁ v ∧ bs₁.bsup_compacted = true ∧
      bfs_write (fuel + 1) bs v uio = bfs_write fuel bs₁ v uio) := by
  obtain ⟨bs₁, roomed, run⟩ := write_empty_eq ready empty some_bytes fuel
  have ready₁ := roomed.ready
  have alike := roomed.alike ready
  have empty₁ : (bs₁.inodes v).d_sblock = 0 := alike.empty.mpr empty
  have ends := @data_end_of_empty bs₁ v uio empty₁
  rw [run]
  by_cases short : bs₁.bsup_end <
      (bfs_nextfile bs₁).2 * BFS_BSIZE + uio.uio_offset + uio.bytes.length
  · rw [if_pos short]
    cases packed : bs₁.bsup_compacted with
    | true =>
      rw [if_pos rfl]
      refine .inl ⟨_, _, rfl, roomed.carry ready empty (failed_done ready₁ (.inl empty₁) ?_)⟩
      rw [ends, ← next_of_packed ready₁.sums packed]
      exact short
    | false =>
      have unpacked : bs.bsup_compacted = false := by
        by_contra set
        rw [roomed.kept (by simpa using set)] at packed
        cases packed
      obtain ⟨im, compact, ready₂, slid₂⟩ := compact_begun ready₁
      rw [if_neg Bool.false_ne_true, compact, bind_some, left_state]
      exact .inr ⟨unpacked, _, ⟨ready₂, roomed.slid.trans slid₂, fun _ => rfl, roomed.ioinprog,
        roomed.inomap⟩, rfl, rfl⟩
  · rw [if_neg short]
    have fits := not_lt.mp short
    have low : bs.data_end v uio ≤ bs.bsup_end := by
      have up := Nat.mul_le_mul_right BFS_BSIZE (reach_le_next ready₁.sums)
      rw [← alike.data_end, ← alike.stop, ends]
      omega
    obtain ⟨r, out, wrote_run, sums, kept, result, wrote⟩ :=
      write_out_empty (show (bs₁.held v).Sums from ready₁.sums) ready₁.inside ready₁.live empty₁
        some_bytes fits (fault low)
    have state : (bs₁.held v).fresh_target v uio.uio_offset = bs₁.fresh_target v uio.uio_offset :=
        rfl
    have next : bfs_nextfile (bs₁.held v) = bfs_nextfile bs₁ := rfl
    rw [state, next] at wrote_run
    rw [wrote_run, bind_some]
    have start : bs₁.write_at v uio = uio.uio_offset := if_neg fun both => both.2 empty₁
    rw [← start] at wrote
    exact .inl ⟨_, _, rfl, roomed.carry ready empty (out_done ready₁ sums kept result wrote)⟩

theorem write_empty (ready : Ready bs v) (empty : (bs.inodes v).d_sblock = 0)
    (some_bytes : uio.bytes ≠ [])
    (fault : bs.data_end v uio ≤ bs.bsup_end → uio.readable < uio.bytes.length →
      uio.readable < min MAXBSIZE uio.bytes.length) (fuel : Nat) :
    ∃ r bs', bfs_write (fuel + 2) bs v uio = some (r, bs') ∧ WriteDone bs bs' v uio r := by
  rcases write_empty_turn ready empty some_bytes fault (fuel + 1) with
    done | ⟨_, bs₁, roomed, packed, run⟩
  · exact done
  have alike := roomed.alike ready
  have empty₁ : (bs₁.inodes v).d_sblock = 0 := alike.empty.mpr empty
  have fault₁ : bs₁.data_end v uio ≤ bs₁.bsup_end → uio.readable < uio.bytes.length →
      uio.readable < min MAXBSIZE uio.bytes.length := by
    rw [alike.data_end, alike.stop]
    exact fault
  rw [run]
  rcases write_empty_turn roomed.ready empty₁ some_bytes fault₁ fuel with
    ⟨r, bs', run₁, done⟩ | ⟨unpacked, _⟩
  · exact ⟨r, bs', run₁, roomed.carry ready empty done⟩
  · rw [packed] at unpacked
    cases unpacked

end Empty

/-- bfs_write returns, and keeps the sums if its move finds memory and arrives whole and an empty
file meets a fault in the first chunk at the latest. -/
theorem write_spec {bs : Bsuper} {v : Nat} {uio : Uio} (ready : Ready bs v)
    (some_bytes : uio.bytes ≠ [])
    (whole : MustMove bs v uio → bs.CopyFits v → uio.nomem = false → WholeMove (bs.length v))
    (fault : (bs.inodes v).d_sblock = 0 → bs.data_end v uio ≤ bs.bsup_end →
      uio.readable < uio.bytes.length → uio.readable < min MAXBSIZE uio.bytes.length) :
    ∃ r bs', bfs_write 4 bs v uio = some (r, bs') ∧ WriteDone bs bs' v uio r := by
  by_cases empty : (bs.inodes v).d_sblock = 0
  · exact write_empty ready empty some_bytes (fault empty) 2
  by_cases must : MustMove bs v uio
  · exact write_moved ready some_bytes must (whole must) 1
  · exact write_settled ready empty some_bytes must 2

end Bfs
