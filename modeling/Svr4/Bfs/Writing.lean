import Svr4.Bfs.Moves
import Svr4.Bfs.Truncation

/- The last phase of bfs_write: the bytes go to the device, chunk after chunk. -/
namespace Bfs
open Function ByteMoves BlockExtents List Option Nat

def Dirent.endAt (d : Dirent) (e : Nat) : Dirent :=
  { d with d_eoffset := e, d_eblock := e / BFS_BSIZE }

def taken (dir : Dirent) (oeblock e : Nat) : Int :=
  if oeblock = 0 then ((e / BFS_BSIZE : Nat) : Int) - dir.d_sblock + 1
  else ((e / BFS_BSIZE : Nat) : Int) - oeblock

def written (bs : Bsuper) (v : Nat) (dir : Dirent) (oeblock offset : Nat) (bytes : List UInt8)
    (m : Nat) : Bsuper :=
  { bs with
    disk := pour bs.disk offset (bytes.take m)
    inodes := update bs.inodes v (dir.endAt (max dir.d_eoffset (offset + m - 1)))
    bsup_freeblocks := bs.bsup_freeblocks - taken dir oeblock (max dir.d_eoffset (offset + m - 1)) }

theorem write_loop_spec (v chunksize : Nat) (chunks : 0 < chunksize) :
    ∀ (fuel : Nat) (bytes : List UInt8) (readable : Nat) (dir : Dirent) (oeblock offset : Nat)
      (bs : Bsuper), bytes.length ≤ fuel → BFS_BSIZE ≤ offset →
      dir.d_eblock * BFS_BSIZE ≤ max dir.d_eoffset offset →
      ∃ m ≤ bytes.length, ∃ r, write_loop v chunksize fuel bytes readable dir oeblock offset bs =
          some (r, if m = 0 then bs else written bs v dir oeblock offset bytes m) ∧
        (r = none ∧ m = bytes.length ∨ r = some .EFAULT ∧ readable < bytes.length ∧
          (readable < min chunksize bytes.length → m = 0)) := by
  intro fuel
  induction fuel with
  | zero =>
    intro bytes readable dir oeblock offset bs short _ _
    obtain rfl : bytes = [] := eq_nil_of_length_eq_zero (le_zero.mp short)
    exact ⟨0, le_refl _, none, rfl, .inl ⟨rfl, rfl⟩⟩
  | succ fuel ih =>
    intro bytes readable dir oeblock offset bs short low inside
    cases bytes with
    | nil => exact ⟨0, le_refl _, none, rfl, .inl ⟨rfl, rfl⟩⟩
    | cons b rest =>
      obtain ⟨data, hdata⟩ : ∃ data, data = b :: rest := ⟨_, rfl⟩
      obtain ⟨n, hn⟩ : ∃ n, n = min chunksize data.length := ⟨_, rfl⟩
      have len : 0 < data.length := by rw [hdata]; simp
      have n_le : n ≤ data.length := by omega
      rw [← hdata] at short ⊢
      by_cases fault : readable < n
      · refine ⟨0, zero_le _, some .EFAULT, ?_, .inr ⟨rfl, by omega, fun _ => rfl⟩⟩
        rw [hdata, write_loop, ← hdata, ← hn, if_pos fault, if_pos rfl]
      obtain ⟨e, he⟩ : ∃ e, e = max dir.d_eoffset (offset + n - 1) := ⟨_, rfl⟩
      have grown : (if dir.d_eoffset < offset + n then
          { dir with d_eoffset := dir.d_eoffset + (offset + n - dir.d_eoffset - 1) } else dir) =
          { dir with d_eoffset := e } := by
        by_cases longer : dir.d_eoffset < offset + n
        · rw [if_pos longer]
          congr 1
          omega
        · rw [if_neg longer, he, max_eq_left (by omega)]
      have again : dir.d_eblock * BFS_BSIZE ≤ e := by omega
      have blocks_pos : e / BFS_BSIZE ≠ 0 := by
        have : BFS_BSIZE ≤ e := by omega
        exact ne_of_gt (div_pos this (by decide))
      have turn : write_loop v chunksize (fuel + 1) data readable dir oeblock offset bs =
          write_loop v chunksize fuel (data.drop n) (readable - n) (dir.endAt e) (e / BFS_BSIZE)
            (offset + n) { bs with
              disk := pour bs.disk offset (data.take n)
              inodes := update bs.inodes v (dir.endAt e)
              bsup_freeblocks := bs.bsup_freeblocks - taken dir oeblock e } := by
        have amount : (if oeblock = 0 then ((e / BFS_BSIZE : Nat) - dir.d_sblock : Int) + 1
            else if e / BFS_BSIZE ≠ oeblock then ((e / BFS_BSIZE : Nat) : Int) - oeblock else 0) =
            taken dir oeblock e := by
          unfold taken
          split
          · rfl
          · split
            · rfl
            · omega
        rw [hdata, write_loop, ← hdata, ← hn, if_neg fault, grown]
        simp only [again, if_true]
        rw [amount]
        rfl
      obtain ⟨m, m_le, r, run, outcome⟩ := ih (data.drop n) (readable - n) (dir.endAt e)
        (e / BFS_BSIZE) (offset + n) { bs with
          disk := pour bs.disk offset (data.take n)
          inodes := update bs.inodes v (dir.endAt e)
          bsup_freeblocks := bs.bsup_freeblocks - taken dir oeblock e }
        (by rw [length_drop]; omega) (by omega)
        (by
          exact le_trans (div_mul_le_self _ _) (le_max_left _ _))
      rw [length_drop] at m_le outcome
      refine ⟨n + m, by omega, r, ?_, ?_⟩
      · rw [turn, run, if_neg (show ¬ n + m = 0 by omega)]
        congr 2
        have bytes_all : pour (pour bs.disk offset (data.take n)) (offset + n)
            ((data.drop n).take m) = pour bs.disk offset (data.take (n + m)) := by
          have glue := pour_pour bs.disk offset (data.take n) ((data.drop n).take m)
          rw [length_take, min_eq_left n_le] at glue
          rw [glue, take_add]
        have end_all : max e (offset + n + m - 1) = max dir.d_eoffset (offset + (n + m) - 1) := by
          omega
        by_cases none_left : m = 0
        · subst none_left
          rw [if_pos rfl]
          simp only [written, add_zero, ← he]
        rw [if_neg none_left]
        have ends : (dir.endAt e).d_eoffset = e := rfl
        have again_end : ∀ x, (dir.endAt e).endAt x = dir.endAt x := fun _ => rfl
        have sum : bs.bsup_freeblocks - taken dir oeblock e -
            taken (dir.endAt e) (e / BFS_BSIZE) (max dir.d_eoffset (offset + (n + m) - 1)) =
            bs.bsup_freeblocks -
              taken dir oeblock (max dir.d_eoffset (offset + (n + m) - 1)) := by
          unfold taken
          rw [if_neg blocks_pos]
          split <;> omega
        simp only [written, ends, again_end, bytes_all, sum, end_all, update_idem]
      · rcases outcome with ⟨ok, all⟩ | ⟨failed, few, _⟩
        · exact .inl ⟨ok, by omega⟩
        · refine .inr ⟨failed, by omega, ?_⟩
          intro first
          omega

/- What a write leaves. -/

structure Unharmed (im im' : Image) (j : Nat) : Prop where
  number : (im'.inodes j).d_ino = (im.inodes j).d_ino
  empty : (im'.inodes j).d_sblock = 0 ↔ (im.inodes j).d_sblock = 0
  contents : (im.inodes j).d_ino ≠ 0 → im'.contents j = im.contents j

theorem Unharmed.refl (im : Image) (j : Nat) : Unharmed im im j := ⟨rfl, Iff.rfl, fun _ => rfl⟩

theorem Unharmed.trans {a b c : Image} {j : Nat} (one : Unharmed a b j) (two : Unharmed b c j) :
    Unharmed a c j :=
  ⟨two.number.trans one.number, two.empty.trans one.empty, fun live =>
    (two.contents (by rw [one.number]; exact live)).trans (one.contents live)⟩

theorem contents_of_empty {im : Image} {j : Nat} (empty : (im.inodes j).d_sblock = 0) :
    im.contents j = [] := by
  unfold Image.contents Image.length
  rw [if_pos empty]
  rfl

theorem Slid.unharmed {im im' : Image} (slid : Slid im im') {j : Nat} (inside : j < im.slots)
    (live : (im.inodes j).d_ino ≠ 0) : Unharmed im im' j := by
  have full := slid.sblock_ne inside live
  refine ⟨slid.number j, not_iff_not.mp full, fun _ => ?_⟩
  by_cases empty : (im.inodes j).d_sblock = 0
  · rw [contents_of_empty empty, contents_of_empty ((not_iff_not.mp full).mpr empty)]
  · exact slid.contents j _ (layout_of_full inside live empty)

theorem fill_hole_eq (disk : Nat → UInt8) {endfile start len rel : Nat}
    (ends : endfile + 1 = start + len) :
    fill_hole disk endfile (start + rel) =
      pour disk (start + len) (List.replicate (rel - len) 0) := by
  unfold fill_hole
  rw [ends]
  by_cases hole : start + len < start + rel
  · have size : start + rel - endfile - 1 = rel - len := by omega
    rw [if_pos hole, size]
  · have none_left : rel - len = 0 := by omega
    rw [if_neg hole, none_left, replicate_zero, pour_nil]

section Phase
variable {bs : Bsuper} {v : Nat} {bytes : List UInt8} {d : Dirent}

def Image.after (im : Image) (v endfile offset : Nat) (bytes : List UInt8) (d : Dirent) : Image :=
  { im with disk := pour (fill_hole im.disk endfile offset) offset bytes }.put v d

variable {im : Image} {start len : Nat} {uio : Uio} {rel endfile e : Nat}

theorem after_other (laid : Laid im) (ends : endfile + 1 = start + len) {j : Nat}
    (inside : j < im.slots) (ne : j ≠ v)
    (apart : ∀ e, im.layout j = some e → (e.last + 1) * BFS_BSIZE ≤ start ∨ (rel ≤ len ∧ start +
      rel + bytes.length ≤ e.first * BFS_BSIZE)) :
    Unharmed im (im.after v endfile (start + rel) bytes d) j := by
  have same : (im.after v endfile (start + rel) bytes d).inodes j = im.inodes j :=
    put_inodes_of_ne _ _ ne
  have length : (im.after v endfile (start + rel) bytes d).length j = im.length j := by
    unfold Image.length
    rw [same]
  refine ⟨by rw [same], by rw [same], fun live => ?_⟩
  by_cases empty : (im.inodes j).d_sblock = 0
  · rw [contents_of_empty empty, contents_of_empty (by rw [same]; exact empty)]
  have at_j := layout_of_full inside live empty
  have own := laid.bytes_inside at_j
  unfold Image.contents
  rw [length, same]
  show slice (pour (fill_hole im.disk endfile (start + rel)) (start + rel) bytes) _ _ = _
  rw [fill_hole_eq im.disk ends]
  rcases apart _ at_j with below | ⟨no_hole, above⟩
  · rw [slice_pour_of_apart _ (.inl (by omega)), slice_pour_of_apart _ (.inl (by omega))]
  · have nothing : rel - len = 0 := by omega
    have high : start + rel + bytes.length ≤ (im.inodes j).d_sblock * BFS_BSIZE := above
    rw [slice_pour_of_apart _ (.inr high), nothing, replicate_zero, pour_nil]

theorem after_self (ends : endfile + 1 = start + len)
    (old : im.contents v = slice im.disk start len) (some_bytes : bytes ≠ [])
    (full : d.d_sblock ≠ 0) (first : d.d_sblock * BFS_BSIZE = start)
    (stop : d.d_eoffset + 1 = start + max len (rel + bytes.length)) :
    (im.after v endfile (start + rel) bytes d).contents v =
      overwrite 0 (im.contents v) rel bytes := by
  have at_v : (im.after v endfile (start + rel) bytes d).inodes v = d := put_inodes_self _ _ _
  have length : (im.after v endfile (start + rel) bytes d).length v =
      max len (rel + bytes.length) := by
    unfold Image.length
    rw [at_v, if_neg full, first, stop, Nat.add_sub_cancel_left]
  unfold Image.contents at old ⊢
  rw [length, at_v, first, old]
  show slice (pour (fill_hole im.disk endfile (start + rel)) (start + rel) bytes) _ _ = _
  rw [fill_hole_eq im.disk ends, slice_overwrite im.disk 0 start len rel some_bytes]

theorem after_nothing
    (ends : endfile + 1 = start + len)
    (within : (im.inodes v).d_sblock ≠ 0 →
      (im.inodes v).d_sblock * BFS_BSIZE + im.length v ≤ start + len) :
    Unharmed im { im with disk := fill_hole im.disk endfile (start + rel) } v := by
  refine ⟨rfl, Iff.rfl, fun live => ?_⟩
  by_cases empty : (im.inodes v).d_sblock = 0
  · have still : ({ im with disk := fill_hole im.disk endfile (start + rel) } : Image).contents v =
        [] := contents_of_empty empty
    rw [still, contents_of_empty empty]
  have := within empty
  rw [fill_hole_eq im.disk ends]
  exact slice_pour_of_apart _ (.inl this)

section
variable (sums : bs.Sums) (inside : v < bs.slots) (live : (bs.inodes v).d_ino ≠ 0)
  (full : (bs.inodes v).d_sblock ≠ 0)
include sums inside live full

theorem grow_sums (is_last : bs.bsup_lastfile = some v) (longer : (bs.inodes v).d_eoffset ≤ e)
    (stop : e ≤ bs.bsup_end) (disk : Nat → UInt8) :
    Sums ({ bs.toImage with disk := disk }.put v ((bs.inodes v).endAt e))
      (bs.bsup_freeblocks - taken (bs.inodes v) (bs.inodes v).d_eblock e) bs.bsup_freedrents
      bs.bsup_lastfile bs.bsup_compacted := by
  have placed := sums.laid.placed v inside live full
  have order := placed.order
  have bytes := placed.bytes
  have top := sums.last
  rw [is_last] at top
  have old := layout_of_full inside live full
  have first : (bs.inodes v).d_sblock ≤ e / BFS_BSIZE := by
    rw [le_div_iff_mul_le (by decide)]
    omega
  have ext : extent ((bs.inodes v).endAt e) =
      some ⟨(bs.inodes v).d_sblock, e / BFS_BSIZE - (bs.inodes v).d_sblock⟩ :=
    extent_of_full (d := (bs.inodes v).endAt e) live full
  have raised := Sums.raise (sums.with_disk disk) inside (d := (bs.inodes v).endAt e) live live full
    rfl ⟨placed.start, le_trans bytes longer, rfl, stop⟩
    (by
      intro j b ne at_j
      obtain ⟨t, at_v, above⟩ := top
      obtain rfl := some.inj (old.symm.trans at_v)
      exact above j b ne at_j)
    (fun set : bs.bsup_compacted = true => by
      rw [ext]
      exact (sums.packed set).regrow_top top old rfl)
  have amount : bs.bsup_freeblocks - taken (bs.inodes v) (bs.inodes v).d_eblock e =
      bs.bsup_freeblocks + blocks (bs.layout v) - blocks (extent ((bs.inodes v).endAt e)) := by
    rw [old, ext, taken, if_neg (by omega)]
    simp only [blocks]
    omega
  rw [amount, is_last]
  exact raised

theorem full_sums (longer : (bs.inodes v).d_eoffset ≤ e) (stop : e ≤ bs.bsup_end)
    (reach : bs.bsup_lastfile = some v ∨ e = (bs.inodes v).d_eoffset) (disk : Nat → UInt8) :
    Sums ({ bs.toImage with disk := disk }.put v ((bs.inodes v).endAt e))
      (bs.bsup_freeblocks - taken (bs.inodes v) (bs.inodes v).d_eblock e) bs.bsup_freedrents
      bs.bsup_lastfile bs.bsup_compacted := by
  rcases reach with is_last | same
  · exact grow_sums sums inside live full is_last longer stop disk
  have placed := sums.laid.placed v inside live full
  have order := placed.order
  have inode : (bs.inodes v).endAt e = bs.inodes v := by
    unfold Dirent.endAt
    rw [same, ← placed.eblock]
  have disk_only : Image.put { bs.toImage with disk := disk } v (bs.inodes v) =
      { bs.toImage with disk := disk } := by
    unfold Image.put
    simp only [update_eq_self]
  have nothing : taken (bs.inodes v) (bs.inodes v).d_eblock e = 0 := by
    unfold taken
    rw [same, ← placed.eblock, if_neg (by omega), sub_self]
  rw [inode, nothing, sub_zero, disk_only]
  exact Sums.with_disk sums disk

end

def Dirent.openAt (d : Dirent) (nb uio_offset : Nat) : Dirent :=
  { d with d_sblock := nb, d_eblock := nb + uio_offset / BFS_BSIZE,
           d_eoffset := nb * BFS_BSIZE + uio_offset - 1 }

theorem place_sums (sums : bs.Sums) (inside : v < bs.slots) (live : (bs.inodes v).d_ino ≠ 0)
    (empty : (bs.inodes v).d_sblock = 0) (rel : Nat) (start : (bfs_nextfile bs).2 * BFS_BSIZE ≤ e)
    (stop : e ≤ bs.bsup_end) (disk : Nat → UInt8) :
    Sums ({ bs.toImage with disk := disk }.put v
        (((bs.inodes v).openAt (bfs_nextfile bs).2 rel).endAt e))
      (bs.bsup_freeblocks - taken ((bs.inodes v).openAt (bfs_nextfile bs).2 rel) 0 e)
      bs.bsup_freedrents (some v) bs.bsup_compacted := by
  obtain ⟨data, pos⟩ := next_start sums
  have nothing : bs.layout v = none := by
    show (if v < bs.slots then extent _ else none) = none
    rw [if_pos inside, extent_of_free (.inr empty)]
  have first : (bfs_nextfile bs).2 ≤ e / BFS_BSIZE := by
    rw [le_div_iff_mul_le (by decide)]
    exact start
  have ext : extent (((bs.inodes v).openAt (bfs_nextfile bs).2 rel).endAt e) =
      some ⟨(bfs_nextfile bs).2, e / BFS_BSIZE - (bfs_nextfile bs).2⟩ :=
    extent_of_full (d := ((bs.inodes v).openAt (bfs_nextfile bs).2 rel).endAt e) live pos
  have raised := Sums.raise (sums.with_disk disk) inside
    (d := ((bs.inodes v).openAt (bfs_nextfile bs).2 rel).endAt e) live live pos rfl
    ⟨data, start, rfl, stop⟩ (fun j b _ at_j => below_next sums at_j)
    (fun set : bs.bsup_compacted = true => by
      rw [ext]
      exact (sums.packed set).place nothing (next_supported sums _))
  have amount : bs.bsup_freeblocks - taken ((bs.inodes v).openAt (bfs_nextfile bs).2 rel) 0 e =
      bs.bsup_freeblocks + blocks (bs.layout v) -
        blocks (extent (((bs.inodes v).openAt (bfs_nextfile bs).2 rel).endAt e)) := by
    rw [nothing, ext, taken, if_pos rfl]
    show bs.bsup_freeblocks - (((e / BFS_BSIZE : Nat) : Int) - (bfs_nextfile bs).2 + 1) = _
    simp only [blocks]
    omega
  rw [amount]
  exact raised

structure Wrote (im im' : Image) (v at_ : Nat) (bytes : List UInt8) (r : Option Errno) : Prop where
  start : im'.bsup_start = im.bsup_start
  stop : im'.bsup_end = im.bsup_end
  others : ∀ j < im.slots, j ≠ v → (im.inodes j).d_ino ≠ 0 → Unharmed im im' j
  number : (im'.inodes v).d_ino = (im.inodes v).d_ino
  self : ∃ m ≤ bytes.length, (r = none → m = bytes.length) ∧ (r ≠ none → r ≠ some .EFAULT → m = 0) ∧
    im'.contents v = overwrite 0 (im.contents v) at_ (bytes.take m)

theorem overwrite_nil (old : List UInt8) (at_ : Nat) : overwrite 0 old at_ [] = old := if_pos rfl

theorem after_nil (im : Image) (v endfile offset : Nat) :
    im.after v endfile offset [] (im.inodes v) =
      { im with disk := fill_hole im.disk endfile offset } := by
  unfold Image.after Image.put
  simp only [pour_nil, update_eq_self]

def written_out (bs : Bsuper) (v : Nat) (uio : Uio) (t : Target) (offset m : Nat) : Bsuper :=
  if m = 0 then { bs with disk := fill_hole bs.disk t.endfile offset }
  else written { bs with disk := fill_hole bs.disk t.endfile offset } v t.dir t.oeblock offset
    uio.bytes m

theorem written_out_kept (bs : Bsuper) (v : Nat) (uio : Uio) (t : Target) (offset m : Nat) :
    Kept bs (written_out bs v uio t offset m) ∧
      (written_out bs v uio t offset m).bsup_lastfile = bs.bsup_lastfile ∧
      (written_out bs v uio t offset m).bsup_start = bs.bsup_start := by
  unfold written_out
  split <;> exact ⟨⟨rfl, rfl, rfl⟩, rfl, rfl⟩

theorem write_out_run (bs : Bsuper) (v : Nat) (some_bytes : uio.bytes ≠ []) (t : Target)
    {offset : Nat} (low : BFS_BSIZE ≤ offset)
    (inside : t.dir.d_eblock * BFS_BSIZE ≤ max t.dir.d_eoffset offset) :
    ∃ m ≤ uio.bytes.length, ∃ r, write_out bs v uio t offset = some (r,
        if r.isSome then written_out bs v uio t offset m
        else { written_out bs v uio t offset m with bsup_lastfile := t.lastfile }) ∧
      (r = none ∧ m = uio.bytes.length ∨ r = some .EFAULT ∧ uio.readable < uio.bytes.length ∧
        (uio.readable < min MAXBSIZE uio.bytes.length → m = 0)) := by
  have some_len : 0 < uio.bytes.length := length_pos_of_ne_nil some_bytes
  obtain ⟨m, m_le, r, run, outcome⟩ := write_loop_spec v (min MAXBSIZE uio.bytes.length)
    (by unfold MAXBSIZE; omega) uio.bytes.length uio.bytes uio.readable t.dir t.oeblock offset
    { bs with disk := fill_hole bs.disk t.endfile offset } (le_refl _) low inside
  refine ⟨m, m_le, r, ?_, ?_⟩
  · unfold write_out
    simp only [run, bind_eq_bind, bind_some]
    rfl
  · rcases outcome with ok | ⟨failed, few, first⟩
    · exact .inl ok
    · refine .inr ⟨failed, few, fun short => first ?_⟩
      omega

def Bsuper.full_target (bs : Bsuper) (v : Nat) : Target :=
  ⟨bs.inodes v, (bs.inodes v).d_eblock, (bs.inodes v).d_eoffset, bs.bsup_lastfile⟩

theorem write_out_full (sums : bs.Sums) (inside : v < bs.slots) (live : (bs.inodes v).d_ino ≠ 0)
    (full : (bs.inodes v).d_sblock ≠ 0) (some_bytes : uio.bytes ≠ [])
    (fits : (bs.inodes v).d_sblock * BFS_BSIZE + rel + uio.bytes.length ≤ bs.bsup_end)
    (reach : bs.bsup_lastfile = some v ∨
      (bs.inodes v).d_sblock * BFS_BSIZE + rel + uio.bytes.length ≤ (bs.inodes v).d_eoffset) :
    ∃ r bs', write_out bs v uio (bs.full_target v) ((bs.inodes v).d_sblock * BFS_BSIZE + rel) =
        some (r, bs') ∧ bs'.Sums ∧ Kept bs bs' ∧ (r = none ∨ r = some .EFAULT) ∧
      Wrote bs.toImage bs'.toImage v rel uio.bytes r := by
  obtain ⟨start, hs⟩ : ∃ start, start = (bs.inodes v).d_sblock * BFS_BSIZE := ⟨_, rfl⟩
  obtain ⟨len_pos, ends⟩ := length_of_file sums.laid inside live full
  have in_file := (sums.laid.placed v inside live full).inside
  have old := layout_of_full inside live full
  rw [← hs] at fits reach ends ⊢
  have low : BFS_BSIZE ≤ start := by
    rw [hs]
    exact Nat.le_mul_of_pos_left _ (Nat.pos_of_ne_zero full)
  obtain ⟨m, m_le, r, run, outcome⟩ := write_out_run bs v some_bytes (bs.full_target v)
    (show BFS_BSIZE ≤ start + rel by omega)
    (show (bs.inodes v).d_eblock * BFS_BSIZE ≤ max (bs.inodes v).d_eoffset (start + rel) by omega)
  obtain ⟨out, hout⟩ : ∃ out, out = written_out bs v uio (bs.full_target v) (start + rel) m :=
    ⟨_, rfl⟩
  obtain ⟨kept, last_same, _⟩ := written_out_kept bs v uio (bs.full_target v) (start + rel) m
  rw [← hout] at kept last_same run
  have run' : write_out bs v uio (bs.full_target v) (start + rel) = some (r, out) := by
    rw [run]
    by_cases failed : r.isSome = true
    · rw [if_pos failed]
    · rw [if_neg failed]
      show some (r, { out with bsup_lastfile := bs.bsup_lastfile }) = _
      rw [← last_same]
  have others_apart : ∀ j, j ≠ v → ∀ e, bs.layout j = some e → (e.last + 1) * BFS_BSIZE ≤ start ∨
        (rel ≤ bs.length v ∧ start + rel + (uio.bytes.take m).length ≤ e.first * BFS_BSIZE) := by
    intro j ne e at_j
    rcases sums.laid.apart j v e _ ne at_j old with before | after
    · refine .inl ?_
      rw [hs]
      exact mul_le_mul_right _ before
    rcases reach with is_last | inner
    · have top := sums.last
      rw [is_last] at top
      obtain ⟨t, at_v, above⟩ := top
      obtain rfl := some.inj (old.symm.trans at_v)
      exact absurd after (above j e ne at_j).asymm
    have last := sums.laid.last_eq old
    unfold Extent.Before at after
    rw [last] at after
    have high : ((bs.inodes v).d_eblock + 1) * BFS_BSIZE ≤ e.first * BFS_BSIZE :=
      mul_le_mul_right _ after
    have short : (uio.bytes.take m).length ≤ uio.bytes.length := by
      rw [length_take]
      omega
    exact .inr ⟨by omega, by omega⟩
  have hole : (bs.inodes v).d_eoffset + 1 = start + bs.length v := ends.symm
  have result : r = none ∨ r = some .EFAULT := outcome.imp And.left And.left
  have whole : r = none → m = uio.bytes.length := by
    intro ok
    rcases outcome with ⟨_, all⟩ | ⟨failed, _⟩
    · exact all
    · rw [ok] at failed
      cases failed
  refine ⟨r, out, run', ?_, kept, result, ?_⟩
  · -- the sums
    rw [hout]
    unfold written_out
    split
    · exact Sums.with_disk sums _
    · have stop := (sums.laid.placed v inside live full).stop
      have longer := full_sums sums inside live full
        (e := max (bs.inodes v).d_eoffset (start + rel + m - 1)) (le_max_left _ _) (by omega)
        (reach.imp_right fun inner => by omega)
      exact longer (pour (fill_hole bs.disk (bs.inodes v).d_eoffset (start + rel)) (start + rel)
        (uio.bytes.take m))
  · -- the bytes
    have image : out.toImage = bs.toImage.after v (bs.inodes v).d_eoffset (start + rel)
        (uio.bytes.take m) (if m = 0 then bs.inodes v
          else (bs.inodes v).endAt (max (bs.inodes v).d_eoffset (start + rel + m - 1))) := by
      rw [hout]
      unfold written_out
      by_cases none_written : m = 0
      · rw [if_pos none_written, if_pos none_written, none_written, take_zero, after_nil]
        rfl
      · rw [if_neg none_written, if_neg none_written]
        rfl
    rw [image]
    refine ⟨rfl, rfl, ?_, ?_, m, m_le, whole, ?_, ?_⟩
    · intro j j_inside ne _
      exact after_other sums.laid hole j_inside ne (others_apart j ne)
    · show (update bs.inodes v _ v).d_ino = _
      rw [update_self]
      split <;> rfl
    · intro failed other
      exact absurd (result.resolve_left failed) other
    · by_cases none_written : m = 0
      · rw [if_pos none_written, none_written, take_zero, after_nil, overwrite_nil]
        exact (after_nothing hole (fun _ => by rw [← hs])).contents live
      rw [if_neg none_written]
      have taken_len : (uio.bytes.take m).length = m := by
        rw [length_take]
        omega
      refine after_self hole (by rw [hs]; rfl) ?_ full hs.symm ?_
      · intro empty
        rw [empty] at taken_len
        exact none_written taken_len.symm
      · show max (bs.inodes v).d_eoffset (start + rel + m - 1) + 1 = _
        rw [taken_len]
        omega

def Bsuper.fresh_target (bs : Bsuper) (v rel : Nat) : Target :=
  ⟨(bs.inodes v).openAt (bfs_nextfile bs).2 rel, 0, (bfs_nextfile bs).2 * BFS_BSIZE - 1, some v⟩

/-- A write to an empty file that got room, if a fault strikes it no later than in the first
    chunk. -/
theorem write_out_empty (sums : bs.Sums) (inside : v < bs.slots) (live : (bs.inodes v).d_ino ≠ 0)
    (empty : (bs.inodes v).d_sblock = 0) (some_bytes : uio.bytes ≠ [])
    (fits : (bfs_nextfile bs).2 * BFS_BSIZE + rel + uio.bytes.length ≤ bs.bsup_end)
    (whole : uio.readable < uio.bytes.length → uio.readable < min MAXBSIZE uio.bytes.length) :
    ∃ r bs', write_out bs v uio (bs.fresh_target v rel) ((bfs_nextfile bs).2 * BFS_BSIZE + rel) =
        some (r, bs') ∧ bs'.Sums ∧ Kept bs bs' ∧ (r = none ∨ r = some .EFAULT) ∧
      Wrote bs.toImage bs'.toImage v rel uio.bytes r := by
  obtain ⟨nb, hn⟩ : ∃ nb, nb = (bfs_nextfile bs).2 := ⟨_, rfl⟩
  obtain ⟨data, pos⟩ := next_start sums
  rw [← hn] at data pos fits ⊢
  have low : BFS_BSIZE ≤ nb * BFS_BSIZE := Nat.le_mul_of_pos_left _ (Nat.pos_of_ne_zero pos)
  obtain ⟨m, m_le, r, run, outcome⟩ := write_out_run bs v some_bytes (bs.fresh_target v rel)
    (show BFS_BSIZE ≤ nb * BFS_BSIZE + rel by omega)
    (by
      show ((bfs_nextfile bs).2 + rel / BFS_BSIZE) * BFS_BSIZE ≤ _
      rw [← hn]
      have := Nat.div_mul_le_self rel BFS_BSIZE
      rw [Nat.add_mul]
      omega)
  have hole : nb * BFS_BSIZE - 1 + 1 = nb * BFS_BSIZE + 0 := by
    have : 0 < BFS_BSIZE := by decide
    omega
  have others : ∀ (bytes : List UInt8) (d : Dirent), ∀ j < bs.slots, j ≠ v → Unharmed bs.toImage
        (bs.toImage.after v (nb * BFS_BSIZE - 1) (nb * BFS_BSIZE + rel) bytes d) j := by
    intro bytes d j j_inside ne
    refine after_other sums.laid hole j_inside ne fun e at_j => .inl ?_
    rw [hn]
    exact Nat.mul_le_mul_right _ (below_next sums at_j)
  have no_bytes : bs.contents v = [] := contents_of_empty empty
  rcases outcome with ⟨ok, all⟩ | ⟨failed, few, first⟩
  · -- all chunks are on the device
    subst ok
    have m_pos : m ≠ 0 := by
      rw [all]
      exact fun none_there => some_bytes (eq_nil_of_length_eq_zero none_there)
    have taken_all : uio.bytes.take m = uio.bytes := by rw [all, take_length]
    have final : written_out bs v uio (bs.fresh_target v rel) (nb * BFS_BSIZE + rel) m =
        written { bs with disk := fill_hole bs.disk (nb * BFS_BSIZE - 1) (nb * BFS_BSIZE + rel) } v
          ((bs.inodes v).openAt nb rel) 0 (nb * BFS_BSIZE + rel) uio.bytes m := by
      unfold written_out Bsuper.fresh_target
      rw [if_neg m_pos, ← hn]
    have last_byte : max (nb * BFS_BSIZE + rel - 1) (nb * BFS_BSIZE + rel + m - 1) =
        nb * BFS_BSIZE + rel + m - 1 := by omega
    have placed := place_sums sums inside live empty rel (e := nb * BFS_BSIZE + rel + m - 1)
      (by rw [← hn]; omega) (by omega)
      (pour (fill_hole bs.disk (nb * BFS_BSIZE - 1) (nb * BFS_BSIZE + rel)) (nb * BFS_BSIZE + rel)
        (uio.bytes.take m))
    rw [← hn] at placed
    refine ⟨none, _, run, ?_, ?_, .inl rfl, ?_⟩
    · rw [final]
      unfold written Dirent.openAt
      simp only [last_byte]
      exact placed
    · rw [final]
      exact ⟨rfl, rfl, rfl⟩
    · rw [final]
      show Wrote _ (bs.toImage.after v (nb * BFS_BSIZE - 1) (nb * BFS_BSIZE + rel)
        (uio.bytes.take m) _) _ _ _ _
      rw [taken_all]
      refine ⟨rfl, rfl, fun j j_inside ne _ => others _ _ j j_inside ne, ?_, m, m_le,
        fun _ => all, ?_, ?_⟩
      · show (update bs.inodes v _ v).d_ino = _
        rw [update_self]
        rfl
      · exact fun absurd => (absurd rfl).elim
      · rw [taken_all]
        refine after_self hole (by rw [no_bytes]; rfl) some_bytes pos rfl ?_
        show max (nb * BFS_BSIZE + rel - 1) (nb * BFS_BSIZE + rel + m - 1) + 1 = _
        omega
  · -- nothing is
    have none_written := first (whole few)
    subst failed none_written
    refine ⟨some .EFAULT, _, run, Sums.with_disk sums _, ⟨rfl, rfl, rfl⟩, .inr rfl, ?_⟩
    have still : bs.toImage.after v (nb * BFS_BSIZE - 1) (nb * BFS_BSIZE + rel) [] (bs.inodes v) =
        { bs.toImage with
          disk := fill_hole bs.disk (nb * BFS_BSIZE - 1) (nb * BFS_BSIZE + rel) } :=
      after_nil _ _ _ _
    have image : (written_out bs v uio (bs.fresh_target v rel) (nb * BFS_BSIZE + rel) 0).toImage =
        { bs.toImage with
          disk := fill_hole bs.disk (nb * BFS_BSIZE - 1) (nb * BFS_BSIZE + rel) } := by
      rw [hn]
      rfl
    refine ⟨rfl, rfl, fun j j_inside ne _ => ?_, rfl, 0, zero_le _, ?_,
      fun _ absurd => absurd.elim rfl, ?_⟩
    · show Unharmed _ (written_out bs v uio (bs.fresh_target v rel) _ 0).toImage j
      rw [image, ← still]
      exact others _ _ j j_inside ne
    · exact fun absurd => by cases absurd
    · show (written_out bs v uio (bs.fresh_target v rel) _ 0).toImage.contents v = _
      rw [image, take_zero, overwrite_nil]
      exact (after_nothing hole (fun full => absurd empty full)).contents live

end Phase

end Bfs
