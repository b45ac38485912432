import Mathlib.Data.Nat.Bitwise
import Mathlib.Tactic.Ring

/- The block maps of fs/ufs/ufs_blklist.c and fs/s5/s5blklist.c, and the slow paths of
   ufs_bmap and bmap for a reader. -/
namespace BlockLists
open List Option Nat

def PAGESIZE : Nat := 4096
def PAGEOFFSET : Nat := 4095
/-- The direct blocks of a UFS inode and of a System V one, and the roots of either. -/
def NDADDR : Nat := 12
def NADDR : Nat := 13
def NIADDR : Nat := 3

/-- A mounted file system with its device; block numbers are the ones inodes hold. -/
structure Fs where
  bshift : Nat
  readable : Nat → Bool
  words : Nat → List Nat
  int_sized : 2 ≤ bshift
  bounded : bshift ≤ 13
  full : ∀ b, (words b).length = 2 ^ (bshift - 2)

def Fs.bsize (fs : Fs) : Nat := 2 ^ fs.bshift
def Fs.nshift (fs : Fs) : Nat := fs.bshift - 2
def Fs.nindir (fs : Fs) : Nat := 2 ^ fs.nshift

/-- With `n` direct blocks. i_addr of a System V inode is `direct ++ indirect`. -/
structure Inode (n : Nat) where
  i_size : Nat
  direct : List Nat
  indirect : List Nat
  long : i_size < 2 ^ 31
  direct_length : direct.length = n
  indirect_length : indirect.length = NIADDR

/-- `while (cnt-- && lp < eptr)`, with room for so many entries. -/
def bldloop (entry : Nat → Nat → Option (List Nat)) : List Nat → Nat → Option (List Nat)
  | [], _ => some []
  | w :: ws, room =>
    if room = 0 then some []
    else (entry w room).bind fun l => (bldloop entry ws (room - l.length)).map (l ++ ·)

/-- ufs_bldindr and s5bldindr for `indlvl + 1` levels; the word of a last level is the entry
    itself. `sksize` stays in the range of an int for a file below 2^31 bytes. -/
def bldindr (fs : Fs) : Nat → Nat → Nat → Option (List Nat)
  | 0, blknbr, _ => some [blknbr]
  | levels + 1, blknbr, room =>
    if blknbr = 0 then some (replicate (min room (fs.nindir ^ (levels + 1))) 0)
    else if fs.readable blknbr then bldloop (bldindr fs levels) (fs.words blknbr) room
    else none

/-- The loop over the roots, which a mappable file does not run out of. -/
def indirects (fs : Fs) : Nat → List Nat → Nat → Option (List Nat)
  | _, [], room => if room = 0 then some [] else none
  | levels, ib :: ibs, room =>
    if room = 0 then some []
    else (bldindr fs levels ib room).bind fun l =>
      (indirects fs (levels + 1) ibs (room - l.length)).map (l ++ ·)

def bldblklst {n : Nat} (fs : Fs) (ip : Inode n) (nblks : Nat) : Option (List Nat) :=
  (indirects fs 1 ip.indirect (nblks - min nblks n)).map (ip.direct.take (min nblks n) ++ ·)

def long (x : Int) : Int := Int.bmod x (2 ^ 32)

def nblks (fs : Fs) (i_size : Nat) : Int := (long (i_size + fs.bsize - 1)).tdiv fs.bsize

def bpp (fs : Fs) : Int := (PAGESIZE / fs.bsize : Nat)

def ufs_npblks (fs : Fs) (i_size : Nat) : Int :=
  if fs.bsize < PAGESIZE then long (i_size + PAGESIZE) / PAGESIZE * bpp fs else nblks fs i_size

def s5_npblks (fs : Fs) (i_size : Nat) : Int :=
  if fs.bsize < PAGESIZE then (nblks fs i_size + bpp fs - 1).tdiv (bpp fs) * bpp fs
  else nblks fs i_size

/-- Of ufs_freemap and the fast paths of ufs_bmap and bmap. -/
def mapped (fs : Fs) (i_size : Nat) : Int :=
  if fs.bsize < PAGESIZE then long (i_size + PAGEOFFSET) / PAGESIZE * bpp fs else nblks fs i_size

/-- `none` is an error, and `some none` an empty file. `kmem n` says whether kmem_alloc has
    `sizeof(int) * n` bytes. -/
def allocmap {n : Nat} (fs : Fs) (kmem : Int → Bool) (ip : Inode n) (npblks : Int) :
    Option (Option (List Nat)) :=
  if nblks fs ip.i_size = 0 then some none
  else if kmem npblks then
    (bldblklst fs ip (nblks fs ip.i_size).toNat).map fun l =>
      some (l ++ replicate (npblks.toNat - (nblks fs ip.i_size).toNat) 0)
  else none

def ufs_allocmap (fs : Fs) (kmem : Int → Bool) (ip : Inode NDADDR) : Option (Option (List Nat)) :=
  allocmap fs kmem ip (ufs_npblks fs ip.i_size)

def s5allocmap (fs : Fs) (kmem : Int → Bool) (ip : Inode (NADDR - 3)) :
    Option (Option (List Nat)) :=
  allocmap fs kmem ip (s5_npblks fs ip.i_size)

inductive Errno
  | EIO
  | EFBIG
deriving DecidableEq, Repr

/-- How many levels of indirection: `j`, `sh` and what is left of the block number. -/
def levels (nindir : Nat) : Nat → Nat → Nat → Option (Nat × Nat × Nat)
  | 0, _, _ => none
  | j + 1, sh, tbn =>
    if tbn < sh * nindir then some (j + 1, sh * nindir, tbn)
    else levels nindir j (sh * nindir) (tbn - sh * nindir)

/-- Fetch through the indirect blocks. A hole is 0. -/
def fetch (fs : Fs) (tbn : Nat) : Nat → Nat → Nat → Except Errno Nat
  | 0, _, nb => .ok nb
  | turns + 1, sh, nb =>
    if fs.readable nb then
      let nb := (fs.words nb).getD (tbn / (sh / fs.nindir) % fs.nindir) 0
      if nb = 0 then .ok 0 else fetch fs tbn turns (sh / fs.nindir) nb
    else .error Errno.EIO

/-- The slow path for a reader. -/
def ufs_bmap (fs : Fs) (ip : Inode NDADDR) (lbn : Nat) : Except Errno Nat :=
  if lbn < NDADDR then .ok (ip.direct.getD lbn 0)
  else match levels fs.nindir NIADDR 1 (lbn - NDADDR) with
    | none => .error .EFBIG
    | some (j, sh, tbn) =>
      let nb := ip.indirect.getD (NIADDR - j) 0
      if nb = 0 then .ok 0 else fetch fs tbn (NIADDR - j + 1) sh nb

def s5levels (nshift : Nat) : Nat → Nat → Nat → Nat → Option (Nat × Nat × Nat)
  | 0, _, _, _ => none
  | j + 1, sh, nb, bn =>
    if bn < nb <<< nshift then some (j + 1, sh + nshift, bn)
    else s5levels nshift j (sh + nshift) (nb <<< nshift) (bn - nb <<< nshift)

def s5fetch (fs : Fs) (bn : Nat) : Nat → Nat → Nat → Except Errno Nat
  | 0, _, inb => .ok inb
  | turns + 1, sh, inb =>
    if fs.readable inb then
      let nb := (fs.words inb).getD (bn >>> (sh - fs.nshift) &&& (2 ^ fs.nshift - 1)) 0
      if nb = 0 then .ok 0 else s5fetch fs bn turns (sh - fs.nshift) nb
    else .error Errno.EIO

/-- The slow path for a reader. -/
def bmap (fs : Fs) (ip : Inode (NADDR - 3)) (lbn : Nat) : Except Errno Nat :=
  if lbn < NADDR - 3 then .ok (ip.direct.getD lbn 0)
  else match s5levels fs.nshift 3 0 1 (lbn - (NADDR - 3)) with
    | none => .error .EFBIG
    | some (j, sh, bn) =>
      let inb := (ip.direct ++ ip.indirect).getD (NADDR - j) 0
      if inb = 0 then .ok 0 else s5fetch fs bn (3 - j + 1) sh inb

/-- The indices at which a fast path reads i_map, with the block to be read ahead. -/
def fast_reads (mapped : Int) (lbn : Nat) : List Nat :=
  if (lbn : Int) < mapped then if (lbn : Int) + 1 < mapped then [lbn, lbn + 1] else [lbn] else []

/-- A map agrees with the block tree and with the sizes that the other routines use. -/
structure Agrees (slow : Nat → Except Errno Nat) (nblks mapped freed : Int) (i_map : List Nat) :
    Prop where
  entries : ∀ n : Nat, (n : Int) < nblks → ∃ b, i_map[n]? = some b ∧ slow n = .ok b
  beyond : ∀ n : Nat, nblks ≤ n → n < i_map.length → i_map[n]? = some 0
  inside : ∀ lbn, ∀ k ∈ fast_reads mapped lbn, k < i_map.length
  freed : freed = i_map.length

section Trees
variable {fs : Fs} {entry : Nat → Nat → Option (List Nat)} {m : Nat} {l : List Nat}

theorem nindir_pos (fs : Fs) : 0 < fs.nindir := Nat.two_pow_pos _

theorem bldloop_spec (each : ∀ w r l, 0 < r → entry w r = some l → l.length = min r m)
    {ws : List Nat} {room : Nat} (built : bldloop entry ws room = some l) :
    l.length = min room (ws.length * m) ∧ ∀ i < ws.length, i * m < room → ∃ l',
      entry (ws.getD i 0) (room - i * m) = some l' ∧ ∀ k < l'.length, l[i * m + k]? = l'[k]? := by
  induction ws generalizing room l with
  | nil =>
    cases built
    simp
  | cons w ws ih =>
    rw [bldloop] at built
    split at built
    · rename_i none_left
      cases built
      simp [none_left]
    obtain ⟨a, first, built⟩ := bind_eq_some_iff.mp built
    obtain ⟨c, rest, rfl⟩ := map_eq_some_iff.mp built
    have size := each w room a (by omega) first
    obtain ⟨length, entries⟩ := ih rest
    rw [length_append, length, size, length_cons, succ_mul]
    refine ⟨by omega, fun i inside room_left => ?_⟩
    cases i with
    | zero =>
      refine ⟨a, by simpa using first, fun k low => ?_⟩
      rw [zero_mul, zero_add, getElem?_append_left low]
    | succ i =>
      rw [succ_mul] at room_left
      have whole : a.length = m := by omega
      rw [whole] at entries
      obtain ⟨l', here, same⟩ := entries i (by omega) (by omega)
      refine ⟨l', ?_, fun k low => ?_⟩
      · rw [getD_cons_succ, Nat.succ_mul, Nat.add_comm (i * m), ← Nat.sub_sub]
        exact here
      · rw [succ_mul, getElem?_append_right (by omega), whole, ← same k low]
        congr 1
        omega

def walk (fs : Fs) (t levels b : Nat) : Except Errno Nat :=
  if b = 0 then .ok 0 else fetch fs t levels (fs.nindir ^ levels) b

theorem walk_succ {t levels b : Nat} (live : b ≠ 0) (ok : fs.readable b = true) :
    walk fs t (levels + 1) b =
      walk fs t levels ((fs.words b).getD (t / fs.nindir ^ levels % fs.nindir) 0) := by
  have down : fs.nindir ^ (levels + 1) / fs.nindir = fs.nindir ^ levels := by
    rw [Nat.pow_succ, Nat.mul_div_cancel _ (nindir_pos fs)]
  rw [walk, if_neg live, fetch, if_pos ok, down]
  rfl

/-- The list below a pointer is as long as there is room for, and its entries are those that
    a reader finds. -/
theorem bldindr_spec {levels b room : Nat} (some_room : 0 < room)
    (built : bldindr fs levels b room = some l) : l.length = min room (fs.nindir ^ levels) ∧
      ∀ t, t % fs.nindir ^ levels < l.length →
        walk fs t levels b = .ok (l.getD (t % fs.nindir ^ levels) 0) := by
  induction levels generalizing b room l with
  | zero =>
    cases built
    refine ⟨by simp only [length_singleton, pow_zero]; omega, fun t _ => ?_⟩
    rw [pow_zero, mod_one, walk]
    split
    · rename_i hole
      simp [hole]
    · rfl
  | succ levels ih =>
    rw [bldindr] at built
    split at built
    · rename_i hole
      cases built
      refine ⟨length_replicate, fun t low => ?_⟩
      rw [length_replicate] at low
      rw [walk, if_pos hole, getD_eq_getElem?_getD, getElem?_replicate, if_pos low]
      rfl
    rename_i live
    split at built
    · rename_i ok
      obtain ⟨length, entries⟩ := bldloop_spec (fun w r l some_room built =>
        (ih some_room built).1) built
      rw [show (fs.words b).length = fs.nindir from fs.full b] at length entries
      refine ⟨by rw [length, pow_succ, mul_comm], fun t low => ?_⟩
      have child : t / fs.nindir ^ levels % fs.nindir < fs.nindir := mod_lt _ (nindir_pos fs)
      have split : t % fs.nindir ^ (levels + 1) = t / fs.nindir ^ levels % fs.nindir *
          fs.nindir ^ levels + t % fs.nindir ^ levels := by
        rw [pow_succ, mod_mul, add_comm, mul_comm]
      have smaller := mod_lt t (pow_pos (nindir_pos fs) (n := levels))
      have front := le_add_right (t / fs.nindir ^ levels % fs.nindir * fs.nindir ^ levels)
        (t % fs.nindir ^ levels)
      rw [walk_succ live ok]
      obtain ⟨l', here, same⟩ := entries _ child (by omega)
      obtain ⟨length', found⟩ := ih (by omega) here
      rw [found t (by omega), split, getD_eq_getElem?_getD, getD_eq_getElem?_getD,
        same _ (by omega)]
    · cases built

/-- The roots are searched in a row, one more level for each. -/
def lookup (fs : Fs) : Nat → List Nat → Nat → Except Errno Nat
  | _, [], _ => .error .EFBIG
  | levels, ib :: ibs, t =>
    if t < fs.nindir ^ levels then walk fs t levels ib
    else lookup fs (levels + 1) ibs (t - fs.nindir ^ levels)

theorem indirects_spec {levels room : Nat} {ibs l : List Nat}
    (built : indirects fs levels ibs room = some l) :
    l.length = room ∧ ∀ t < room, lookup fs levels ibs t = .ok (l.getD t 0) := by
  induction ibs generalizing levels room l with
  | nil =>
    rw [indirects] at built
    split at built
    · rename_i none_left
      cases built
      exact ⟨none_left.symm, fun t low => absurd low (by omega)⟩
    · cases built
  | cons ib ibs ih =>
    rw [indirects] at built
    split at built
    · rename_i none_left
      cases built
      exact ⟨none_left.symm, fun t low => absurd low (by omega)⟩
    obtain ⟨a, first, built⟩ := bind_eq_some_iff.mp built
    obtain ⟨c, rest, rfl⟩ := map_eq_some_iff.mp built
    obtain ⟨size, entries⟩ := bldindr_spec (by omega) first
    obtain ⟨length, later⟩ := ih rest
    refine ⟨by rw [length_append]; omega, fun t low => ?_⟩
    rw [lookup]
    split
    · rename_i here
      have found := entries t
      rw [mod_eq_of_lt here] at found
      rw [found (by omega), getD_append _ _ _ _ (by omega)]
    · have whole : a.length = fs.nindir ^ levels := by omega
      rw [later _ (by omega), getD_append_right _ _ _ _ (by omega), whole]

end Trees

section Slow
variable {fs : Fs} {n : Nat}

/-- A block of the file, direct or below a root. -/
def slow (fs : Fs) (ip : Inode n) (lbn : Nat) : Except Errno Nat :=
  if lbn < n then .ok (ip.direct.getD lbn 0) else lookup fs 1 ip.indirect (lbn - n)

theorem bldblklst_spec {ip : Inode n} {nblks : Nat} {l : List Nat}
    (built : bldblklst fs ip nblks = some l) :
    l.length = nblks ∧ ∀ t < nblks, slow fs ip t = .ok (l.getD t 0) := by
  obtain ⟨c, rest, rfl⟩ := map_eq_some_iff.mp built
  obtain ⟨length, entries⟩ := indirects_spec rest
  have front : (ip.direct.take (min nblks n)).length = min nblks n := by
    rw [length_take, ip.direct_length]
    omega
  refine ⟨by rw [length_append, front, length]; omega, fun t low => ?_⟩
  rw [slow]
  split
  · rw [getD_append _ _ _ _ (by omega), getD_eq_getElem?_getD, getD_eq_getElem?_getD,
      getElem?_take_of_lt (by omega)]
  · rw [entries _ (by omega), getD_append_right _ _ _ _ (by omega), front]
    congr 2
    omega

theorem roots (ip : Inode n) : ∃ a b c, ip.indirect = [a, b, c] := by
  have length := ip.indirect_length
  match ip.indirect, length with
  | [a, b, c], _ => exact ⟨a, b, c, rfl⟩

theorem lookup_eq (ip : Inode n) (t : Nat) : lookup fs 1 ip.indirect t =
    match levels fs.nindir NIADDR 1 t with
    | none => .error .EFBIG
    | some (j, sh, tbn) =>
      let nb := ip.indirect.getD (NIADDR - j) 0
      if nb = 0 then .ok 0 else fetch fs tbn (NIADDR - j + 1) sh nb := by
  obtain ⟨a, b, c, three⟩ := roots ip
  rw [three]
  simp only [NIADDR, levels, lookup, one_mul, pow_one, ← pow_two, ← pow_succ]
  split_ifs <;> first | rfl | simp [walk]

theorem ufs_bmap_eq (ip : Inode NDADDR) (lbn : Nat) : ufs_bmap fs ip lbn = slow fs ip lbn := by
  rw [slow, lookup_eq]
  rfl

theorem s5levels_eq (k j sh bn : Nat) : levels (2 ^ k) j (2 ^ sh) bn =
    (s5levels k j sh (2 ^ sh) bn).map fun r => (r.1, 2 ^ r.2.1, r.2.2) := by
  induction j generalizing sh bn with
  | zero => rfl
  | succ j ih =>
    rw [levels, s5levels, shiftLeft_eq, ← pow_add]
    split
    · rfl
    · exact ih _ _

theorem s5fetch_eq {turns sh : Nat} (deep : turns * fs.nshift ≤ sh) (bn inb : Nat) :
    s5fetch fs bn turns sh inb = fetch fs bn turns (2 ^ sh) inb := by
  induction turns generalizing sh inb with
  | zero => rfl
  | succ turns ih =>
    rw [succ_mul] at deep
    have down : 2 ^ sh / fs.nindir = 2 ^ (sh - fs.nshift) := Nat.pow_div (by omega) (by decide)
    rw [s5fetch, fetch, down, shiftRight_eq_div_pow, and_two_pow_sub_one_eq_mod]
    simp only [ih (show turns * fs.nshift ≤ sh - fs.nshift by omega)]
    rfl

theorem s5levels_depth {k j₀ sh₀ nb bn j sh bn' : Nat}
    (found : s5levels k j₀ sh₀ nb bn = some (j, sh, bn')) :
    0 < j ∧ j ≤ j₀ ∧ sh = sh₀ + (j₀ - j + 1) * k := by
  induction j₀ generalizing sh₀ nb bn with
  | zero => cases found
  | succ j₀ ih =>
    rw [s5levels] at found
    split at found
    · cases found
      rw [Nat.sub_self, Nat.zero_add, Nat.one_mul]
      omega
    · obtain ⟨pos, below, deep⟩ := ih found
      refine ⟨pos, by omega, ?_⟩
      rw [deep, show j₀ + 1 - j + 1 = j₀ - j + 1 + 1 by omega, succ_mul (j₀ - j + 1)]
      omega

theorem bmap_eq (ip : Inode (NADDR - 3)) (lbn : Nat) : bmap fs ip lbn = slow fs ip lbn := by
  unfold bmap slow
  split
  · rfl
  have same := s5levels_eq fs.nshift 3 0 (lbn - (NADDR - 3))
  rw [lookup_eq, show levels fs.nindir NIADDR 1 _ = _ from same]
  cases found : s5levels fs.nshift 3 0 (2 ^ 0) (lbn - (NADDR - 3)) with
  | none =>
    rfl
  | some r =>
    obtain ⟨j, sh, bn⟩ := r
    obtain ⟨pos, below, deep⟩ := s5levels_depth found
    have root : (ip.direct ++ ip.indirect).getD (NADDR - j) 0 =
        ip.indirect.getD (NIADDR - j) 0 := by
      rw [getD_append_right _ _ _ _ (by rw [ip.direct_length]; simp only [NADDR]; omega),
        ip.direct_length]
      congr 1
      simp only [NADDR, NIADDR]
      omega
    simp only [root, map_some]
    rw [s5fetch_eq (by omega)]
    rfl

end Slow

section Sizes
variable {fs : Fs} {i_size : Nat} {x : Int}

theorem bsize_pos (fs : Fs) : 0 < fs.bsize := Nat.two_pow_pos _

theorem bsize_le (fs : Fs) : fs.bsize ≤ 8192 := Nat.pow_le_pow_right (by decide) fs.bounded

theorem long_of_small (low : 0 ≤ x) (small : x < 2 ^ 31) : long x = x := by
  unfold long
  rw [Int.bmod_def]
  omega

theorem long_of_large (large : 2 ^ 31 ≤ x) (bound : x < 2 ^ 32) : long x = x - 2 ^ 32 := by
  unfold long
  rw [Int.bmod_def]
  omega

theorem nblks_eq (fine : i_size + fs.bsize ≤ 2 ^ 31) :
    nblks fs i_size = ((i_size + fs.bsize - 1) / fs.bsize : Nat) := by
  have pos := bsize_pos fs
  rw [nblks, show (i_size + fs.bsize - 1 : Int) = (i_size + fs.bsize - 1 : Nat) by omega,
    long_of_small (by omega) (by omega)]
  rfl

theorem nblks_wrapped (small : i_size < 2 ^ 31) (wraps : 2 ^ 31 < i_size + fs.bsize) :
    nblks fs i_size ≤ -2 ^ 17 := by
  have pos := bsize_pos fs
  have le := bsize_le fs
  obtain ⟨y, eq⟩ : ∃ y : Nat, (i_size + fs.bsize - 1 : Int) - 2 ^ 32 = -y :=
    ⟨2 ^ 32 - (i_size + fs.bsize - 1), by omega⟩
  have many : 2 ^ 17 ≤ y / fs.bsize := (le_div_iff_mul_le pos).mpr (by omega)
  rw [nblks, long_of_large (by omega) (by omega), eq, Int.neg_tdiv]
  have cast : ((y : Int).tdiv fs.bsize) = (y / fs.bsize : Nat) := rfl
  omega

theorem bpp_eq (fewer : fs.bsize < PAGESIZE) :
    ∃ c : Nat, 0 < c ∧ c ≤ 1024 ∧ fs.bsize * c = PAGESIZE ∧ bpp fs = c := by
  have order : fs.bshift < 12 := (Nat.pow_lt_pow_iff_right (a := 2) (by decide)).mp fewer
  have least := fs.int_sized
  have product : fs.bsize * 2 ^ (12 - fs.bshift) = PAGESIZE := by
    rw [Fs.bsize, ← pow_add, add_sub_of_le (by omega)]
    rfl
  refine ⟨2 ^ (12 - fs.bshift), Nat.two_pow_pos _,
    Nat.pow_le_pow_right (by decide) (show 12 - fs.bshift ≤ 10 by omega), product, ?_⟩
  rw [bpp, ← product, Nat.mul_div_cancel_left _ (bsize_pos fs)]

theorem blocks_le {c q : Nat} (product : fs.bsize * c = PAGESIZE) (within : i_size ≤ q * PAGESIZE) :
    (i_size + fs.bsize - 1) / fs.bsize ≤ q * c := by
  have pos := bsize_pos fs
  refine le_of_lt_succ ((div_lt_iff_lt_mul pos).mpr ?_)
  rw [succ_mul, mul_assoc, mul_comm c, product]
  omega

theorem rounded_twice {b c : Nat} (b_pos : 0 < b) (c_pos : 0 < c) (x : Nat) :
    ((x + b - 1) / b + c - 1) / c = (x + b * c - 1) / (b * c) := by
  rw [← Nat.div_div_eq_div_mul]
  congr 1
  obtain ⟨d, rfl⟩ := Nat.exists_eq_add_of_lt c_pos
  rw [show x + b * (0 + d + 1) - 1 = x + b - 1 + b * d by rw [mul_add, mul_add]; omega,
    add_mul_div_left _ _ b_pos]
  generalize (x + b - 1) / b = q
  omega

theorem mapped_eq {c : Nat} (fewer : fs.bsize < PAGESIZE) (per_page : bpp fs = c)
    (fine : i_size + PAGEOFFSET < 2 ^ 31) :
    mapped fs i_size = ((i_size + PAGEOFFSET) / PAGESIZE * c : Nat) := by
  simp only [PAGEOFFSET] at fine
  rw [mapped, if_pos fewer, per_page, PAGEOFFSET, long_of_small (by omega) (by omega)]
  rfl

theorem ufs_npblks_spec (small : i_size < 2 ^ 31) (got : 0 ≤ ufs_npblks fs i_size) :
    nblks fs i_size ≤ ufs_npblks fs i_size ∧
      mapped fs i_size ≤ ufs_npblks fs i_size ∧
      (mapped fs i_size = ufs_npblks fs i_size ↔ ¬ (fs.bsize < PAGESIZE ∧ PAGESIZE ∣ i_size)) := by
  by_cases fewer : fs.bsize < PAGESIZE
  · obtain ⟨c, c_pos, -, product, per_page⟩ := bpp_eq fewer
    have asked : ufs_npblks fs i_size = long (i_size + PAGESIZE) / PAGESIZE * c := by
      rw [ufs_npblks, if_pos fewer, per_page]
    simp only [PAGESIZE] at fewer asked product
    by_cases wraps : 2 ^ 31 ≤ i_size + 4096
    · rw [asked, long_of_large (by omega) (by omega)] at got
      exact absurd got (not_le.mpr (Int.mul_neg_of_neg_of_pos
        (Int.ediv_neg_of_neg_of_pos (by omega) (by decide)) (Int.natCast_pos.mpr c_pos)))
    have within := blocks_le product (show i_size ≤ (i_size + 4096) / 4096 * 4096 by omega)
    have asked : ufs_npblks fs i_size = ((i_size + 4096) / 4096 * c : Nat) := by
      rw [asked, long_of_small (by omega) (by omega)]
      rfl
    rw [asked, mapped_eq fewer per_page (by simp only [PAGEOFFSET]; omega),
      nblks_eq (by omega), Int.ofNat_le, Int.ofNat_le, Int.ofNat_inj]
    refine ⟨within, mul_le_mul_right c (by simp only [PAGEOFFSET, PAGESIZE]; omega), ?_⟩
    rw [Nat.mul_left_inj (by omega)]
    simp only [PAGEOFFSET, PAGESIZE]
    omega
  · have asked : ufs_npblks fs i_size = nblks fs i_size := if_neg fewer
    have reads : mapped fs i_size = nblks fs i_size := if_neg fewer
    rw [asked, reads]
    exact ⟨le_refl _, le_refl _, iff_of_true rfl fun both => fewer both.1⟩

theorem s5_npblks_spec (small : i_size < 2 ^ 31) (got : 0 ≤ s5_npblks fs i_size) :
    nblks fs i_size ≤ s5_npblks fs i_size ∧ mapped fs i_size ≤ s5_npblks fs i_size := by
  have pos := bsize_pos fs
  by_cases fewer : fs.bsize < PAGESIZE
  · obtain ⟨c, c_pos, c_le, product, per_page⟩ := bpp_eq fewer
    have asked : s5_npblks fs i_size = (nblks fs i_size + c - 1).tdiv c * c := by
      rw [s5_npblks, if_pos fewer, per_page]
    have fine : i_size + fs.bsize ≤ 2 ^ 31 := by
      by_contra wraps
      have negative : nblks fs i_size ≤ -2 ^ 17 := nblks_wrapped small (by omega)
      obtain ⟨y, eq⟩ : ∃ y : Nat, nblks fs i_size + c - 1 = -(y + c : Nat) :=
        ⟨(-(nblks fs i_size + c - 1) - c).toNat, by omega⟩
      rw [asked, eq, Int.neg_tdiv, show ((y + c : Nat) : Int).tdiv c = ((y + c) / c : Nat) from rfl,
        add_div_right _ c_pos] at got
      exact absurd got (not_le.mpr (Int.mul_neg_of_neg_of_pos
        (Int.neg_neg_of_pos (Int.natCast_pos.mpr (succ_pos _))) (Int.natCast_pos.mpr c_pos)))
    simp only [PAGESIZE] at product
    have again := rounded_twice pos c_pos i_size
    rw [product] at again
    have asked : s5_npblks fs i_size = ((i_size + 4096 - 1) / 4096 * c : Nat) := by
      rw [asked, nblks_eq fine, ← again]
      generalize (i_size + fs.bsize - 1) / fs.bsize = q
      rw [show (q + c - 1 : Int) = (q + c - 1 : Nat) by omega]
      rfl
    have within := blocks_le product (show i_size ≤ (i_size + 4096 - 1) / 4096 * 4096 by omega)
    rw [asked, nblks_eq fine, Int.ofNat_le]
    refine ⟨within, ?_⟩
    by_cases wraps : i_size + PAGEOFFSET < 2 ^ 31
    · rw [mapped_eq fewer per_page wraps, Int.ofNat_le]
      exact le_refl _
    · simp only [PAGEOFFSET] at wraps
      rw [mapped, if_pos fewer, per_page, PAGEOFFSET, long_of_large (by omega) (by omega)]
      exact le_trans (le_of_lt (Int.mul_neg_of_neg_of_pos
        (Int.ediv_neg_of_neg_of_pos (by omega) (by decide)) (Int.natCast_pos.mpr c_pos)))
        (Int.natCast_nonneg _)
  · have asked : s5_npblks fs i_size = nblks fs i_size := if_neg fewer
    have reads : mapped fs i_size = nblks fs i_size := if_neg fewer
    rw [asked, reads]
    exact ⟨le_refl _, le_refl _⟩

end Sizes

section Maps
variable {fs fs' : Fs} {kmem : Int → Bool} {n : Nat} {ip : Inode n} {i_map : List Nat}
  {npblks : Int}

theorem allocmap_agrees {ip : Inode n} {npblks freed : Int} {i_map : List Nat}
    (made : allocmap fs kmem ip npblks = some (some i_map)) (got : 0 ≤ npblks)
    (order : nblks fs ip.i_size ≤ npblks) (reads : mapped fs ip.i_size ≤ npblks) :
    Agrees (slow fs ip) (nblks fs ip.i_size) (mapped fs ip.i_size) freed i_map ↔
      freed = npblks := by
  rw [allocmap] at made
  split at made
  · cases made
  split at made
  · obtain ⟨l, built, same⟩ := map_eq_some_iff.mp made
    cases same
    obtain ⟨length, entries⟩ := bldblklst_spec built
    have size : ((l ++ replicate (npblks.toNat - (nblks fs ip.i_size).toNat) 0).length : Int) =
        npblks := by
      rw [length_append, length_replicate, length]
      omega
    constructor
    · intro agrees
      rw [agrees.freed, size]
    · intro exactly
      constructor
      · intro t low
        have inside : t < l.length := by omega
        refine ⟨l.getD t 0, ?_, entries t (by omega)⟩
        rw [getElem?_append_left inside, getD_eq_getElem?_getD, getElem?_eq_getElem inside]
        rfl
      · intro t past inside
        rw [getElem?_append_right (by omega), getElem?_replicate, if_pos (by omega)]
      · intro lbn k read
        rw [fast_reads] at read
        split_ifs at read
        · simp only [mem_cons, not_mem_nil, or_false] at read
          omega
        · simp only [mem_cons, not_mem_nil, or_false] at read
          omega
        · cases read
      · rw [exactly, size]
  · cases made

theorem allocmap_memory (limit : ∀ k < 0, kmem k = false)
    (made : allocmap fs kmem ip npblks = some (some i_map)) :
    0 ≤ npblks := by
  by_contra negative
  rw [allocmap, limit npblks (not_le.mp negative)] at made
  split at made
  · cases made
  · cases made

/-- The maps of the two file systems agree with the block trees, in their entries, in the
    indices that are read and in the size that is released, unless the UFS file has a size that
    is a multiple of the page size and blocks smaller than a page. -/
theorem maps_agree_iff {ip : Inode NDADDR} {ip' : Inode (NADDR - 3)} {i_map i_map' : List Nat}
    (limit : ∀ k < 0, kmem k = false) (made : ufs_allocmap fs kmem ip = some (some i_map))
    (made' : s5allocmap fs' kmem ip' = some (some i_map')) :
    Agrees (ufs_bmap fs ip) (nblks fs ip.i_size) (mapped fs ip.i_size) (mapped fs ip.i_size)
        i_map ∧
      Agrees (bmap fs' ip') (nblks fs' ip'.i_size) (mapped fs' ip'.i_size)
        (s5_npblks fs' ip'.i_size) i_map' ↔
      ¬ (fs.bsize < PAGESIZE ∧ PAGESIZE ∣ ip.i_size) := by
  have got := allocmap_memory limit made
  have got' := allocmap_memory limit made'
  obtain ⟨order, reads, exactly⟩ := ufs_npblks_spec ip.long got
  obtain ⟨order', reads'⟩ := s5_npblks_spec ip'.long got'
  rw [show ufs_bmap fs ip = slow fs ip from funext (ufs_bmap_eq ip),
    show bmap fs' ip' = slow fs' ip' from funext (bmap_eq ip'),
    allocmap_agrees made got order reads, allocmap_agrees made' got' order' reads', exactly]
  exact ⟨And.left, fun fine => ⟨fine, rfl⟩⟩

def blank : Fs where
  bshift := 11
  readable := fun _ => true
  words := fun _ => replicate 512 0
  int_sized := by decide
  bounded := by decide
  full := fun _ => length_replicate

theorem three_roots : ([0, 0, 0] : List Nat).length = 3 := rfl

def plain (n i_size : Nat) (long : i_size < 2 ^ 31) : Inode n where
  i_size := i_size
  direct := range' 8 n
  indirect := [0, 0, 0]
  long := long
  direct_length := length_range'
  indirect_length := three_roots

theorem maps_agree_five_thousand :
    Agrees (ufs_bmap blank (plain 12 5000 (by decide))) (nblks blank 5000) (mapped blank 5000)
        (mapped blank 5000) [8, 9, 10, 0] ∧
      Agrees (bmap blank (plain 10 5000 (by decide))) (nblks blank 5000) (mapped blank 5000)
        (s5_npblks blank 5000) [8, 9, 10, 0] :=
  (@maps_agree_iff blank blank _ (plain 12 5000 (by decide)) _ _ _
    (fun k low => decide_eq_false (not_le.mpr low)) (by decide) (by decide)).mpr (by decide)

/-- The map of a file of one page has room for two, and is released as if for one. -/
theorem page_map_released_short :
    ufs_allocmap blank (fun _ => true) (plain 12 4096 (by decide)) = some (some [8, 9, 0, 0]) ∧
      ¬ Agrees (ufs_bmap blank (plain 12 4096 (by decide))) (nblks blank 4096)
        (mapped blank 4096) (mapped blank 4096) [8, 9, 0, 0] :=
  ⟨by decide, fun agrees => absurd agrees.freed (by decide)⟩

end Maps

end BlockLists
