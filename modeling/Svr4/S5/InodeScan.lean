import Mathlib.Algebra.Group.Nat.Defs
import Mathlib.Data.List.Range
import Mathlib.Data.List.TakeDrop

/- uts/i386/fs/s5/s5alloc.c: the allocation of inodes in a System V file system. -/
namespace S5
open Function List Nat

/-- sys/fs/s5param.h -/
def NICINOD : Nat := 100

/-- The i-list; its inode numbers are unsigned shorts. -/
structure Ilist where
  s_isize : Nat
  vfs_inoshift : Nat
  numbers : (s_isize - 2) * 2 ^ vfs_inoshift < 2 ^ 16

namespace Ilist
variable (fs : Ilist)

def vfs_inopb : Nat := 2 ^ fs.vfs_inoshift

def inodes : Nat := (fs.s_isize - 2) * fs.vfs_inopb

/-- sys/fs/s5macros.h -/
def FsITOD (x : Nat) : Nat := (x + (2 * fs.vfs_inopb - 1)) >>> fs.vfs_inoshift

def FsINOS (x : Nat) : Nat := (x >>> fs.vfs_inoshift) <<< fs.vfs_inoshift + 1

/-- The number of the `i`-th inode of the block `adr`. -/
def dinode_number (adr i : Nat) : Nat := (adr - 2) * fs.vfs_inopb + i + 1

end Ilist

/-- The inode cache of the super-block, and the modes of the inodes on the disk and in core. -/
structure Inodes where
  s_ninode : Nat
  s_inode : Nat → Nat
  s_tinode : Nat
  di_mode : Nat → Nat

inductive Ialloc
  | inode (ino : Nat)
  | ENOSPC
  /-- what `iget` returns when it fails -/
  | error
  deriving DecidableEq

/-- What the cache has come to. -/
inductive Popped
  | empty (s_ninode : Nat)
  | failed (s_ninode : Nat)
  | found (ino s_ninode : Nat)
  deriving DecidableEq

variable (fs : Ilist)

/-- What can go wrong in a call: the numbers whose `iget` fails and the blocks that cannot be read.
-/
structure Faults where
  iget : Nat → Bool
  bread : Nat → Bool

def Faults.none : Faults := ⟨fun _ => false, fun _ => false⟩

namespace Inodes
variable (faults : Faults) (s : Inodes)

/-- Entries are taken until one is the number of a free inode. -/
def pop : Nat → Popped
  | 0 => .empty 0
  | s_ninode + 1 =>
      let ino := s.s_inode s_ninode
      if ino = 0 then .empty s_ninode
      else if faults.iget ino then .failed s_ninode
      else if s.di_mode ino = 0 then .found ino s_ninode
      -- inode was already allocated
      else pop s_ninode

/-- `s_inode[--s_ninode] = ino` while there is room -/
def put (s : Inodes) (ino : Nat) : Inodes :=
  if s.s_ninode = 0 then s
  else
    { s with
      s_ninode := s.s_ninode - 1
      s_inode := update s.s_inode (s.s_ninode - 1) ino }

/-- The inodes of the block `adr` from the `i`-th on, numbered from `ino` on. -/
def scan_block (adr : Nat) : Nat → Nat → Nat → Inodes → Inodes
  | 0, _, _, s => s
  | left + 1, i, ino, s =>
      if s.s_ninode = 0 then s
      else
        scan_block adr left (i + 1) (ino + 1)
          (if s.di_mode (fs.dinode_number adr i) = 0 then s.put ino else s)

/-- The blocks `adr` and following, `left` of them. -/
def scan : Nat → Nat → Nat → Inodes → Inodes
  | 0, _, _, s => s
  | left + 1, adr, ino, s =>
      if faults.bread adr then scan left (adr + 1) (ino + fs.vfs_inopb) s
      else
        let s := scan_block fs adr fs.vfs_inopb 0 ino s
        if s.s_ninode = 0 then s else scan left (adr + 1) (ino + fs.vfs_inopb) s

/-- The search of the i-list from the hint on; a cache that is not full ends with a marker. -/
def rebuild : Inodes :=
  let ino := fs.FsINOS (s.s_inode 0)
  let adr := fs.FsITOD ino
  let s := scan fs faults (fs.s_isize - adr) adr ino { s with s_ninode := NICINOD }
  if s.s_ninode = 0 then s
  else
    { s with
      s_inode := update (update s.s_inode (s.s_ninode - 1) 0) 0 0 }

def out_of_inodes : Inodes := { s with s_ninode := 0, s_tinode := 0 }

def take (mode ino s_ninode : Nat) : Inodes :=
  { s with
    s_ninode := s_ninode
    s_tinode := s.s_tinode - 1
    di_mode := update s.di_mode ino mode }

/-- From `loop1` on, which is come to at most so many times. -/
def loop1 (mode : Nat) : Nat → Inodes → Option (Inodes × Ialloc)
  | 0, _ => none
  | turns + 1, s =>
      match s.pop faults s.s_ninode with
      | .found ino s_ninode => some (s.take mode ino s_ninode, .inode ino)
      | .failed s_ninode => some ({ s with s_ninode := s_ninode }, .error)
      | .empty s_ninode =>
          if 0 < s.s_tinode then
            let rebuilt := s.rebuild fs faults
            if rebuilt.s_ninode = NICINOD then some (rebuilt.out_of_inodes, .ENOSPC)
            else loop1 mode turns { rebuilt with s_ninode := NICINOD }
          else some ({ s with s_ninode := s_ninode }.out_of_inodes, .ENOSPC)

def ialloc (mode : Nat) : Option (Inodes × Ialloc) := loop1 fs faults mode 2 s

/-- The inode is locked by the caller. -/
def ifree (ino : Nat) : Inodes :=
  if s.di_mode ino = 0 then s
  else
    let s := { s with
      di_mode := update s.di_mode ino 0
      s_tinode := s.s_tinode + 1 }
    if NICINOD ≤ s.s_ninode ∨ s.s_ninode = 0 then
      if ino < s.s_inode 0 then { s with s_inode := update s.s_inode 0 ino } else s
    else
      { s with
        s_inode := update s.s_inode s.s_ninode ino
        s_ninode := s.s_ninode + 1 }

end Inodes
end S5

/- What the search of the i-list puts into the inode cache. -/
namespace S5
open Function List Nat
variable {fs : Ilist} {s : Inodes} {faults : Faults} {e' : Nat → Nat}

/-- The entries of the cache from the top down to a marker. -/
def cached (e : Nat → Nat) : Nat → List Nat
  | 0 => []
  | n + 1 => if e n = 0 then [] else e n :: cached e n

theorem cached_succ (e : Nat → Nat) (n : Nat) :
    cached e (n + 1) = if e n = 0 then [] else e n :: cached e n := rfl

variable {e : Nat → Nat} {n : Nat} {found : List Nat} {adr : Nat}

theorem first_cached (positive : 0 < n) (full : ∀ k < n, e k ≠ 0) : e 0 ∈ cached e n := by
  induction n with
  | zero => cases positive
  | succ n ih =>
    rw [cached_succ, if_neg (full n (lt_succ_self n))]
    cases n with
    | zero => exact mem_cons_self
    | succ n =>
      refine mem_cons_of_mem _ (ih (succ_pos n) fun k below => ?_)
      exact full k (lt_succ_of_lt below)

theorem cached_congr (same : ∀ k < n, e' k = e k) : cached e' n = cached e n := by
  induction n with
  | zero => rfl
  | succ n ih =>
    rw [cached_succ, cached_succ, same n (lt_succ_self n),
      ih fun k below => same k (lt_succ_of_lt below)]

/-- The list is written below `n`, the first of it on top. -/
def Fills (e : Nat → Nat) : Nat → List Nat → Prop
  | _, [] => True
  | 0, _ :: _ => False
  | n + 1, x :: found => e n = x ∧ Fills e n found

theorem Fills.congr (h : Fills e n found) (same : ∀ k < n, n - found.length ≤ k → e' k = e k) :
    Fills e' n found := by
  induction found generalizing n with
  | nil => cases n <;> trivial
  | cons x found ih =>
    cases n with
    | zero => cases h
    | succ n =>
      refine ⟨(same n (lt_succ_self n) (by simp)).trans h.1, ih h.2 fun k below above => ?_⟩
      exact same k (lt_succ_of_lt below) (by simp only [length_cons]; omega)

theorem Fills.cached (h : Fills e n found) (some_ : ∀ x ∈ found, x ≠ 0)
    (marker : found.length < n → e (n - found.length - 1) = 0) : cached e n = found := by
  induction found generalizing n with
  | nil =>
    cases n with
    | zero => rfl
    | succ n => exact if_pos (marker (succ_pos n))
  | cons x found ih =>
    cases n with
    | zero => cases h
    | succ n =>
      obtain ⟨rfl, lower⟩ := h
      rw [cached_succ, if_neg (some_ _ mem_cons_self),
        ih lower (fun y mem => some_ y (mem_cons_of_mem _ mem)) fun more => ?_]
      have last := marker (succ_lt_succ more)
      rwa [show n - found.length - 1 = n + 1 - (found.length + 1) - 1 by omega]

theorem Fills.last (h : Fills e (n + 1) found) (full : found.length = n + 1) :
    found[n]? = some (e 0) := by
  induction n generalizing found with
  | zero =>
    cases found with
    | nil => cases full
    | cons x found =>
      exact congrArg some h.1.symm
  | succ n ih =>
    cases found with
    | nil => cases full
    | cons x found =>
      rw [getElem?_cons_succ]
      exact ih h.2 (succ.inj full)

theorem Fills.all (h : Fills e n found) (full : found.length = n) {k : Nat} (below : k < n) :
    e k ∈ found := by
  induction found generalizing n with
  | nil =>
    subst full
    cases below
  | cons x found ih =>
    cases n with
    | zero => cases h
    | succ n =>
      obtain ⟨rfl, lower⟩ := h
      by_cases top : k = n
      · exact top ▸ mem_cons_self
      · exact mem_cons_of_mem _ (ih lower (succ.inj full) (by omega))

def Inodes.keep (s : Inodes) (ino : Nat) : Inodes := if s.di_mode ino = 0 then s.put ino else s

theorem put_frame (s : Inodes) (ino : Nat) :
    (s.put ino).di_mode = s.di_mode ∧ (s.put ino).s_tinode = s.s_tinode := by
  unfold Inodes.put
  split <;> exact ⟨rfl, rfl⟩

theorem put_full (full : s.s_ninode = 0) (ino : Nat) : s.put ino = s := if_pos full

theorem keep_full (full : s.s_ninode = 0) (ino : Nat) : s.keep ino = s := by
  unfold Inodes.keep
  split
  · exact put_full full ino
  · rfl

theorem foldl_keep_full (full : s.s_ninode = 0) (numbers : List Nat) :
    numbers.foldl Inodes.keep s = s := by
  induction numbers with
  | nil => rfl
  | cons ino numbers ih => rw [foldl_cons, keep_full full, ih]

theorem foldl_keep (numbers : List Nat) (s : Inodes) : numbers.foldl Inodes.keep s =
    (numbers.filter fun ino => s.di_mode ino = 0).foldl Inodes.put s := by
  induction numbers generalizing s with
  | nil => rfl
  | cons ino numbers ih =>
    rw [foldl_cons, ih]
    unfold Inodes.keep
    by_cases free : s.di_mode ino = 0
    · rw [if_pos free, filter_cons_of_pos (by simpa using free), foldl_cons, (put_frame s ino).1]
    · rw [if_neg free, filter_cons_of_neg (by simpa using free)]

theorem scan_block_eq (adr left i : Nat) (s : Inodes) :
    s.scan_block fs adr left i (fs.dinode_number adr i) =
      (List.range' (fs.dinode_number adr i) left).foldl Inodes.keep s := by
  induction left generalizing i s with
  | zero => rfl
  | succ left ih =>
    unfold Inodes.scan_block
    by_cases full : s.s_ninode = 0
    · rw [if_pos full, foldl_keep_full full]
    · rw [if_neg full, range'_succ, foldl_cons]
      exact ih (i + 1) _

theorem next_number (inodes : 2 ≤ adr) :
    fs.dinode_number (adr + 1) 0 = fs.dinode_number adr 0 + fs.vfs_inopb := by
  unfold Ilist.dinode_number
  rw [show adr + 1 - 2 = adr - 2 + 1 by omega, succ_mul]
  omega

def readable_numbers (fs : Ilist) (faults : Faults) : Nat → Nat → List Nat
  | 0, _ => []
  | left + 1, adr =>
      (if faults.bread adr then [] else List.range' (fs.dinode_number adr 0) fs.vfs_inopb) ++
        readable_numbers fs faults left (adr + 1)

theorem scan_eq (fs : Ilist) (faults : Faults) (left : Nat) (inodes : 2 ≤ adr) (s : Inodes) :
    s.scan fs faults left adr (fs.dinode_number adr 0) =
      (readable_numbers fs faults left adr).foldl Inodes.keep s := by
  induction left generalizing adr s with
  | zero => rfl
  | succ left ih =>
    unfold Inodes.scan readable_numbers
    rw [← next_number inodes]
    by_cases bad : faults.bread adr = true
    · rw [if_pos bad, if_pos bad, nil_append, ih (le_succ_of_le inodes)]
    · rw [if_neg bad, if_neg bad, foldl_append, scan_block_eq]
      dsimp only
      split
      · next full => rw [foldl_keep_full full]
      · rw [ih (le_succ_of_le inodes)]

theorem readable_all (left : Nat) (inodes : 2 ≤ adr) (good : ∀ adr, faults.bread adr = false) :
    readable_numbers fs faults left adr =
      List.range' (fs.dinode_number adr 0) (left * fs.vfs_inopb) := by
  induction left generalizing adr with
  | zero =>
    rw [Nat.zero_mul]
    rfl
  | succ left ih =>
    unfold readable_numbers
    rw [if_neg (by simp [good]), ih (le_succ_of_le inodes), next_number inodes,
      Nat.succ_mul, Nat.add_comm (left * fs.vfs_inopb), ← range'_append_1]

theorem readable_sublist (fs : Ilist) (faults : Faults) (left : Nat) (inodes : 2 ≤ adr) :
    (readable_numbers fs faults left adr).Sublist
      (List.range' (fs.dinode_number adr 0) (left * fs.vfs_inopb)) := by
  induction left generalizing adr with
  | zero => exact nil_sublist _
  | succ left ih =>
    rw [Nat.succ_mul, Nat.add_comm (left * fs.vfs_inopb), ← range'_append_1, ← next_number inodes]
    refine Sublist.append ?_ (ih (le_succ_of_le inodes))
    split
    · exact nil_sublist _
    · exact Sublist.refl _

theorem foldl_put {s : Inodes} (fits : found.length ≤ s.s_ninode) :
    Fills (found.foldl Inodes.put s).s_inode s.s_ninode found ∧
      (found.foldl Inodes.put s).s_ninode = s.s_ninode - found.length ∧
      ∀ k, s.s_ninode ≤ k → (found.foldl Inodes.put s).s_inode k = s.s_inode k := by
  induction found generalizing s with
  | nil => exact ⟨by cases s.s_ninode <;> trivial, rfl, fun _ _ => rfl⟩
  | cons x found ih =>
    obtain ⟨n, room⟩ : ∃ n, s.s_ninode = n + 1 :=
      exists_eq_succ_of_ne_zero (by simp only [length_cons] at fits; omega)
    have one : s.put x = { s with s_ninode := n, s_inode := update s.s_inode n x } := by
      unfold Inodes.put
      rw [if_neg (by omega), room]
      rfl
    rw [room, length_cons] at fits
    have rest := ih (s := s.put x) (by rw [one]; exact le_of_succ_le_succ fits)
    rw [one] at rest
    obtain ⟨fills, left, above⟩ := rest
    rw [foldl_cons, one, room]
    refine ⟨⟨?_, fills⟩, ?_, fun k below => ?_⟩
    · rw [above n (le_refl n)]
      exact update_self n x s.s_inode
    · rw [left, length_cons]
      show n - found.length = n + 1 - (found.length + 1)
      omega
    · have differ : k ≠ n := by omega
      rw [above k (le_of_succ_le below)]
      exact update_of_ne differ x s.s_inode

theorem foldl_put_frame (found : List Nat) (s : Inodes) :
    (found.foldl Inodes.put s).di_mode = s.di_mode ∧
      (found.foldl Inodes.put s).s_tinode = s.s_tinode := by
  induction found generalizing s with
  | nil => exact ⟨rfl, rfl⟩
  | cons x found ih =>
    rw [foldl_cons, (ih _).1, (ih _).2]
    exact put_frame s x

theorem foldl_put_take (found : List Nat) (s : Inodes) :
    found.foldl Inodes.put s = (found.take s.s_ninode).foldl Inodes.put s := by
  have cut : (found.take s.s_ninode ++ found.drop s.s_ninode).foldl Inodes.put s =
      (found.take s.s_ninode).foldl Inodes.put s := by
    rw [foldl_append]
    by_cases short : found.length ≤ s.s_ninode
    · rw [drop_eq_nil_of_le short]
      rfl
    have full : ((found.take s.s_ninode).foldl Inodes.put s).s_ninode = 0 := by
      rw [(foldl_put (length_take_le _ _)).2.1, length_take]
      omega
    have none_ : ∀ (xs : List Nat) (s : Inodes), s.s_ninode = 0 → xs.foldl Inodes.put s = s := by
      intro xs
      induction xs with
      | nil => exact fun _ _ => rfl
      | cons x xs ih =>
        intro s full
        rw [foldl_cons, put_full full, ih s full]
    exact none_ _ _ full
  rwa [take_append_drop] at cut

theorem FsINOS_eq (x : Nat) : fs.FsINOS x = x / fs.vfs_inopb * fs.vfs_inopb + 1 := by
  unfold Ilist.FsINOS Ilist.vfs_inopb
  rw [shiftRight_eq_div_pow, shiftLeft_eq]

theorem inopb_pos : 0 < fs.vfs_inopb := Nat.two_pow_pos _

theorem search_begins (fs : Ilist) (x : Nat) : 2 ≤ fs.FsITOD (fs.FsINOS x) ∧
    fs.FsINOS x = fs.dinode_number (fs.FsITOD (fs.FsINOS x)) 0 := by
  have block : fs.FsITOD (fs.FsINOS x) = x / fs.vfs_inopb + 2 := by
    have positive : 0 < fs.vfs_inopb := inopb_pos
    unfold Ilist.FsITOD
    rw [shiftRight_eq_div_pow, FsINOS_eq]
    rw [show x / fs.vfs_inopb * fs.vfs_inopb + 1 + (2 * fs.vfs_inopb - 1) =
      fs.vfs_inopb * (x / fs.vfs_inopb + 2) by rw [Nat.mul_add, Nat.mul_comm]; omega]
    exact Nat.mul_div_cancel_left _ positive
  rw [block, FsINOS_eq]
  exact ⟨le_add_left 2 _, rfl⟩

def found_free (fs : Ilist) (faults : Faults) (s : Inodes) : List Nat :=
  ((readable_numbers fs faults (fs.s_isize - fs.FsITOD (fs.FsINOS (s.s_inode 0)))
    (fs.FsITOD (fs.FsINOS (s.s_inode 0)))).filter fun ino => s.di_mode ino = 0)

structure Rebuilt (fs : Ilist) (faults : Faults) (s s' : Inodes) : Prop where
  ninode : s'.s_ninode = NICINOD - (found_free fs faults s).length
  cached : cached s'.s_inode NICINOD = (found_free fs faults s).take NICINOD
  partly : (found_free fs faults s).length < NICINOD → s'.s_inode 0 = 0
  full : NICINOD ≤ (found_free fs faults s).length → ∀ k < NICINOD,
    s'.s_inode k ∈ (found_free fs faults s).take NICINOD
  last : NICINOD ≤ (found_free fs faults s).length →
    (found_free fs faults s)[NICINOD - 1]? = some (s'.s_inode 0)
  modes : s'.di_mode = s.di_mode
  tinode : s'.s_tinode = s.s_tinode

theorem rebuilt (fs : Ilist) (faults : Faults) (s : Inodes)
    (some_ : ∀ x ∈ found_free fs faults s, x ≠ 0) :
    Rebuilt fs faults s (s.rebuild fs faults) := by
  have begins := search_begins fs (s.s_inode 0)
  have scanned : ({ s with s_ninode := NICINOD } : Inodes).scan fs faults
      (fs.s_isize - fs.FsITOD (fs.FsINOS (s.s_inode 0))) (fs.FsITOD (fs.FsINOS (s.s_inode 0)))
      (fs.FsINOS (s.s_inode 0)) =
        ((found_free fs faults s).take NICINOD).foldl Inodes.put { s with s_ninode := NICINOD } := by
    have eq := scan_eq fs faults
      (fs.s_isize - fs.FsITOD (fs.FsINOS (s.s_inode 0))) begins.1 { s with s_ninode := NICINOD }
    rw [← begins.2] at eq
    rw [eq, foldl_keep, foldl_put_take]
    rfl
  have short : ((found_free fs faults s).take NICINOD).length ≤ NICINOD := length_take_le _ _
  have some_taken : ∀ x ∈ (found_free fs faults s).take NICINOD, x ≠ 0 :=
    fun x mem => some_ x (mem_of_mem_take mem)
  obtain ⟨fills, left, -⟩ := foldl_put (s := { s with s_ninode := NICINOD }) short
  obtain ⟨modes, tinode⟩ := foldl_put_frame ((found_free fs faults s).take NICINOD)
    { s with s_ninode := NICINOD }
  have length := length_take (i := NICINOD) (l := found_free fs faults s)
  unfold Inodes.rebuild
  dsimp only
  rw [scanned]
  obtain ⟨r, r_eq⟩ : ∃ r, r =
    ((found_free fs faults s).take NICINOD).foldl Inodes.put { s with s_ninode := NICINOD } :=
      ⟨_, rfl⟩
  rw [← r_eq] at fills left modes tinode ⊢
  dsimp only at fills left modes tinode
  split
  · next full =>
    have whole : ((found_free fs faults s).take NICINOD).length = NICINOD := by omega
    refine ⟨by omega, ?_, fun less => by omega, fun _ k below => ?_, fun _ => ?_, modes, tinode⟩
    · exact fills.cached some_taken fun less => by omega
    · exact fills.all whole below
    · have last := Fills.last (n := 99) fills whole
      rwa [getElem?_take_of_lt (by decide)] at last
  · next some_left =>
    refine ⟨?_, ?_, fun _ => ?_, fun more => by omega, fun more => by omega, modes, tinode⟩
    · show r.s_ninode = _
      omega
    · refine Fills.cached (fills.congr fun k below above => ?_) some_taken fun less => ?_
      · dsimp only
        rw [update_of_ne (by omega), update_of_ne (by omega)]
      · dsimp only
        rw [← left]
        by_cases zero : r.s_ninode - 1 = 0
        · rw [zero]
          exact update_self 0 0 _
        · rw [update_of_ne zero]
          exact update_self (r.s_ninode - 1) 0 r.s_inode
    · exact update_self 0 0 (update r.s_inode (r.s_ninode - 1) 0)

end S5
