import Svr4.ByteMoves

/- The boot file system (fs/bfs): one inode table, one directory, every file on consecutive
   blocks. An inode is named by its slot in the table: slot `k` lies at
   BFS_DIRSTART + 64 * k and has number k + BFSROOTINO. `none` as a result is a sleep that
   nothing ends, or an access through a pointer that is not one. -/
namespace Bfs

def BFS_BSIZE : Nat := 512
def BFS_DIRSTART : Nat := 512
def DIRENT_SIZE : Nat := 64
def LDIRS_SIZE : Nat := 16
def BFS_MAXFNLEN : Nat := 14
def BFSROOTINO : Nat := 2
def MAXBSIZE : Nat := 8192
def BFSBUFSIZE : Nat := 8192
def BIGFILE : Nat := 500
def SMALLFILE : Nat := 10

inductive Errno
  | ENOENT | EEXIST | ENFILE | EINVAL | EISDIR | EBUSY | ENOSPC | ENOMEM | EFAULT | EACCES
  | EPERM | EROFS
  deriving DecidableEq, Repr

/-- An inode; of its attributes the link count. -/
structure Dirent where
  d_ino : Nat
  d_sblock : Nat
  d_eblock : Nat
  d_eoffset : Nat
  va_nlink : Nat
  deriving DecidableEq, Repr

structure Ldirs where
  l_ino : Nat
  l_name : List Char
  deriving DecidableEq, Repr

/-- What is on the device: the bounds of the data, the inode table, the entries of the root file,
and the data bytes. -/
structure Image where
  bsup_start : Nat
  bsup_end : Nat
  inodes : Nat → Dirent
  names : List Ldirs
  disk : Nat → UInt8

/-- The mounted file system: `bsup_lastfile` is none for offset 0, `bsup_inomap` has the locked
inodes. -/
structure Bsuper extends Image where
  bsup_freeblocks : Int
  bsup_freedrents : Int
  bsup_lastfile : Option Nat
  bsup_compacted : Bool
  bsup_fslocked : Bool
  bsup_ioinprog : Nat
  bsup_inomap : Nat → Bool
  bsup_writelock : Option Nat

def root : Nat := 0

/-- The slots the loops over the inode table run through. -/
def Image.slots (im : Image) : Nat :=
  (im.bsup_start - BFS_DIRSTART + (DIRENT_SIZE - 1)) / DIRENT_SIZE

section Macros
variable (bs : Bsuper)

def CHECK_LOCK : Option Bsuper := if bs.bsup_fslocked then none else some bs

def BFS_LOCK : Bsuper := { bs with bsup_fslocked := true }

def bfs_unlock : Bsuper := { bs with bsup_fslocked := false }

def BFS_IOBEGIN : Bsuper := { bs with bsup_ioinprog := bs.bsup_ioinprog + 1 }

def BFS_IOEND : Bsuper := { bs with bsup_ioinprog := bs.bsup_ioinprog - 1 }

def BFS_INOLOCK (k : Nat) : Option Bsuper :=
  if bs.bsup_inomap k then none
  else some { bs with bsup_inomap := Function.update bs.bsup_inomap k true }

def BFS_INOUNLOCK (k : Nat) : Bsuper :=
  { bs with bsup_inomap := Function.update bs.bsup_inomap k false }

def BFS_PUTINODE (k : Nat) (dir : Dirent) : Bsuper :=
  { bs with inodes := Function.update bs.inodes k dir }

end Macros

/- The directory. -/

def strncmp_eq (a b : List Char) : Bool := a.take BFS_MAXFNLEN == b.take BFS_MAXFNLEN

/-- The number and the place of the entry `nm`, else 0 and the first free place. -/
def search (names : List Ldirs) (nm : List Char) : Nat × Option Nat :=
  match names.findIdx? (fun ld => ld.l_ino != 0 && strncmp_eq ld.l_name nm) with
  | some i => ((names.getD i ⟨0, []⟩).l_ino, some i)
  | none => (0, names.findIdx? fun ld => ld.l_ino == 0)

def bfs_dotsearch (bs : Bsuper) (nm : List Char) : Option ((Nat × Option Nat) × Bsuper) := do
  let bs ← CHECK_LOCK (BFS_IOBEGIN bs)
  let bs ← BFS_INOLOCK bs root
  return (search bs.names nm, BFS_IOEND (BFS_INOUNLOCK bs root))

def bfs_searchdir (bs : Bsuper) (nm : List Char) : Option (Option Nat × Bsuper) := do
  let ((ino, _), bs) ← bfs_dotsearch bs nm
  return (if 0 < ino then some (ino - BFSROOTINO) else none, bs)

def bfs_rmdirent (bs : Bsuper) (nm : List Char) : Option (Option Errno × Bsuper) := do
  let ((ino, offset), bs) ← bfs_dotsearch bs nm
  let bs ← CHECK_LOCK (BFS_IOBEGIN bs)
  let bs ← BFS_INOLOCK bs root
  let (error, bs) := match offset with
    | some i => if 0 < ino
        then (none, { bs with names := bs.names.set i { bs.names.getD i ⟨0, []⟩ with l_ino := 0 } })
        else (some .ENOENT, bs)
    | none => (some .ENOENT, bs)
  return (error, BFS_IOEND (BFS_INOUNLOCK bs root))

def bfs_addirent (bs : Bsuper) (nm : List Char) (inode : Nat) :
    Option (Option Errno × Bsuper) := do
  let ((ino, offset), bs) ← bfs_dotsearch bs nm
  if 0 < ino then return (some .EEXIST, bs) else
  let bs ← CHECK_LOCK (BFS_IOBEGIN bs)
  let bs ← BFS_INOLOCK bs root
  let dir := bs.inodes root
  let ld : Ldirs := ⟨inode, nm.take BFS_MAXFNLEN⟩
  let (error, bs) := match offset with
    | some i => (none, { bs with names := bs.names.set i ld })
    | none =>
      if dir.d_eoffset + LDIRS_SIZE < (dir.d_eblock + 1) * BFS_BSIZE then
        (none, { BFS_PUTINODE bs root { dir with d_eoffset := dir.d_eoffset + LDIRS_SIZE } with
          names := bs.names ++ [ld] })
      else (some .ENFILE, bs)
  return (error, BFS_IOEND (BFS_INOUNLOCK bs root))

def bfs_rendirent (bs : Bsuper) (snm tnm : List Char) : Option (Option Errno × Bsuper) := do
  let ((ino, offset), bs) ← bfs_dotsearch bs snm
  let bs ← CHECK_LOCK (BFS_IOBEGIN bs)
  let bs ← BFS_INOLOCK bs root
  let (error, bs) := match offset with
    | some i => if 0 < ino
        then (none, { bs with names := bs.names.set i ⟨ino, tnm.take BFS_MAXFNLEN⟩ })
        else (some .ENOENT, bs)
    | none => (some .ENOENT, bs)
  return (error, BFS_IOEND (BFS_INOUNLOCK bs root))

/-- The permission check: `deny` is what the credentials come to. -/
def bfs_iaccess (deny : Option Errno) (bs : Bsuper) : Option (Option Errno × Bsuper) := do
  let bs ← CHECK_LOCK (BFS_IOBEGIN bs)
  return (deny, BFS_IOEND bs)

/- The inode table. -/

/-- A free slot, and the block behind the last file. -/
def bfs_nextfile (bs : Bsuper) : Option Nat × Nat :=
  ((List.range bs.slots).find? fun i => (bs.inodes i).d_ino == 0,
    match bs.bsup_lastfile with
    | some l => (bs.inodes l).d_eblock + 1
    | none => bs.bsup_start / BFS_BSIZE + 1)

/-- The loop that looks for the file with the last block, leaving out `skip`. -/
def last_scan (inodes : Nat → Dirent) (skip : Option Nat) :
    List Nat → Nat → Option Nat → Option Nat
  | [], _, lastoff => lastoff
  | i :: is, lastblock, lastoff =>
    let dir := inodes i
    if some i ≠ skip ∧ lastblock < dir.d_eblock ∧ dir.d_ino ≠ 0 then
      last_scan inodes skip is dir.d_eblock (some i)
    else last_scan inodes skip is lastblock lastoff

def lastfile_but (bs : Bsuper) (k : Nat) : Option Nat :=
  last_scan bs.inodes (some k) (List.range bs.slots) 0 none

structure Tally where
  freeblocks : Int
  freedrents : Int
  deriving DecidableEq, Repr

def mount_scan (inodes : Nat → Dirent) : List Nat → Tally → Tally
  | [], t => t
  | i :: is, t =>
    let dir := inodes i
    mount_scan inodes is (if dir.d_ino = 0 then { t with freedrents := t.freedrents + 1 }
      else if dir.d_eblock ≠ 0 then
        { t with freeblocks := t.freeblocks - ((dir.d_eblock + 1 : Int) - dir.d_sblock) }
      else t)

def bfs_mount (im : Image) : Bsuper where
  toImage := im
  bsup_freeblocks := (mount_scan im.inodes (List.range im.slots)
    ⟨((im.bsup_end + 1 - im.bsup_start) / BFS_BSIZE : Nat), 0⟩).freeblocks
  bsup_freedrents := (mount_scan im.inodes (List.range im.slots)
    ⟨((im.bsup_end + 1 - im.bsup_start) / BFS_BSIZE : Nat), 0⟩).freedrents
  bsup_lastfile := last_scan im.inodes none (List.range im.slots) 0 none
  bsup_compacted := false
  bsup_fslocked := false
  bsup_ioinprog := 0
  bsup_inomap := fun _ => false
  bsup_writelock := none

end Bfs
