import Svr4.Bfs.Layout

/- bfs_filetoend and bfs_write. -/
namespace Bfs
open ByteMoves

/-- What a write is asked for: the place, the bytes (`readable` of them can be fetched), whether it
appends, and whether a buffer wanted without sleeping finds no memory. -/
structure Uio where
  uio_offset : Nat
  bytes : List UInt8
  readable : Nat
  append : Bool
  nomem : Bool
  deriving DecidableEq, Repr

/-- The copying loop of bfs_filetoend: the new end and what is on the device then. -/
def copy_loop (d_eoffset chunksize : Nat) :
    Nat → Nat → Nat → (Nat → UInt8) → Option (Nat × (Nat → UInt8))
  | 0, _, _, _ => none
  | fuel + 1, offset1, offset2, disk =>
    let j := min (d_eoffset - offset2 + 1) chunksize
    let disk := transfer disk offset2 offset1 j
    if offset2 + j < d_eoffset then
      copy_loop d_eoffset chunksize fuel (offset1 + j) (offset2 + j) disk
    else some (offset1 + j, disk)

/-- `dir` is the caller's copy of the inode; a second call follows a compaction. -/
def bfs_filetoend (nomem : Bool) : Nat → Bsuper → Dirent → Nat → Option (Option Errno × Bsuper)
  | 0, _, _, _ => none
  | fuel + 1, bs, dir, off => do
    let bs := BFS_LOCK bs
    if 1 < bs.bsup_ioinprog then none else
    let newblock := (bfs_nextfile bs).2
    let offset1 := newblock * BFS_BSIZE
    let offset2 := dir.d_sblock * BFS_BSIZE
    let size := dir.d_eoffset - offset2
    if bs.bsup_end < offset1 + size then
      if !bs.bsup_compacted then
        let bs ← bfs_compact bs
        bfs_filetoend nomem fuel (bfs_unlock bs) dir off
      else return (some .ENOSPC, bfs_unlock bs)
    else if nomem then return (some .ENOMEM, bs)
    else
      let (offset1, disk) ← copy_loop dir.d_eoffset (min (dir.d_eoffset - offset2 + 1) MAXBSIZE)
        (size + 1) offset1 offset2 bs.disk
      let dir := { dir with
        d_eoffset := offset1 - 1, d_sblock := newblock, d_eblock := (offset1 - 1) / BFS_BSIZE }
      let bs := BFS_PUTINODE { bs with disk := disk } off dir
      return (none, bfs_unlock { bs with bsup_lastfile := some off, bsup_compacted := false })

def find_room : Nat → Bsuper → Option (Option Nat × Bsuper)
  | 0, _ => none
  | fuel + 1, bs => do
    let newblock := (bfs_nextfile bs).2
    if bs.bsup_end < newblock * BFS_BSIZE then
      if !bs.bsup_compacted then
        let bs ← bfs_compact bs
        find_room fuel bs
      else return (none, bs)
    else return (some newblock, bs)

def write_loop (v chunksize : Nat) :
    Nat → List UInt8 → Nat → Dirent → Nat → Nat → Bsuper → Option (Option Errno × Bsuper)
  | _, [], _, _, _, _, bs => some (none, bs)
  | 0, _ :: _, _, _, _, _, _ => none
  | fuel + 1, b :: bytes, readable, dir, oeblock, offset, bs =>
    let data := b :: bytes
    let buflen := min chunksize data.length
    if readable < buflen then some (some .EFAULT, bs) else
    let bs := { bs with disk := pour bs.disk offset (data.take buflen) }
    let dir := if dir.d_eoffset < offset + buflen then
      { dir with d_eoffset := dir.d_eoffset + (offset + buflen - dir.d_eoffset - 1) } else dir
    if dir.d_eblock * BFS_BSIZE ≤ dir.d_eoffset then
      let dir := { dir with d_eblock := dir.d_eoffset / BFS_BSIZE }
      let bs := { bs with bsup_freeblocks := bs.bsup_freeblocks -
        (if oeblock = 0 then (dir.d_eblock - dir.d_sblock : Int) + 1
         else if dir.d_eblock ≠ oeblock then (dir.d_eblock : Int) - oeblock else 0) }
      write_loop v chunksize fuel (data.drop buflen) (readable - buflen) dir dir.d_eblock
        (offset + buflen) (BFS_PUTINODE bs v dir)
    else
      write_loop v chunksize fuel (data.drop buflen) (readable - buflen) dir oeblock
        (offset + buflen) bs

def fill_hole (disk : Nat → UInt8) (endfile offset : Nat) : Nat → UInt8 :=
  if endfile + 1 < offset then pour disk (endfile + 1) (List.replicate (offset - endfile - 1) 0)
  else disk

/-- The file that is written and the room found for it: its inode, the old end block, the old end
and what becomes the last file. -/
structure Target where
  dir : Dirent
  oeblock : Nat
  endfile : Nat
  lastfile : Option Nat

def open_target (bs : Bsuper) (v uio_offset : Nat) : Option (Option Target × Bsuper) :=
  let dir := bs.inodes v
  if dir.d_sblock = 0 then do
    let (room, bs) ← find_room 2 bs
    return (room.map fun newblock =>
      ⟨{ dir with d_sblock := newblock, d_eblock := newblock + uio_offset / BFS_BSIZE,
                  d_eoffset := newblock * BFS_BSIZE + uio_offset - 1 },
        0, newblock * BFS_BSIZE - 1, some v⟩, bs)
  else some (some ⟨dir, dir.d_eblock, dir.d_eoffset, bs.bsup_lastfile⟩, bs)

def write_out (bs : Bsuper) (v : Nat) (uio : Uio) (t : Target) (offset : Nat) :
    Option (Option Errno × Bsuper) := do
  let bs := { bs with disk := fill_hole bs.disk t.endfile offset }
  let (error, bs) ← write_loop v (min MAXBSIZE uio.bytes.length) uio.bytes.length uio.bytes
    uio.readable t.dir t.oeblock offset bs
  return (error, if error.isSome then bs else { bs with bsup_lastfile := t.lastfile })

/-- The vnode is a regular file's, and the offset is not negative. -/
def bfs_write : Nat → Bsuper → Nat → Uio → Option (Option Errno × Bsuper)
  | 0, _, _, _ => none
  | fuel + 1, bs, v, uio => do
    if uio.bytes = [] then return (none, bs) else
    let bs ← CHECK_LOCK (BFS_IOBEGIN bs)
    let bs ← BFS_INOLOCK bs v
    if (bs.inodes v).d_ino = 0 then return (some .EINVAL, BFS_IOEND (BFS_INOUNLOCK bs v)) else
    let (target, bs) ← open_target bs v uio.uio_offset
    match target with
    | none => return (some .ENOSPC, BFS_IOEND (BFS_INOUNLOCK bs v))
    | some t =>
      let dir := t.dir
      let offset := if uio.append then dir.d_eoffset + 1
        else dir.d_sblock * BFS_BSIZE + uio.uio_offset
      if dir.d_eoffset < offset + uio.bytes.length ∧ t.lastfile ≠ some v then
        let (error, bs) ← bfs_filetoend uio.nomem 2 (BFS_INOUNLOCK bs v) dir v
        if error.isSome then return (error, BFS_IOEND bs)
        else bfs_write fuel (BFS_IOEND bs) v uio
      else if bs.bsup_end < offset + uio.bytes.length then
        let bs := BFS_INOUNLOCK bs v
        if !bs.bsup_compacted then
          let bs ← bfs_compact bs
          bfs_write fuel (BFS_IOEND bs) v uio
        else return (some .ENOSPC, BFS_IOEND bs)
      else
        let (error, bs) ← write_out bs v uio t offset
        return (error, BFS_IOEND (BFS_INOUNLOCK bs v))

end Bfs

/- The vnode operations that change the inode table or the directory. -/
namespace Bfs

def small_behind (ldir : Dirent) (eblock : Nat) : Bool :=
  ldir.d_sblock == eblock + 1 && decide (ldir.d_eblock - ldir.d_sblock < SMALLFILE)

/-- The end of bfs_truncate when nothing is left of the file: a new last file, or a gap. -/
def truncate_gap (bs : Bsuper) (k oeblock : Nat) : Option Bsuper :=
  if bs.bsup_lastfile = some k then some { bs with bsup_lastfile := lastfile_but bs k }
  else if BIGFILE < oeblock then do  -- d_sblock is 0 by now
    let l ← bs.bsup_lastfile
    if small_behind (bs.inodes l) oeblock then bfs_compact bs
    else return { bs with bsup_compacted := false }
  else some { bs with bsup_compacted := false }

def bfs_truncate (bs : Bsuper) (k length : Nat) : Option (Option Errno × Bsuper) := do
  let bs ← BFS_INOLOCK (BFS_IOBEGIN bs) k
  let dir := bs.inodes k
  let done := fun bs : Bsuper => BFS_INOUNLOCK (BFS_IOEND bs) k
  if dir.d_sblock = 0 then
    return (if length = 0 then none else some .EINVAL, done bs)
  else if dir.d_eoffset + 1 - dir.d_sblock * BFS_BSIZE = length then return (none, done bs)
  else if dir.d_eoffset + 1 - dir.d_sblock * BFS_BSIZE < length then
    return (some .EINVAL, done bs)
  else
    let oeblock := dir.d_eblock
    let d_eoffset := dir.d_sblock * BFS_BSIZE + length - 1
    let d_eblock := d_eoffset / BFS_BSIZE
    let freed : Int := (if d_eblock < oeblock then (oeblock : Int) - d_eblock else 0) +
      (if oeblock = dir.d_sblock ∧ length = 0 then 1 else 0)
    let bs := { bs with bsup_freeblocks := bs.bsup_freeblocks + freed }
    if d_eoffset = dir.d_sblock * BFS_BSIZE - 1 then
      let bs ← truncate_gap
        (BFS_PUTINODE bs k { dir with d_sblock := 0, d_eblock := 0, d_eoffset := 0 }) k oeblock
      return (none, done bs)
    else
      return (none, done
        (BFS_PUTINODE bs k { dir with d_eoffset := d_eoffset, d_eblock := d_eblock }))

/-- What bfs_setattr is asked for: an attribute that cannot be set, what the checks of mode and
owner, of the size and of the times come to, and the new size. The attributes themselves are left
out. -/
structure Vattr where
  noset : Bool
  early : Option Errno
  va_size : Option Nat
  deny : Option Errno
  late : Option Errno
  deriving DecidableEq, Repr

def setattr_free (bs : Bsuper) (k : Nat) (dir : Dirent) : Bsuper :=
  let bs := { bs with bsup_freeblocks :=
    bs.bsup_freeblocks + ((dir.d_eblock : Int) - dir.d_sblock + 1) }
  if bs.bsup_lastfile = some k then { bs with bsup_lastfile := lastfile_but bs k } else bs

def bfs_setattr (bs : Bsuper) (k : Nat) (vap : Vattr) : Option (Option Errno × Bsuper) := do
  let bs ← CHECK_LOCK (BFS_IOBEGIN bs)
  let bs ← BFS_INOLOCK bs k
  let dir := bs.inodes k
  let out := fun (error : Option Errno) (bs : Bsuper) (dir : Dirent) =>
    (error, BFS_INOUNLOCK (BFS_IOEND (BFS_PUTINODE bs k dir)) k)
  if vap.noset then return (some .EINVAL, BFS_INOUNLOCK (BFS_IOEND bs) k)
  else if vap.early.isSome then return out vap.early bs dir
  else match vap.va_size with
  | none => return out vap.late bs dir
  | some size =>
    if size ≠ 0 then return out (some .EINVAL) bs dir
    else if k = root then return out (some .EISDIR) bs dir
    else
      let (error, bs) ← bfs_iaccess vap.deny bs
      if error.isSome then return out error bs dir
      else
        let dir' := { dir with d_sblock := 0, d_eblock := 0, d_eoffset := 0 }
        return out vap.late (setattr_free bs k dir) dir'

/-- The slot `nm` names; "" and ".." are the root. -/
def bfs_lookup (deny : Option Errno) (bs : Bsuper) (nm : List Char) :
    Option (Except Errno Nat × Bsuper) := do
  let (error, bs) ← bfs_iaccess deny bs
  match error with
  | some e => return (.error e, bs)
  | none =>
    if nm = [] ∨ nm = ['.', '.'] then return (.ok root, bs) else
    let (found, bs) ← bfs_searchdir bs nm
    match found with
    | none => return (.error .ENOENT, bs)
    | some k => return (.ok k, bs)

/-- The end of bfs_remove for a file without links: the summary, and maybe a compaction. -/
def remove_space (bs : Bsuper) (k : Nat) (dir : Dirent) : Option Bsuper := do
  let bs := { bs with
    bsup_freeblocks := bs.bsup_freeblocks +
      (if dir.d_eblock ≠ 0 then (dir.d_eblock + 1 : Int) - dir.d_sblock else 0),
    bsup_freedrents := bs.bsup_freedrents + 1 }
  if bs.bsup_lastfile = some k then
    return BFS_IOEND { bs with bsup_lastfile := lastfile_but bs k }
  else
    let bs := BFS_IOEND { bs with bsup_compacted := false }
    if BIGFILE < dir.d_eblock - dir.d_sblock then
      let l ← bs.bsup_lastfile
      if small_behind (bs.inodes l) dir.d_eblock then bfs_compact bs else return bs
    else return bs

def bfs_remove (bs : Bsuper) (nm : List Char) (deny : Option Errno) :
    Option (Option Errno × Bsuper) := do
  let (error, bs) ← bfs_iaccess deny bs
  if error.isSome then return (error, bs) else
  let (rvp, bs) ← bfs_lookup none bs nm
  match rvp with
  | .error e => return (some e, bs)
  | .ok k =>
    if k = root then return (some .EISDIR, bs) else
    let bs ← CHECK_LOCK (BFS_IOBEGIN bs)
    let bs ← BFS_INOLOCK bs k
    let dir := bs.inodes k
    let (error, bs) ← bfs_rmdirent bs nm
    if error.isSome then return (error, BFS_INOUNLOCK (BFS_IOEND bs) k) else
    let dir := { dir with
      d_ino := if dir.va_nlink = 1 then 0 else dir.d_ino,
      va_nlink := if dir.va_nlink = 0 then 2 ^ 32 - 1 else dir.va_nlink - 1 }
    let bs := BFS_PUTINODE bs k dir
    if 1 ≤ dir.va_nlink then return (none, BFS_INOUNLOCK (BFS_IOEND bs) k) else
    let bs ← remove_space bs k dir
    return (none, BFS_INOUNLOCK bs k)

/-- `denyw` and `denyx` are what the checks for writing and for searching come to. -/
def bfs_rename (bs : Bsuper) (snm tnm : List Char) (denyw denyx : Option Errno) :
    Option (Option Errno × Bsuper) := do
  let (error, bs) ← bfs_iaccess denyw bs
  if error.isSome then return (error, bs) else
  if snm = ['.'] ∨ snm = ['.', '.'] then return (some .EINVAL, bs) else
  let (vp, bs) ← bfs_lookup denyx bs snm
  match vp with
  | .error e => return (some e, bs)
  | .ok _ =>
    let (target, bs) ← bfs_searchdir bs tnm
    let (error, bs) ← if target.isSome then bfs_remove bs tnm none else some (none, bs)
    if error.isSome then return (error, bs) else bfs_rendirent bs snm tnm

/-- `svp` is a regular file's vnode. -/
def bfs_link (bs : Bsuper) (svp : Nat) (tnm : List Char) : Option (Option Errno × Bsuper) := do
  let (error, bs) ← bfs_addirent bs tnm (svp + BFSROOTINO)
  if error.isSome then return (error, bs) else
  let bs ← CHECK_LOCK (BFS_IOBEGIN bs)
  let bs ← BFS_INOLOCK bs svp
  let dir := bs.inodes svp
  let bs := BFS_PUTINODE bs svp { dir with va_nlink := dir.va_nlink + 1 }
  return (none, BFS_INOUNLOCK (BFS_IOEND bs) svp)

/-- What bfs_create is asked for. Without a mode the code returns a value it never set. -/
structure Creat where
  excl : Bool
  mode : Bool
  trunc : Bool
  deny : Option Errno
  denyw : Option Errno
  unset : Option Errno
  deriving DecidableEq, Repr

def create_existing (bs : Bsuper) (k : Nat) (vap : Creat) : Option (Option Errno × Bsuper) := do
  if vap.excl then return (some .EEXIST, bs) else
  if !vap.mode then return (vap.unset, bs) else
  let (error, bs) ← bfs_iaccess vap.deny bs
  if error.isSome then return (error, bs) else
  if vap.trunc then
    let (_, bs) ← bfs_truncate bs k 0
    return (none, bs)
  else return (none, bs)

/-- bfs_create on a new name. Without a free slot it would write over the super block. -/
def create_new (bs : Bsuper) (fname : List Char) (vap : Creat) :
    Option (Option Errno × Bsuper) := do
  if bs.bsup_freedrents ≤ 0 then return (some .ENFILE, bs) else
  let (error, bs) ← bfs_iaccess vap.denyw bs
  if error.isSome then return (error, bs) else
  let bs ← CHECK_LOCK (BFS_IOBEGIN bs)
  let k ← (bfs_nextfile bs).1
  let bs ← BFS_INOLOCK bs k
  let bs := BFS_IOEND (BFS_PUTINODE bs k ⟨k + BFSROOTINO, 0, 0, 0, 1⟩)
  let (error, bs) ← bfs_addirent bs fname (k + BFSROOTINO)
  if error.isSome then return (error, BFS_INOUNLOCK bs k) else
  return (none, BFS_INOUNLOCK { bs with bsup_freedrents := bs.bsup_freedrents - 1 } k)

/-- The parent is the root, and a regular file is wanted. -/
def bfs_create (bs : Bsuper) (fname : List Char) (vap : Creat) :
    Option (Option Errno × Bsuper) := do
  let (dir_off, bs) ← bfs_searchdir bs fname
  if bs.bsup_writelock.isSome ∧ dir_off ≠ bs.bsup_writelock then return (some .EBUSY, bs) else
  match dir_off with
  | some k => create_existing bs k vap
  | none => create_new bs fname vap

def bfs_open (bs : Bsuper) (v : Nat) (fwrite : Bool) : Option Errno × Bsuper :=
  if bs.bsup_fslocked then (some .EBUSY, bs)
  else if fwrite then
    if bs.bsup_writelock.isSome ∧ bs.bsup_writelock ≠ some v then (some .EBUSY, bs)
    else (none, { bs with bsup_writelock := some v })
  else (none, bs)

def bfs_close (bs : Bsuper) (count : Nat) (fwrite : Bool) : Bsuper :=
  if count = 1 ∧ fwrite then { bs with bsup_writelock := none } else bs

end Bfs
