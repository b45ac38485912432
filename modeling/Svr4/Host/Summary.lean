import Mathlib.Algebra.BigOperators.Group.List.Basic
import Mathlib.Data.List.Range

/- host_tools/fs/ufs.py: cylinder groups, their bitmaps and what is counted from them. -/
namespace UfsGroups

/-- ufs_lowlevel.py -/
def MAXFRAG : Nat := 8
def MAXCPG : Nat := 32
def NRPOS : Nat := 8
def UFS_CSUM_SIZE : Nat := 16

structure Geometry where
  ncg : Nat
  ipg : Nat
  frag : Nat
  spc : Nat
  nsect : Nat
  nspf : Nat
  csaddr : Nat
  cssize : Nat

structure Counts where
  ndir : Int
  nbfree : Int
  nifree : Int
  nffree : Int
  deriving DecidableEq

instance : Add Counts where
  add a b := ⟨a.ndir + b.ndir, a.nbfree + b.nbfree, a.nifree + b.nifree, a.nffree + b.nffree⟩

instance : Sub Counts where
  sub a b := ⟨a.ndir - b.ndir, a.nbfree - b.nbfree, a.nifree - b.nifree, a.nffree - b.nffree⟩

def Counts.zero : Counts := ⟨0, 0, 0, 0⟩

structure Tables where
  frsum : List Nat
  btot : List Nat
  bpos : List Nat
  deriving DecidableEq

/-- A group whose header has the right magic. -/
structure Group where
  ndblk : Nat
  free : Nat → Bool
  used : Nat → Bool
  counts : Counts
  tables : Tables

variable (fs : Geometry)

/-- `ufs_csum_offset` is not None -/
def csum_present (cg : Nat) : Bool := 0 < fs.csaddr ∧ (cg + 1) * UFS_CSUM_SIZE ≤ fs.cssize

def cbtocylno (frag_base : Nat) : Nat :=
  if fs.spc = 0 ∨ fs.nspf = 0 then 0 else frag_base * fs.nspf / fs.spc

def cbtorpos (frag_base : Nat) : Nat :=
  if fs.spc = 0 ∨ fs.nsect = 0 ∨ fs.nspf = 0 then 0
  else (frag_base * fs.nspf) % fs.spc % fs.nsect * NRPOS / fs.nsect

/-- How many fragments of a run from `base` on are free. -/
def free_count (free : Nat → Bool) (base n : Nat) : Nat :=
  (List.range n).countP fun k => free (base + k)

def partial_fragment_contribution (free_fragments : Nat) : Int :=
  if free_fragments = 0 ∨ fs.frag ≤ free_fragments then 0 else free_fragments

def bump (xs : List Nat) (index : Nat) : List Nat := xs.modify index (· + 1)

/-- The runs of free fragments in `free_flags`, with `run_length` before them. -/
def account_fragment_run : List Bool → Nat → List Nat → List Nat
  | [], run_length, frsum =>
      if 0 < run_length ∧ run_length < frsum.length then bump frsum run_length else frsum
  | true :: rest, run_length, frsum => account_fragment_run rest (run_length + 1) frsum
  | false :: rest, run_length, frsum =>
      account_fragment_run rest 0
        (if 0 < run_length ∧ run_length < frsum.length then bump frsum run_length else frsum)

structure Scan where
  nbfree : Nat
  nffree : Nat
  tables : Tables
  deriving DecidableEq

def Scan.start : Scan :=
  ⟨0, 0, ⟨List.replicate MAXFRAG 0, List.replicate MAXCPG 0, List.replicate (MAXCPG * NRPOS) 0⟩⟩

def flags (free : Nat → Bool) (base n : Nat) : List Bool :=
  (List.range n).map fun k => free (base + k)

def scan_block (free : Nat → Bool) (s : Scan) (block : Nat) : Scan :=
  let frag_base := block * fs.frag
  let free_fragments := free_count free frag_base fs.frag
  if free_fragments = fs.frag then
    let cyl := cbtocylno fs frag_base
    let pos := cbtorpos fs frag_base
    if cyl < MAXCPG ∧ pos < NRPOS then
      { s with
        nbfree := s.nbfree + 1
        tables.btot := bump s.tables.btot cyl
        tables.bpos := bump s.tables.bpos (cyl * NRPOS + pos) }
    else { s with nbfree := s.nbfree + 1 }
  else if 0 < free_fragments then
    { s with
      nffree := s.nffree + free_fragments
      tables.frsum := account_fragment_run (flags free frag_base fs.frag) 0 s.tables.frsum }
  else s

/-- The part of `expected_ufs_cg_header` that is computed from the bitmap of the fragments. -/
def scan (g : Group) : Scan :=
  let s := (List.range (g.ndblk / fs.frag)).foldl (scan_block fs g.free) Scan.start
  let frag_base := g.ndblk / fs.frag * fs.frag
  let trailing_free := free_count g.free frag_base (g.ndblk - frag_base)
  if 0 < trailing_free then
    { s with
      nffree := s.nffree + trailing_free
      tables.frsum :=
        account_fragment_run (flags g.free frag_base (g.ndblk - frag_base)) 0 s.tables.frsum }
  else s

def counted_inode (g : Group) (cg i : Nat) : Bool := !(decide (cg = 0) && decide (i < 2)) && g.used i

/-- `expected_ufs_cg_header`; `directory` is the type in the inodes of the image. -/
def expected_counts (directory : Nat → Bool) (cg : Nat) (g : Group)
    (trust_current_inode_counts : Bool) : Counts :=
  let s := scan fs g
  if trust_current_inode_counts then ⟨g.counts.ndir, s.nbfree, g.counts.nifree, s.nffree⟩
  else
    ⟨(List.range fs.ipg).countP fun i => counted_inode g cg i && directory (cg * fs.ipg + i),
      s.nbfree,
      fs.ipg - (if cg = 0 then 2 else 0) - ((List.range fs.ipg).countP (counted_inode g cg)),
      s.nffree⟩

namespace Group
variable (g : Group)

def set_frags (start n : Nat) (free : Bool) : Nat → Bool :=
  fun f => if start ≤ f ∧ f < start + n then free else g.free f

def allocate_inode (i : Nat) (directory : Bool) : Group :=
  { g with
    used := Function.update g.used i true
    counts := g.counts + ⟨if directory then 1 else 0, 0, -1, 0⟩ }

def free_inode (i : Nat) (directory : Bool) : Group :=
  if g.used i then
    { g with
      used := Function.update g.used i false
      counts := g.counts + ⟨if directory then -1 else 0, 0, 1, 0⟩ }
  else g

/-- `allocate_ufs_block` of a block that is free as a whole -/
def allocate_block (frag_index : Nat) : Group :=
  { g with
    free := g.set_frags frag_index fs.frag false
    counts := g.counts + ⟨0, -1, 0, 0⟩ }

/-- `allocate_ufs_fragments` at the start of such a block -/
def allocate_fragments (frag_index frags_needed : Nat) : Group :=
  { g with
    free := g.set_frags frag_index frags_needed false
    counts := g.counts + ⟨0, -1, 0, partial_fragment_contribution fs (fs.frag - frags_needed)⟩ }

def free_block (frag_index : Nat) : Group :=
  let free_before := free_count g.free frag_index fs.frag
  if free_before = fs.frag then g
  else
    { g with
      free := g.set_frags frag_index fs.frag true
      counts := g.counts + ⟨0, 1, 0, -partial_fragment_contribution fs free_before⟩ }

/-- `free_ufs_allocation` of less than a block -/
def free_allocation (frag_index frags_to_free : Nat) : Group :=
  let block_base := frag_index - frag_index % fs.frag
  let free_before := free_count g.free block_base fs.frag
  let free := g.set_frags frag_index frags_to_free true
  let free_after := free_count free block_base fs.frag
  { g with
    free := free
    counts := g.counts +
      ⟨0, if free_after = fs.frag ∧ free_before ≠ fs.frag then 1 else 0, 0,
        partial_fragment_contribution fs free_after -
          partial_fragment_contribution fs free_before⟩ }

end Group
end UfsGroups

/- host_tools/fs/ufs_fuse.py: the flag that makes an unmount rebuild the summary tables. -/
namespace UfsGroups

structure Image where
  groups : Nat → Group
  /-- the inodes whose type is a directory -/
  directory : Nat → Bool
  fs_cs : Nat → Counts
  totals : Counts

/-- What the allocator does in one step, with the place that it finds. -/
inductive Prim
  | allocate_inode (cg i : Nat) (directory : Bool)
  | free_inode (cg i : Nat)
  | allocate_block (cg frag_index : Nat)
  | allocate_fragments (cg frag_index frags_needed : Nat)
  | free_block (cg frag_index : Nat)
  | free_allocation (cg frag_index frags_to_free : Nat)

variable (fs : Geometry)

/-- The inodes 0 and 1 are in no allocation. -/
def reserved (cg i : Nat) : Bool := decide (cg = 0) && decide (i < 2)

namespace Image
variable (image : Image)

/-- The superblock is adjusted by as much as the group. -/
def change_group (cg : Nat) (g : Group) : Image :=
  { image with
    groups := Function.update image.groups cg g
    totals := image.totals + (g.counts - (image.groups cg).counts) }

def prim : Prim → Image
  | .allocate_inode cg i directory =>
      if cg < fs.ncg ∧ i < fs.ipg ∧ reserved cg i = false ∧ (image.groups cg).used i = false then
        { image.change_group cg ((image.groups cg).allocate_inode i directory) with
          directory := Function.update image.directory (cg * fs.ipg + i) directory }
      else image
  | .free_inode cg i =>
      if cg < fs.ncg ∧ i < fs.ipg ∧ reserved cg i = false then
        { image.change_group cg
            ((image.groups cg).free_inode i (image.directory (cg * fs.ipg + i))) with
          directory := Function.update image.directory (cg * fs.ipg + i) false }
      else image
  | .allocate_block cg f => image.change_group cg ((image.groups cg).allocate_block fs f)
  | .allocate_fragments cg f n => image.change_group cg ((image.groups cg).allocate_fragments fs f n)
  | .free_block cg f => image.change_group cg ((image.groups cg).free_block fs f)
  | .free_allocation cg f n => image.change_group cg ((image.groups cg).free_allocation fs f n)

def prims (work : List Prim) : Image := work.foldl (fun image p => image.prim fs p) image

def write_ufs_summary_counts (trust_current_inode_counts : Bool) : Image :=
  let counts := fun cg =>
    expected_counts fs image.directory cg (image.groups cg) trust_current_inode_counts
  { image with
    groups := fun cg =>
      if cg < fs.ncg then
        { image.groups cg with
          counts := counts cg
          tables := (scan fs (image.groups cg)).tables }
      else image.groups cg
    fs_cs := fun cg =>
      if cg < fs.ncg ∧ csum_present fs cg then counts cg else image.fs_cs cg
    totals := ((List.range fs.ncg).map counts).foldl (· + ·) Counts.zero }

end Image

/-- The part of a mount that decides whether the tables are rebuilt. -/
structure Mount where
  image : Image
  summary_dirty : Bool
  pending_deletions : List Nat

/-- The calls, with the allocator's work in them and whether they end without an error. -/
inductive Call
  | create (inode : Nat) (work : List Prim) (completes : Bool)
  | mknod (inode : Nat) (work : List Prim) (completes : Bool)
  | mkdir (inode : Nat) (work : List Prim) (completes : Bool)
  | symlink (inode : Nat) (work : List Prim) (completes : Bool)
  | unlink (inode : Nat) (held : Bool) (work : List Prim) (completes : Bool)
  | rmdir (inode : Nat) (held : Bool) (work : List Prim) (completes : Bool)
  | rename (overwritten_inode : Option Nat) (work : List Prim) (completes : Bool)
  | link (work : List Prim) (completes : Bool)
  | write (work : List Prim) (completes : Bool)
  | setattr (resizes : Bool) (work : List Prim) (completes : Bool)
  | forget (inode : Nat) (last : Bool) (work : List Prim)
  | release (inode : Nat) (last : Bool) (work : List Prim)
  /-- lookup, getattr, readlink, opendir, readdir, open, read, flush, fsync and the like -/
  | other

namespace Mount
variable (m : Mount)

/-- `reconcile_on_mount` -/
def reconcile_on_mount (image : Image) : Mount :=
  ⟨image.write_ufs_summary_counts fs false, false, []⟩

def mark_summary_dirty : Mount := { m with summary_dirty := true }

/-- `finalize_summary`, with `refresh_ufs_summary_layout` -/
def finalize_summary : Mount :=
  if m.summary_dirty then
    { m with image := m.image.write_ufs_summary_counts fs true, summary_dirty := false }
  else m

def work (ps : List Prim) : Mount := { m with image := m.image.prims fs ps }

/-- A new inode; `_inode_from_creation_result` drops what was left of an old one. -/
def make (inode : Nat) (ps : List Prim) (completes : Bool) : Mount :=
  let m := m.work fs ps
  if completes then
    { m.mark_summary_dirty with pending_deletions := m.pending_deletions.filter (· ≠ inode) }
  else m

/-- The end of `unlink` and `rmdir`: a held inode is left to `forget` or `release`. -/
def remove (inode : Nat) (held : Bool) (ps : List Prim) (completes : Bool) : Mount :=
  let m := m.work fs ps
  if completes then
    if held then { m.mark_summary_dirty with pending_deletions := inode :: m.pending_deletions }
    else m.mark_summary_dirty
  else m

def maybe_finalize_pending_inode (inode : Nat) (last : Bool) (ps : List Prim) : Mount :=
  if inode ∈ m.pending_deletions ∧ last then
    { m.work fs ps with pending_deletions := m.pending_deletions.filter (· ≠ inode) }
  else m

def call : Call → Mount
  | .create inode ps completes | .mknod inode ps completes | .mkdir inode ps completes
  | .symlink inode ps completes =>
    m.make fs inode ps completes
  | .unlink inode held ps completes | .rmdir inode held ps completes =>
    m.remove fs inode held ps completes
  | .rename overwritten ps completes =>
      let m := m.work fs ps
      if completes then
        { m.mark_summary_dirty with
          pending_deletions := m.pending_deletions.filter fun i => some i ≠ overwritten }
      else m
  | .link ps _ => m.work fs ps
  | .write ps completes =>
      let m := m.work fs ps
      if completes then m.mark_summary_dirty else m
  | .setattr resizes ps completes =>
      if resizes then
        let m := m.work fs ps
        if completes then m.mark_summary_dirty else m
      else m
  | .forget inode last ps | .release inode last ps =>
    m.maybe_finalize_pending_inode fs inode last ps
  | .other => m

def run (calls : List Call) : Mount := calls.foldl (fun m c => m.call fs c) m

end Mount

/-- `analyze_ufs_filesystem` finds no summary that differs from the bitmaps. -/
structure Agrees (image : Image) : Prop where
  header : ∀ cg < fs.ncg, (image.groups cg).counts =
    expected_counts fs image.directory cg (image.groups cg) false
  tables : ∀ cg < fs.ncg, (image.groups cg).tables = (scan fs (image.groups cg)).tables
  cached : ∀ cg < fs.ncg, csum_present fs cg = true →
    image.fs_cs cg = expected_counts fs image.directory cg (image.groups cg) false
  totals : image.totals = ((List.range fs.ncg).map fun cg =>
    expected_counts fs image.directory cg (image.groups cg) false).foldl (· + ·) Counts.zero

end UfsGroups
