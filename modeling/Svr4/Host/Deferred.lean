import Svr4.Host.Links

/- host_tools/fs/ufs_fuse.py: lookup counts, open handles and deferred deletion. -/
namespace UfsFuse
open Function

structure PendingDeletion where
  directory : Bool
  /-- the file whose last name went -/
  file : Nat

structure DirectoryHandle where
  inode : Nat
  entries : Option (List Entry)

/-- An inode that was freed, with what held at that moment. -/
structure Freed where
  inode : Nat
  /-- the file for which it was freed -/
  file : Nat
  /-- the file that had the number -/
  owner : Nat
  nlink : Nat
  open_count : Nat
  kernel_lookups : Nat
  deriving DecidableEq

structure Operations where
  disk : Disk
  lookup_counts : Nat → Nat
  /-- the handle and its inode -/
  open_handles : List (Nat × Nat)
  directory_handles : List (Nat × DirectoryHandle)
  pending_deletions : Nat → Option PendingDeletion
  next_handle : Nat
  /-- what the kernel was given and has not forgotten -/
  kernel_lookups : Nat → Nat
  freed : List Freed

/-- Whether the directory `i` is `top` or in its subtree. -/
def Disk.below (d : Disk) (top : Nat) : Nat → Nat → Bool
  | 0, _ => false
  | fuel + 1, i =>
      decide (i = top) || match d.entries.find? (·.child = i) with
        | none => false
        | some e => below d top fuel e.dir

namespace Operations
variable (s : Operations)

def inode_open_count (i : Nat) : Nat := s.open_handles.countP (·.2 = i)

/-- `free_ufs_inode_contents`, `clear_ufs_inode` and `free_ufs_inode`, which skips an inode that
the bitmap has free. -/
def free_inode (i file nlink : Nat) : Operations :=
  if s.disk.inodes i = none then s
  else
    { s with
      disk := s.disk.clear i
      freed := ⟨i, file, (s.disk.read i).file, nlink, s.inode_open_count i, s.kernel_lookups i⟩ ::
        s.freed }

def unlink_ufs_path (e : Entry) : Operations :=
  let target := s.disk.read e.child
  let disk := s.disk.delete_entry e
  if 1 < target.nlink then { s with disk := disk.write_nlink e.child (target.nlink - 1) }
  else { s with disk := disk }.free_inode e.child target.file (target.nlink - 1)

def remove_ufs_directory (e : Entry) : Operations :=
  let target := s.disk.read e.child
  let disk := (s.disk.delete_entry e).write_nlink e.dir ((s.disk.read e.dir).nlink - 1)
  { s with disk := disk }.free_inode e.child target.file 0

def finalize_ufs_unlinked_inode (i file : Nat) : Operations :=
  if 0 < (s.disk.read i).nlink then s else s.free_inode i file (s.disk.read i).nlink

def maybe_finalize_pending_inode (i : Nat) : Operations :=
  match s.pending_deletions i with
  | none => s
  | some pending =>
    if 0 < s.lookup_counts i then s
    else if 0 < s.inode_open_count i then s
    else
      { s with pending_deletions := update s.pending_deletions i none }
        |>.finalize_ufs_unlinked_inode i pending.file

/-- The kernel is given the inode once more. -/
def add_lookup (i : Nat) : Operations :=
  { s with
    lookup_counts := update s.lookup_counts i (s.lookup_counts i + 1)
    kernel_lookups := update s.kernel_lookups i (s.kernel_lookups i + 1) }

def forget_one (i nlookup : Nat) : Operations :=
  let count := s.lookup_counts i
  { s with
    lookup_counts :=
      update s.lookup_counts i (if nlookup < count then count - nlookup else 0)
    kernel_lookups := update s.kernel_lookups i (s.kernel_lookups i - nlookup) }
    |>.maybe_finalize_pending_inode i

def forget (inode_list : List (Nat × Nat)) : Operations :=
  inode_list.foldl (fun s x => s.forget_one x.1 x.2) s

def lookup (parent_inode : Nat) (name : String) : Operations :=
  match s.disk.lookup_entry parent_inode name with
  | none => s
  | some e => if s.disk.has_path parent_inode then s.add_lookup e.child else s

def opendir (inode : Nat) : Operations :=
  if s.disk.isDir inode then
    { s with
      directory_handles := (s.next_handle, ⟨inode, none⟩) :: s.directory_handles
      next_handle := s.next_handle + 1 }
  else s

/-- The entries of a handle: those of its first `readdir`. -/
def load_directory_entries (handle : DirectoryHandle) : List Entry :=
  handle.entries.getD
    (s.disk.entries.filter fun e => e.dir = handle.inode ∧ s.disk.inodes e.child ≠ none)

/-- What a `readdir` replies of the entries from `start_id` on; the kernel takes `taken` of them. -/
def replies (fh start_id taken : Nat) : List Entry :=
  match s.directory_handles.lookup fh with
  | none => []
  | some handle =>
    if s.disk.has_path handle.inode then
      ((s.load_directory_entries handle).drop start_id).take taken
    else []

def readdir (fh start_id taken : Nat) : Operations :=
  let entries := s.directory_handles.map fun x =>
    if x.1 = fh then (fh, ⟨x.2.inode, some (s.load_directory_entries x.2)⟩) else x
  (s.replies fh start_id taken).foldl (fun s e => s.add_lookup e.child)
    { s with directory_handles := entries }

def releasedir (fh : Nat) : Operations :=
  { s with directory_handles := s.directory_handles.filter (·.1 ≠ fh) }

def open_file (inode : Nat) : Operations :=
  if s.disk.inodes inode ≠ none ∧ s.disk.isDir inode = false then
    { s with
      open_handles := (s.next_handle, inode) :: s.open_handles
      next_handle := s.next_handle + 1 }
  else s

def release (fh : Nat) : Operations :=
  match s.open_handles.lookup fh with
  | none => s
  | some inode =>
    { s with open_handles := s.open_handles.eraseP (·.1 = fh) }.maybe_finalize_pending_inode inode

/-- `n` is the number that the allocator hands out. -/
def create (parent_inode : Nat) (name : String) (n : Nat) : Operations :=
  if s.disk.isDir parent_inode ∧ s.disk.has_path parent_inode ∧
      s.disk.lookup_entry parent_inode name = none ∧ s.disk.inodes n = none then
    -- `_discard_stale_inode_state`, then the lookup that the reply counts as
    { s with
      disk := (s.disk.allocate n).add_entry ⟨parent_inode, name, n⟩
      pending_deletions := update s.pending_deletions n none
      lookup_counts := update s.lookup_counts n 1
      kernel_lookups := update s.kernel_lookups n (s.kernel_lookups n + 1)
      open_handles := (s.next_handle, n) :: s.open_handles
      next_handle := s.next_handle + 1 }
  else s

def link_refused (inode new_parent_inode : Nat) (new_name : String) : Bool :=
  s.disk.inodes inode = none ∨ s.disk.isDir inode ∨ s.disk.isDir new_parent_inode = false ∨
    s.disk.has_path new_parent_inode = false ∨
    s.disk.lookup_entry new_parent_inode new_name ≠ none

/-- The entry is written before the link count, whose overflow is an error. -/
def link (inode new_parent_inode : Nat) (new_name : String) : Operations :=
  if s.link_refused inode new_parent_inode new_name then s
  else
    let disk := s.disk.add_entry ⟨new_parent_inode, new_name, inode⟩
    let nlink := (s.disk.read inode).nlink + 1
    if nlink < Disk.nlink_limit then
      { s with disk := disk.write_nlink inode nlink }.add_lookup inode
    else { s with disk := disk }

def unlink (parent_inode : Nat) (name : String) : Operations :=
  match s.disk.lookup_entry parent_inode name with
  | none => s
  | some e =>
    if s.disk.has_path parent_inode = false ∨ s.disk.isDir e.child then s
    else if 0 < s.lookup_counts e.child ∨ 0 < s.inode_open_count e.child then
      { s with
        disk := s.disk.detach_path e
        pending_deletions := update s.pending_deletions e.child
          (some ⟨false, (s.disk.read e.child).file⟩) }
    else s.unlink_ufs_path e

def rmdir (parent_inode : Nat) (name : String) : Operations :=
  match s.disk.lookup_entry parent_inode name with
  | none => s
  | some e =>
    if s.disk.has_path parent_inode = false ∨ s.disk.isDir e.child = false ∨
        s.disk.is_empty e.child = false then s
    else if 0 < s.lookup_counts e.child ∨ 0 < s.inode_open_count e.child then
      { s with
        disk := s.disk.detach_directory e
        pending_deletions := update s.pending_deletions e.child
          (some ⟨true, (s.disk.read e.child).file⟩) }
    else s.remove_ufs_directory e

/-- The errors of `rename_ufs_path` before it changes anything. -/
def rename_refused (e t : Entry) : Bool :=
  (s.disk.isDir e.child && s.disk.below e.child (s.disk.entries.length + 1) t.dir) ||
    (s.disk.isDir e.child != s.disk.isDir t.child) ||
    (s.disk.isDir t.child && !s.disk.is_empty t.child)

/-- `rename_ufs_path` over the entry `t`; the flag is whether it ended without an error. -/
def rename_ufs_path (e t : Entry) : Operations × Bool :=
  if t.child = e.child then (s, true)
  else if s.rename_refused e t then (s, false)
  else
    let s := if s.disk.isDir t.child then s.remove_ufs_directory t else s.unlink_ufs_path t
    let (disk, moved) := s.disk.move e t.dir t.name
    ({ s with disk := disk }, moved)

def rename (parent_inode_old : Nat) (name_old : String) (parent_inode_new : Nat)
    (name_new : String) (noreplace : Bool) : Operations :=
  match s.disk.lookup_entry parent_inode_old name_old with
  | none => s
  | some e =>
    if s.disk.has_path parent_inode_old = false ∨ s.disk.has_path parent_inode_new = false ∨
        s.disk.isDir parent_inode_new = false then s
    else
      match s.disk.lookup_entry parent_inode_new name_new with
      | some t =>
        if noreplace then s
        else
          let (s, renamed) := s.rename_ufs_path e t
          if renamed then
            { s with
              pending_deletions := update s.pending_deletions t.child none
              lookup_counts := update s.lookup_counts t.child 0 }
          else s
      | none => { s with disk := (s.disk.move e parent_inode_new name_new).1 }

end Operations

/-- The calls, with what the allocator and the kernel choose. -/
inductive Call
  | lookup (parent_inode : Nat) (name : String)
  | opendir (inode : Nat)
  | readdir (fh start_id taken : Nat)
  | releasedir (fh : Nat)
  | open_file (inode : Nat)
  | create (parent_inode : Nat) (name : String) (n : Nat)
  | link (inode new_parent_inode : Nat) (new_name : String)
  | unlink (parent_inode : Nat) (name : String)
  | rmdir (parent_inode : Nat) (name : String)
  | rename (parent_inode_old : Nat) (name_old : String) (parent_inode_new : Nat)
      (name_new : String) (noreplace : Bool)
  | release (fh : Nat)
  | forget (inode_list : List (Nat × Nat))

def Operations.call (s : Operations) : Call → Operations
  | .lookup parent name => s.lookup parent name
  | .opendir inode => s.opendir inode
  | .readdir fh start_id taken => s.readdir fh start_id taken
  | .releasedir fh => s.releasedir fh
  | .open_file inode => s.open_file inode
  | .create parent name n => s.create parent name n
  | .link inode parent name => s.link inode parent name
  | .unlink parent name => s.unlink parent name
  | .rmdir parent name => s.rmdir parent name
  | .rename old name_old new name_new noreplace => s.rename old name_old new name_new noreplace
  | .release fh => s.release fh
  | .forget inode_list => s.forget inode_list

def Operations.run (s : Operations) (calls : List Call) : Operations :=
  calls.foldl Operations.call s

end UfsFuse
