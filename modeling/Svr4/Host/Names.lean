import Mathlib.Data.List.Count

/- host_tools/fs/ufs.py: names, inodes and link counts, and the operations that move them. -/
namespace UfsFuse
open Function List

/-- common.py -/
def UFS_ROOT_INODE : Nat := 2

structure Dinode where
  directory : Bool
  nlink : Nat
  /-- which file the number stands for; numbers are handed out again, this is not -/
  file : Nat
  deriving DecidableEq

/-- A record of a directory; the records "." and ".." are left out. -/
structure Entry where
  dir : Nat
  name : String
  child : Nat
  deriving DecidableEq

structure Disk where
  /-- `none` is an inode that the bitmap has free -/
  inodes : Nat → Option Dinode
  entries : List Entry
  next_file : Nat

namespace Disk
variable (d : Disk)

/-- `read_ufs_inode`; a free inode reads as zeros. -/
def read (i : Nat) : Dinode := (d.inodes i).getD ⟨false, 0, 0⟩

def isDir (i : Nat) : Bool := (d.read i).directory

def names (i : Nat) : Nat := d.entries.countP (·.child = i)

/-- How many directories have their name in `i`. -/
def subdirs (i : Nat) : Nat :=
  d.entries.countP fun e => decide (e.dir = i) && d.isDir e.child

/-- `_path_for_inode` finds a path: removing a directory takes its path away. -/
def has_path (i : Nat) : Bool := i = UFS_ROOT_INODE ∨ 0 < d.names i

def lookup_entry (dir : Nat) (name : String) : Option Entry :=
  d.entries.find? fun e => e.dir = dir ∧ e.name = name

def is_empty (dir : Nat) : Bool := d.entries.all (·.dir ≠ dir)

def add_entry (e : Entry) : Disk := { d with entries := d.entries ++ [e] }

def delete_entry (e : Entry) : Disk := { d with entries := d.entries.erase e }

def write_nlink (i nlink : Nat) : Disk :=
  { d with
    inodes := update d.inodes i ((d.inodes i).map fun ino => { ino with nlink := nlink }) }

/-- `clear_ufs_inode` and the bit of `free_ufs_inode` -/
def clear (i : Nat) : Disk := { d with inodes := update d.inodes i none }

/-- `allocate_ufs_inode` with the number `i`, and `initialize_ufs_inode` for a file -/
def allocate (i : Nat) : Disk :=
  { d with
    inodes := update d.inodes i (some ⟨false, 1, d.next_file⟩)
    next_file := d.next_file + 1 }

/-- The entry goes and the link count with it: `detach_ufs_path`. -/
def detach_path (e : Entry) : Disk :=
  (d.delete_entry e).write_nlink e.child ((d.read e.child).nlink - 1)

def detach_directory (e : Entry) : Disk :=
  ((d.delete_entry e).write_nlink e.dir ((d.read e.dir).nlink - 1)).write_nlink e.child 0

/-- A field of 16 bits: `to_bytes` raises an error beyond it. -/
def nlink_limit : Nat := 65536

/-- The end of `rename_ufs_in_parent` and `rename_ufs_path`: the new name is entered, then the old
one taken. The error leaves both. -/
def move (e : Entry) (dir : Nat) (name : String) : Disk × Bool :=
  let d' := d.add_entry ⟨dir, name, e.child⟩
  if d.isDir e.child ∧ e.dir ≠ dir then
    let d' := d'.write_nlink e.dir ((d.read e.dir).nlink - 1)
    if (d.read dir).nlink + 1 < nlink_limit then
      ((d'.write_nlink dir ((d.read dir).nlink + 1)).delete_entry e, true)
    else (d', false)
  else (d'.delete_entry e, true)

end Disk

/-- Link counts that count the names, and the names of subdirectories. -/
structure Tree (d : Disk) : Prop where
  root_dir : d.isDir UFS_ROOT_INODE = true
  root_names : d.names UFS_ROOT_INODE = 0
  child_used : ∀ e ∈ d.entries, d.inodes e.child ≠ none
  dir_used : ∀ e ∈ d.entries, d.isDir e.dir = true
  file_links : ∀ i, d.inodes i ≠ none → d.isDir i = false → (d.read i).nlink = d.names i
  dir_names : ∀ i, d.isDir i = true → d.names i ≤ 1
  dir_links : ∀ i, d.isDir i = true → d.has_path i = true → (d.read i).nlink = 2 + d.subdirs i
  dir_gone : ∀ i, d.isDir i = true → d.has_path i = false →
    (d.read i).nlink = 0 ∧ ∀ e ∈ d.entries, e.dir ≠ i

namespace Disk
variable {d : Disk} {e : Entry} {i j n : Nat}

@[simp] theorem read_add_entry : (d.add_entry e).read i = d.read i := rfl
@[simp] theorem read_delete_entry : (d.delete_entry e).read i = d.read i := rfl
@[simp] theorem inodes_add_entry : (d.add_entry e).inodes = d.inodes := rfl
@[simp] theorem inodes_delete_entry : (d.delete_entry e).inodes = d.inodes := rfl
@[simp] theorem isDir_add_entry : (d.add_entry e).isDir i = d.isDir i := rfl
@[simp] theorem isDir_delete_entry : (d.delete_entry e).isDir i = d.isDir i := rfl
@[simp] theorem entries_write_nlink : (d.write_nlink i n).entries = d.entries := rfl
@[simp] theorem names_write_nlink : (d.write_nlink i n).names j = d.names j := rfl
@[simp] theorem names_allocate : (d.allocate i).names j = d.names j := rfl

theorem inodes_write_nlink_ne (ne : j ≠ i) : (d.write_nlink i n).inodes j = d.inodes j :=
  update_of_ne ne _ _

@[simp] theorem used_write_nlink : (d.write_nlink i n).inodes j = none ↔ d.inodes j = none := by
  by_cases same : j = i
  · subst same
    simp [write_nlink]
  · rw [inodes_write_nlink_ne same]

theorem read_write_nlink_ne (ne : j ≠ i) : (d.write_nlink i n).read j = d.read j := by
  rw [read, inodes_write_nlink_ne ne, read]

theorem nlink_write_nlink (used : d.inodes i ≠ none) : ((d.write_nlink i n).read i).nlink = n := by
  obtain ⟨ino, at_i⟩ := Option.ne_none_iff_exists'.mp used
  simp [read, write_nlink, at_i]

@[simp] theorem isDir_write_nlink : (d.write_nlink i n).isDir j = d.isDir j := by
  by_cases same : j = i
  · subst same
    cases at_j : d.inodes j <;> simp [isDir, read, write_nlink, at_j]
  · rw [isDir, read_write_nlink_ne same, isDir]

@[simp] theorem subdirs_write_nlink : (d.write_nlink i n).subdirs j = d.subdirs j := by
  simp [subdirs]

@[simp] theorem inodes_clear : (d.clear i).inodes i = none := update_self _ _ _

theorem inodes_clear_ne (ne : j ≠ i) : (d.clear i).inodes j = d.inodes j := update_of_ne ne _ _

theorem read_clear_ne (ne : j ≠ i) : (d.clear i).read j = d.read j := by
  rw [read, inodes_clear_ne ne, read]

theorem isDir_clear_ne (ne : j ≠ i) : (d.clear i).isDir j = d.isDir j := by
  rw [isDir, read_clear_ne ne, isDir]

theorem isDir_clear : (d.clear i).isDir i = false := by
  rw [isDir, read, inodes_clear]
  rfl

theorem inodes_allocate : (d.allocate i).inodes i = some ⟨false, 1, d.next_file⟩ :=
  update_self _ _ _

theorem inodes_allocate_ne (ne : j ≠ i) : (d.allocate i).inodes j = d.inodes j :=
  update_of_ne ne _ _

theorem read_allocate_ne (ne : j ≠ i) : (d.allocate i).read j = d.read j := by
  rw [read, inodes_allocate_ne ne, read]

theorem read_allocate : (d.allocate i).read i = ⟨false, 1, d.next_file⟩ := by
  rw [read, inodes_allocate]
  rfl

theorem used_of_isDir (dir : d.isDir i = true) : d.inodes i ≠ none := by
  intro free
  simp [isDir, read, free] at dir

theorem count_delete (mem : e ∈ d.entries) (p : Entry → Bool) :
    d.entries.countP p = (d.delete_entry e).entries.countP p + if p e then 1 else 0 := by
  rw [(perm_cons_erase mem).countP_eq, countP_cons]
  rfl

theorem count_add (p : Entry → Bool) :
    (d.add_entry e).entries.countP p = d.entries.countP p + if p e then 1 else 0 := by
  unfold add_entry
  rw [countP_append, countP_singleton]

theorem names_delete (mem : e ∈ d.entries) :
    d.names i = (d.delete_entry e).names i + if e.child = i then 1 else 0 := by
  have count := count_delete mem fun e => decide (e.child = i)
  simpa [names] using count

theorem names_add : (d.add_entry e).names i = d.names i + if e.child = i then 1 else 0 := by
  have count := count_add (d := d) (e := e) fun e => decide (e.child = i)
  simpa [names] using count

theorem subdirs_delete (mem : e ∈ d.entries) : d.subdirs i = (d.delete_entry e).subdirs i +
      if e.dir = i ∧ d.isDir e.child = true then 1 else 0 := by
  have count := count_delete mem fun e => decide (e.dir = i) && d.isDir e.child
  unfold subdirs
  simpa only [Bool.and_eq_true, decide_eq_true_eq, isDir_delete_entry] using count

theorem subdirs_add : (d.add_entry e).subdirs i =
    d.subdirs i + if e.dir = i ∧ d.isDir e.child = true then 1 else 0 := by
  have count := count_add (d := d) (e := e) fun e => decide (e.dir = i) && d.isDir e.child
  unfold subdirs
  simpa only [Bool.and_eq_true, decide_eq_true_eq, isDir_add_entry] using count

theorem has_path_iff : d.has_path i = true ↔ i = UFS_ROOT_INODE ∨ 0 < d.names i := by
  simp [has_path]

theorem names_pos (mem : e ∈ d.entries) : 0 < d.names e.child :=
  countP_pos_iff.mpr ⟨e, mem, by simp⟩

theorem mem_of_lookup {dir : Nat} {name : String} (found : d.lookup_entry dir name = some e) :
    e ∈ d.entries ∧ e.dir = dir ∧ e.name = name := by
  have cond := find?_some found
  exact ⟨mem_of_find?_eq_some found, by simpa using cond⟩

end Disk
end UfsFuse
