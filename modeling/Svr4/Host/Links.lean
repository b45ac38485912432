import Svr4.Host.Names

/- What each operation on names does to the link counts. -/
namespace UfsFuse
open Disk List

variable {d d' : Disk} {e : Entry} {i n : Nat}

/-! An entry under another name -/

theorem ne_of_isDir {j : Nat} (dir : d.isDir i = true) (file : d.isDir j = false) : j ≠ i := by
  rintro rfl
  exact absurd (dir.symm.trans file) (by simp)

section
variable (mem : e ∈ d.entries) (dir : Nat) (name : String)
include mem

theorem names_move (j : Nat) :
    ((d.add_entry ⟨dir, name, e.child⟩).delete_entry e).names j = d.names j := by
  have later : e ∈ (d.add_entry ⟨dir, name, e.child⟩).entries := mem_append_left _ mem
  have gone := names_delete later (i := j)
  rw [names_add] at gone
  exact (Nat.add_right_cancel gone).symm

theorem subdirs_move (j : Nat) :
    d.subdirs j + (if dir = j ∧ d.isDir e.child = true then 1 else 0) =
      ((d.add_entry ⟨dir, name, e.child⟩).delete_entry e).subdirs j +
        if e.dir = j ∧ d.isDir e.child = true then 1 else 0 := by
  have later : e ∈ (d.add_entry ⟨dir, name, e.child⟩).entries := mem_append_left _ mem
  have gone := subdirs_delete later (i := j)
  rw [subdirs_add] at gone
  exact gone

omit mem in
theorem entries_move {x : Entry} (there : x ∈ ((d.add_entry ⟨dir, name, i⟩).delete_entry e).entries) :
    x ∈ d.entries ∨ x = ⟨dir, name, i⟩ :=
  (mem_append.mp (mem_of_mem_erase there)).imp_right mem_singleton.mp

end

namespace Tree

section
variable (t : Tree d)
include t

theorem not_root (mem : e ∈ d.entries) : e.child ≠ UFS_ROOT_INODE := by
  intro root
  have pos := names_pos mem
  rw [root, t.root_names] at pos
  exact Nat.lt_irrefl _ pos

theorem dir_has_path (mem : e ∈ d.entries) : d.has_path e.dir = true := by
  by_contra lost
  exact (t.dir_gone _ (t.dir_used e mem) (by simpa using lost)).2 e mem rfl

theorem names_free (free : d.inodes i = none) : d.names i = 0 := by
  by_contra named
  obtain ⟨e, mem, at_i⟩ := countP_pos_iff.mp (Nat.pos_of_ne_zero named)
  have child : e.child = i := by simpa using at_i
  exact t.child_used e mem (child ▸ free)

theorem of_change (used : ∀ j, d'.inodes j = none ↔ d.inodes j = none)
    (dirs : ∀ j, d'.isDir j = d.isDir j)
    (ends : ∀ x ∈ d'.entries, x ∈ d.entries ∨ (d.inodes x.child ≠ none ∧ d.isDir x.dir = true))
    (files : ∀ j, d.inodes j ≠ none → d.isDir j = false → (d'.read j).nlink = d'.names j)
    (root : d'.names UFS_ROOT_INODE = 0) (names : ∀ j, d.isDir j = true → d'.names j ≤ 1)
    (links : ∀ j, d.isDir j = true → d'.has_path j = true → (d'.read j).nlink = 2 + d'.subdirs j)
    (gone : ∀ j, d.isDir j = true → d'.has_path j = false → (d'.read j).nlink = 0 ∧ ∀ x ∈
      d'.entries, x.dir ≠ j) : Tree d' := by
  constructor
  · rw [dirs, t.root_dir]
  · exact root
  · intro x mem
    rw [Ne, used]
    exact (ends x mem).elim (t.child_used x) fun fresh => fresh.1
  · intro x mem
    rw [dirs]
    exact (ends x mem).elim (t.dir_used x) fun fresh => fresh.2
  · intro j is_used file
    rw [dirs] at file
    exact files j (fun free => is_used ((used j).mpr free)) file
  · intro j dir
    exact names j (dirs j ▸ dir)
  · intro j dir
    exact links j (dirs j ▸ dir)
  · intro j dir
    exact gone j (dirs j ▸ dir)

theorem of_file_change (used : ∀ j, d'.inodes j = none ↔ d.inodes j = none)
    (dirs : ∀ j, d'.isDir j = d.isDir j)
    (kept : ∀ j, d.isDir j = true → d'.names j = d.names j ∧ d'.read j = d.read j ∧ d'.subdirs j =
      d.subdirs j)
    (ends : ∀ x ∈ d'.entries, x ∈ d.entries ∨ (d.inodes x.child ≠ none ∧ d.isDir x.dir = true ∧
      d.has_path x.dir = true))
    (files : ∀ j, d.inodes j ≠ none → d.isDir j = false → (d'.read j).nlink = d'.names j) :
    Tree d' := by
  have path : ∀ j, d.isDir j = true → d'.has_path j = d.has_path j := by
    intro j dir
    unfold has_path
    rw [(kept j dir).1]
  refine t.of_change used dirs (fun x mem => (ends x mem).imp_right fun fresh => ⟨fresh.1, fresh.2.1⟩)
    files ?_ ?_ ?_ ?_
  · rw [(kept _ t.root_dir).1, t.root_names]
  · intro j dir
    rw [(kept j dir).1]
    exact t.dir_names j dir
  · intro j dir has
    rw [path j dir] at has
    rw [(kept j dir).2.1, (kept j dir).2.2]
    exact t.dir_links j dir has
  · intro j dir lost
    rw [path j dir] at lost
    rw [(kept j dir).2.1]
    refine ⟨(t.dir_gone j dir lost).1, fun x mem at_j => ?_⟩
    cases ends x mem with
    | inl old => exact (t.dir_gone j dir lost).2 x old at_j
    | inr fresh => exact absurd fresh.2.2 (by rw [at_j, lost]; simp)

theorem detach_path (mem : e ∈ d.entries) (file : d.isDir e.child = false) :
    Tree (d.detach_path e) := by
  unfold Disk.detach_path
  refine t.of_file_change (by simp) (by simp) ?_ ?_ ?_
  · intro j dir
    have ne := (ne_of_isDir dir file).symm
    refine ⟨?_, ?_, ?_⟩
    · rw [names_delete mem, if_neg (Ne.symm ne), names_write_nlink]
      rfl
    · rw [read_write_nlink_ne ne, read_delete_entry]
    · rw [subdirs_write_nlink, subdirs_delete mem, if_neg (by simp [file])]
      rfl
  · exact fun x x_mem => .inl (mem_of_mem_erase x_mem)
  · intro j used at_file
    have links := t.file_links j used at_file
    have count := names_delete mem (i := j)
    by_cases same : j = e.child
    · subst same
      rw [nlink_write_nlink (by simpa using used), names_write_nlink]
      rw [if_pos rfl] at count
      omega
    · rw [read_write_nlink_ne same, read_delete_entry, names_write_nlink]
      rw [if_neg (Ne.symm same)] at count
      omega

theorem add_link (used : d.inodes e.child ≠ none) (file : d.isDir e.child = false)
    (dir : d.isDir e.dir = true) (path : d.has_path e.dir = true) :
    Tree ((d.add_entry e).write_nlink e.child ((d.read e.child).nlink + 1)) := by
  refine t.of_file_change (by simp) (by simp) ?_ ?_ ?_
  · intro j at_dir
    have ne := (ne_of_isDir at_dir file).symm
    refine ⟨?_, ?_, ?_⟩
    · rw [names_write_nlink, names_add, if_neg (Ne.symm ne)]
      rfl
    · rw [read_write_nlink_ne ne, read_add_entry]
    · rw [subdirs_write_nlink, subdirs_add, if_neg (by simp [file])]
      rfl
  · intro x mem
    cases mem_append.mp mem with
    | inl old => exact .inl old
    | inr fresh =>
      rw [mem_singleton.mp fresh]
      exact .inr ⟨used, dir, path⟩
  · intro j is_used at_file
    have links := t.file_links j is_used at_file
    rw [names_write_nlink, names_add]
    by_cases same : j = e.child
    · subst same
      rw [nlink_write_nlink (by simpa using is_used), if_pos rfl, links]
    · rw [read_write_nlink_ne same, read_add_entry, if_neg (Ne.symm same), links]
      rfl

theorem move_file (mem : e ∈ d.entries) (file : d.isDir e.child = false) {dir : Nat} (name : String)
    (at_dir : d.isDir dir = true) (path : d.has_path dir = true) :
    Tree ((d.add_entry ⟨dir, name, e.child⟩).delete_entry e) := by
  refine t.of_file_change (by simp) (by simp) ?_ ?_ ?_
  · intro j _
    have moved := subdirs_move mem dir name j
    rw [if_neg (by simp [file]), if_neg (by simp [file])] at moved
    exact ⟨names_move mem dir name j, rfl, moved.symm⟩
  · intro x x_mem
    refine (entries_move dir name x_mem).imp_right ?_
    rintro rfl
    exact ⟨t.child_used e mem, at_dir, path⟩
  · intro j used at_file
    rw [names_move mem]
    exact t.file_links j used at_file

section
variable (mem : e ∈ d.entries) (dir : d.isDir e.child = true)
include mem dir

theorem detach_directory (empty : d.is_empty e.child = true) : Tree (d.detach_directory e) := by
  have nothing : ∀ x ∈ d.entries, x.dir ≠ e.child := by simpa [is_empty] using empty
  have one : d.names e.child = 1 := Nat.le_antisymm (t.dir_names _ dir) (names_pos mem)
  have names : ∀ j, j ≠ e.child → (d.detach_directory e).names j = d.names j := by
    intro j ne
    rw [names_delete mem, if_neg (Ne.symm ne)]
    rfl
  have unnamed : (d.detach_directory e).names e.child = 0 := by
    have count := names_delete mem (i := e.child)
    rw [if_pos rfl, one] at count
    exact (Nat.succ.inj count).symm
  have subdirs : ∀ j, d.subdirs j =
      (d.detach_directory e).subdirs j + if e.dir = j then 1 else 0 := by
    intro j
    have count := subdirs_delete mem (i := j)
    unfold Disk.detach_directory
    rw [subdirs_write_nlink, subdirs_write_nlink, count]
    simp [dir]
  have parent : d.inodes e.dir ≠ none := used_of_isDir (t.dir_used e mem)
  unfold Disk.detach_directory at *
  refine t.of_change (by simp) (by simp) ?_ ?_ ?_ ?_ ?_ ?_
  · exact fun x x_mem => .inl (mem_of_mem_erase x_mem)
  · intro j used file
    have not_child := ne_of_isDir dir file
    have not_dir := ne_of_isDir (t.dir_used e mem) file
    rw [names j not_child, read_write_nlink_ne not_child, read_write_nlink_ne not_dir,
      read_delete_entry]
    exact t.file_links j used file
  · rw [names _ (Ne.symm (t.not_root mem)), t.root_names]
  · intro j at_dir
    by_cases same : j = e.child
    · rw [same, unnamed]
      exact Nat.zero_le _
    · rw [names j same]
      exact t.dir_names j at_dir
  · intro j at_dir has
    have not_child : j ≠ e.child := by
      intro same
      have named := has_path_iff.mp has
      rw [same, unnamed] at named
      exact named.elim (t.not_root mem) (Nat.lt_irrefl _)
    have old : d.has_path j = true := by
      rw [has_path_iff] at has ⊢
      rwa [names j not_child] at has
    have before := t.dir_links j at_dir old
    have count := subdirs j
    rw [read_write_nlink_ne not_child]
    by_cases same : j = e.dir
    · rw [same, nlink_write_nlink (by simpa using parent)]
      rw [same] at before count
      rw [if_pos rfl] at count
      omega
    · rw [read_write_nlink_ne same, read_delete_entry]
      rw [if_neg (Ne.symm same)] at count
      omega
  · intro j at_dir lost
    by_cases same : j = e.child
    · subst same
      have used : d.inodes e.child ≠ none := t.child_used e mem
      rw [nlink_write_nlink (by simpa using used)]
      exact ⟨rfl, fun x x_mem => nothing x (mem_of_mem_erase x_mem)⟩
    · have old : d.has_path j = false := by
        rw [← Bool.not_eq_true, has_path_iff] at lost ⊢
        rwa [names j same] at lost
      have before := t.dir_gone j at_dir old
      have not_dir : j ≠ e.dir := fun at_parent => before.2 e mem at_parent.symm
      rw [read_write_nlink_ne same, read_write_nlink_ne not_dir, read_delete_entry]
      exact ⟨before.1, fun x x_mem => before.2 x (mem_of_mem_erase x_mem)⟩

theorem move_directory {parent : Nat} (name : String) (at_dir : d.isDir parent = true)
    (path : d.has_path parent = true) (apart : e.dir ≠ parent) :
    Tree ((((d.add_entry ⟨parent, name, e.child⟩).write_nlink e.dir
      ((d.read e.dir).nlink - 1)).write_nlink parent ((d.read parent).nlink + 1)).delete_entry e) := by
  have names := names_move mem parent name
  have subdirs := subdirs_move mem parent name
  simp only [dir, and_true] at subdirs
  have same_subdirs : ∀ j m n, ((((d.add_entry ⟨parent, name, e.child⟩).write_nlink e.dir
      m).write_nlink parent n).delete_entry e).subdirs j =
        ((d.add_entry ⟨parent, name, e.child⟩).delete_entry e).subdirs j := by
    intro j m n
    refine countP_congr fun x _ => ?_
    simp
  refine t.of_change (by simp) (by simp) ?_ ?_ ?_ ?_ ?_ ?_
  · intro x x_mem
    refine (entries_move parent name x_mem).imp_right ?_
    rintro rfl
    exact ⟨used_of_isDir dir, at_dir⟩
  · intro j used file
    have not_new := ne_of_isDir at_dir file
    have not_old := ne_of_isDir (t.dir_used e mem) file
    rw [read_delete_entry, read_write_nlink_ne not_new, read_write_nlink_ne not_old, read_add_entry]
    exact (t.file_links j used file).trans (names j).symm
  · exact (names _).trans t.root_names
  · intro j is_dir
    exact Nat.le_trans (Nat.le_of_eq (names j)) (t.dir_names j is_dir)
  · intro j is_dir has
    have old : d.has_path j = true := by
      rw [has_path_iff] at has ⊢
      exact has.imp_right fun named => (names j) ▸ named
    have before := t.dir_links j is_dir old
    have count := subdirs j
    rw [same_subdirs, read_delete_entry]
    by_cases new : j = parent
    · subst new
      rw [nlink_write_nlink (by simpa using used_of_isDir is_dir)]
      rw [if_pos rfl, if_neg apart] at count
      omega
    rw [read_write_nlink_ne new]
    rw [if_neg (Ne.symm new)] at count
    by_cases at_old : j = e.dir
    · subst at_old
      rw [nlink_write_nlink (by simpa using used_of_isDir is_dir)]
      rw [if_pos rfl] at count
      omega
    · rw [read_write_nlink_ne at_old, read_add_entry]
      rw [if_neg (Ne.symm at_old)] at count
      omega
  · intro j is_dir lost
    have old : d.has_path j = false := by
      rw [← Bool.not_eq_true, has_path_iff] at lost ⊢
      exact fun named => lost (named.imp_right fun pos => (names j).symm ▸ pos)
    have before := t.dir_gone j is_dir old
    have not_old : j ≠ e.dir := fun same => before.2 e mem same.symm
    have not_new : j ≠ parent := by
      intro same
      rw [same, path] at old
      cases old
    rw [read_delete_entry, read_write_nlink_ne not_new, read_write_nlink_ne not_old, read_add_entry]
    refine ⟨before.1, fun x x_mem => ?_⟩
    obtain was | rfl := entries_move parent name x_mem
    · exact before.2 x was
    · exact Ne.symm not_new

theorem rename_directory (name : String) :
    Tree ((d.add_entry { e with name }).delete_entry e) := by
  have names := names_move mem e.dir name
  have subdirs := fun j => Nat.add_right_cancel (subdirs_move mem e.dir name j)
  have paths : ∀ j, ((d.add_entry { e with name }).delete_entry e).has_path j =
      d.has_path j := by
    intro j
    unfold has_path
    rw [names]
  refine t.of_change (by simp) (by simp) ?_
    (fun j used file => (t.file_links j used file).trans (names j).symm) ?_ ?_ ?_ ?_
  · intro x x_mem
    refine (entries_move e.dir name x_mem).imp_right ?_
    rintro rfl
    exact ⟨used_of_isDir dir, t.dir_used e mem⟩
  · rw [names, t.root_names]
  · intro j is_dir
    rw [names]
    exact t.dir_names j is_dir
  · intro j is_dir has
    rw [paths] at has
    rw [← subdirs]
    exact t.dir_links j is_dir has
  · intro j is_dir lost
    rw [paths] at lost
    have before := t.dir_gone j is_dir lost
    refine ⟨before.1, fun x x_mem => ?_⟩
    obtain old | rfl := entries_move e.dir name x_mem
    · exact before.2 x old
    · exact before.2 e mem

end

theorem clear (not_root : i ≠ UFS_ROOT_INODE) (names : d.names i = 0)
    (empty : ∀ x ∈ d.entries, x.dir ≠ i) : Tree (d.clear i) := by
  have child : ∀ x ∈ d.entries, x.child ≠ i := by
    intro x mem at_i
    have pos := names_pos mem
    rw [at_i, names] at pos
    exact Nat.lt_irrefl _ pos
  have of_dir : ∀ {j}, (d.clear i).isDir j = true → j ≠ i := by
    intro j dir same
    rw [same, isDir_clear] at dir
    cases dir
  have subdirs : ∀ j, (d.clear i).subdirs j = d.subdirs j := by
    intro j
    refine countP_congr fun x mem => ?_
    rw [isDir_clear_ne (child x mem)]
  constructor
  · rw [isDir_clear_ne (Ne.symm not_root), t.root_dir]
  · exact t.root_names
  · intro x mem
    rw [inodes_clear_ne (child x mem)]
    exact t.child_used x mem
  · intro x mem
    rw [isDir_clear_ne (empty x mem)]
    exact t.dir_used x mem
  · intro j used file
    have ne : j ≠ i := fun same => used (by rw [same, inodes_clear])
    rw [isDir_clear_ne ne] at file
    rw [inodes_clear_ne ne] at used
    rw [read_clear_ne ne]
    exact t.file_links j used file
  · intro j dir
    have ne := of_dir dir
    rw [isDir_clear_ne ne] at dir
    exact t.dir_names j dir
  · intro j dir has
    have ne := of_dir dir
    rw [isDir_clear_ne ne] at dir
    rw [read_clear_ne ne, subdirs]
    exact t.dir_links j dir has
  · intro j dir lost
    have ne := of_dir dir
    rw [isDir_clear_ne ne] at dir
    rw [read_clear_ne ne]
    exact t.dir_gone j dir lost

theorem create (free : d.inodes i = none) {dir : Nat} (name : String) (at_dir : d.isDir dir = true)
    (path : d.has_path dir = true) :
    Tree ((d.allocate i).add_entry ⟨dir, name, i⟩) := by
  have unnamed := t.names_free free
  have not_dir : d.isDir i = false := by
    rw [isDir, Disk.read, free]
    rfl
  have ne_of_dir : ∀ {j}, d.isDir j = true → j ≠ i := by
    intro j dir same
    rw [same, not_dir] at dir
    cases dir
  have child : ∀ x ∈ d.entries, x.child ≠ i := fun x mem at_i =>
    t.child_used x mem (at_i ▸ free)
  have dirs : ∀ j, ((d.allocate i).add_entry ⟨dir, name, i⟩).isDir j = d.isDir j := by
    intro j
    rw [isDir_add_entry]
    by_cases same : j = i
    · rw [same, not_dir, isDir, read_allocate]
    · rw [isDir, read_allocate_ne same, isDir]
  have read_ne : ∀ {j}, j ≠ i → ((d.allocate i).add_entry ⟨dir, name, i⟩).read j = d.read j := by
    intro j ne
    rw [read_add_entry, read_allocate_ne ne]
  have names_ne : ∀ {j}, j ≠ i → ((d.allocate i).add_entry ⟨dir, name, i⟩).names j = d.names j := by
    intro j ne
    rw [names_add, if_neg (Ne.symm ne), names_allocate]
    rfl
  have paths : ∀ {j}, j ≠ i →
      ((d.allocate i).add_entry ⟨dir, name, i⟩).has_path j = d.has_path j := by
    intro j ne
    unfold has_path
    rw [names_ne ne]
  have subdirs : ∀ j, ((d.allocate i).add_entry ⟨dir, name, i⟩).subdirs j = d.subdirs j := by
    intro j
    have file : (d.allocate i).isDir i = false := by rw [isDir, read_allocate]
    rw [subdirs_add, if_neg (by simp [file])]
    refine countP_congr fun x mem => ?_
    rw [isDir, read_allocate_ne (child x mem), isDir]
  have split : ∀ x ∈ ((d.allocate i).add_entry ⟨dir, name, i⟩).entries,
      x ∈ d.entries ∨ x = ⟨dir, name, i⟩ := by
    intro x mem
    exact (mem_append.mp mem).imp_right mem_singleton.mp
  constructor
  · rw [dirs, t.root_dir]
  · rw [names_ne (ne_of_dir t.root_dir), t.root_names]
  · intro x mem
    rw [inodes_add_entry]
    obtain old | rfl := split x mem
    · rw [inodes_allocate_ne (child x old)]
      exact t.child_used x old
    · rw [inodes_allocate]
      exact Option.some_ne_none _
  · intro x mem
    rw [dirs]
    obtain old | rfl := split x mem
    · exact t.dir_used x old
    · exact at_dir
  · intro j used file
    rw [dirs] at file
    by_cases same : j = i
    · rw [same, read_add_entry, read_allocate, names_add, if_pos rfl, names_allocate, unnamed]
    · rw [inodes_add_entry, inodes_allocate_ne same] at used
      rw [read_ne same, names_ne same]
      exact t.file_links j used file
  · intro j dir
    rw [dirs] at dir
    rw [names_ne (ne_of_dir dir)]
    exact t.dir_names j dir
  · intro j dir has
    rw [dirs] at dir
    rw [paths (ne_of_dir dir)] at has
    rw [read_ne (ne_of_dir dir), subdirs]
    exact t.dir_links j dir has
  · intro j dir lost
    rw [dirs] at dir
    rw [paths (ne_of_dir dir)] at lost
    rw [read_ne (ne_of_dir dir)]
    have gone := t.dir_gone j dir lost
    refine ⟨gone.1, fun x mem => ?_⟩
    obtain old | rfl := split x mem
    · exact gone.2 x old
    · intro same
      have same_dir : _ = j := same
      subst same_dir
      rw [path] at lost
      cases lost

end

end Tree
end UfsFuse
