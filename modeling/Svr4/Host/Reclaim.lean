import Svr4.Host.Deletion

/- Whole runs of calls: no inode is freed early, late or twice. -/
namespace UfsFuse
open Function Disk

variable {s : Operations} {e t : Entry} {i : Nat}

/-- Calls that leave the counts of kernel and mount alike: a `readdir` reply names what is still
there, a link count has room, and a rename replaces no inode that is looked up or open. -/
def Calm (s : Operations) : Call → Prop
  | .readdir fh start_id taken => ∀ e ∈ s.replies fh start_id taken, e ∈ s.disk.entries
  | .link inode parent name =>
      s.link_refused inode parent name = false → (s.disk.read inode).nlink + 1 < nlink_limit
  | .rename old name_old new name_new noreplace =>
      ∀ e, s.disk.lookup_entry old name_old = some e →
        match s.disk.lookup_entry new name_new with
        | some t => noreplace = false → t.child ≠ e.child ∧ (s.rename_refused e t = false →
            s.lookup_counts t.child = 0 ∧
            ((s.disk.isDir t.child = false ∧ 1 < (s.disk.read t.child).nlink) ∨
              s.inode_open_count t.child = 0) ∧
            Room s.disk e new
              ((s.disk.read new).nlink - if s.disk.isDir t.child then 1 else 0))
        | none => s.disk.has_path new = true → s.disk.isDir new = true →
            Room s.disk e new (s.disk.read new).nlink
  | _ => True

def CalmRun : Operations → List Call → Prop
  | _, [] => True
  | s, c :: calls => Calm s c ∧ CalmRun (s.call c) calls

theorem Sound.link (h : Sound none s) {inode parent : Nat} {name : String}
    (calm : Calm s (.link inode parent name)) : Sound none (s.link inode parent name) := by
  unfold Operations.link
  split
  · exact h
  next accepted =>
  have room := calm (by simpa using accepted)
  obtain ⟨used, file, dir, path, -⟩ : s.disk.inodes inode ≠ none ∧
      s.disk.isDir inode = false ∧ s.disk.isDir parent = true ∧
      s.disk.has_path parent = true ∧ s.disk.lookup_entry parent name = none := by
    simpa [Operations.link_refused] using accepted
  rw [if_pos room]
  refine Sound.add_lookup ?_ (by simpa using used)
  refine h.relink (h.tree.add_link (e := ⟨parent, name, inode⟩) used file dir path) (by simp)
    (fun j => ?_) rfl fun j _ gone => ?_
  · rw [file_write_nlink, read_add_entry]
  · left
    by_cases same : j = inode
    · subst same
      rw [nlink_write_nlink (by simpa using used)] at gone
      cases gone
    · rwa [read_write_nlink_ne same, read_add_entry] at gone

theorem Sound.unlink (h : Sound none s) (parent : Nat) (name : String) :
    Sound none (s.unlink parent name) := by
  unfold Operations.unlink
  split
  · exact h
  next e found =>
  have mem := (mem_of_lookup found).1
  have used := h.tree.child_used e mem
  split
  · exact h
  next accepted =>
  have file : s.disk.isDir e.child = false := by
    by_contra dir
    exact accepted (.inr (by simpa using dir))
  split
  · next held =>
    refine (h.pend used held false).relink (h.tree.detach_path mem file)
      (by simp [Disk.detach_path]) (fun j => file_write_nlink _ _ _ j) rfl fun j _ gone => ?_
    by_cases same : j = e.child
    · right
      subst same
      dsimp only
      rw [update_self]
      exact Option.some_ne_none _
    · left
      rwa [Disk.detach_path, read_write_nlink_ne same, read_delete_entry] at gone
  · next loose =>
    exact (h.unlink_ufs_path mem file (by omega) (.inr (by omega))).sound

theorem Sound.rmdir (h : Sound none s) (parent : Nat) (name : String) :
    Sound none (s.rmdir parent name) := by
  unfold Operations.rmdir
  split
  · exact h
  next e found =>
  have mem := (mem_of_lookup found).1
  have used := h.tree.child_used e mem
  split
  · exact h
  next accepted =>
  have dir : s.disk.isDir e.child = true := by
    by_contra file
    exact accepted (.inr (.inl (by simpa using file)))
  have empty : s.disk.is_empty e.child = true := by
    by_contra full
    exact accepted (.inr (.inr (by simpa using full)))
  split
  · next held =>
    have links := h.tree.dir_links e.dir (h.tree.dir_used e mem) (h.tree.dir_has_path mem)
    refine (h.pend used held true).relink (h.tree.detach_directory mem dir empty)
      (by simp [Disk.detach_directory]) (fun j => ?_) rfl fun j _ gone => ?_
    · rw [Disk.detach_directory, file_write_nlink, file_write_nlink, read_delete_entry]
    · by_cases same : j = e.child
      · right
        subst same
        dsimp only
        rw [update_self]
        exact Option.some_ne_none _
      · left
        rw [Disk.detach_directory, read_write_nlink_ne same] at gone
        by_cases at_parent : j = e.dir
        · rw [at_parent, nlink_write_nlink (by
            simpa using used_of_isDir (h.tree.dir_used e mem))] at gone
          omega
        · rwa [read_write_nlink_ne at_parent, read_delete_entry] at gone
  · next loose =>
    exact (h.remove_ufs_directory mem dir empty (by omega) (by omega)).sound

theorem Sound.create (h : Sound none s) (parent : Nat) (name : String) (n : Nat) :
    Sound none (s.create parent name n) := by
  unfold Operations.create
  split
  · next accepted =>
    obtain ⟨dir, path, -, free⟩ := accepted
    have other : ∀ {j}, s.disk.inodes j ≠ none → j ≠ n := fun used same => used (same ▸ free)
    have inodes : ∀ {j}, j ≠ n →
        ((s.disk.allocate n).add_entry ⟨parent, name, n⟩).inodes j = s.disk.inodes j :=
      fun ne => inodes_allocate_ne ne
    have reads : ∀ {j}, j ≠ n →
        ((s.disk.allocate n).add_entry ⟨parent, name, n⟩).read j = s.disk.read j :=
      fun ne => read_allocate_ne ne
    have new : ((s.disk.allocate n).add_entry ⟨parent, name, n⟩).read n =
        ⟨false, 1, s.disk.next_file⟩ := read_allocate
    have new_used : ((s.disk.allocate n).add_entry ⟨parent, name, n⟩).inodes n ≠ none := by
      rw [inodes_add_entry, inodes_allocate]
      exact Option.some_ne_none _
    have unseen : s.lookup_counts n = 0 := by
      by_contra seen
      exact h.looked_up n (Nat.pos_of_ne_zero seen) free
    have unclaimed : s.pending_deletions n = none := by
      by_contra claimed
      obtain ⟨p, pending⟩ := Option.ne_none_iff_exists'.mp claimed
      exact (h.pending_file n p pending).1 free
    have still : update s.pending_deletions n none = s.pending_deletions := by
      rw [← unclaimed, update_eq_self]
    have before : ∀ {j}, ((s.disk.allocate n).add_entry ⟨parent, name, n⟩).inodes j ≠ none →
        j ≠ n → s.disk.inodes j ≠ none := fun used ne => (inodes ne) ▸ used
    rw [still]
    constructor
    · exact h.tree.create free name dir path
    · rw [← h.counts, unseen]
    · intro j pos
      by_cases same : j = n
      · exact same ▸ new_used
      · dsimp only at pos ⊢
        rw [update_of_ne same] at pos
        rw [inodes same]
        exact h.looked_up j pos
    · intro x mem
      obtain rfl | old := List.mem_cons.mp mem
      · exact new_used
      · have used := h.opened x old
        rwa [inodes (other used)]
    · intro j p pending
      have was := h.pending_file j p pending
      rwa [inodes (other was.1), reads (other was.1)]
    · intro j p pending _
      have was := h.pending_file j p pending
      refine (h.pending_held j p pending nofun).imp (fun pos => ?_) fun pos => ?_
      · dsimp only
        rwa [update_of_ne (other was.1)]
      · exact Nat.lt_of_lt_of_le pos (List.Sublist.countP_le (List.sublist_cons_self _ _))
    · intro j _ used gone
      by_cases same : j = n
      · subst same
        rw [new] at gone
        cases gone
      · rw [reads same] at gone
        exact h.unlinked j nofun (before used same) gone
    · intro j used
      by_cases same : j = n
      · subst same
        rw [new]
        exact Nat.lt_succ_self _
      · rw [reads same]
        exact Nat.lt_succ_of_lt (h.files j (before used same))
    · intro j k used_j used_k same
      by_cases at_j : j = n
      · by_cases at_k : k = n
        · rw [at_j, at_k]
        · rw [at_j, new, reads at_k] at same
          exact absurd same.symm (Nat.ne_of_lt (h.files k (before used_k at_k)))
      · by_cases at_k : k = n
        · rw [at_k, new, reads at_j] at same
          exact absurd same (Nat.ne_of_lt (h.files j (before used_j at_j)))
        · rw [reads at_j, reads at_k] at same
          exact h.distinct j k (before used_j at_j) (before used_k at_k) same
    · exact h.right
    · intro f mem
      have past := h.past f mem
      refine ⟨Nat.lt_succ_of_lt past.1, fun j used => ?_⟩
      by_cases same : j = n
      · rw [same, new]
        exact Nat.ne_of_gt past.1
      · rw [reads same]
        exact past.2 j (before used same)
    · exact h.once
  · exact h

theorem Sound.rename_over (h : Sound none s) (mem_e : e ∈ s.disk.entries)
    (mem_t : t ∈ s.disk.entries) (other : t.child ≠ e.child)
    (accepted : s.rename_refused e t = false) (lookups : s.lookup_counts t.child = 0)
    (free : (s.disk.isDir t.child = false ∧ 1 < (s.disk.read t.child).nlink) ∨
      s.inode_open_count t.child = 0)
    (room : Room s.disk e t.dir
      ((s.disk.read t.dir).nlink - if s.disk.isDir t.child then 1 else 0)) :
    Sound none { (s.rename_ufs_path e t).1 with
      pending_deletions := update (s.rename_ufs_path e t).1.pending_deletions t.child none
      lookup_counts := update (s.rename_ufs_path e t).1.lookup_counts t.child 0 } ∧
    (s.rename_ufs_path e t).2 = true := by
  have empty : s.disk.isDir t.child = true → s.disk.is_empty t.child = true := by
    intro dir
    by_contra full
    simp [Operations.rename_refused, dir, full] at accepted
  have apart : t.dir ≠ t.child := by
    intro same
    have dir := h.tree.dir_used t mem_t
    have nothing : ∀ x ∈ s.disk.entries, x.dir ≠ t.child := by
      simpa [is_empty] using empty (same ▸ dir)
    exact nothing t mem_t same
  have removed : Removed s
      (if s.disk.isDir t.child = true then s.remove_ufs_directory t else s.unlink_ufs_path t) t := by
    cases kind : s.disk.isDir t.child with
    | false =>
      rw [if_neg Bool.false_ne_true]
      exact h.unlink_ufs_path mem_t kind lookups (free.imp_left And.right)
    | true =>
      rw [if_pos rfl]
      refine h.remove_ufs_directory mem_t kind (empty kind) lookups (free.resolve_left ?_)
      rw [kind]
      exact fun file => Bool.false_ne_true file.1.symm
  unfold Operations.rename_ufs_path
  rw [if_neg other, if_neg (by simp [accepted])]
  revert removed
  generalize (if s.disk.isDir t.child = true then s.remove_ufs_directory t
    else s.unlink_ufs_path t) = s'
  intro removed
  have still : e ∈ s'.disk.entries := by
    rw [removed.entries]
    exact (List.mem_erase_of_ne fun same => other (congrArg Entry.child same).symm).mpr mem_e
  have at_dir : s'.disk.isDir t.dir = true := by
    rw [removed.dirs _ apart, h.tree.dir_used t mem_t]
  have path : s'.disk.has_path t.dir = true := by
    have was := has_path_iff.mp (h.tree.dir_has_path mem_t)
    refine has_path_iff.mpr (was.imp_right fun pos => ?_)
    have count := names_delete mem_t (i := t.dir)
    rw [if_neg (Ne.symm apart)] at count
    have kept : s'.disk.names t.dir = (s.disk.delete_entry t).names t.dir := by
      unfold names
      rw [removed.entries]
      rfl
    omega
  have room' : Room s'.disk e t.dir (s'.disk.read t.dir).nlink := by
    unfold Room at room ⊢
    rwa [removed.dirs _ (Ne.symm other), removed.parent]
  obtain ⟨moved, ended, reads⟩ := removed.sound.move still t.name at_dir path room'
  refine ⟨?_, ended⟩
  have used : ∀ j, (s'.disk.move e t.dir t.name).1.inodes j = none ↔ s'.disk.inodes j = none := by
    intro j
    unfold Disk.move
    split
    · split <;> simp
    · simp
  have unseen : update s'.lookup_counts t.child 0 = s'.lookup_counts := by
    have zero : s'.lookup_counts t.child = 0 := by rw [removed.lookups, lookups]
    rw [← zero, update_eq_self]
  have popped := (moved.loosen t.child).unpend
  rw [unseen]
  refine popped.tighten ?_ ?_
  · intro p pending
    dsimp only at pending
    rw [update_self] at pending
    cases pending
  · intro is_used gone
    -- what is left of the target is a file with other names
    rw [Ne, used] at is_used
    obtain ⟨linked, file⟩ := removed.settled is_used
    have not_old : t.child ≠ e.dir := by
      intro same
      have dir := removed.sound.tree.dir_used e still
      rw [← same, file] at dir
      cases dir
    rw [reads t.child not_old (Ne.symm apart)] at gone
    exact absurd gone linked

theorem Sound.rename (h : Sound none s) {old new : Nat} {name_old name_new : String}
    {noreplace : Bool} (calm : Calm s (.rename old name_old new name_new noreplace)) :
    Sound none (s.rename old name_old new name_new noreplace) := by
  unfold Operations.rename
  split
  · exact h
  next e found =>
  have cond := calm e found
  have mem := (mem_of_lookup found).1
  split
  · exact h
  next accepted =>
  split
  · next t target =>
    split
    · exact h
    next replace =>
    obtain ⟨mem_t, dir, name⟩ := mem_of_lookup target
    rw [target] at cond
    obtain ⟨other, cond⟩ := cond (by simpa using replace)
    cases refused : s.rename_refused e t with
    | true =>
      have same : s.rename_ufs_path e t = (s, false) := by
        unfold Operations.rename_ufs_path
        rw [if_neg other, if_pos refused]
      rw [same]
      exact h
    | false =>
      obtain ⟨lookups, free, room⟩ := cond refused
      have over_sound := h.rename_over mem mem_t other refused lookups free (dir ▸ room)
      dsimp only
      rw [over_sound.2, if_pos rfl]
      exact over_sound.1
  · next absent =>
    rw [absent] at cond
    have path : s.disk.has_path new = true := by
      by_contra lost
      exact accepted (.inr (.inl (by simpa using lost)))
    have dir : s.disk.isDir new = true := by
      by_contra file
      exact accepted (.inr (.inr (by simpa using file)))
    exact (h.move mem name_new dir path (cond path dir)).1

theorem Sound.call (h : Sound none s) {c : Call} (calm : Calm s c) : Sound none (s.call c) := by
  cases c with
  | lookup parent name => exact h.lookup parent name
  | opendir inode =>
    unfold Operations.call Operations.opendir
    dsimp only
    split
    · exact { h with }
    · exact h
  | readdir fh start_id taken => exact h.readdir fh start_id taken calm
  | releasedir fh => exact { h with }
  | open_file inode => exact h.open_file inode
  | create parent name n => exact h.create parent name n
  | link inode parent name => exact h.link calm
  | unlink parent name => exact h.unlink parent name
  | rmdir parent name => exact h.rmdir parent name
  | rename old name_old new name_new noreplace => exact h.rename calm
  | release fh => exact h.release fh
  | forget inode_list => exact h.forget inode_list

theorem Sound.run (h : Sound none s) {calls : List Call} (calm : CalmRun s calls) :
    Sound none (s.run calls) := by
  induction calls generalizing s with
  | nil => exact h
  | cons c calls ih => exact ih (h.call calm.1) calm.2

structure Mounted (s : Operations) : Prop where
  tree : Tree s.disk
  linked : ∀ i, s.disk.inodes i ≠ none → (s.disk.read i).nlink ≠ 0
  files : ∀ i, s.disk.inodes i ≠ none → (s.disk.read i).file < s.disk.next_file
  distinct : ∀ i j, s.disk.inodes i ≠ none → s.disk.inodes j ≠ none →
    (s.disk.read i).file = (s.disk.read j).file → i = j
  lookups : ∀ i, s.lookup_counts i = 0 ∧ s.kernel_lookups i = 0 ∧ s.pending_deletions i = none
  handles : s.open_handles = []
  freed : s.freed = []

theorem Mounted.sound (m : Mounted s) : Sound none s where
  tree := m.tree
  counts := funext fun i => (m.lookups i).1.trans (m.lookups i).2.1.symm
  looked_up i pos := absurd (m.lookups i).1 (Nat.ne_of_gt pos)
  opened x mem := by rw [m.handles] at mem; cases mem
  pending_file i p pending := by rw [(m.lookups i).2.2] at pending; cases pending
  pending_held i p pending := by rw [(m.lookups i).2.2] at pending; cases pending
  unlinked i _ used gone := absurd gone (m.linked i used)
  files := m.files
  distinct := m.distinct
  right f mem := by rw [m.freed] at mem; cases mem
  past f mem := by rw [m.freed] at mem; cases mem
  once := by rw [m.freed]; exact List.nodup_nil

/-- In every state of a calm run each freed inode was without names, handles and lookups, was freed
once and for the file that had its number, and none such is left. -/
theorem calm_run_deletes_in_time (m : Mounted s) {calls : List Call} (calm : CalmRun s calls) :
    DeletedInTime (s.run calls) :=
  (m.sound.run calm).in_time

def two_files : Operations where
  disk :=
    { inodes := fun i =>
        if i = 2 then some ⟨true, 2, 0⟩
        else if i = 3 then some ⟨false, 1, 1⟩
        else if i = 4 then some ⟨false, 1, 2⟩
        else none
      entries := [⟨2, "a", 3⟩, ⟨2, "b", 4⟩]
      next_file := 3 }
  lookup_counts := fun _ => 0
  open_handles := []
  directory_handles := []
  pending_deletions := fun _ => none
  next_handle := 1
  kernel_lookups := fun _ => 0
  freed := []

/-- A file that is replaced while it is open is freed in place. -/
theorem open_target_freed_by_rename :
    ¬ DeletedInTime (two_files.run [.lookup 2 "b", .open_file 4, .rename 2 "a" 2 "b" false]) := by
  intro h
  have early := h.right ⟨4, 2, 2, 0, 1, 1⟩ (by decide +kernel)
  exact absurd early.2.2.1 (by decide)

theorem two_files_used (used : two_files.disk.inodes i ≠ none) : i = 2 ∨ i = 3 ∨ i = 4 := by
  by_contra other
  push Not at other
  obtain ⟨not_two, not_three, not_four⟩ := other
  exact used (by simp [two_files, not_two, not_three, not_four])

theorem two_files_dir (dir : two_files.disk.isDir i = true) : i = 2 := by
  obtain rfl | rfl | rfl := two_files_used (used_of_isDir dir)
  · rfl
  · exact absurd dir (by decide)
  · exact absurd dir (by decide)

theorem two_files_mounted : Mounted two_files where
  tree :=
    { root_dir := by decide
      root_names := by decide
      child_used := by decide
      dir_used := by decide
      file_links := by
        intro i used file
        obtain rfl | rfl | rfl := two_files_used used
        · exact absurd file (by decide)
        · rfl
        · rfl
      dir_names := fun i dir => by rw [two_files_dir dir]; decide
      dir_links := fun i dir _ => by rw [two_files_dir dir]; decide
      dir_gone := fun i dir lost => by
        rw [two_files_dir dir] at lost
        exact absurd lost (by decide) }
  linked := by
    intro i used
    obtain rfl | rfl | rfl := two_files_used used <;> decide
  files := by
    intro i used
    obtain rfl | rfl | rfl := two_files_used used <;> decide
  distinct := by
    intro i j used_i used_j same
    obtain rfl | rfl | rfl := two_files_used used_i <;>
      obtain rfl | rfl | rfl := two_files_used used_j <;>
      first
        | rfl
        | exact absurd same (by decide)
  lookups := fun _ => ⟨rfl, rfl, rfl⟩
  handles := rfl
  freed := rfl

/-- An open file that is unlinked goes with its last lookup. -/
theorem unlinked_open_file_goes :
    DeletedInTime (two_files.run [.lookup 2 "b", .open_file 4, .unlink 2 "b", .release 1,
      .forget [(4, 1)]]) :=
  calm_run_deletes_in_time two_files_mounted
    ⟨trivial, trivial, trivial, trivial, trivial, trivial⟩

end UfsFuse
