import Svr4.Host.Deferred

/- What the calls keep: an inode goes when its last name, handle and lookup are gone. -/
namespace UfsFuse
open Function Disk List Option

/-- The state between calls; at `loose` an inode may be without a name, a handle or a lookup. -/
structure Sound (loose : Option Nat) (s : Operations) : Prop where
  tree : Tree s.disk
  counts : s.lookup_counts = s.kernel_lookups
  looked_up : ∀ i, 0 < s.lookup_counts i → s.disk.inodes i ≠ none
  opened : ∀ h ∈ s.open_handles, s.disk.inodes h.2 ≠ none
  pending_file : ∀ i p, s.pending_deletions i = some p →
    s.disk.inodes i ≠ none ∧ (s.disk.read i).file = p.file
  pending_held : ∀ i p, s.pending_deletions i = some p → loose ≠ some i →
    0 < s.lookup_counts i ∨ 0 < s.inode_open_count i
  unlinked : ∀ i, loose ≠ some i → s.disk.inodes i ≠ none → (s.disk.read i).nlink = 0 →
    s.pending_deletions i ≠ none
  files : ∀ i, s.disk.inodes i ≠ none → (s.disk.read i).file < s.disk.next_file
  distinct : ∀ i j, s.disk.inodes i ≠ none → s.disk.inodes j ≠ none →
    (s.disk.read i).file = (s.disk.read j).file → i = j
  right : ∀ f ∈ s.freed, f.owner = f.file ∧ f.nlink = 0 ∧ f.open_count = 0 ∧ f.kernel_lookups = 0
  past : ∀ f ∈ s.freed, f.file < s.disk.next_file ∧
    ∀ i, s.disk.inodes i ≠ none → (s.disk.read i).file ≠ f.file
  once : (s.freed.map Freed.file).Nodup

structure DeletedInTime (s : Operations) : Prop where
  /-- never early, and for the file that has the number -/
  right : ∀ f ∈ s.freed, f.owner = f.file ∧ f.nlink = 0 ∧ f.open_count = 0 ∧ f.kernel_lookups = 0
  /-- no file twice -/
  once : (s.freed.map Freed.file).Nodup
  /-- nothing that could be freed is left behind by a call -/
  prompt : ∀ i, s.disk.inodes i ≠ none → (s.disk.read i).nlink = 0 →
    s.inode_open_count i = 0 → 0 < s.kernel_lookups i

variable {s : Operations} {loose : Option Nat} {i : Nat} {d : Disk}

theorem Sound.in_time (h : Sound none s) : DeletedInTime s := by
  refine ⟨h.right, h.once, fun i used gone closed => ?_⟩
  obtain ⟨p, pending⟩ := ne_none_iff_exists'.mp (h.unlinked i nofun used gone)
  have held := h.pending_held i p pending nofun
  rw [closed, h.counts] at held
  exact held.resolve_right (Nat.lt_irrefl _)

theorem Sound.loosen (h : Sound none s) (i : Nat) : Sound (some i) s := { h with
    pending_held := fun j p pending _ => h.pending_held j p pending nofun
    unlinked := fun j _ => h.unlinked j nofun }

theorem Sound.relink (h : Sound loose s) (tree : Tree d)
    (used : ∀ j, d.inodes j = none ↔ s.disk.inodes j = none)
    (file : ∀ j, (d.read j).file = (s.disk.read j).file) (next : d.next_file = s.disk.next_file)
    (unlinked : ∀ j, loose ≠ some j → (d.read j).nlink = 0 → (s.disk.read j).nlink = 0 ∨
      s.pending_deletions j ≠ none) :
    Sound loose { s with disk := d } := by
  have still : ∀ {j}, d.inodes j ≠ none ↔ s.disk.inodes j ≠ none := fun {j} =>
    not_congr (used j)
  constructor
  · exact tree
  · exact h.counts
  · exact fun j pos => still.mpr (h.looked_up j pos)
  · exact fun x mem => still.mpr (h.opened x mem)
  · intro j p pending
    rw [file]
    exact (h.pending_file j p pending).imp_left still.mpr
  · exact h.pending_held
  · intro j tight is_used gone
    exact (unlinked j tight gone).elim (h.unlinked j tight (still.mp is_used)) id
  · intro j is_used
    rw [file, next]
    exact h.files j (still.mp is_used)
  · intro j k used_j used_k same
    rw [file, file] at same
    exact h.distinct j k (still.mp used_j) (still.mp used_k) same
  · exact h.right
  · intro f mem
    refine ⟨next ▸ (h.past f mem).1, fun j is_used => ?_⟩
    rw [file]
    exact (h.past f mem).2 j (still.mp is_used)
  · exact h.once

theorem Sound.free (h : Sound (some i) s) (used : s.disk.inodes i ≠ none)
    (not_root : i ≠ UFS_ROOT_INODE) (names : s.disk.names i = 0)
    (empty : ∀ x ∈ s.disk.entries, x.dir ≠ i) (lookups : s.lookup_counts i = 0)
    (closed : s.inode_open_count i = 0) (claimed : s.pending_deletions i = none) :
    Sound none (s.free_inode i (s.disk.read i).file 0) := by
  have others : ∀ {j}, (s.disk.clear i).inodes j ≠ none → j ≠ i ∧ s.disk.inodes j ≠ none := by
    intro j used
    have ne : j ≠ i := fun same => used (by rw [same, inodes_clear])
    rw [inodes_clear_ne ne] at used
    exact ⟨ne, used⟩
  unfold Operations.free_inode
  rw [if_neg used]
  constructor
  · exact h.tree.clear not_root names empty
  · exact h.counts
  · intro j pos
    have ne : j ≠ i := fun same => by rw [same, lookups] at pos; exact Nat.lt_irrefl _ pos
    rw [inodes_clear_ne ne]
    exact h.looked_up j pos
  · intro x mem
    have ne : x.2 ≠ i := by
      intro same
      have pos : 0 < s.inode_open_count i := countP_pos_iff.mpr ⟨x, mem, by simpa using same⟩
      omega
    rw [inodes_clear_ne ne]
    exact h.opened x mem
  · intro j p pending
    have ne : j ≠ i := by
      intro same
      rw [same, claimed] at pending
      cases pending
    rw [inodes_clear_ne ne, read_clear_ne ne]
    exact h.pending_file j p pending
  · intro j p pending _
    have ne : some i ≠ some j := by
      intro same
      rw [← some.inj same, claimed] at pending
      cases pending
    exact h.pending_held j p pending ne
  · intro j _ is_used gone
    obtain ⟨ne, was⟩ := others is_used
    rw [read_clear_ne ne] at gone
    exact h.unlinked j (fun same => ne (some.inj same).symm) was gone
  · intro j is_used
    obtain ⟨ne, was⟩ := others is_used
    rw [read_clear_ne ne]
    exact h.files j was
  · intro j k used_j used_k same
    obtain ⟨ne_j, was_j⟩ := others used_j
    obtain ⟨ne_k, was_k⟩ := others used_k
    rw [read_clear_ne ne_j, read_clear_ne ne_k] at same
    exact h.distinct j k was_j was_k same
  · intro f mem
    obtain rfl | old := mem_cons.mp mem
    · refine ⟨rfl, rfl, closed, ?_⟩
      rw [← h.counts, lookups]
    · exact h.right f old
  · intro f mem
    obtain rfl | old := mem_cons.mp mem
    · refine ⟨h.files i used, fun j is_used same => ?_⟩
      obtain ⟨ne, was⟩ := others is_used
      rw [read_clear_ne ne] at same
      exact ne (h.distinct j i was used same)
    · refine ⟨(h.past f old).1, fun j is_used => ?_⟩
      obtain ⟨ne, was⟩ := others is_used
      rw [read_clear_ne ne]
      exact (h.past f old).2 j was
  · refine nodup_cons.mpr ⟨fun mem => ?_, h.once⟩
    obtain ⟨f, f_mem, same⟩ := mem_map.mp mem
    exact (h.past f f_mem).2 i used same.symm

theorem Sound.tighten (h : Sound (some i) s)
    (held : ∀ p, s.pending_deletions i = some p → 0 < s.lookup_counts i ∨ 0 < s.inode_open_count i)
    (unlinked : s.disk.inodes i ≠ none → (s.disk.read i).nlink = 0 →
      s.pending_deletions i ≠ none) : Sound none s :=
  { h with
    pending_held := by
      intro j p pending _
      by_cases same : j = i
      · subst same
        exact held p pending
      · exact h.pending_held j p pending fun eq => same (some.inj eq).symm
    unlinked := by
      intro j _ used gone
      by_cases same : j = i
      · subst same
        exact unlinked used gone
      · exact h.unlinked j (fun eq => same (some.inj eq).symm) used gone }

theorem Tree.unlinked (t : Tree d) (used : d.inodes i ≠ none) (gone : (d.read i).nlink = 0) :
    i ≠ UFS_ROOT_INODE ∧ d.names i = 0 ∧ ∀ x ∈ d.entries, x.dir ≠ i := by
  cases dir : d.isDir i with
  | false =>
    refine ⟨fun root => ?_, (t.file_links i used dir).symm.trans gone, fun x mem at_i => ?_⟩
    · rw [root, t.root_dir] at dir
      cases dir
    · rw [← at_i, t.dir_used x mem] at dir
      cases dir
  | true =>
    have lost : d.has_path i = false := by
      by_contra has
      have links := t.dir_links i dir (by simpa using has)
      omega
    have no_name : ¬ (i = UFS_ROOT_INODE ∨ 0 < d.names i) := by
      rw [← has_path_iff, lost]
      exact Bool.false_ne_true
    exact ⟨fun root => no_name (.inl root),
      Nat.eq_zero_of_not_pos fun pos => no_name (.inr pos), (t.dir_gone i dir lost).2⟩

theorem Sound.unpend (h : Sound (some i) s) :
    Sound (some i) { s with pending_deletions := update s.pending_deletions i none } := by
  have other : ∀ {j p}, update s.pending_deletions i none j = some p →
      s.pending_deletions j = some p := by
    intro j p pending
    rw [update_apply] at pending
    split at pending
    · cases pending
    · exact pending
  exact { h with
    pending_file := fun j p pending => h.pending_file j p (other pending)
    pending_held := fun j p pending => h.pending_held j p (other pending)
    unlinked := by
      intro j tight used gone
      have ne : j ≠ i := fun same => tight (congrArg some same.symm)
      dsimp only
      rw [update_of_ne ne]
      exact h.unlinked j tight used gone }

theorem Sound.maybe_finalize (h : Sound (some i) s)
    (unlinked : s.disk.inodes i ≠ none → (s.disk.read i).nlink = 0 →
      s.pending_deletions i ≠ none) : Sound none (s.maybe_finalize_pending_inode i) := by
  unfold Operations.maybe_finalize_pending_inode
  split
  · next claimed =>
    refine h.tighten (fun p pending => ?_) unlinked
    rw [claimed] at pending
    cases pending
  next pending waiting =>
  split
  · next looked => exact h.tighten (fun _ _ => .inl looked) unlinked
  split
  · next opened => exact h.tighten (fun _ _ => .inr opened) unlinked
  have popped := h.unpend
  unfold Operations.finalize_ufs_unlinked_inode
  split
  · next linked =>
    refine popped.tighten (fun p pending => ?_) fun _ gone => ?_
    · dsimp only at pending
      rw [update_self] at pending
      cases pending
    · omega
  · next gone =>
    obtain ⟨used, file⟩ := h.pending_file i pending waiting
    have zero : (s.disk.read i).nlink = 0 := Nat.eq_zero_of_not_pos gone
    obtain ⟨not_root, names, empty⟩ := h.tree.unlinked used zero
    rw [zero, ← file]
    exact popped.free used not_root names empty (by dsimp only; omega)
      (Nat.eq_zero_of_not_pos (by assumption)) (update_self _ _ _)

theorem Sound.add_lookup (h : Sound loose s) (used : s.disk.inodes i ≠ none) :
    Sound loose (s.add_lookup i) := by
  have grows : ∀ j, s.lookup_counts j ≤ update s.lookup_counts i (s.lookup_counts i + 1) j := by
    intro j
    by_cases same : j = i
    · rw [same, update_self]
      exact Nat.le_succ _
    · exact Nat.le_of_eq (update_of_ne same _ _).symm
  exact { h with
    counts := by
      unfold Operations.add_lookup
      rw [h.counts]
    looked_up := by
      intro j pos
      by_cases same : j = i
      · rw [same]
        exact used
      · refine h.looked_up j ?_
        unfold Operations.add_lookup at pos
        dsimp only at pos
        rwa [update_of_ne same] at pos
    pending_held := fun j p pending tight =>
      (h.pending_held j p pending tight).imp_left fun pos => Nat.lt_of_lt_of_le pos (grows j) }

section
variable (h : Sound none s)
include h

theorem Sound.forget_one (nlookup : Nat) :
    Sound none (s.forget_one i nlookup) := by
  have left : (if nlookup < s.lookup_counts i then s.lookup_counts i - nlookup else 0) =
      s.kernel_lookups i - nlookup := by
    rw [← h.counts]
    split
    · rfl
    · omega
  have counted : Sound (some i)
      { s with
        lookup_counts :=
          update s.lookup_counts i
            (if nlookup < s.lookup_counts i then s.lookup_counts i - nlookup else 0)
        kernel_lookups := update s.kernel_lookups i (s.kernel_lookups i - nlookup) } :=
    { h.loosen i with
      counts := by
        rw [left, h.counts]
      looked_up := by
        intro j pos
        dsimp only at pos
        refine h.looked_up j ?_
        by_cases same : j = i
        · rw [same, update_self, left, ← h.counts] at pos
          rw [same]
          omega
        · rwa [update_of_ne same] at pos
      pending_held := by
        intro j p pending tight
        have ne : j ≠ i := fun same => tight (congrArg some same.symm)
        dsimp only
        rw [update_of_ne ne]
        exact h.pending_held j p pending nofun }
  exact counted.maybe_finalize (h.unlinked i nofun)

theorem Sound.forget (inode_list : List (Nat × Nat)) : Sound none (s.forget inode_list) := by
  induction inode_list generalizing s with
  | nil => exact h
  | cons x rest ih => exact ih (h.forget_one x.2)

theorem Sound.lookup (parent : Nat) (name : String) : Sound none (s.lookup parent name) := by
  unfold Operations.lookup
  split
  · exact h
  · next e found =>
    split
    · exact h.add_lookup (h.tree.child_used e (mem_of_lookup found).1)
    · exact h

theorem Sound.readdir (fh start_id taken : Nat)
    (current : ∀ e ∈ s.replies fh start_id taken, e ∈ s.disk.entries) :
    Sound none (s.readdir fh start_id taken) := by
  unfold Operations.readdir
  dsimp only
  generalize s.replies fh start_id taken = replied at current
  generalize (s.directory_handles.map _) = handles
  have loaded : Sound none { s with directory_handles := handles } := { h with }
  have same : ({ s with directory_handles := handles } : Operations).disk = s.disk := rfl
  revert loaded same
  generalize ({ s with directory_handles := handles } : Operations) = s'
  induction replied generalizing s' with
  | nil => exact fun loaded _ => loaded
  | cons e rest ih =>
    intro loaded same
    have used := h.tree.child_used e (current e mem_cons_self)
    exact ih (fun x mem => current x (mem_cons_of_mem _ mem)) _
      (loaded.add_lookup (same ▸ used)) same

theorem Sound.open_file (inode : Nat) : Sound none (s.open_file inode) := by
  unfold Operations.open_file
  split
  · next ready =>
    exact { h with
      opened := by
        intro x mem
        obtain rfl | old := mem_cons.mp mem
        · exact ready.1
        · exact h.opened x old
      pending_held := fun j p pending tight =>
        (h.pending_held j p pending tight).imp_right fun pos =>
          Nat.lt_of_lt_of_le pos (List.Sublist.countP_le (sublist_cons_self _ _)) }
  · exact h

end

theorem lookup_split {α : Type} {xs : List (Nat × α)} {k : Nat} {a : α}
    (found : xs.lookup k = some a) :
    ∃ before after, xs = before ++ (k, a) :: after ∧ xs.eraseP (·.1 = k) = before ++ after := by
  induction xs with
  | nil => cases found
  | cons x xs ih =>
    obtain ⟨k', a'⟩ := x
    by_cases same : k = k'
    · subst same
      rw [lookup_cons_self] at found
      cases found
      exact ⟨[], xs, rfl, by simp⟩
    · rw [lookup_cons, beq_eq_false_iff_ne.mpr same] at found
      obtain ⟨before, after, rfl, erased⟩ := ih found
      refine ⟨(k', a') :: before, after, rfl, ?_⟩
      rw [eraseP_cons_of_neg (by simpa using Ne.symm same), erased]
      rfl

theorem Sound.release (h : Sound none s) (fh : Nat) : Sound none (s.release fh) := by
  unfold Operations.release
  split
  · exact h
  next inode found =>
  obtain ⟨before, after, handles, erased⟩ := lookup_split found
  have closed : Sound (some inode) { s with open_handles := s.open_handles.eraseP (·.1 = fh) } :=
    { h.loosen inode with
      opened := fun x mem => h.opened x (mem_of_mem_eraseP mem)
      pending_held := by
        intro j p pending tight
        have ne : inode ≠ j := fun same => tight (congrArg some same)
        refine (h.pending_held j p pending nofun).imp_right fun pos => ?_
        unfold Operations.inode_open_count at pos ⊢
        rw [erased, countP_append]
        rwa [handles, countP_append, countP_cons_of_neg (by simpa using ne)] at pos }
  exact closed.maybe_finalize (h.unlinked inode nofun)

end UfsFuse

/- What the calls that add, move and remove names keep. -/
namespace UfsFuse
open Function Disk List

variable {s : Operations} {e t : Entry} {i : Nat}

theorem file_write_nlink (d : Disk) (i n j : Nat) :
    ((d.write_nlink i n).read j).file = (d.read j).file := by
  by_cases same : j = i
  · subst same
    cases at_j : d.inodes j <;> simp [Disk.read, write_nlink, at_j]
  · rw [read_write_nlink_ne same]

theorem Sound.pend (h : Sound none s) (used : s.disk.inodes i ≠ none)
    (held : 0 < s.lookup_counts i ∨ 0 < s.inode_open_count i) (directory : Bool) :
    Sound none { s with
      pending_deletions := update s.pending_deletions i
        (some ⟨directory, (s.disk.read i).file⟩) } :=
  { h with
    pending_file := by
      intro j p pending
      by_cases same : j = i
      · subst same
        dsimp only at pending
        rw [update_self] at pending
        cases pending
        exact ⟨used, rfl⟩
      · dsimp only at pending
        rw [update_of_ne same] at pending
        exact h.pending_file j p pending
    pending_held := by
      intro j p pending _
      by_cases same : j = i
      · rw [same]
        exact held
      · dsimp only at pending
        rw [update_of_ne same] at pending
        exact h.pending_held j p pending nofun
    unlinked := by
      intro j _ is_used gone
      dsimp only
      rw [update_apply]
      split
      · exact Option.some_ne_none _
      · exact h.unlinked j nofun is_used gone }

theorem free_inode_congr (d d' : Disk) (used : d.inodes i ≠ none) (used' : d'.inodes i ≠ none)
    (cleared : d.clear i = d'.clear i) (file : (d.read i).file = (d'.read i).file)
    (f nlink : Nat) :
    ({ s with disk := d } : Operations).free_inode i f nlink =
      ({ s with disk := d' } : Operations).free_inode i f nlink := by
  unfold Operations.free_inode
  rw [if_neg used, if_neg used', cleared, file]
  rfl

theorem clear_write_nlink (d : Disk) (i n : Nat) : (d.write_nlink i n).clear i = d.clear i := by
  simp [clear, write_nlink]

theorem not_claimed (h : Sound none s) (lookups : s.lookup_counts i = 0)
    (closed : s.inode_open_count i = 0) : s.pending_deletions i = none := by
  by_contra pending
  obtain ⟨p, claimed⟩ := Option.ne_none_iff_exists'.mp pending
  have held := h.pending_held i p claimed nofun
  omega

structure Removed (s s' : Operations) (t : Entry) : Prop where
  sound : Sound none s'
  entries : s'.disk.entries = s.disk.entries.erase t
  dirs : ∀ j, j ≠ t.child → s'.disk.isDir j = s.disk.isDir j
  settled : s'.disk.inodes t.child ≠ none →
    (s'.disk.read t.child).nlink ≠ 0 ∧ s'.disk.isDir t.child = false
  lookups : s'.lookup_counts = s.lookup_counts
  parent : (s'.disk.read t.dir).nlink =
    (s.disk.read t.dir).nlink - if s.disk.isDir t.child then 1 else 0

theorem Sound.unlink_ufs_path (h : Sound none s) (mem : t ∈ s.disk.entries)
    (file : s.disk.isDir t.child = false) (lookups : s.lookup_counts t.child = 0)
    (free : 1 < (s.disk.read t.child).nlink ∨ s.inode_open_count t.child = 0) :
    Removed s (s.unlink_ufs_path t) t := by
  have used := h.tree.child_used t mem
  have parent : t.dir ≠ t.child := by
    intro same
    have dir := h.tree.dir_used t mem
    rw [same, file] at dir
    cases dir
  have tree := h.tree.detach_path mem file
  have nlink := nlink_write_nlink (d := s.disk.delete_entry t)
    (n := (s.disk.read t.child).nlink - 1) (by simpa using used)
  have links := h.tree.file_links _ used file
  have other : ∀ j, j ≠ t.child → (s.disk.detach_path t).read j = s.disk.read j := by
    intro j ne
    unfold Disk.detach_path
    rw [read_write_nlink_ne ne, read_delete_entry]
  have detached : Sound (some t.child) { s with disk := s.disk.detach_path t } := by
    refine (h.loosen t.child).relink tree (by simp [Disk.detach_path]) ?_ rfl ?_
    · intro j
      exact file_write_nlink _ _ _ j
    · intro j tight gone
      left
      rwa [other j fun same => tight (congrArg some same.symm)] at gone
  unfold Operations.unlink_ufs_path
  dsimp only
  split
  · next many =>
    have kept : Sound none { s with disk := s.disk.detach_path t } := by
      refine h.relink tree (by simp [Disk.detach_path]) (fun j => file_write_nlink _ _ _ j) rfl ?_
      intro j _ gone
      left
      by_cases same : j = t.child
      · subst same
        rw [Disk.detach_path, nlink] at gone
        omega
      · rwa [other j same] at gone
    refine ⟨kept, rfl, fun j _ => ?_, fun _ => ⟨?_, ?_⟩, rfl, ?_⟩
    · exact isDir_write_nlink.trans isDir_delete_entry
    · rw [nlink]
      omega
    · exact (isDir_write_nlink.trans isDir_delete_entry).trans file
    · rw [file]
      exact congrArg Dinode.nlink (other t.dir parent)
  · next last =>
    have closed := free.resolve_left last
    have one : (s.disk.read t.child).nlink - 1 = 0 := by omega
    have gone : (s.disk.detach_path t).names t.child = 0 := by
      have count := names_delete mem (i := t.child)
      rw [if_pos rfl] at count
      have rest : (s.disk.delete_entry t).names t.child = 0 := by omega
      exact rest
    have empty : ∀ x ∈ (s.disk.detach_path t).entries, x.dir ≠ t.child := by
      intro x x_mem at_child
      have dir := h.tree.dir_used x (mem_of_mem_erase x_mem)
      rw [at_child, file] at dir
      cases dir
    have claimed := not_claimed h lookups closed
    have freed := detached.free (by simpa [Disk.detach_path] using used) (h.tree.not_root mem)
      gone empty lookups closed claimed
    have same_file : ((s.disk.detach_path t).read t.child).file = (s.disk.read t.child).file :=
      file_write_nlink _ _ _ _
    rw [one, free_inode_congr _ (s.disk.detach_path t) (by simpa using used)
      (by simpa [Disk.detach_path] using used) (clear_write_nlink _ _ _).symm
      (by rw [same_file, read_delete_entry]) _ 0]
    rw [same_file] at freed
    refine ⟨freed, ?_, fun j ne => ?_, fun is_used => absurd ?_ is_used, ?_, ?_⟩
    all_goals unfold Operations.free_inode
    all_goals rw [if_neg (by simpa [Disk.detach_path] using used)]
    · rfl
    · rw [isDir_clear_ne ne]
      exact isDir_write_nlink.trans isDir_delete_entry
    · exact inodes_clear
    · rw [file]
      rw [read_clear_ne parent, other t.dir parent]
      rfl

theorem Sound.remove_ufs_directory (h : Sound none s) (mem : t ∈ s.disk.entries)
    (dir : s.disk.isDir t.child = true) (empty : s.disk.is_empty t.child = true)
    (lookups : s.lookup_counts t.child = 0) (closed : s.inode_open_count t.child = 0) :
    Removed s (s.remove_ufs_directory t) t := by
  have used := h.tree.child_used t mem
  have nothing : ∀ x ∈ s.disk.entries, x.dir ≠ t.child := by simpa [is_empty] using empty
  have apart : t.dir ≠ t.child := nothing t mem
  have parent_used : s.disk.inodes t.dir ≠ none := used_of_isDir (h.tree.dir_used t mem)
  have tree := h.tree.detach_directory mem dir empty
  have claimed := not_claimed h lookups closed
  have same_file : ∀ j, ((s.disk.detach_directory t).read j).file = (s.disk.read j).file := by
    intro j
    unfold Disk.detach_directory
    rw [file_write_nlink, file_write_nlink, read_delete_entry]
  have other : ∀ j, j ≠ t.child → j ≠ t.dir →
      (s.disk.detach_directory t).read j = s.disk.read j := by
    intro j not_child not_dir
    unfold Disk.detach_directory
    rw [read_write_nlink_ne not_child, read_write_nlink_ne not_dir, read_delete_entry]
  have parent : ((s.disk.detach_directory t).read t.dir).nlink = (s.disk.read t.dir).nlink - 1 := by
    unfold Disk.detach_directory
    rw [read_write_nlink_ne apart, nlink_write_nlink (by simpa using parent_used)]
  have parent_links := h.tree.dir_links t.dir (h.tree.dir_used t mem) (h.tree.dir_has_path mem)
  have detached : Sound (some t.child) { s with disk := s.disk.detach_directory t } := by
    refine (h.loosen t.child).relink tree (by simp [Disk.detach_directory]) same_file rfl ?_
    intro j tight gone
    have not_child : j ≠ t.child := fun same => tight (congrArg some same.symm)
    left
    by_cases at_parent : j = t.dir
    · rw [at_parent, parent] at gone
      omega
    · rwa [other j not_child at_parent] at gone
  have gone : (s.disk.detach_directory t).names t.child = 0 := by
    have count := names_delete mem (i := t.child)
    have one := h.tree.dir_names t.child dir
    rw [if_pos rfl] at count
    have rest : (s.disk.delete_entry t).names t.child = 0 := by omega
    exact rest
  have freed := detached.free (by simpa [Disk.detach_directory] using used) (h.tree.not_root mem)
    gone (fun x x_mem => nothing x (mem_of_mem_erase x_mem)) lookups closed claimed
  unfold Operations.remove_ufs_directory
  rw [same_file] at freed
  rw [free_inode_congr _ (s.disk.detach_directory t) (by simpa using used)
    (by simpa [Disk.detach_directory] using used) (clear_write_nlink _ _ _).symm
    (by rw [same_file, file_write_nlink, read_delete_entry]) _ 0]
  refine ⟨freed, ?_, fun j ne => ?_, fun is_used => absurd ?_ is_used, ?_, ?_⟩
  all_goals unfold Operations.free_inode
  all_goals rw [if_neg (by simpa [Disk.detach_directory] using used)]
  · rfl
  · rw [isDir_clear_ne ne, Disk.detach_directory, isDir_write_nlink, isDir_write_nlink,
      isDir_delete_entry]
  · exact inodes_clear
  · rw [dir]
    rw [read_clear_ne apart, parent]
    rfl

def Room (d : Disk) (e : Entry) (dir nlink : Nat) : Prop :=
  d.isDir e.child = true → e.dir ≠ dir → nlink + 1 < nlink_limit

theorem Sound.move (h : Sound none s) (mem : e ∈ s.disk.entries) {dir : Nat} (name : String)
    (at_dir : s.disk.isDir dir = true) (path : s.disk.has_path dir = true)
    (room : Room s.disk e dir (s.disk.read dir).nlink) :
    Sound none { s with disk := (s.disk.move e dir name).1 } ∧ (s.disk.move e dir name).2 = true ∧
      ∀ j, j ≠ e.dir → j ≠ dir → (s.disk.move e dir name).1.read j = s.disk.read j := by
  unfold Disk.move
  by_cases other : s.disk.isDir e.child = true ∧ e.dir ≠ dir
  · rw [if_pos other, if_pos (room other.1 other.2)]
    have links := h.tree.dir_links e.dir (h.tree.dir_used e mem) (h.tree.dir_has_path mem)
    have reads : ∀ j, j ≠ e.dir → j ≠ dir →
        ((((s.disk.add_entry ⟨dir, name, e.child⟩).write_nlink e.dir
          ((s.disk.read e.dir).nlink - 1)).write_nlink dir
            ((s.disk.read dir).nlink + 1)).delete_entry e).read j = s.disk.read j := by
      intro j not_old not_new
      rw [read_delete_entry, read_write_nlink_ne not_new, read_write_nlink_ne not_old,
        read_add_entry]
    refine ⟨?_, rfl, reads⟩
    refine h.relink (h.tree.move_directory mem other.1 name at_dir path other.2) (by simp) ?_ rfl ?_
    · intro j
      rw [read_delete_entry, file_write_nlink, file_write_nlink, read_add_entry]
    · intro j _ gone
      left
      by_cases new : j = dir
      · subst new
        rw [read_delete_entry, nlink_write_nlink (by simpa using used_of_isDir at_dir)] at gone
        cases gone
      · by_cases old : j = e.dir
        · subst old
          rw [read_delete_entry, read_write_nlink_ne new, nlink_write_nlink
            (by simpa using used_of_isDir (h.tree.dir_used e mem))] at gone
          omega
        · rwa [reads j old new] at gone
  · rw [if_neg other]
    have tree : Tree ((s.disk.add_entry ⟨dir, name, e.child⟩).delete_entry e) := by
      cases kind : s.disk.isDir e.child with
      | false => exact h.tree.move_file mem kind name at_dir path
      | true =>
        have same : e.dir = dir := by
          by_contra apart
          exact other ⟨kind, apart⟩
        exact same ▸ h.tree.rename_directory mem kind name
    exact ⟨h.relink tree (by simp) (fun _ => rfl) rfl fun _ _ gone => .inl gone, rfl,
      fun _ _ _ => rfl⟩

end UfsFuse
