import Svr4.Host.FsckIssues

/- What the loop of a repair over the issues leaves behind. -/
namespace UfsFsck
open Function UfsGroups List
variable {now n a e d : Nat} {fs : Layout} {disk : Disk} {r r' : Repair} {issue : UFSFsckIssue}
  {C C' : Nat → Prop} {L L' : Nat → Nat → Prop} {D D' : Nat → String → Prop} {name : String}
  {P : UFSFsckIssue → Prop} {rest : List UFSFsckIssue}

def WellFormed (fs : Layout) (disk : Disk) : Prop :=
  ∀ d ∈ live_directories fs disk, ((disk.records d).map Record.name).Nodup

/-- The disk with the inodes of `C` cleared, the link counts of `L` written and the entries of
`D` deleted. -/
structure Progress (fs : Layout) (disk : Disk) (C : Nat → Prop) (L : Nat → Nat → Prop)
    (D : Nat → String → Prop) (r : Repair) : Prop where
  cleared : ∀ n, C n → r.disk.inodes n = cleared (disk.inodes n)
  kept : ∀ n, ¬ C n → r.disk.inodes n =
    { disk.inodes n with nlink := (r.disk.inodes n).nlink }
  linked : ∀ n e, ¬ C n → L n e → (r.disk.inodes n).nlink.val = e
  unlinked : ∀ n, ¬ C n → (∀ e, ¬ L n e) → (r.disk.inodes n).nlink = (disk.inodes n).nlink
  records : ∀ d ∈ live_directories fs disk, r.disk.records d = (disk.records d).filter fun record =>
    decide ((d, record.name) ∉ r.removed_directory_entries)
  others : ∀ d, d ∉ live_directories fs disk → r.disk.records d = disk.records d
  frame : r.disk = { disk with inodes := r.disk.inodes, records := r.disk.records }
  removed_entries : ∀ d name, (d, name) ∈ r.removed_directory_entries ↔ D d name
  cleared_inodes : ∀ n, n ∈ r.cleared_inodes ↔ C n
  repaired_links : ∀ n, n ∈ r.repaired_links ↔ ∃ e, L n e

theorem Progress.start : Progress fs disk (fun _ => False) (fun _ _ => False) (fun _ _ => False)
    ⟨disk, [], [], [], false, false, false⟩ := by
  refine ⟨nofun, fun _ _ => rfl, nofun, fun _ _ _ => rfl, fun d _ => ?_, fun _ _ => rfl, rfl,
    fun _ _ => by simp, fun _ => by simp, fun _ => by simp⟩
  simp

section
variable (h : Progress fs disk C L D r)
include h

theorem Progress.congr (c : ∀ n, C n ↔ C' n) (l : ∀ n e, L n e ↔ L' n e)
    (d : ∀ n name, D n name ↔ D' n name) :
    Progress fs disk C' L' D' r := by
  obtain rfl : C = C' := funext fun n => propext (c n)
  obtain rfl : L = L' := funext fun n => funext fun e => propext (l n e)
  obtain rfl : D = D' := funext fun n => funext fun name => propext (d n name)
  exact h

theorem Progress.flags (bitmaps summaries modified : Bool) : Progress fs disk C L D { r with
      rebuilt_bitmaps := bitmaps, rebuilt_summaries := summaries, modified := modified } :=
  { h with }

theorem Progress.clear (fresh : ¬ C n) : Progress fs disk (fun n' => C n' ∨ n' = n) L D { r with
      disk := clear_ufs_inode r.disk n
      cleared_inodes := r.cleared_inodes ++ [n]
      modified := true } := by
  have other : ∀ n', n' ≠ n → (clear_ufs_inode r.disk n).inodes n' = r.disk.inodes n' :=
    fun n' ne => update_of_ne ne _ _
  refine ⟨fun n' c => ?_, fun n' c => ?_, fun n' e c l => ?_, fun n' c l => ?_, h.records, h.others,
    ?_, h.removed_entries, fun n' => ?_, h.repaired_links⟩
  · by_cases same : n' = n
    · subst same
      have here : (clear_ufs_inode r.disk n').inodes n' = UfsFsck.cleared (r.disk.inodes n') :=
        update_self _ _ _
      rw [here, h.kept n' fresh]
      rfl
    · exact (other n' same).trans (h.cleared n' (c.resolve_right same))
  · have apart := not_or.mp c
    rw [other n' apart.2]
    exact h.kept n' apart.1
  · have apart := not_or.mp c
    rw [other n' apart.2]
    exact h.linked n' e apart.1 l
  · have apart := not_or.mp c
    rw [other n' apart.2]
    exact h.unlinked n' apart.1 l
  · unfold clear_ufs_inode
    rw [h.frame]
  · rw [mem_append, mem_singleton, h.cleared_inodes]

theorem Progress.link (fresh : ∀ e, ¬ L n e) (fits : e < 65536) (keep : ¬ C n) :
    Progress fs disk C (fun n' e' => L n' e' ∨ (n' = n ∧ e' = e)) D { r with
      disk := { r.disk with
        inodes := update r.disk.inodes n { r.disk.inodes n with nlink := ⟨e, fits⟩ } }
      repaired_links := n :: r.repaired_links
      modified := true } := by
  refine ⟨fun n' c => ?_, fun n' c => ?_, fun n' e' c l => ?_, fun n' c l => ?_, h.records, h.others,
    ?_, h.removed_entries, h.cleared_inodes, fun n' => ?_⟩
  · have other : n' ≠ n := fun same => keep (same ▸ c)
    exact (update_of_ne other _ _).trans (h.cleared n' c)
  · by_cases same : n' = n
    · subst same
      dsimp only
      rw [update_self, h.kept n' c]
    · dsimp only
      rw [update_of_ne same]
      exact h.kept n' c
  · by_cases same : n' = n
    · subst same
      have value : e' = e := l.elim (fun l => absurd l (fresh e')) And.right
      dsimp only
      rw [update_self, value]
    · dsimp only
      rw [update_of_ne same]
      exact h.linked n' e' c (l.resolve_right fun l => same l.1)
  · have other : n' ≠ n := fun same => l e (.inr ⟨same, rfl⟩)
    dsimp only
    rw [update_of_ne other]
    exact h.unlinked n' c fun e' l' => l e' (.inl l')
  · rw [h.frame]
  · rw [mem_cons, h.repaired_links]
    constructor
    · rintro (rfl | ⟨e', l⟩)
      · exact ⟨e, .inr ⟨rfl, rfl⟩⟩
      · exact ⟨e', .inl l⟩
    · rintro ⟨e', l | ⟨same, -⟩⟩
      · exact .inr ⟨e', l⟩
      · exact .inl same

end

theorem eraseP_eq_filter {records : List Record} (nodup : (records.map Record.name).Nodup)
    (name : String) : records.eraseP (·.name = name) = records.filter (·.name ≠ name) := by
  induction records with
  | nil => rfl
  | cons record records ih =>
    rw [map_cons, nodup_cons] at nodup
    by_cases same : record.name = name
    · rw [eraseP_cons_of_pos (by simpa using same), filter_cons_of_neg (by simpa using same)]
      refine (filter_eq_self.mpr fun other mem => ?_).symm
      refine decide_eq_true fun again => nodup.1 ?_
      rw [same, ← again]
      exact mem_map_of_mem mem
    · rw [eraseP_cons_of_neg (by simpa using same), filter_cons_of_pos (by simpa using same),
        ih nodup.2]

theorem Progress.remove (h : Progress fs disk C L D r) (formed : WellFormed fs disk)
    (directory : d ∈ live_directories fs disk) :
    Progress fs disk C L (fun d' name' => D d' name' ∨ (d' = d ∧ name' = name)) { r with
      disk := { r.disk with
        records := update r.disk.records d ((r.disk.records d).eraseP (·.name = name)) }
      removed_directory_entries := (d, name) :: r.removed_directory_entries
      modified := true } := by
  refine { h with
    records := fun d' live => ?_
    others := fun d' dead => ?_
    frame := ?_
    removed_entries := fun d' name' => ?_ }
  · dsimp only
    by_cases same : d' = d
    · subst same
      have nodup : ((r.disk.records d').map Record.name).Nodup := by
        rw [h.records d' live]
        exact (formed d' live).sublist (filter_sublist.map Record.name)
      rw [update_self, eraseP_eq_filter nodup, h.records d' live, filter_filter]
      refine filter_congr fun record _ => ?_
      simp [not_or]
    · rw [update_of_ne same, h.records d' live]
      refine filter_congr fun record _ => ?_
      simp [same]
  · have other : d' ≠ d := fun same => dead (same ▸ directory)
    dsimp only
    rw [update_of_ne other]
    exact h.others d' dead
  · rw [h.frame]
  · rw [mem_cons, h.removed_entries, Prod.mk.injEq, or_comm]

section Loop
variable {done : List UFSFsckIssue}

def Clearing (done : List UFSFsckIssue) (n : Nat) : Prop :=
  .partially_allocated_inode n free_with_data ∈ done

def Linking (done : List UFSFsckIssue) (n e : Nat) : Prop :=
  ∃ a, .link_count_mismatch n a e ∈ done

def Deleting (done : List UFSFsckIssue) (d : Nat) (name : String) : Prop :=
  ∃ c, .directory_entry_to_free_inode d c name ∈ done

def is_bitmap_issue : UFSFsckIssue → Bool
  | .bitmap_mismatch _ _ _ => true
  | _ => false

structure After (fs : Layout) (disk : Disk) (done : List UFSFsckIssue) (r : Repair) : Prop where
  progress : Progress fs disk (Clearing done) (Linking done) (Deleting done) r
  rebuilt_bitmaps : r.rebuilt_bitmaps = true ↔ ∃ issue ∈ done, is_bitmap_issue issue = true
  rebuilt_summaries : r.rebuilt_summaries = true ↔
    ∃ issue ∈ done, is_bitmap_issue issue = true ∨ is_summary_issue issue = true

structure Reported (fs : Layout) (disk : Disk) (issue : UFSFsckIssue) : Prop where
  clears : ∀ n, issue = .partially_allocated_inode n free_with_data → is_live fs disk n = false
  links : ∀ n a e, issue = .link_count_mismatch n a e →
    is_live fs disk n = true ∧ e = reference_count fs disk n
  removes : ∀ d c name, issue = .directory_entry_to_free_inode d c name →
    d ∈ live_directories fs disk ∧ ∃ record ∈ disk.records d, record.name = name

def Fits (issue : UFSFsckIssue) : Prop := ∀ n a e, issue = .link_count_mismatch n a e → e < 65536

theorem clearing_append : Clearing (done ++ [issue]) n ↔ Clearing done n ∨
    issue = .partially_allocated_inode n free_with_data := by
  simp [Clearing, eq_comm]

theorem linking_append : Linking (done ++ [issue]) n e ↔ Linking done n e ∨
    ∃ a, issue = .link_count_mismatch n a e := by
  simp [Linking, eq_comm, exists_or]

theorem deleting_append : Deleting (done ++ [issue]) d name ↔
    Deleting done d name ∨ ∃ c, issue = .directory_entry_to_free_inode d c name := by
  simp [Deleting, eq_comm, exists_or]

def changes_disk : UFSFsckIssue → Bool
  | .partially_allocated_inode _ message => message = free_with_data
  | .link_count_mismatch .. | .directory_entry_to_free_inode .. => true
  | _ => false

theorem After.same (h : After fs disk done r) (same : changes_disk issue = false) :
    Progress fs disk (Clearing (done ++ [issue])) (Linking (done ++ [issue]))
      (Deleting (done ++ [issue])) r := by
  refine h.progress.congr (fun n => ?_) (fun n e => ?_) fun d name => ?_
  · rw [clearing_append, or_iff_left]
    rintro rfl
    simp [changes_disk] at same
  · rw [linking_append, or_iff_left]
    rintro ⟨a, rfl⟩
    cases same
  · rw [deleting_append, or_iff_left]
    rintro ⟨c, rfl⟩
    cases same

theorem After.flagged (h : After fs disk done r) (same : changes_disk issue = false)
    (bitmaps summaries modified : Bool) :
    Progress fs disk (Clearing (done ++ [issue])) (Linking (done ++ [issue]))
      (Deleting (done ++ [issue])) { r with
        rebuilt_bitmaps := bitmaps, rebuilt_summaries := summaries, modified := modified } :=
  (h.same same).flags bitmaps summaries modified

theorem flags_append {flag : Bool} (h : flag = true ↔ ∃ issue ∈ done, P issue) (no : ¬ P issue) :
    flag = true ↔ ∃ issue' ∈ done ++ [issue], P issue' := by
  rw [h]
  simp [or_and_right, exists_or, no]

theorem After.quiet (h : After fs disk done r) (issue : UFSFsckIssue)
    (no_bitmap : is_bitmap_issue issue = false) (no_summary : is_summary_issue issue = false) :
    (r.rebuilt_bitmaps = true ↔ ∃ issue' ∈ done ++ [issue], is_bitmap_issue issue' = true) ∧
      (r.rebuilt_summaries = true ↔ ∃ issue' ∈ done ++ [issue],
        is_bitmap_issue issue' = true ∨ is_summary_issue issue' = true) :=
  ⟨flags_append h.rebuilt_bitmaps (by simp [no_bitmap]),
    flags_append h.rebuilt_summaries (by simp [no_bitmap, no_summary])⟩

theorem After.skip (h : After fs disk done r) (issue : UFSFsckIssue)
    (same : changes_disk issue = false) (no_bitmap : is_bitmap_issue issue = false)
    (no_summary : is_summary_issue issue = false) : After fs disk (done ++ [issue]) r :=
  ⟨h.same same, (h.quiet issue no_bitmap no_summary).1, (h.quiet issue no_bitmap no_summary).2⟩

theorem flags_set (yes : P issue) : true = true ↔ ∃ issue' ∈ done ++ [issue], P issue' :=
  iff_of_true rfl ⟨issue, by simp, yes⟩

theorem After.clear_step (h : After fs disk done r) :
    ∃ r', repair_issue r (.partially_allocated_inode n free_with_data) = some r' ∧
      After fs disk (done ++ [.partially_allocated_inode n free_with_data]) r' := by
  have clearing : ∀ n', Clearing (done ++ [.partially_allocated_inode n free_with_data]) n' ↔
      Clearing done n' ∨ n' = n := by
    intro n'
    rw [clearing_append, UFSFsckIssue.partially_allocated_inode.injEq, and_iff_left rfl]
    exact or_congr_right eq_comm
  have linking : ∀ n' e, Linking done n' e ↔
      Linking (done ++ [.partially_allocated_inode n free_with_data]) n' e :=
    fun n' e => (linking_append.trans (or_iff_left fun ⟨a, h⟩ => nomatch h)).symm
  have deleting : ∀ d name, Deleting done d name ↔
      Deleting (done ++ [.partially_allocated_inode n free_with_data]) d name :=
    fun d name => (deleting_append.trans (or_iff_left fun ⟨c, h⟩ => nomatch h)).symm
  obtain ⟨bitmaps, summaries⟩ := h.quiet (.partially_allocated_inode n free_with_data) rfl rfl
  unfold repair_issue
  dsimp only
  split
  · next again =>
    have again : n ∈ r.cleared_inodes := again.resolve_left fun ne => ne rfl
    refine ⟨r, rfl, h.progress.congr (fun n' => ?_) linking deleting, bitmaps, summaries⟩
    rw [clearing]
    refine (or_iff_left_of_imp ?_).symm
    rintro rfl
    exact (h.progress.cleared_inodes n').mp again
  · next first =>
    have fresh : ¬ Clearing done n := fun c =>
      first (.inr ((h.progress.cleared_inodes n).mpr c))
    exact ⟨_, rfl, (h.progress.clear fresh).congr (fun n' => (clearing n').symm) linking deleting,
      bitmaps, summaries⟩

theorem After.link_step (h : After fs disk done r)
    (reported : Reported fs disk (.link_count_mismatch n a e))
    (before : ∀ issue ∈ done, Reported fs disk issue) (fits : e < 65536) :
    ∃ r', repair_issue r (.link_count_mismatch n a e) = some r' ∧
      After fs disk (done ++ [.link_count_mismatch n a e]) r' := by
  obtain ⟨live, value⟩ := reported.links n a e rfl
  have clearing : ∀ n', Clearing done n' ↔ Clearing (done ++ [.link_count_mismatch n a e]) n' :=
    fun n' => by simp [clearing_append]
  have linking : ∀ n' e', Linking (done ++ [.link_count_mismatch n a e]) n' e' ↔
      Linking done n' e' ∨ (n' = n ∧ e' = e) := by
    intro n' e'
    rw [linking_append]
    simp only [UFSFsckIssue.link_count_mismatch.injEq]
    refine or_congr_right ⟨?_, ?_⟩
    · rintro ⟨a', rfl, -, rfl⟩
      exact ⟨rfl, rfl⟩
    · rintro ⟨rfl, rfl⟩
      exact ⟨a, rfl, rfl, rfl⟩
  have deleting : ∀ d name, Deleting done d name ↔
      Deleting (done ++ [.link_count_mismatch n a e]) d name :=
    fun d name => (deleting_append.trans (or_iff_left fun ⟨c, h⟩ => nomatch h)).symm
  obtain ⟨bitmaps, summaries⟩ := h.quiet (.link_count_mismatch n a e) rfl rfl
  unfold repair_issue
  dsimp only
  split
  · next again =>
    refine ⟨r, rfl, h.progress.congr clearing (fun n' e' => ?_) deleting, bitmaps, summaries⟩
    rw [linking]
    refine (or_iff_left_of_imp ?_).symm
    rintro ⟨rfl, rfl⟩
    obtain ⟨e'', a', mem⟩ := (h.progress.repaired_links n').mp again
    have value' := ((before _ mem).links n' a' e'' rfl).2
    exact ⟨a', value.trans value'.symm ▸ mem⟩
  · next first =>
    have fresh : ∀ e, ¬ Linking done n e := fun e l =>
      first ((h.progress.repaired_links n).mpr ⟨e, l⟩)
    have keep : ¬ Clearing done n := fun c =>
      Bool.noConfusion (((before _ c).clears n rfl).symm.trans live)
    unfold write_ufs_inode_nlink
    rw [dif_pos fits]
    exact ⟨_, rfl, (h.progress.link fresh fits keep).congr clearing
      (fun n' e' => (linking n' e').symm) deleting, bitmaps, summaries⟩

theorem After.remove_step (h : After fs disk done r) (formed : WellFormed fs disk) {d c : Nat}
    (reported : Reported fs disk (.directory_entry_to_free_inode d c name))
    (before : ∀ issue ∈ done, Reported fs disk issue) :
    ∃ r', repair_issue r (.directory_entry_to_free_inode d c name) = some r' ∧
      After fs disk (done ++ [.directory_entry_to_free_inode d c name]) r' := by
  obtain ⟨directory, record, mem, named⟩ := reported.removes d c name rfl
  obtain ⟨-, live_directory⟩ := mem_filter.mp directory
  obtain ⟨live, is_directory⟩ := Bool.and_eq_true_iff.mp live_directory
  have clearing : ∀ n', Clearing done n' ↔
      Clearing (done ++ [.directory_entry_to_free_inode d c name]) n' :=
    fun n' => by simp [clearing_append]
  have linking : ∀ n' e', Linking done n' e' ↔
      Linking (done ++ [.directory_entry_to_free_inode d c name]) n' e' :=
    fun n' e => (linking_append.trans (or_iff_left fun ⟨a, h⟩ => nomatch h)).symm
  have deleting : ∀ d' name', Deleting (done ++ [.directory_entry_to_free_inode d c name]) d' name' ↔
      Deleting done d' name' ∨ (d' = d ∧ name' = name) := by
    intro d' name'
    rw [deleting_append]
    simp only [UFSFsckIssue.directory_entry_to_free_inode.injEq]
    refine or_congr_right ⟨?_, ?_⟩
    · rintro ⟨c', rfl, -, rfl⟩
      exact ⟨rfl, rfl⟩
    · rintro ⟨rfl, rfl⟩
      exact ⟨c, rfl, rfl, rfl⟩
  obtain ⟨bitmaps, summaries⟩ := h.quiet (.directory_entry_to_free_inode d c name) rfl rfl
  unfold repair_issue
  dsimp only
  split
  · next again =>
    refine ⟨r, rfl, h.progress.congr clearing linking (fun d' name' => ?_), bitmaps, summaries⟩
    rw [deleting]
    refine (or_iff_left_of_imp ?_).symm
    rintro ⟨rfl, rfl⟩
    exact (h.progress.removed_entries d' name').mp again
  next first =>
  have keep : ¬ Clearing done d := fun c =>
    Bool.noConfusion (((before _ c).clears d rfl).symm.trans live)
  have kept := h.progress.kept d keep
  have directory_still : ufs_is_directory (r.disk.inodes d) = true := by
    rw [kept]
    exact is_directory
  have there : ((r.disk.records d).any (·.name = name)) = true := by
    rw [h.progress.records d directory, any_eq_true]
    refine ⟨record, mem_filter.mpr ⟨mem, ?_⟩, by simpa using named⟩
    rw [named]
    simpa using first
  rw [if_neg (by simp [typed_of_directory directory_still, directory_still])]
  unfold delete_ufs_directory_entry
  rw [if_pos there]
  exact ⟨_, rfl, (h.progress.remove formed directory).congr clearing linking
    fun d' name' => (deleting d' name').symm, bitmaps, summaries⟩

theorem After.step (h : After fs disk done r) (formed : WellFormed fs disk)
    (reported : Reported fs disk issue) (before : ∀ issue ∈ done, Reported fs disk issue)
    (fits : Fits issue) :
    ∃ r', repair_issue r issue = some r' ∧ After fs disk (done ++ [issue]) r' := by
  cases issue with
  | partially_allocated_inode n message =>
    by_cases free : message = free_with_data
    · subst free
      exact h.clear_step
    · have same : changes_disk (.partially_allocated_inode n message) = false := by
        simpa [changes_disk] using free
      refine ⟨r, ?_, h.skip _ same rfl rfl⟩
      exact if_pos (.inl free)
  | link_count_mismatch n a e => exact h.link_step reported before (fits n a e rfl)
  | directory_entry_to_free_inode d c name => exact h.remove_step formed reported before
  | bitmap_mismatch cg i f =>
    refine ⟨_, rfl, h.flagged rfl _ _ _, flags_set rfl, flags_set (.inl rfl)⟩
  | summary_mismatch | cached_summary_mismatch | summary_information_mismatch
  | superblock_summary_mismatch =>
    exact ⟨_, rfl, h.flagged rfl _ _ _, flags_append h.rebuilt_bitmaps nofun,
      flags_set (.inr rfl)⟩
  | _ =>
    exact ⟨r, rfl, h.skip _ rfl rfl rfl⟩

theorem After.loop (h : After fs disk done r) (formed : WellFormed fs disk)
    {rest : List UFSFsckIssue} (reported : ∀ issue ∈ done ++ rest, Reported fs disk issue)
    (fits : ∀ issue ∈ rest, Fits issue) :
    ∃ r', rest.foldlM repair_issue r = some r' ∧ After fs disk (done ++ rest) r' := by
  induction rest generalizing done r with
  | nil => exact ⟨r, rfl, (append_nil done).symm ▸ h⟩
  | cons issue rest ih =>
    obtain ⟨r₁, taken, after⟩ := h.step formed (reported issue (by simp))
      (fun issue mem => reported issue (mem_append_left _ mem)) (fits issue mem_cons_self)
    have split : done ++ issue :: rest = done ++ [issue] ++ rest := by simp
    rw [split] at reported ⊢
    obtain ⟨r', run, after'⟩ := ih after reported fun issue mem =>
      fits issue (mem_cons_of_mem _ mem)
    refine ⟨r', ?_, after'⟩
    rw [foldlM_cons, taken]
    exact run

theorem After.unfit (h : After fs disk done r)
    (reported : Reported fs disk (.link_count_mismatch n a e))
    (before : ∀ issue ∈ done, Reported fs disk issue) (fits : ∀ issue ∈ done, Fits issue)
    (large : ¬ e < 65536) : repair_issue r (.link_count_mismatch n a e) = none := by
  have first : n ∉ r.repaired_links := by
    intro again
    obtain ⟨e', a', mem⟩ := (h.progress.repaired_links n).mp again
    have same : e' = e :=
      ((before _ mem).links n a' e' rfl).2.trans (reported.links n a e rfl).2.symm
    exact large (same ▸ fits _ mem n a' e' rfl)
  unfold repair_issue
  dsimp only
  rw [if_neg first]
  unfold write_ufs_inode_nlink
  rw [dif_neg large]
  rfl

theorem After.loop_fails (h : After fs disk done r) (formed : WellFormed fs disk)
    (reported : ∀ issue ∈ done ++ rest, Reported fs disk issue)
    (before : ∀ issue ∈ done, Fits issue) (large : ∃ issue ∈ rest, ¬ Fits issue) :
    rest.foldlM repair_issue r = none := by
  induction rest generalizing done r with
  | nil => exact nomatch large.choose_spec.1
  | cons issue rest ih =>
    have own := reported issue (by simp)
    have earlier : ∀ issue ∈ done, Reported fs disk issue := fun issue mem =>
      reported issue (mem_append_left _ mem)
    rw [foldlM_cons]
    by_cases fits : Fits issue
    · obtain ⟨r₁, taken, after⟩ := h.step formed own earlier fits
      have split : done ++ issue :: rest = done ++ [issue] ++ rest := by simp
      rw [split] at reported
      rw [taken]
      refine ih after reported (fun issue' mem => ?_) ?_
      · rcases mem_append.mp mem with mem | mem
        · exact before issue' mem
        · exact mem_singleton.mp mem ▸ fits
      · obtain ⟨issue', mem, unfit⟩ := large
        rcases mem_cons.mp mem with rfl | mem
        · exact absurd fits unfit
        · exact ⟨issue', mem, unfit⟩
    · obtain ⟨n, a, e, rfl, unfit⟩ : ∃ n a e, issue = .link_count_mismatch n a e ∧ ¬ e < 65536 := by
        unfold Fits at fits
        push Not at fits
        simpa using fits
      rw [h.unfit own earlier before unfit]
      rfl

theorem repair_issue_quiet (quiet : is_repaired issue = false) : repair_issue r issue = some r := by
  cases issue with
  | partially_allocated_inode n message => exact if_pos (.inl (of_decide_eq_false quiet))
  | bad_block => rfl
  | duplicate_block => rfl
  | unknown_file_type => rfl
  | incorrect_block_count => rfl
  | directory_entry_to_invalid_inode => rfl
  | _ => cases quiet

theorem repair_quiet (quiet : ∀ issue ∈ (analyze_ufs_filesystem now fs disk).issues,
    is_repaired issue = false) : repair_ufs_filesystem now fs disk = some (disk, [], false) := by
  have still : ∀ (issues : List UFSFsckIssue) (r : Repair),
      (∀ issue ∈ issues, is_repaired issue = false) → issues.foldlM repair_issue r = some r := by
    intro issues
    induction issues with
    | nil => exact fun _ _ => rfl
    | cons issue issues ih =>
      intro r quiet
      rw [foldlM_cons, repair_issue_quiet (quiet issue mem_cons_self)]
      exact ih r fun issue mem => quiet issue (mem_cons_of_mem _ mem)
  unfold repair_ufs_filesystem
  rw [still _ _ quiet]
  rfl

end Loop

end UfsFsck
