import Mathlib.Data.List.Nodup
import Svr4.Host.FsckRepair

/- When a check after a repair finds nothing left to repair. -/
namespace UfsFsck
open UfsGroups Accumulators List Nat
variable {now cg f now' n : Nat} {fs : Layout} {disk : Disk} {r : Repair}

/-- Group headers and areas of a sane size, two reserved inodes in the first group, and no name
twice in a directory. -/
structure Admitted (fs : Layout) (disk : Disk) : Prop where
  formed : WellFormed fs disk
  two : 2 ≤ fs.ipg
  ndblk : ∀ cg < fs.ncg, (disk.groups cg).ndblk ≤ fs.fpg
  metadata : ∀ cg < fs.ncg, ufs_cgdmin fs cg ≤ ufs_cgbase fs (cg + 1)

theorem reported (two : 2 ≤ fs.ipg) {issue : UFSFsckIssue}
    (mem : issue ∈ (analyze_ufs_filesystem now fs disk).issues) : Reported fs disk issue := by
  refine ⟨?_, ?_, ?_⟩
  · rintro n rfl
    obtain ⟨-, free, -⟩ := (clears_iff two).mp mem
    unfold is_live
    rw [free]
    rfl
  · rintro n a e rfl
    obtain ⟨-, live, -, -, -, value⟩ := (links_iff two).mp mem
    exact ⟨live, value⟩
  · rintro d c name rfl
    obtain ⟨record, removed, -, named⟩ := (removes_iff two).mp mem
    exact ⟨removed.1, record, removed.2.1, named⟩

theorem After.begin : After fs disk [] ⟨disk, [], [], [], false, false, false⟩ := by
  refine ⟨Progress.start.congr (fun n => ?_) (fun n e => ?_) fun d name => ?_, ?_, ?_⟩
  · simp [Clearing]
  · simp [Linking]
  · simp [Deleting]
  · simp
  · simp

theorem mem_rebuilt_blocks (x : Nat) : x ∈ rebuilt_blocks fs disk ↔ x ∈ reserved_blocks fs ∨
    ∃ n, inode_known fs n = true ∧ (disk.inodes n).mode ≠ 0 ∧ x ∈ inode_fragments fs disk n := by
  have each : ∀ n, Adds (fun _ => True) (fun seen : List Nat => seen)
      (fun seen => if (disk.inodes n).mode = 0 then seen
        else (scan_inode_blocks fs disk.pointers n (disk.inodes n) ⟨0, seen, []⟩).seen_blocks)
      fun x => (disk.inodes n).mode ≠ 0 ∧ x ∈ inode_fragments fs disk n := by
    intro n seen x _
    dsimp only
    split
    · next zero => exact ⟨Or.inl, fun h => h.elim id fun h => absurd zero h.1⟩
    · next typed =>
      rw [mem_scan_inode_blocks, and_iff_right typed]
  refine (Adds.foldl each (known_inodes fs) _ x trivial).trans (or_congr_right ?_)
  exact exists_congr fun n => and_congr_left' mem_known

section Finish
variable {issues : List UFSFsckIssue}

theorem finish_fields (r : Repair) : (r.finish now fs).inodes = r.disk.inodes ∧
    (r.finish now fs).records = r.disk.records ∧ (r.finish now fs).pointers = r.disk.pointers := by
  unfold Repair.finish
  split <;> split <;> exact ⟨rfl, rfl, rfl⟩

def rebuilt_groups (fs : Layout) (r : Repair) (cg : Nat) : Group :=
  (if r.rebuilt_bitmaps then rebuild_bitmaps fs r.disk else r.disk).groups cg

theorem finish_groups (r : Repair) (cg : Nat) :
    ((r.finish now fs).groups cg).used = (rebuilt_groups fs r cg).used ∧
    ((r.finish now fs).groups cg).free = (rebuilt_groups fs r cg).free ∧
    ((r.finish now fs).groups cg).ndblk = (rebuilt_groups fs r cg).ndblk := by
  unfold Repair.finish rebuilt_groups
  dsimp only
  split
  · unfold recompute_ufs_summary_counts Image.write_ufs_summary_counts summary_image
    dsimp only
    split <;> exact ⟨rfl, rfl, rfl⟩
  · exact ⟨rfl, rfl, rfl⟩

variable {n : Nat}

theorem exists_place (known : inode_known fs n = true) :
    ∃ cg < fs.ncg, ∃ i < fs.ipg, n = cg * fs.ipg + i ∧ 2 ≤ n := by
  have bounds : 2 ≤ n ∧ n < fs.ipg * fs.ncg := of_decide_eq_true known
  obtain ⟨cg, inside, i, i_inside, same⟩ := (exists_number (p := (n = ·))).mpr ⟨n, bounds.2, rfl⟩
  exact ⟨cg, mem_range.mp inside, i, mem_range.mp i_inside, same, bounds.1⟩

theorem expected_header_later (later : now ≤ now') (cg ndblk : Nat) (h : Header)
    (right : h = expected_header now fs cg ndblk h) :
    h = expected_header now' fs cg ndblk h := by
  have time : h.time = if h.time = 0 then 0 else min h.time now := congrArg Header.time right
  have early : h.time ≤ now := by
    split at time
    · omega
    · exact time ▸ min_le_right _ _
  have same : (if h.time = 0 then 0 else min h.time now') =
      if h.time = 0 then 0 else min h.time now := by
    rw [min_eq_left early, min_eq_left (le_trans early later)]
  refine right.trans ?_
  unfold expected_header
  rw [same]

theorem keep_of_used (two : 2 ≤ fs.ipg) (used : is_ufs_inode_used fs disk n = true) :
    ¬ Clearing (analyze_ufs_filesystem now fs disk).issues n := fun c =>
  Bool.noConfusion (((clears_iff two).mp c).2.1.symm.trans used)

theorem keep_of_live (two : 2 ≤ fs.ipg) (live : is_live fs disk n = true) :
    ¬ Clearing (analyze_ufs_filesystem now fs disk).issues n := by
  exact keep_of_used two (of_decide_eq_true live).1

theorem expected_header_twice (cg ndblk : Nat) (h : Header) : expected_header now fs cg ndblk h =
      expected_header now fs cg ndblk (expected_header now fs cg ndblk h) := by
  unfold expected_header
  simp only [Header.mk.injEq, true_and]
  refine ⟨?_, ?_, ?_, ?_⟩
  · split <;> grind
  · grind
  · grind
  · grind

theorem recomputed_right (now : Nat) (fs : Layout) (disk : Disk) :
    SummariesRight now fs (recompute_ufs_summary_counts now fs disk) := by
  have written : Agrees fs.toGeometry
      ((summary_image disk).write_ufs_summary_counts fs.toGeometry false) :=
    (write_ufs_summary_counts_agrees false nofun).1
  refine ⟨written, fun cg inside => ?_⟩
  have ndblk : ((recompute_ufs_summary_counts now fs disk).groups cg).ndblk =
      (disk.groups cg).ndblk := by
    unfold recompute_ufs_summary_counts Image.write_ufs_summary_counts summary_image
    dsimp only
    rw [if_pos inside]
  rw [ndblk]
  unfold recompute_ufs_summary_counts
  dsimp only
  rw [if_pos inside]
  exact expected_header_twice cg _ _

theorem SummariesRight.later (right : SummariesRight now fs disk) (later : now ≤ now') :
    SummariesRight now' fs disk :=
  ⟨right.agrees, fun cg inside => expected_header_later later cg _ _ (right.headers cg inside)⟩

theorem contains_data_kept {inode : Inode} (nlink : Fin 65536) :
    contains_data { inode with nlink := nlink } = contains_data inode := rfl

variable (after : After fs disk (analyze_ufs_filesystem now fs disk).issues r)
include after

theorem inode_kept (keep : ¬ Clearing (analyze_ufs_filesystem now fs disk).issues n) :
    (r.finish now fs).inodes n =
      { disk.inodes n with nlink := ((r.finish now fs).inodes n).nlink } := by
  rw [(finish_fields r).1]
  exact after.progress.kept n keep

theorem used_place {cg i : Nat} (inside : cg < fs.ncg) (i_inside : i < fs.ipg) :
    ((r.finish now fs).groups cg).used i = if r.rebuilt_bitmaps = true then
      inode_in_use fs (r.finish now fs) (cg * fs.ipg + i) else (disk.groups cg).used i := by
  rw [(finish_groups r cg).1]
  unfold rebuilt_groups
  split
  · unfold rebuild_bitmaps inode_in_use
    dsimp only
    rw [if_pos inside]
    dsimp only
    rw [if_pos i_inside, (finish_fields r).1]
  · rw [after.progress.frame]

theorem mode_iff (n : Nat) : ((r.finish now fs).inodes n).mode ≠ 0 ↔
    ¬ Clearing (analyze_ufs_filesystem now fs disk).issues n ∧ (disk.inodes n).mode ≠ 0 := by
  by_cases c : Clearing (analyze_ufs_filesystem now fs disk).issues n
  · rw [(finish_fields r).1, after.progress.cleared n c]
    exact iff_of_false (fun h => h rfl) fun h => h.1 c
  · rw [inode_kept after c, and_iff_right c]

theorem used_iff (known : inode_known fs n = true) (rebuilt : r.rebuilt_bitmaps = true) :
    is_ufs_inode_used fs (r.finish now fs) n = true ↔ ((r.finish now fs).inodes n).mode ≠ 0 := by
  obtain ⟨cg, inside, i, i_inside, rfl, big⟩ := exists_place known
  rw [used_eq _ i_inside, used_place after inside i_inside, if_pos rebuilt]
  unfold inode_in_use
  rw [decide_eq_true_iff, or_iff_right (by omega), and_iff_right known]

theorem used_same (known : inode_known fs n = true) (keeps : r.rebuilt_bitmaps = false) :
    is_ufs_inode_used fs (r.finish now fs) n = is_ufs_inode_used fs disk n := by
  obtain ⟨cg, inside, i, i_inside, rfl, -⟩ := exists_place known
  rw [used_eq _ i_inside, used_eq _ i_inside, used_place after inside i_inside, keeps]
  rfl

theorem free_place (inside : cg < fs.ncg) (f_inside : f < (disk.groups cg).ndblk)
    (data : data_frag_start fs cg ≤ f) (rebuilt : r.rebuilt_bitmaps = true) :
    ((r.finish now fs).groups cg).free f =
      decide (ufs_cgbase fs cg + f ∉ rebuilt_blocks fs (r.finish now fs)) := by
  have blocks : rebuilt_blocks fs (r.finish now fs) = rebuilt_blocks fs r.disk := by
    unfold rebuilt_blocks
    rw [(finish_fields r).1, (finish_fields r).2.2]
  have ndblk : (r.disk.groups cg).ndblk = (disk.groups cg).ndblk := by
    rw [after.progress.frame]
  rw [(finish_groups r cg).2.1, blocks]
  unfold rebuilt_groups
  rw [if_pos rebuilt]
  unfold rebuild_bitmaps
  dsimp only
  rw [if_pos inside]
  dsimp only
  rw [if_pos ⟨data, ndblk ▸ f_inside⟩]

theorem ndblk_after (cg : Nat) : ((r.finish now fs).groups cg).ndblk = (disk.groups cg).ndblk := by
  rw [(finish_groups r cg).2.2]
  unfold rebuilt_groups
  have ndblk : (r.disk.groups cg).ndblk = (disk.groups cg).ndblk := by
    rw [after.progress.frame]
  split
  · unfold rebuild_bitmaps
    dsimp only
    split <;> exact ndblk
  · exact ndblk

variable (ok : Admitted fs disk)
include ok

theorem bitmaps_right (keeps : r.rebuilt_bitmaps = false) : BitmapsRight fs disk := by
  refine (bitmaps_right_iff now ok.two).mpr fun cg i f mem => ?_
  have rebuilt := after.rebuilt_bitmaps.mpr ⟨_, mem, rfl⟩
  rw [keeps] at rebuilt
  cases rebuilt

theorem live_same (known : inode_known fs n = true) :
    is_live fs (r.finish now fs) n = is_live fs disk n := by
  rw [Bool.eq_iff_iff]
  unfold is_live
  rw [decide_eq_true_iff, decide_eq_true_iff]
  cases rebuilt : r.rebuilt_bitmaps with
  | true =>
    rw [used_iff after known rebuilt, and_self, mode_iff after]
    constructor
    · rintro ⟨keep, typed⟩
      refine ⟨?_, typed⟩
      by_contra free
      refine keep ((clears_iff ok.two).mpr ⟨known, by simpa using free, ?_⟩)
      unfold contains_data
      rw [decide_eq_true_iff]
      exact .inl typed
    · rintro ⟨used, typed⟩
      exact ⟨keep_of_used ok.two used, typed⟩
  | false =>
    rw [used_same after known rebuilt, mode_iff after]
    constructor
    · rintro ⟨used, -, typed⟩
      exact ⟨used, typed⟩
    · rintro ⟨used, typed⟩
      exact ⟨used, keep_of_used ok.two used, typed⟩

theorem directories_same : live_directories fs (r.finish now fs) = live_directories fs disk := by
  refine filter_congr fun n mem => ?_
  have known := mem_known.mp mem
  rw [live_same after ok known]
  cases live : is_live fs disk n with
  | false => rfl
  | true =>
    rw [inode_kept after (keep_of_live ok.two live)]
    rfl

theorem fragments_same (live : is_live fs disk n = true) :
    inode_fragments fs (r.finish now fs) n = inode_fragments fs disk n := by
  have kept := inode_kept after (keep_of_live ok.two live)
  refine inode_fragments_congr ?_ ?_ ?_ ?_
  · rw [(finish_fields r).2.2, after.progress.frame]
  · rw [kept]
  · rw [kept]
  · rw [kept]

theorem records_left {d : Nat} (directory : d ∈ live_directories fs disk) (record : Record) :
    record ∈ (r.finish now fs).records d ↔
      record ∈ disk.records d ∧ ¬ Removed fs disk d record := by
  rw [(finish_fields r).2.1, after.progress.records d directory, mem_filter,
    decide_eq_true_iff, after.progress.removed_entries]
  refine and_congr_right fun mem => not_congr ?_
  constructor
  · rintro ⟨c, reported⟩
    obtain ⟨other, removed, -, named⟩ := (removes_iff ok.two).mp reported
    have same : other = record := inj_on_of_nodup_map (ok.formed d directory) removed.2.1 mem named
    exact same ▸ removed
  · intro removed
    exact ⟨record.inode, (removes_iff ok.two).mpr ⟨record, removed, rfl, rfl⟩⟩

theorem references_same (live : is_live fs disk n = true) :
    reference_count fs (r.finish now fs) n = reference_count fs disk n := by
  have each : ∀ d ∈ live_directories fs disk,
      ((r.finish now fs).records d).countP (fun record => decide (record.inode = n)) =
        (disk.records d).countP fun record => decide (record.inode = n) := by
    intro d directory
    rw [(finish_fields r).2.1, after.progress.records d directory, countP_filter]
    refine countP_congr fun record mem => ?_
    rw [Bool.and_eq_true, and_iff_left_iff_imp, decide_eq_true_iff, decide_eq_true_iff,
      after.progress.removed_entries]
    rintro names ⟨c, reported⟩
    obtain ⟨other, removed, -, named⟩ := (removes_iff ok.two).mp reported
    have same : other = record := inj_on_of_nodup_map (ok.formed d directory) removed.2.1 mem named
    rw [same] at removed
    exact Bool.noConfusion (removed.2.2.2.2.2.symm.trans (names ▸ live))
  unfold reference_count
  rw [directories_same after ok, countP_flatMap, countP_flatMap]
  exact congrArg List.sum (map_congr_left each)

theorem free_after (typed : ∀ n, inode_known fs n = true → is_ufs_inode_used fs disk n = true →
      (disk.inodes n).mode = 0 → contains_data (disk.inodes n) = false)
    (known : inode_known fs n = true) (free : is_ufs_inode_used fs (r.finish now fs) n = false) :
    contains_data ((r.finish now fs).inodes n) = false := by
  by_cases c : Clearing (analyze_ufs_filesystem now fs disk).issues n
  · rw [(finish_fields r).1, after.progress.cleared n c]
    simp [contains_data, cleared]
  rw [inode_kept after c, contains_data_kept]
  by_contra data
  have data : contains_data (disk.inodes n) = true := by simpa using data
  cases used : is_ufs_inode_used fs disk n with
  | false => exact c ((clears_iff ok.two).mpr ⟨known, used, data⟩)
  | true =>
    cases rebuilt : r.rebuilt_bitmaps with
    | false =>
      rw [used_same after known rebuilt, used] at free
      cases free
    | true =>
      have zero : (disk.inodes n).mode = 0 := by
        by_contra mode
        have still := (used_iff after known rebuilt).mpr ((mode_iff after n).mpr ⟨c, mode⟩)
        rw [free] at still
        cases still
      rw [typed n known used zero] at data
      cases data

theorem records_after (d : Nat) (record : Record) : ¬ Removed fs (r.finish now fs) d record := by
  rintro ⟨directory, mem, dot, dotdot, known, dead⟩
  rw [directories_same after ok] at directory
  rw [live_same after ok known] at dead
  obtain ⟨old, kept⟩ := (records_left after ok directory record).mp mem
  exact kept ⟨directory, old, dot, dotdot, known, dead⟩

theorem links_after (known : inode_known fs n = true) (live : is_live fs (r.finish now fs) n = true)
    (some_ : 0 < reference_count fs (r.finish now fs) n) :
    reference_count fs (r.finish now fs) n = ((r.finish now fs).inodes n).nlink.val := by
  rw [live_same after ok known] at live
  rw [references_same after ok live] at some_ ⊢
  have keep : ¬ Clearing (analyze_ufs_filesystem now fs disk).issues n := keep_of_live ok.two live
  rw [(finish_fields r).1]
  by_cases right : reference_count fs disk n = (disk.inodes n).nlink.val
  · rw [after.progress.unlinked n keep]
    · exact right
    · rintro e ⟨a, mem⟩
      exact ((links_iff ok.two).mp mem).2.2.2.1 right
  · have reported : .link_count_mismatch n (disk.inodes n).nlink (reference_count fs disk n) ∈
        (analyze_ufs_filesystem now fs disk).issues :=
      (links_iff ok.two).mpr ⟨known, live, some_, right, rfl, rfl⟩
    exact (after.progress.linked n _ keep ⟨_, reported⟩).symm

theorem has_blocks_after (n : Nat) : has_blocks fs (r.finish now fs) n = has_blocks fs disk n := by
  unfold has_blocks
  cases known : inode_known fs n with
  | false => rfl
  | true =>
    rw [live_same after ok known]
    cases live : is_live fs disk n with
    | false => rfl
    | true =>
      rw [inode_kept after (keep_of_live ok.two live)]
      rfl

theorem bitmaps_after : BitmapsRight fs (r.finish now fs) := by
  refine ⟨fun cg inside i i_inside => ?_, fun cg inside f f_inside data seen => ?_⟩
  · rw [used_place after inside i_inside]
    cases rebuilt : r.rebuilt_bitmaps with
    | true =>
      rw [if_pos rfl]
      unfold inode_in_use expected_used
      have small : cg * fs.ipg + i < 2 → cg = 0 := by
        intro small
        by_contra other
        have := Nat.le_mul_of_pos_left fs.ipg (Nat.pos_of_ne_zero other)
        have two := ok.two
        omega
      by_cases low : cg * fs.ipg + i < 2
      · simp [small low]
      · simp [low]
    | false =>
      rw [if_neg Bool.false_ne_true, (bitmaps_right after ok rebuilt).inodes cg inside i i_inside]
      unfold expected_used
      dsimp only
      cases known : inode_known fs (cg * fs.ipg + i) with
      | false => rfl
      | true =>
        have same : (disk.inodes (cg * fs.ipg + i)).mode ≠ 0 ↔
            ((r.finish now fs).inodes (cg * fs.ipg + i)).mode ≠ 0 := by
          rw [mode_iff after, iff_and_self]
          intro typed c
          have free := ((clears_iff ok.two).mp c).2.1
          have right := (bitmaps_right after ok rebuilt).inodes cg inside i i_inside
          rw [used_eq disk i_inside, right] at free
          unfold expected_used at free
          simp [known, typed] at free
        rw [decide_eq_decide.mpr same]
  · rw [ndblk_after after] at f_inside
    have seen : ufs_cgbase fs cg + f ∈ reserved_blocks fs ∨ ∃ n, has_blocks fs disk n = true ∧
        ufs_cgbase fs cg + f ∈ inode_fragments fs disk n := by
      refine seen.imp id ?_
      rintro ⟨n, has, mem⟩
      rw [has_blocks_after after ok] at has
      have live : is_live fs disk n = true := by
        unfold has_blocks at has
        simp only [Bool.and_eq_true] at has
        exact has.1.2
      rw [fragments_same after ok live] at mem
      exact ⟨n, has, mem⟩
    cases rebuilt : r.rebuilt_bitmaps with
    | true =>
      rw [free_place after inside f_inside data rebuilt, decide_eq_false_iff_not, not_not,
        mem_rebuilt_blocks]
      refine seen.imp id ?_
      rintro ⟨n, has, mem⟩
      unfold has_blocks at has
      simp only [Bool.and_eq_true] at has
      obtain ⟨⟨known, live⟩, -⟩ := has
      refine ⟨n, known, (mode_iff after n).mpr ⟨keep_of_live ok.two live, ?_⟩, ?_⟩
      · exact (of_decide_eq_true live).2
      · rw [fragments_same after ok live]
        exact mem
    | false =>
      rw [(finish_groups r cg).2.1]
      unfold rebuilt_groups
      rw [rebuilt, if_neg Bool.false_ne_true, after.progress.frame]
      exact (bitmaps_right after ok rebuilt).blocks cg inside f f_inside data seen

theorem summaries_after : SummariesRight now fs (r.finish now fs) := by
  unfold Repair.finish
  dsimp only
  split
  · exact recomputed_right now fs _
  next untouched =>
  simp only [not_or, not_not] at untouched
  obtain ⟨no_cleared, -, no_summaries⟩ := untouched
  have no_issue : ∀ issue ∈ (analyze_ufs_filesystem now fs disk).issues,
      is_bitmap_issue issue = false ∧ is_summary_issue issue = false := by
    intro issue mem
    have quiet := mt after.rebuilt_summaries.mpr no_summaries
    simp only [not_exists, not_and, not_or, Bool.not_eq_true] at quiet
    exact quiet issue mem
  have keeps : r.rebuilt_bitmaps = false := by
    by_contra rebuilt
    obtain ⟨issue, mem, bitmap⟩ := after.rebuilt_bitmaps.mp (by simpa using rebuilt)
    rw [(no_issue issue mem).1] at bitmap
    cases bitmap
  rw [keeps, if_neg Bool.false_ne_true]
  have right : SummariesRight now fs disk :=
    (summaries_right_iff ok.two).mpr fun issue mem => (no_issue issue mem).2
  have directories : directory_inode r.disk = directory_inode disk := by
    funext n
    have keep : ¬ Clearing (analyze_ufs_filesystem now fs disk).issues n := by
      rw [← after.progress.cleared_inodes, no_cleared]
      exact not_mem_nil
    unfold directory_inode
    rw [after.progress.kept n keep]
    rfl
  have image : summary_image r.disk = summary_image disk := by
    unfold summary_image
    rw [directories, after.progress.frame]
  refine ⟨image ▸ right.agrees, fun cg inside => ?_⟩
  rw [after.progress.frame]
  exact right.headers cg inside

end Finish

structure Converged (now : Nat) (fs : Layout) (disk disk' : Disk) : Prop where
  quiet : ∀ now', now ≤ now' → ∀ issue ∈ (analyze_ufs_filesystem now' fs disk').issues,
    is_repaired issue = false
  still : ∀ now', now ≤ now' → repair_ufs_filesystem now' fs disk' = some (disk', [], false)
  contents : ∀ n, is_ufs_inode_used fs disk n = true → disk'.pointers = disk.pointers ∧
    disk'.inodes n = { disk.inodes n with nlink := (disk'.inodes n).nlink }
  names : ∀ d ∈ live_directories fs disk, ∀ record ∈ disk.records d,
    is_live fs disk record.inode = true → record ∈ disk'.records d
  exact : (∃ issue ∈ (analyze_ufs_filesystem now fs disk).issues, is_bitmap_issue issue = true) →
    ∀ cg < fs.ncg, ∀ f < (disk'.groups cg).ndblk, data_frag_start fs cg ≤ f →
      ((disk'.groups cg).free f = false ↔ ∃ n, inode_known fs n = true ∧
        (disk'.inodes n).mode ≠ 0 ∧ is_device (disk'.inodes n) = false ∧
          ufs_cgbase fs cg + f ∈ inode_fragments fs disk' n)

structure Repairable (fs : Layout) (disk : Disk) : Prop where
  links : ∀ n, inode_known fs n = true → is_live fs disk n = true →
    reference_count fs disk n < 65536
  typed : ∀ n, inode_known fs n = true → is_ufs_inode_used fs disk n = true →
    (disk.inodes n).mode = 0 → contains_data (disk.inodes n) = false
  devices : ¬ BitmapsRight fs disk → ∀ n, inode_known fs n = true → is_live fs disk n = true →
    is_device (disk.inodes n) = true → ∀ cg < fs.ncg, ∀ f < (disk.groups cg).ndblk,
      data_frag_start fs cg ≤ f → ufs_cgbase fs cg + f ∈ inode_fragments fs disk n →
        ∃ m, has_blocks fs disk m = true ∧ ufs_cgbase fs cg + f ∈ inode_fragments fs disk m

theorem repair_after (now : Nat) (ok : Admitted fs disk)
    (links : ∀ n, inode_known fs n = true → is_live fs disk n = true →
      reference_count fs disk n < 65536) :
    ∃ r, After fs disk (analyze_ufs_filesystem now fs disk).issues r ∧
      repair_ufs_filesystem now fs disk = some (r.finish now fs, r.cleared_inodes, r.modified) := by
  have fits : ∀ issue ∈ (analyze_ufs_filesystem now fs disk).issues, Fits issue := by
    intro issue mem n a e same
    obtain ⟨known, live, -, -, -, value⟩ := (links_iff ok.two).mp (same ▸ mem)
    exact value ▸ links n known live
  have looped : ∃ r, (analyze_ufs_filesystem now fs disk).issues.foldlM repair_issue
      ⟨disk, [], [], [], false, false, false⟩ = some r ∧
        After fs disk ([] ++ (analyze_ufs_filesystem now fs disk).issues) r :=
    After.begin.loop ok.formed (fun issue mem => reported ok.two mem) fits
  obtain ⟨r, run, after⟩ := looped
  refine ⟨r, after, ?_⟩
  unfold repair_ufs_filesystem
  rw [run]
  rfl

theorem not_reserved (ok : Admitted fs disk) (inside : cg < fs.ncg)
    (f_inside : f < (disk.groups cg).ndblk) (data : data_frag_start fs cg ≤ f) :
    ufs_cgbase fs cg + f ∉ reserved_blocks fs := by
  intro mem
  unfold reserved_blocks at mem
  simp only [mem_flatMap, mem_map, mem_range] at mem
  obtain ⟨cg', inside', k, small, same⟩ := mem
  have bound := ok.metadata cg' inside'
  have ndblk := ok.ndblk cg inside
  unfold data_frag_start at data
  unfold ufs_cgbase at *
  rw [mul_succ] at bound
  have k_small : k < fs.fpg := by omega
  have f_small : f < fs.fpg := by omega
  have group : ∀ {c x : Nat}, x < fs.fpg → (fs.fpg * c + x) / fs.fpg = c := by
    intro c x x_small
    rw [mul_add_div (zero_lt_of_lt x_small), div_eq_of_lt x_small, add_zero]
  obtain rfl : cg' = cg := (group k_small).symm.trans (same ▸ group f_small)
  omega

theorem live_after (ok : Admitted fs disk)
    (after : After fs disk (analyze_ufs_filesystem now fs disk).issues r)
    (rebuilt : r.rebuilt_bitmaps = true) (known : inode_known fs n = true) :
    ((r.finish now fs).inodes n).mode ≠ 0 ↔ is_live fs disk n = true := by
  rw [← live_same after ok known]
  unfold is_live
  rw [decide_eq_true_iff, used_iff after known rebuilt, and_self]

/-- After the rebuild the fragments in use are those of the files, of which a device has some, too.
-/
theorem taken_iff (ok : Admitted fs disk)
    (after : After fs disk (analyze_ufs_filesystem now fs disk).issues r)
    (rebuilt : r.rebuilt_bitmaps = true) (inside : cg < fs.ncg)
    (f_inside : f < (disk.groups cg).ndblk) (data : data_frag_start fs cg ≤ f) :
    ((r.finish now fs).groups cg).free f = false ↔ ∃ n, inode_known fs n = true ∧
      is_live fs disk n = true ∧ ufs_cgbase fs cg + f ∈ inode_fragments fs disk n := by
  rw [free_place after inside f_inside data rebuilt, decide_eq_false_iff_not, not_not,
    mem_rebuilt_blocks, or_iff_right (not_reserved ok inside f_inside data)]
  refine exists_congr fun n => and_congr_right fun known => ?_
  rw [live_after ok after rebuilt known]
  refine and_congr_right fun live => ?_
  rw [fragments_same after ok live]

theorem referenced_iff (ok : Admitted fs disk)
    (after : After fs disk (analyze_ufs_filesystem now fs disk).issues r)
    (rebuilt : r.rebuilt_bitmaps = true) (x : Nat) :
    (∃ n, inode_known fs n = true ∧ ((r.finish now fs).inodes n).mode ≠ 0 ∧
      is_device ((r.finish now fs).inodes n) = false ∧ x ∈ inode_fragments fs (r.finish now fs) n) ↔
      ∃ n, has_blocks fs disk n = true ∧ x ∈ inode_fragments fs disk n := by
  refine exists_congr fun n => ?_
  unfold has_blocks
  cases known : inode_known fs n with
  | false => exact iff_of_false (fun h => Bool.noConfusion h.1) fun h => Bool.noConfusion h.1
  | true =>
    rw [live_after ok after rebuilt known]
    cases live : is_live fs disk n with
    | false => exact iff_of_false (fun h => Bool.noConfusion h.2.1) fun h => Bool.noConfusion h.1
    | true =>
      have device : is_device ((r.finish now fs).inodes n) = is_device (disk.inodes n) := by
        rw [inode_kept after (keep_of_live ok.two live)]
        rfl
      rw [fragments_same after ok live, device]
      simp

theorem rebuilt_iff (ok : Admitted fs disk)
    (after : After fs disk (analyze_ufs_filesystem now fs disk).issues r) :
    r.rebuilt_bitmaps = true ↔ ¬ BitmapsRight fs disk := by
  rw [after.rebuilt_bitmaps, bitmaps_right_iff now ok.two]
  simp only [not_forall, not_not]
  constructor
  · rintro ⟨issue, mem, bitmap⟩
    cases issue with
    | bitmap_mismatch cg i f => exact ⟨cg, i, f, mem⟩
    | _ => cases bitmap
  · rintro ⟨cg, i, f, mem⟩
    exact ⟨_, mem, rfl⟩

theorem Repairable.converged (ok : Admitted fs disk) (repairable : Repairable fs disk) :
    ∃ disk' cleared modified, repair_ufs_filesystem now fs disk = some (disk', cleared, modified) ∧
      Converged now fs disk disk' := by
  obtain ⟨r, after, run⟩ := repair_after now ok repairable.links
  have sound : Sound now fs (r.finish now fs) :=
    ⟨fun n known free => free_after after ok repairable.typed known free,
      records_after after ok, fun n known live some_ => links_after after ok known live some_,
      bitmaps_after after ok, summaries_after after ok⟩
  have quiet : ∀ now', now ≤ now' → ∀ issue ∈
      (analyze_ufs_filesystem now' fs (r.finish now fs)).issues, is_repaired issue = false :=
    fun now' later => (sound_iff ok.two).mp { sound with summaries := sound.summaries.later later }
  refine ⟨_, _, _, run, quiet, fun now' later => repair_quiet (quiet now' later), ?_, ?_, ?_⟩
  · intro n used
    exact ⟨by rw [(finish_fields r).2.2, after.progress.frame],
      inode_kept after (keep_of_used ok.two used)⟩
  · intro d directory record mem live
    refine (records_left after ok directory record).mpr ⟨mem, fun removed => ?_⟩
    exact Bool.noConfusion (removed.2.2.2.2.2.symm.trans live)
  · intro reported cg inside f f_inside data
    have rebuilt := after.rebuilt_bitmaps.mpr reported
    rw [ndblk_after after] at f_inside
    rw [taken_iff ok after rebuilt inside f_inside data, referenced_iff ok after rebuilt]
    constructor
    · rintro ⟨n, known, live, mem⟩
      cases device : is_device (disk.inodes n) with
      | false => exact ⟨n, by simp [has_blocks, known, live, device], mem⟩
      | true =>
        exact repairable.devices ((rebuilt_iff ok after).mp rebuilt) n known live device cg inside f
          f_inside data mem
    · rintro ⟨n, has, mem⟩
      unfold has_blocks at has
      simp only [Bool.and_eq_true] at has
      exact ⟨n, has.1.1, has.1.2, mem⟩

theorem Repairable.of_converged (ok : Admitted fs disk) (done : ∃ disk' cleared modified,
      repair_ufs_filesystem now fs disk = some (disk', cleared, modified) ∧
        Converged now fs disk disk') : Repairable fs disk := by
  obtain ⟨disk', cleared, modified, run, converged⟩ := done
  have links : ∀ n, inode_known fs n = true → is_live fs disk n = true →
      reference_count fs disk n < 65536 := by
    intro n known live
    by_contra large
    have mem : .link_count_mismatch n (disk.inodes n).nlink (reference_count fs disk n) ∈
        (analyze_ufs_filesystem now fs disk).issues :=
      (links_iff ok.two).mpr ⟨known, live, by omega, by omega, rfl, rfl⟩
    have fails : (analyze_ufs_filesystem now fs disk).issues.foldlM repair_issue
        ⟨disk, [], [], [], false, false, false⟩ = none :=
      After.begin.loop_fails ok.formed (fun issue mem => reported ok.two mem) nofun
        ⟨_, mem, fun fits => large (fits _ _ _ rfl)⟩
    unfold repair_ufs_filesystem at run
    rw [fails] at run
    cases run
  obtain ⟨r, after, same⟩ := repair_after now ok links
  obtain rfl : r.finish now fs = disk' := congrArg Prod.fst (Option.some.inj (same.symm.trans run))
  refine ⟨links, fun n known used zero => ?_, ?_⟩
  · by_contra data
    have data : contains_data (disk.inodes n) = true := by simpa using data
    have rebuilt : r.rebuilt_bitmaps = true := by
      refine (rebuilt_iff ok after).mpr fun right => ?_
      obtain ⟨cg, inside, i, i_inside, rfl, big⟩ := exists_place known
      rw [used_eq disk i_inside, right.inodes cg inside i i_inside] at used
      unfold expected_used at used
      have low : ¬ cg * fs.ipg + i < 2 := by omega
      simp [zero, low] at used
    have keep : ¬ Clearing (analyze_ufs_filesystem now fs disk).issues n := keep_of_used ok.two used
    have free : is_ufs_inode_used fs (r.finish now fs) n = false := by
      rw [← Bool.not_eq_true, used_iff after known rebuilt, mode_iff after]
      exact fun h => h.2 zero
    have still : contains_data ((r.finish now fs).inodes n) = true := by
      rw [inode_kept after keep]
      exact data
    have quiet := converged.quiet now (le_refl now) _ ((clears_iff ok.two).mpr ⟨known, free, still⟩)
    simp [is_repaired, issue_is_fixable] at quiet
  · intro wrong n known live _ cg inside f f_inside data mem
    have rebuilt := (rebuilt_iff ok after).mpr wrong
    refine (referenced_iff ok after rebuilt _).mp ?_
    refine (converged.exact (after.rebuilt_bitmaps.mp rebuilt) cg inside f ?_ data).mp ?_
    · rw [ndblk_after after]
      exact f_inside
    · exact (taken_iff ok after rebuilt inside f_inside data).mpr ⟨n, known, live, mem⟩

/-- A repair does what it is to do on these images and no others. -/
theorem repair_converges_iff (now : Nat) (ok : Admitted fs disk) :
    (∃ disk' cleared modified,
      repair_ufs_filesystem now fs disk = some (disk', cleared, modified) ∧
        Converged now fs disk disk') ↔ Repairable fs disk :=
  ⟨Repairable.of_converged ok, Repairable.converged ok⟩

def small_layout : Layout :=
  { ncg := 1, ipg := 4, frag := 8, spc := 64, nsect := 32, nspf := 1, csaddr := 0, cssize := 0
    bsize := 4096, fsize := 512, nindir := 1024, fpg := 32, dsize := 32, cgoffset := 0
    cgmask := 0, cblkno := 2, dblkno := 8, cpg := 1, ncyl := 1 }

/-- A root directory with one entry, for the character device `rdev`; its fragment is free in the
bitmap. -/
def device_disk (rdev : Nat) : Disk where
  inodes n :=
    if n = 2 then ⟨UFS_IFDIR + 0o755, 512, 3, 1, [8], [], []⟩
    else if n = 3 then ⟨UFS_IFCHR + 0o600, 0, 1, 0, [rdev], [], []⟩
    else ⟨0, 0, 0, 0, [], [], []⟩
  groups _ := ⟨32, fun f => 8 ≤ f, fun _ => true, Counts.zero, Scan.start.tables⟩
  headers _ := ⟨0, 0, 0, 0, 0, 0, 0, 0⟩
  fs_cs _ := Counts.zero
  totals := Counts.zero
  records n := if n = 2 then [⟨".", 2⟩, ⟨"..", 2⟩, ⟨"console", 3⟩] else []
  pointers _ := []

theorem known_small (known : inode_known small_layout n = true) : n = 2 ∨ n = 3 := by
  have bounds : 2 ≤ n ∧ n < 4 := of_decide_eq_true known
  omega

theorem device_disk_admitted (rdev : Nat) : Admitted small_layout (device_disk rdev) := by
  refine ⟨fun d mem => ?_, by decide, fun _ _ => le_refl 32, fun cg inside => ?_⟩
  · have known := mem_known.mp (mem_filter.mp mem).1
    rcases known_small known with rfl | rfl
    · show [".", "..", "console"].Nodup
      decide
    · exact nodup_nil
  · obtain rfl : cg = 0 := lt_one_iff.mp inside
    decide

/-- The device with the number 16 is taken for a file with the block 16. -/
theorem device_number_taken_for_block : Admitted small_layout (device_disk 16) ∧
    ¬ ∃ disk' cleared modified,
      repair_ufs_filesystem 0 small_layout (device_disk 16) = some (disk', cleared, modified) ∧
        Converged 0 small_layout (device_disk 16) disk' := by
  refine ⟨device_disk_admitted 16, fun done => ?_⟩
  have repairable := Repairable.of_converged (device_disk_admitted 16) done
  have wrong : ¬ BitmapsRight small_layout (device_disk 16) := by
    intro right
    have free := right.blocks 0 (by decide) 8 (by decide) (by decide)
      (.inr ⟨2, by decide, by decide⟩)
    exact Bool.noConfusion free
  obtain ⟨m, has, mem⟩ := repairable.devices wrong 3 (by decide) (by decide) (by decide) 0
    (by decide) 16 (by decide) (by decide) (by decide)
  have known : inode_known small_layout m = true := by
    unfold has_blocks at has
    simp only [Bool.and_eq_true] at has
    exact has.1.1
  rcases known_small known with rfl | rfl
  · exact absurd mem (by decide)
  · exact absurd has (by decide)

/-- A device whose number is no block. -/
theorem repair_converges_console : ∃ disk' cleared modified,
    repair_ufs_filesystem 0 small_layout (device_disk 0) = some (disk', cleared, modified) ∧
      Converged 0 small_layout (device_disk 0) disk' := by
  refine (repair_converges_iff 0 (device_disk_admitted 0)).mpr ⟨?_, ?_, ?_⟩
  · intro n known _
    rcases known_small known with rfl | rfl <;> decide
  · intro n known _ zero
    rcases known_small known with rfl | rfl <;> exact absurd zero (by decide)
  · intro _ n known _ device cg _ f _ _ mem
    rcases known_small known with rfl | rfl
    · exact absurd device (by decide)
    · cases mem

end UfsFsck
