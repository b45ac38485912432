import Svr4.Host.FsckScan

/- Which issues a check reports, from what is on the disk. -/
namespace UfsFsck
open UfsGroups Accumulators List
variable {now n : Nat} {fs : Layout} {disk : Disk} {issue : UFSFsckIssue}

theorem mem_known : n ∈ known_inodes fs ↔ inode_known fs n = true := by
  unfold known_inodes inode_known
  rw [mem_filter, mem_range, decide_eq_true_iff, decide_eq_true_iff, and_comm]

theorem walk_group_seen (cg : Nat) : Adds (fun _ => True) Walk.seen_blocks (walk_group fs disk cg)
    fun x => ∃ i ∈ range fs.ipg, Scans fs disk cg i ∧
      x ∈ inode_fragments fs disk (cg * fs.ipg + i) := by
  intro w x _
  have each : ∀ i, Adds (fun _ => True) Walk.seen_blocks (fun w => check_inode fs disk cg w i)
      fun x => Scans fs disk cg i ∧ x ∈ inode_fragments fs disk (cg * fs.ipg + i) :=
    fun i w x _ => mem_check_inode_seen cg i x
  exact Adds.foldl each _ { w with ndir := 0, nifree := fs.ipg } x trivial

theorem walk_group_issues (fs : Layout) (disk : Disk) (cg : Nat) :
    Adds (is_repaired · = true) Walk.issues (walk_group fs disk cg) fun issue =>
      ∃ i ∈ range fs.ipg, Clears fs disk cg i ∧
        issue = .partially_allocated_inode (cg * fs.ipg + i) free_with_data := by
  intro w x fixable
  have each : ∀ i, Adds (is_repaired · = true) Walk.issues
      (fun w => check_inode fs disk cg w i) fun issue => Clears fs disk cg i ∧
        issue = .partially_allocated_inode (cg * fs.ipg + i) free_with_data :=
    fun i w x fixable => mem_check_inode fixable cg i
  exact Adds.foldl each _ { w with ndir := 0, nifree := fs.ipg } x fixable

theorem mem_seen (x : Nat) : x ∈ (check_groups now fs disk).1.seen_blocks ↔
    x ∈ reserved_blocks fs ∨ ∃ n, has_blocks fs disk n = true ∧ x ∈ inode_fragments fs disk n := by
  have each : ∀ cg, Adds (fun _ => True) (fun s : Walk × Counts => s.1.seen_blocks)
      (fun s => check_group now fs disk s cg) fun x => ∃ i ∈ range fs.ipg,
        Scans fs disk cg i ∧ x ∈ inode_fragments fs disk (cg * fs.ipg + i) :=
    fun cg s x _ => walk_group_seen cg s.1 x trivial
  refine (Adds.foldl each (range fs.ncg) _ x trivial).trans (or_congr_right ?_)
  constructor
  · rintro ⟨cg, inside, i, i_inside, ⟨two, used, typed, blocks⟩, mem⟩
    have i_inside := mem_range.mp i_inside
    refine ⟨_, ?_, mem⟩
    unfold has_blocks is_live
    rw [(known_iff (mem_range.mp inside) i_inside).mpr two, used_eq disk i_inside, used, blocks]
    simp [typed]
  · rintro ⟨n, has, mem⟩
    unfold has_blocks is_live at has
    simp only [Bool.and_eq_true, decide_eq_true_iff, Bool.not_eq_true'] at has
    obtain ⟨⟨known, used, typed⟩, blocks⟩ := has
    have bounds : 2 ≤ n ∧ n < fs.ipg * fs.ncg := of_decide_eq_true known
    obtain ⟨cg, inside, i, i_inside, found⟩ := (exists_number (p := (n = ·))).mpr ⟨n, bounds.2, rfl⟩
    refine ⟨cg, inside, i, i_inside, ?_, found ▸ mem⟩
    rw [found, used_eq disk (mem_range.mp i_inside)] at used
    unfold Scans
    rw [← found]
    exact ⟨bounds.1, used, typed, blocks⟩

theorem check_groups_totals (two : 2 ≤ fs.ipg) : (check_groups now fs disk).2 =
    ((range fs.ncg).map fun cg => expected_counts fs.toGeometry (directory_inode disk) cg
      (disk.groups cg) false).foldl (· + ·) Counts.zero := by
  have all : ∀ (cgs : List Nat) (s : Walk × Counts),
      (cgs.foldl (check_group now fs disk) s).2 = (cgs.map fun cg => expected_counts
        fs.toGeometry (directory_inode disk) cg (disk.groups cg) false).foldl (· + ·) s.2 := by
    intro cgs
    induction cgs with
    | nil => exact fun _ => rfl
    | cons cg cgs ih =>
      intro s
      rw [foldl_cons, ih, map_cons, foldl_cons, ← actual_summary_eq two cg s.1]
      rfl
  exact all _ _

theorem mem_check_groups (two : 2 ≤ fs.ipg) (fixable : is_repaired issue = true) :
    issue ∈ (check_groups now fs disk).1.issues ↔
      (∃ n, inode_known fs n = true ∧ is_ufs_inode_used fs disk n = false ∧
        contains_data (disk.inodes n) = true ∧
        issue = .partially_allocated_inode n free_with_data) ∨
      ∃ cg < fs.ncg, issue ∈ summary_issues now fs disk cg
        (expected_counts fs.toGeometry (directory_inode disk) cg (disk.groups cg) false) := by
  have each : ∀ cg, Adds (is_repaired · = true) (fun s : Walk × Counts => s.1.issues)
      (fun s => check_group now fs disk s cg) fun issue => (∃ i ∈ range fs.ipg,
        Clears fs disk cg i ∧ issue = .partially_allocated_inode (cg * fs.ipg + i) free_with_data) ∨
        issue ∈ summary_issues now fs disk cg (expected_counts fs.toGeometry
          (directory_inode disk) cg (disk.groups cg) false) := by
    intro cg s x fixable
    have walked := walk_group_issues fs disk cg s.1 x fixable
    unfold check_group
    rw [mem_append, walked, actual_summary_eq two, or_assoc]
  refine (Adds.foldl each (range fs.ncg) _ issue fixable).trans ?_
  simp only [not_mem_nil, false_or, mem_range]
  constructor
  · rintro ⟨cg, inside, ⟨i, i_inside, ⟨big, used, data⟩, rfl⟩ | summary⟩
    · exact .inl ⟨_, (known_iff inside i_inside).mpr big, (used_eq disk i_inside).trans used,
        data, rfl⟩
    · exact .inr ⟨cg, inside, summary⟩
  · rintro (⟨n, known, used, data, rfl⟩ | ⟨cg, inside, summary⟩)
    · have bounds : 2 ≤ n ∧ n < fs.ipg * fs.ncg := of_decide_eq_true known
      obtain ⟨cg, inside, i, i_inside, rfl⟩ := (exists_number (p := (n = ·))).mpr ⟨n, bounds.2, rfl⟩
      have i_inside := mem_range.mp i_inside
      rw [used_eq disk i_inside] at used
      exact ⟨cg, mem_range.mp inside, .inl ⟨i, i_inside, ⟨bounds.1, used, data⟩, rfl⟩⟩
    · exact ⟨cg, inside, .inr summary⟩

theorem mem_analysis : issue ∈ (analyze_ufs_filesystem now fs disk).issues ↔
    issue ∈ (check_groups now fs disk).1.issues ∨ issue ∈ directory_issues fs disk ∨
      issue ∈ link_issues fs disk ∨
      issue ∈ bitmap_issues fs disk (check_groups now fs disk).1.seen_blocks ∨
      (disk.totals ≠ (check_groups now fs disk).2 ∧
        issue = .superblock_summary_mismatch disk.totals (check_groups now fs disk).2) := by
  unfold analyze_ufs_filesystem
  simp only [mem_append, or_assoc]
  refine or_congr_right (or_congr_right (or_congr_right (or_congr_right ?_)))
  split
  · next differ => rw [mem_singleton, and_iff_right differ]
  · next same => exact ⟨nofun, fun h => absurd h.1 same⟩

theorem mem_link_issues : issue ∈ link_issues fs disk ↔ ∃ n, inode_known fs n = true ∧
    is_live fs disk n = true ∧ 0 < reference_count fs disk n ∧
      reference_count fs disk n ≠ (disk.inodes n).nlink.val ∧
      issue = .link_count_mismatch n (disk.inodes n).nlink (reference_count fs disk n) := by
  unfold link_issues
  simp only [mem_flatMap, mem_known]
  refine exists_congr fun n => and_congr_right fun _ => ?_
  split
  · next mismatch => rw [mem_singleton]; tauto
  · next match_ => exact ⟨nofun, fun h => absurd ⟨h.1, h.2.1, h.2.2.1⟩ match_⟩

theorem mem_bitmap_issues {seen : List Nat} : issue ∈ bitmap_issues fs disk seen ↔
    ∃ cg < fs.ncg, ∃ i f, (0 < i ∨ 0 < f) ∧ (range fs.ipg).countP
        (fun i => expected_used fs disk cg i ≠ (disk.groups cg).used i) = i ∧
      (data_frags fs cg (disk.groups cg).ndblk).countP (fun f =>
        ufs_cgbase fs cg + f ∈ seen ∧ (disk.groups cg).free f) = f ∧
      issue = .bitmap_mismatch cg i f := by
  unfold bitmap_issues
  simp only [mem_flatMap, mem_range]
  refine exists_congr fun cg => and_congr_right fun _ => ?_
  split
  · next mismatch =>
    rw [mem_singleton]
    exact ⟨fun same => ⟨_, _, mismatch, rfl, rfl, same⟩, fun ⟨_, _, _, hi, hf, same⟩ =>
      hi ▸ hf ▸ same⟩
  · next match_ => exact ⟨nofun, fun ⟨_, _, some_, hi, hf, _⟩ => absurd (hi ▸ hf ▸ some_) match_⟩

theorem mem_summary_issues {cg : Nat} {counts : Counts} :
    issue ∈ summary_issues now fs disk cg counts ↔ ((disk.groups cg).counts ≠ counts ∧
        issue = .summary_mismatch cg (disk.groups cg).counts counts) ∨
      ((csum_present fs.toGeometry cg = true ∧ disk.fs_cs cg ≠ counts) ∧
        issue = .cached_summary_mismatch cg (disk.fs_cs cg) counts) ∨
      ((disk.headers cg ≠ expected_header now fs cg (disk.groups cg).ndblk (disk.headers cg) ∨
        (disk.groups cg).counts ≠ expected_counts fs.toGeometry (directory_inode disk) cg
          (disk.groups cg) false ∨
        (disk.groups cg).tables ≠ (scan fs.toGeometry (disk.groups cg)).tables) ∧
        issue = .summary_information_mismatch cg) := by
  have single : ∀ {p : Prop} [Decidable p] {x : UFSFsckIssue},
      issue ∈ (if p then [x] else []) ↔ p ∧ issue = x := by
    intro p _ x
    split
    · next h => rw [mem_singleton, and_iff_right h]
    · next h => exact ⟨nofun, fun h' => absurd h'.1 h⟩
  unfold summary_issues
  simp only [mem_append, single, Bool.and_eq_true, decide_eq_true_iff, or_assoc]

def Removed (fs : Layout) (disk : Disk) (d : Nat) (record : Record) : Prop :=
  d ∈ live_directories fs disk ∧ record ∈ disk.records d ∧ record.name ≠ "." ∧ record.name ≠ ".." ∧
    inode_known fs record.inode = true ∧ is_live fs disk record.inode = false

theorem mem_directory_issues (repaired : is_repaired issue = true) :
    issue ∈ directory_issues fs disk ↔ ∃ d record, Removed fs disk d record ∧
      issue = .directory_entry_to_free_inode d record.inode record.name := by
  unfold directory_issues Removed
  simp only [mem_flatMap]
  constructor
  · rintro ⟨d, directory, record, mem, reported⟩
    refine ⟨d, record, ?_⟩
    unfold record_issues at reported
    split at reported
    · cases reported
    next named =>
    split at reported
    · rw [mem_singleton.mp reported] at repaired
      cases repaired
    next range =>
    split at reported
    · cases reported
    · next dead =>
      refine ⟨⟨directory, mem, fun h => named (.inl h), fun h => named (.inr h), ?_, ?_⟩,
        mem_singleton.mp reported⟩
      · exact decide_eq_true ⟨by omega, by omega⟩
      · simpa using dead
  · rintro ⟨d, record, ⟨directory, mem, dot, dotdot, known, dead⟩, rfl⟩
    have bounds : 2 ≤ record.inode ∧ record.inode < fs.ipg * fs.ncg := of_decide_eq_true known
    refine ⟨d, directory, record, mem, ?_⟩
    unfold record_issues
    rw [if_neg (by simp [dot, dotdot]), if_neg (by omega), if_neg (by simp [dead])]
    exact mem_singleton_self _

section Kinds
variable (two : 2 ≤ fs.ipg)
include two

theorem clears_iff : .partially_allocated_inode n free_with_data ∈
      (analyze_ufs_filesystem now fs disk).issues ↔
    inode_known fs n = true ∧ is_ufs_inode_used fs disk n = false ∧
      contains_data (disk.inodes n) = true := by
  rw [mem_analysis, mem_check_groups two (by simp [is_repaired, issue_is_fixable]),
    mem_directory_issues (by simp [is_repaired, issue_is_fixable]), mem_link_issues,
    mem_bitmap_issues]
  simp only [mem_summary_issues, reduceCtorEq, and_false, or_false, exists_false]
  constructor
  · rintro ⟨n', known, used, data, same⟩
    injection same with same
    subst same
    exact ⟨known, used, data⟩
  · rintro ⟨known, used, data⟩
    exact ⟨n, known, used, data, rfl⟩

theorem links_iff {n actual expected : Nat} : .link_count_mismatch n actual expected ∈
      (analyze_ufs_filesystem now fs disk).issues ↔
    inode_known fs n = true ∧ is_live fs disk n = true ∧ 0 < reference_count fs disk n ∧
      reference_count fs disk n ≠ (disk.inodes n).nlink.val ∧ actual = (disk.inodes n).nlink.val ∧
      expected = reference_count fs disk n := by
  rw [mem_analysis, mem_check_groups two rfl, mem_directory_issues rfl, mem_link_issues,
    mem_bitmap_issues]
  simp only [mem_summary_issues, reduceCtorEq, and_false, or_false, exists_false, false_or]
  constructor
  · rintro ⟨n', known, live, some_, differ, same⟩
    injection same with same same_actual same_expected
    subst same
    exact ⟨known, live, some_, differ, same_actual, same_expected⟩
  · rintro ⟨known, live, some_, differ, rfl, rfl⟩
    exact ⟨n, known, live, some_, differ, rfl⟩

theorem removes_iff {d c : Nat} {name : String} : .directory_entry_to_free_inode d c name ∈
      (analyze_ufs_filesystem now fs disk).issues ↔
    ∃ record, Removed fs disk d record ∧ record.inode = c ∧ record.name = name := by
  rw [mem_analysis, mem_check_groups two rfl, mem_directory_issues rfl, mem_link_issues,
    mem_bitmap_issues]
  simp only [mem_summary_issues, reduceCtorEq, and_false, or_false, exists_false, false_or]
  constructor
  · rintro ⟨d', record, removed, same⟩
    injection same with same same_inode same_name
    subst same
    exact ⟨record, removed, same_inode.symm, same_name.symm⟩
  · rintro ⟨record, removed, rfl, rfl⟩
    exact ⟨d, record, removed, rfl⟩

end Kinds

structure BitmapsRight (fs : Layout) (disk : Disk) : Prop where
  inodes : ∀ cg < fs.ncg, ∀ i < fs.ipg, (disk.groups cg).used i = expected_used fs disk cg i
  blocks : ∀ cg < fs.ncg, ∀ f < (disk.groups cg).ndblk, data_frag_start fs cg ≤ f →
    (ufs_cgbase fs cg + f ∈ reserved_blocks fs ∨ ∃ n, has_blocks fs disk n = true ∧
      ufs_cgbase fs cg + f ∈ inode_fragments fs disk n) → (disk.groups cg).free f = false

theorem bitmaps_right_iff (now : Nat) (two : 2 ≤ fs.ipg) : BitmapsRight fs disk ↔ ∀ cg i f,
    .bitmap_mismatch cg i f ∉ (analyze_ufs_filesystem now fs disk).issues := by
  have only : ∀ cg i f, .bitmap_mismatch cg i f ∈ (analyze_ufs_filesystem now fs disk).issues ↔
      .bitmap_mismatch cg i f ∈ bitmap_issues fs disk (check_groups now fs disk).1.seen_blocks := by
    intro cg i f
    rw [mem_analysis, mem_check_groups two rfl, mem_directory_issues rfl, mem_link_issues]
    simp only [mem_summary_issues, reduceCtorEq, and_false, or_false, exists_false, false_or]
  simp only [only]
  constructor
  · intro right cg i f reported
    obtain ⟨cg', inside, i', f', some_, hi, hf, -⟩ := mem_bitmap_issues.mp reported
    rcases some_ with some_ | some_
    · rw [← hi, countP_pos_iff] at some_
      obtain ⟨i, mem, differ⟩ := some_
      exact of_decide_eq_true differ (right.inodes cg' inside i (mem_range.mp mem)).symm
    rw [← hf, countP_pos_iff] at some_
    obtain ⟨f, mem, seen⟩ := some_
    obtain ⟨seen, free⟩ := of_decide_eq_true seen
    obtain ⟨mem, data⟩ := mem_filter.mp mem
    have taken := right.blocks cg' inside f (mem_range.mp mem) (of_decide_eq_true data)
      ((mem_seen _).mp seen)
    rw [taken] at free
    cases free
  · intro none
    refine ⟨fun cg inside i i_inside => ?_, fun cg inside f f_inside data seen => ?_⟩
    · by_contra differ
      refine none cg _ _ (mem_bitmap_issues.mpr ⟨cg, inside, _, _, .inl ?_, rfl, rfl, rfl⟩)
      exact countP_pos_iff.mpr ⟨i, mem_range.mpr i_inside,
        decide_eq_true fun same => differ same.symm⟩
    · by_contra free
      refine none cg _ _ (mem_bitmap_issues.mpr ⟨cg, inside, _, _, .inr ?_, rfl, rfl, rfl⟩)
      refine countP_pos_iff.mpr ⟨f, mem_filter.mpr
        ⟨mem_range.mpr f_inside, decide_eq_true data⟩, decide_eq_true ⟨?_, ?_⟩⟩
      · exact (mem_seen _).mpr seen
      · simpa using free

structure SummariesRight (now : Nat) (fs : Layout) (disk : Disk) : Prop where
  agrees : Agrees fs.toGeometry (summary_image disk)
  headers : ∀ cg < fs.ncg, disk.headers cg =
    expected_header now fs cg (disk.groups cg).ndblk (disk.headers cg)

def is_summary_issue : UFSFsckIssue → Bool
  | .summary_mismatch .. | .cached_summary_mismatch .. | .summary_information_mismatch _
  | .superblock_summary_mismatch .. =>
    true
  | _ => false

theorem repaired_of_summary (summary : is_summary_issue issue = true) :
    is_repaired issue = true := by
  cases issue with
  | summary_mismatch => rfl
  | cached_summary_mismatch => rfl
  | summary_information_mismatch => rfl
  | superblock_summary_mismatch => rfl
  | _ => cases summary

theorem mem_summary {issue : UFSFsckIssue} (two : 2 ≤ fs.ipg)
    (summary : is_summary_issue issue = true) :
    issue ∈ (analyze_ufs_filesystem now fs disk).issues ↔
      (∃ cg < fs.ncg, issue ∈ summary_issues now fs disk cg (expected_counts fs.toGeometry
        (directory_inode disk) cg (disk.groups cg) false)) ∨
      (disk.totals ≠ (check_groups now fs disk).2 ∧
        issue = .superblock_summary_mismatch disk.totals (check_groups now fs disk).2) := by
  have repaired := repaired_of_summary summary
  rw [mem_analysis, mem_check_groups two repaired, mem_directory_issues repaired, mem_link_issues,
    mem_bitmap_issues]
  constructor
  · rintro ((⟨n, -, -, -, rfl⟩ | h) | ⟨d, r, -, rfl⟩ | ⟨n, -, -, -, -, rfl⟩ |
      ⟨cg, -, i, f, -, -, -, rfl⟩ | h)
    · cases summary
    · exact .inl h
    · cases summary
    · cases summary
    · cases summary
    · exact .inr h
  · rintro (h | h)
    · exact .inl (.inr h)
    · exact .inr (.inr (.inr (.inr h)))

theorem summaries_right_iff (two : 2 ≤ fs.ipg) : SummariesRight now fs disk ↔
    ∀ issue ∈ (analyze_ufs_filesystem now fs disk).issues, is_summary_issue issue = false := by
  constructor
  · intro right issue mem
    by_contra summary
    rw [Bool.not_eq_false] at summary
    rcases (mem_summary two summary).mp mem with ⟨cg, inside, mem⟩ | ⟨differ, -⟩
    · rcases mem_summary_issues.mp mem with ⟨differ, -⟩ | ⟨⟨present, differ⟩, -⟩ | ⟨differ, -⟩
      · exact differ (right.agrees.header cg inside)
      · exact differ (right.agrees.cached cg inside present)
      · rcases differ with differ | differ | differ
        · exact differ (right.headers cg inside)
        · exact differ (right.agrees.header cg inside)
        · exact differ (right.agrees.tables cg inside)
    · exact differ (right.agrees.totals.trans (check_groups_totals two).symm)
  · intro none
    have silent : ∀ cg < fs.ncg, ∀ issue, is_summary_issue issue = true →
        issue ∉ summary_issues now fs disk cg (expected_counts fs.toGeometry
          (directory_inode disk) cg (disk.groups cg) false) := by
      intro cg inside issue summary mem
      have quiet := none issue ((mem_summary two summary).mpr (.inl ⟨cg, inside, mem⟩))
      rw [summary] at quiet
      cases quiet
    refine ⟨⟨fun cg inside => ?_, fun cg inside => ?_, fun cg inside present => ?_, ?_⟩,
      fun cg inside => ?_⟩
    · by_contra differ
      exact silent cg inside _ rfl (mem_summary_issues.mpr (.inl ⟨differ, rfl⟩))
    · by_contra differ
      exact silent cg inside (.summary_information_mismatch cg) rfl
        (mem_summary_issues.mpr (.inr (.inr ⟨.inr (.inr differ), rfl⟩)))
    · by_contra differ
      exact silent cg inside _ rfl
        (mem_summary_issues.mpr (.inr (.inl ⟨⟨present, differ⟩, rfl⟩)))
    · by_contra differ
      have quiet := none (.superblock_summary_mismatch disk.totals (check_groups now fs disk).2)
        ((mem_summary two rfl).mpr (.inr ⟨?_, rfl⟩))
      · cases quiet
      · rw [check_groups_totals two]
        exact differ
    · by_contra differ
      exact silent cg inside (.summary_information_mismatch cg) rfl
        (mem_summary_issues.mpr (.inr (.inr ⟨.inl differ, rfl⟩)))

structure Sound (now : Nat) (fs : Layout) (disk : Disk) : Prop where
  free : ∀ n, inode_known fs n = true → is_ufs_inode_used fs disk n = false →
    contains_data (disk.inodes n) = false
  records : ∀ d record, ¬ Removed fs disk d record
  links : ∀ n, inode_known fs n = true → is_live fs disk n = true →
    0 < reference_count fs disk n → reference_count fs disk n = (disk.inodes n).nlink.val
  bitmaps : BitmapsRight fs disk
  summaries : SummariesRight now fs disk

theorem sound_iff (two : 2 ≤ fs.ipg) : Sound now fs disk ↔
    ∀ issue ∈ (analyze_ufs_filesystem now fs disk).issues, is_repaired issue = false := by
  constructor
  · intro sound issue mem
    by_contra repaired
    rw [Bool.not_eq_false] at repaired
    cases issue with
    | partially_allocated_inode n message =>
      obtain rfl : message = free_with_data := of_decide_eq_true repaired
      obtain ⟨known, free, data⟩ := (clears_iff two).mp mem
      rw [sound.free n known free] at data
      cases data
    | directory_entry_to_free_inode d c name =>
      obtain ⟨record, removed, -⟩ := (removes_iff two).mp mem
      exact sound.records d record removed
    | link_count_mismatch n actual expected =>
      obtain ⟨known, live, some_, differ, -⟩ := (links_iff two).mp mem
      exact differ (sound.links n known live some_)
    | bitmap_mismatch cg i f => exact (bitmaps_right_iff now two).mp sound.bitmaps cg i f mem
    | summary_mismatch | cached_summary_mismatch | summary_information_mismatch
    | superblock_summary_mismatch =>
      exact Bool.noConfusion ((summaries_right_iff two).mp sound.summaries _ mem)
    | _ => cases repaired
  · intro none
    refine ⟨fun n known free => ?_, fun d record removed => ?_, fun n known live some_ => ?_,
      (bitmaps_right_iff now two).mpr fun cg i f mem => ?_,
      (summaries_right_iff two).mpr fun issue mem => ?_⟩
    · by_contra data
      have quiet := none _ ((clears_iff two).mpr ⟨known, free, by simpa using data⟩)
      cases quiet
    · exact Bool.noConfusion (none _ ((removes_iff two).mpr ⟨record, removed, rfl, rfl⟩))
    · by_contra differ
      exact Bool.noConfusion (none _ ((links_iff two).mpr ⟨known, live, some_, differ, rfl, rfl⟩))
    · exact Bool.noConfusion (none _ mem)
    · by_contra summary
      rw [Bool.not_eq_false] at summary
      exact Bool.noConfusion ((none _ mem).symm.trans (repaired_of_summary summary))

end UfsFsck
