import Svr4.Accumulators
import Svr4.Host.Fsck
import Svr4.Host.Unmount

/- What the scan of the inodes has seen and counted when it comes to its end. -/
namespace UfsFsck
open UfsGroups Accumulators List Nat
variable {fs : Layout} {disk : Disk} {now cg i : Nat} {pointers : Nat → List Nat} {n : Nat}
  {f : Scanned → Scanned}

def inode_fragments (fs : Layout) (disk : Disk) (n : Nat) : List Nat :=
  (scan_inode_blocks fs disk.pointers n (disk.inodes n) ⟨0, [], []⟩).seen_blocks

/-- A step of the scan sees the same fragments from everywhere and has no issue to be repaired. -/
structure Sees (f : Scanned → Scanned) : Prop where
  seen : ∃ P, Adds (fun _ => True) Scanned.seen_blocks f P
  harmless : Adds (is_repaired · = true) Scanned.issues f fun _ => False

theorem Sees.nothing (seen : ∀ s, (f s).seen_blocks = s.seen_blocks)
    (issues : ∀ s, (f s).issues = s.issues) : Sees f :=
  ⟨⟨_, Adds.nothing seen⟩, Adds.nothing issues⟩

theorem Sees.issue {issue : UFSFsckIssue} (seen : ∀ s, (f s).seen_blocks = s.seen_blocks)
    (unfixable : is_repaired issue = false) (issues : ∀ s, (f s).issues = s.issues ++ [issue]) :
    Sees f := by
  refine ⟨⟨_, Adds.nothing seen⟩, (Adds.append issues).congr fun x fixable => ?_⟩
  rw [mem_singleton, iff_false]
  rintro rfl
  rw [unfixable] at fixable
  cases fixable

theorem Sees.comp {f g : Scanned → Scanned} (first : Sees f) (second : Sees g) :
    Sees fun s => g (f s) := by
  obtain ⟨⟨P, seen⟩, harmless⟩ := first
  obtain ⟨⟨Q, seen'⟩, harmless'⟩ := second
  exact ⟨⟨_, seen.comp seen'⟩, (harmless.comp harmless').congr fun _ _ => or_self_iff⟩

theorem Sees.foldl {A : Type} {step : Scanned → A → Scanned} (each : ∀ a, Sees fun s => step s a)
    (as : List A) : Sees fun s => as.foldl step s := by
  refine ⟨⟨_, Adds.foldl (fun a => (each a).seen.choose_spec) as⟩,
    (Adds.foldl (fun a => (each a).harmless) as).congr fun _ _ => ?_⟩
  simp

theorem counts_sees (k : Nat) :
    Sees fun s => { s with counted_fragments := s.counted_fragments + k } :=
  Sees.nothing (fun _ => rfl) fun _ => rfl

theorem see_sees (message : String) (block numfrags : Nat) :
    Sees fun s => s.see n message block numfrags := by
  refine Sees.foldl (fun k => ?_) _
  refine ⟨⟨fun x => x = block + k, fun s x _ => ?_⟩, fun s x fixable => ?_⟩
  · dsimp only
    split
    · next seen =>
      exact ⟨Or.inl, fun h => h.elim id fun same => same ▸ seen⟩
    · rw [mem_cons, or_comm]
  · split
    · rw [Scanned.add, mem_append, mem_singleton, or_congr_right]
      rw [iff_false]
      rintro rfl
      cases fixable
    · rw [or_false]

theorem scan_data_block_sees (bad duplicated : String) (block numfrags : Nat) :
    Sees fun s => scan_data_block fs n bad duplicated s block numfrags := by
  unfold scan_data_block
  by_cases out : outrange fs block numfrags = true
  · simp only [out, if_true]
    exact Sees.issue (fun _ => rfl) rfl fun _ => rfl
  · simp only [out, Bool.false_eq_true, if_false]
    have sees : Sees fun s => s.see n duplicated block numfrags :=
      see_sees duplicated block numfrags
    exact (counts_sees numfrags).comp sees

theorem iter_pointer_issues_sees (level blkno : Nat) (isize : Int) :
    Sees fun s => iter_pointer_issues fs pointers n level blkno isize s := by
  induction level generalizing blkno isize with
  | zero => exact Sees.nothing (fun _ => rfl) fun _ => rfl
  | succ next_level ih =>
    unfold iter_pointer_issues
    by_cases out : outrange fs blkno fs.frag = true
    · simp only [out, if_true]
      exact Sees.issue (fun _ => rfl) rfl fun _ => rfl
    simp only [out, Bool.false_eq_true, if_false]
    have own : Sees fun s => s.see n "indirect block fragment is duplicated" blkno fs.frag :=
      see_sees _ blkno fs.frag
    refine ((counts_sees fs.frag).comp own).comp (Sees.foldl (fun p => ?_) _)
    by_cases zero : p.1 = 0
    · simp only [zero, if_true]
      exact Sees.nothing (fun _ => rfl) fun _ => rfl
    · by_cases deeper : 0 < next_level
      · simp only [zero, deeper, if_true, if_false]
        exact ih _ _
      · simp only [zero, deeper, if_false]
        exact scan_data_block_sees _ _ _ _

theorem scan_direct_sees (size : Nat) (direct_blocks : List Nat) (ndb : Int) :
    Sees fun s => scan_direct fs n size direct_blocks ndb s := by
  induction direct_blocks generalizing ndb with
  | nil => exact Sees.nothing (fun _ => rfl) fun _ => rfl
  | cons block direct_blocks ih =>
    unfold scan_direct
    by_cases zero : block = 0
    · simp only [zero, if_true]
      exact ih _
    · simp only [zero, if_false]
      exact (scan_data_block_sees _ _ _ _).comp (ih _)

theorem scan_inode_blocks_sees (inode : Inode) :
    Sees fun s => scan_inode_blocks fs pointers n inode s := by
  refine (scan_direct_sees _ _ _).comp (Sees.foldl (fun p => ?_) _)
  by_cases zero : p.1 = 0
  · simp only [zero, if_true]
    exact Sees.nothing (fun _ => rfl) fun _ => rfl
  · simp only [zero, if_false]
    exact iter_pointer_issues_sees _ _ _

theorem mem_scan_inode_blocks (s : Scanned) (x : Nat) :
    x ∈ (scan_inode_blocks fs disk.pointers n (disk.inodes n) s).seen_blocks ↔
      x ∈ s.seen_blocks ∨ x ∈ inode_fragments fs disk n := by
  have sees : Sees fun s => scan_inode_blocks fs disk.pointers n (disk.inodes n) s :=
    scan_inode_blocks_sees (disk.inodes n)
  obtain ⟨⟨P, adds⟩, -⟩ := sees
  rw [adds s x trivial, inode_fragments, adds ⟨0, [], []⟩ x trivial]
  simp

theorem inode_fragments_congr {disk' : Disk} (pointers : disk'.pointers = disk.pointers)
    (size : (disk'.inodes n).size = (disk.inodes n).size)
    (direct : (disk'.inodes n).direct_blocks = (disk.inodes n).direct_blocks)
    (indirect : (disk'.inodes n).indirect_blocks = (disk.inodes n).indirect_blocks) :
    inode_fragments fs disk' n = inode_fragments fs disk n := by
  unfold inode_fragments scan_inode_blocks
  rw [pointers, size, direct, indirect]

def has_blocks (fs : Layout) (disk : Disk) (n : Nat) : Bool :=
  inode_known fs n && is_live fs disk n && !is_device (disk.inodes n)

theorem known_iff (inside : cg < fs.ncg) (i_inside : i < fs.ipg) :
    inode_known fs (cg * fs.ipg + i) = true ↔ 2 ≤ cg * fs.ipg + i := by
  have bound : cg * fs.ipg + i < fs.ipg * fs.ncg := by
    have := mul_le_mul_right fs.ipg (succ_le_of_lt inside)
    rw [succ_mul] at this
    rw [mul_comm fs.ipg]
    omega
  unfold inode_known
  rw [decide_eq_true_iff]
  exact ⟨And.left, fun two => ⟨two, bound⟩⟩

theorem used_eq (disk : Disk) (inside : i < fs.ipg) :
    is_ufs_inode_used fs disk (cg * fs.ipg + i) = (disk.groups cg).used i := by
  have pos : 0 < fs.ipg := by omega
  unfold is_ufs_inode_used
  rw [mul_comm, mul_add_div pos, mul_add_mod, div_eq_of_lt inside, mod_eq_of_lt inside, add_zero]

theorem exists_number {p : Nat → Prop} : (∃ cg ∈ List.range fs.ncg, ∃ i ∈ List.range fs.ipg,
    p (cg * fs.ipg + i)) ↔ ∃ n < fs.ipg * fs.ncg, p n := by
  constructor
  · rintro ⟨cg, inside, i, i_inside, h⟩
    have inside := mem_range.mp inside
    have i_inside := mem_range.mp i_inside
    refine ⟨_, ?_, h⟩
    have := mul_le_mul_right fs.ipg (succ_le_of_lt inside)
    rw [succ_mul] at this
    rw [mul_comm fs.ipg]
    omega
  · rintro ⟨n, inside, h⟩
    have pos : 0 < fs.ipg := Nat.pos_of_mul_pos_right (Nat.zero_lt_of_lt inside)
    refine ⟨n / fs.ipg, mem_range.mpr ((div_lt_iff_lt_mul pos).mpr ?_), n % fs.ipg,
      mem_range.mpr (mod_lt _ pos), ?_⟩
    · rwa [mul_comm]
    · rwa [mul_comm, div_add_mod]

section Walks
variable {w : Walk} {issue : UFSFsckIssue}

theorem check_type_seen : (check_type disk n w).seen_blocks = w.seen_blocks := by
  unfold check_type
  dsimp only
  split
  · rfl
  · split <;> rfl

theorem mem_check_type (fixable : is_repaired issue = true) :
    issue ∈ (check_type disk n w).issues ↔ issue ∈ w.issues := by
  unfold check_type
  dsimp only
  split
  · rfl
  · split
    · rw [Walk.add, mem_append, mem_singleton, or_iff_left_iff_imp]
      rintro rfl
      cases fixable
    · rfl

theorem check_type_counts : (check_type disk n w).ndir =
      w.ndir + (if ufs_is_directory (disk.inodes n) then 1 else 0) ∧
    (check_type disk n w).nifree = w.nifree := by
  unfold check_type
  dsimp only
  split
  · exact ⟨rfl, rfl⟩
  · split
    · exact ⟨(add_zero _).symm, rfl⟩
    · exact ⟨(add_zero _).symm, rfl⟩

theorem mem_check_blocks_seen (x : Nat) : x ∈ (check_blocks fs disk n w).seen_blocks ↔
    x ∈ w.seen_blocks ∨ x ∈ inode_fragments fs disk n := by
  unfold check_blocks
  dsimp only
  split
  · exact mem_scan_inode_blocks ⟨0, w.seen_blocks, w.issues⟩ x
  · exact mem_scan_inode_blocks ⟨0, w.seen_blocks, w.issues⟩ x

theorem mem_check_blocks (fixable : is_repaired issue = true) :
    issue ∈ (check_blocks fs disk n w).issues ↔ issue ∈ w.issues := by
  have sees : Sees fun s => scan_inode_blocks fs disk.pointers n (disk.inodes n) s :=
    scan_inode_blocks_sees (disk.inodes n)
  have scanned := sees.harmless ⟨0, w.seen_blocks, w.issues⟩ issue fixable
  rw [or_false] at scanned
  unfold check_blocks
  dsimp only
  split
  · rw [Walk.add, mem_append, mem_singleton]
    refine (or_iff_left_iff_imp.mpr ?_).trans scanned
    rintro rfl
    cases fixable
  · exact scanned

theorem check_blocks_counts : (check_blocks fs disk n w).ndir = w.ndir ∧
    (check_blocks fs disk n w).nifree = w.nifree := by
  unfold check_blocks
  dsimp only
  split <;> exact ⟨rfl, rfl⟩

def Scans (fs : Layout) (disk : Disk) (cg i : Nat) : Prop :=
  2 ≤ cg * fs.ipg + i ∧ (disk.groups cg).used i = true ∧ (disk.inodes (cg * fs.ipg + i)).mode ≠ 0 ∧
    is_device (disk.inodes (cg * fs.ipg + i)) = false

def Clears (fs : Layout) (disk : Disk) (cg i : Nat) : Prop :=
  2 ≤ cg * fs.ipg + i ∧ (disk.groups cg).used i = false ∧
    contains_data (disk.inodes (cg * fs.ipg + i)) = true

theorem mem_check_inode_seen (cg i x : Nat) :
    x ∈ (check_inode fs disk cg w i).seen_blocks ↔ x ∈ w.seen_blocks ∨
      (Scans fs disk cg i ∧ x ∈ inode_fragments fs disk (cg * fs.ipg + i)) := by
  unfold check_inode Scans
  dsimp only
  split
  · next small => exact ⟨Or.inl, fun h => h.elim id fun h => absurd h.1.1 (by omega)⟩
  split
  · next free =>
    split
    · exact ⟨Or.inl, fun h => h.elim id fun h => absurd h.1.2.1 (by simp [free])⟩
    · exact ⟨Or.inl, fun h => h.elim id fun h => absurd h.1.2.1 (by simp [free])⟩
  split
  · next zero => exact ⟨Or.inl, fun h => h.elim id fun h => absurd zero h.1.2.2.1⟩
  next big used typed =>
  split
  · next device =>
    rw [check_type_seen]
    exact ⟨Or.inl, fun h => h.elim id fun h => absurd h.1.2.2.2 (by simp [device])⟩
  · next blocks =>
    rw [mem_check_blocks_seen, check_type_seen]
    refine or_congr_right (and_iff_right ⟨by omega, ?_, typed, ?_⟩).symm
    · simpa using used
    · simpa using blocks

theorem mem_check_inode (fixable : is_repaired issue = true) (cg i : Nat) :
    issue ∈ (check_inode fs disk cg w i).issues ↔ issue ∈ w.issues ∨ (Clears fs disk cg i ∧
      issue = .partially_allocated_inode (cg * fs.ipg + i) free_with_data) := by
  unfold check_inode Clears
  dsimp only
  split
  · next small => exact ⟨Or.inl, fun h => h.elim id fun h => absurd h.1.1 (by omega)⟩
  next big =>
  split
  · next free =>
    split
    · next data =>
      rw [Walk.add, mem_append, mem_singleton]
      exact or_congr_right (and_iff_right ⟨by omega, free, data⟩).symm
    · next data => exact ⟨Or.inl, fun h => h.elim id fun h => absurd h.1.2.2 data⟩
  · next used =>
    have not_cleared : ¬ ((2 ≤ cg * fs.ipg + i ∧ (disk.groups cg).used i = false ∧
        contains_data (disk.inodes (cg * fs.ipg + i)) = true) ∧
        issue = .partially_allocated_inode (cg * fs.ipg + i) free_with_data) :=
      fun h => used h.1.2.1
    rw [or_iff_left not_cleared]
    split
    · rw [Walk.add, mem_append, mem_singleton, or_iff_left_iff_imp]
      rintro rfl
      have same : "inode bitmap says used but inode mode is zero" = free_with_data :=
        of_decide_eq_true fixable
      exact absurd same (by decide)
    · split
      · exact mem_check_type fixable
      · exact (mem_check_blocks fixable).trans (mem_check_type fixable)

theorem typed_of_directory {inode : Inode} (directory : ufs_is_directory inode = true) :
    inode.mode ≠ 0 := by
  intro zero
  unfold ufs_is_directory at directory
  rw [zero] at directory
  exact absurd directory (by decide)

theorem check_inode_counts (disk : Disk) (cg i : Nat) (two : 2 ≤ fs.ipg) (w : Walk) :
    (check_inode fs disk cg w i).ndir = w.ndir + (if counted_inode (disk.groups cg) cg i &&
        directory_inode disk (cg * fs.ipg + i) then 1 else 0) ∧
    (check_inode fs disk cg w i).nifree =
      w.nifree - (if counted_inode (disk.groups cg) cg i then 1 else 0) := by
  have small_iff : cg * fs.ipg + i < 2 ↔ cg = 0 ∧ i < 2 := by
    constructor
    · intro small
      have zero : cg = 0 := by
        by_contra other
        have := Nat.le_mul_of_pos_left fs.ipg (Nat.pos_of_ne_zero other)
        omega
      subst zero
      exact ⟨rfl, by omega⟩
    · rintro ⟨rfl, small⟩
      omega
  unfold check_inode counted_inode directory_inode
  dsimp only
  split
  · next small =>
    obtain ⟨zero, first⟩ := small_iff.mp small
    simp [zero, first]
  next big =>
  have counted : (decide (cg = 0) && decide (i < 2)) = false := by
    rw [small_iff] at big
    simpa using big
  rw [counted, Bool.not_false, Bool.true_and]
  split
  · next free =>
    rw [free, Bool.false_and]
    split <;> simp [Walk.add]
  next used =>
  have used : (disk.groups cg).used i = true := by simpa using used
  rw [used, Bool.true_and]
  split
  · next zero =>
    have not_directory : ufs_is_directory (disk.inodes (cg * fs.ipg + i)) = false := by
      by_contra directory
      exact typed_of_directory (by simpa using directory) zero
    simp [Walk.add, not_directory]
  · split
    · exact check_type_counts
    · rw [check_blocks_counts.1, check_blocks_counts.2]
      exact check_type_counts

end Walks

section Groups

theorem foldl_counts (disk : Disk) (cg : Nat) (two : 2 ≤ fs.ipg) (w : Walk) (k : Nat) :
    ((range k).foldl (check_inode fs disk cg) w).ndir = w.ndir +
        (range k).countP (fun i => counted_inode (disk.groups cg) cg i &&
          directory_inode disk (cg * fs.ipg + i)) ∧
    ((range k).foldl (check_inode fs disk cg) w).nifree =
      w.nifree - (range k).countP (counted_inode (disk.groups cg) cg) := by
  induction k with
  | zero => exact ⟨(add_zero _).symm, (sub_zero _).symm⟩
  | succ k ih =>
    obtain ⟨ndir, nifree⟩ := ih
    rw [range_succ, foldl_append, countP_append, countP_append, countP_singleton, countP_singleton]
    obtain ⟨ndir', nifree'⟩ := check_inode_counts disk cg k two
      ((range k).foldl (check_inode fs disk cg) w)
    refine ⟨ndir'.trans ?_, nifree'.trans ?_⟩
    · rw [ndir]
      split <;> omega
    · rw [nifree]
      split <;> omega

theorem scan_block_counts (fs : Layout) (free : Nat → Bool) (s : Scan) (block : Nat) :
    (scan_block fs.toGeometry free s block).nbfree =
      s.nbfree + (if free_count free (block * fs.frag) fs.frag = fs.frag then 1 else 0) ∧
    (scan_block fs.toGeometry free s block).nffree =
      s.nffree + (if free_count free (block * fs.frag) fs.frag = fs.frag then 0
        else free_count free (block * fs.frag) fs.frag) := by
  unfold scan_block
  dsimp only
  split
  · split <;> exact ⟨rfl, rfl⟩
  · split
    · exact ⟨rfl, rfl⟩
    · next none => exact ⟨rfl, by omega⟩

theorem foldl_scan_counts (fs : Layout) (free : Nat → Bool) (s : Scan) (k : Nat) :
    ((range k).foldl (scan_block fs.toGeometry free) s).nbfree =
      s.nbfree + (range k).countP (fun block =>
        free_count free (block * fs.frag) fs.frag = fs.frag) ∧
    ((range k).foldl (scan_block fs.toGeometry free) s).nffree =
      s.nffree + ((range k).map fun block =>
        if free_count free (block * fs.frag) fs.frag = fs.frag then 0
        else free_count free (block * fs.frag) fs.frag).sum := by
  induction k with
  | zero => exact ⟨rfl, rfl⟩
  | succ k ih =>
    obtain ⟨nbfree, nffree⟩ := ih
    rw [range_succ, foldl_append, countP_append, map_append, sum_append_nat]
    have last := scan_block_counts fs free
      ((range k).foldl (scan_block fs.toGeometry free) s) k
    refine ⟨last.1.trans ?_, last.2.trans ?_⟩
    · rw [nbfree, add_assoc, countP_singleton]
      simp
    · rw [nffree, add_assoc]
      simp

theorem scan_counts (fs : Layout) (g : Group) : (scan fs.toGeometry g).nbfree = actual_nbfree fs g ∧
    (scan fs.toGeometry g).nffree = actual_nffree fs g := by
  have blocks := foldl_scan_counts fs g.free Scan.start (g.ndblk / fs.frag)
  unfold scan actual_nbfree actual_nffree
  dsimp only
  split
  · refine ⟨blocks.1.trans (zero_add _), ?_⟩
    rw [blocks.2]
    simp [Scan.start]
  · next none =>
    refine ⟨blocks.1.trans (zero_add _), blocks.2.trans ?_⟩
    simp only [Scan.start]
    omega

theorem actual_summary_eq (two : 2 ≤ fs.ipg) (cg : Nat) (w : Walk) :
    actual_summary fs disk cg (walk_group fs disk cg w) =
      expected_counts fs.toGeometry (directory_inode disk) cg (disk.groups cg) false := by
  obtain ⟨ndir, nifree⟩ := foldl_counts disk cg two { w with ndir := 0, nifree := fs.ipg } fs.ipg
  obtain ⟨nbfree, nffree⟩ := scan_counts fs (disk.groups cg)
  dsimp only at ndir nifree
  unfold actual_summary expected_counts walk_group
  rw [ndir, nifree, if_neg Bool.false_ne_true, nbfree, nffree]
  congr 1
  · exact zero_add _
  · split <;> omega

end Groups

end UfsFsck
