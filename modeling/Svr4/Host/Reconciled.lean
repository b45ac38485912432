import Svr4.Host.Reconcile

/- The image after the whole reconciliation: the fragments that it takes the inodes to own, and
   those that they own. -/
namespace UfsReconcile
open UfsGroups UfsFsck List Nat

section Runs
variable {fs : Volume} {disk : Disk} {now : Nat} {metadata_normalized : Bool}
  {order : List (Nat × Nat) → List (Nat × List Nat)}

theorem mark_groups_spec (work : List (Nat × List Nat)) (inside : ∀ entry ∈ work, entry.1 < fs.ncg)
    (valid : ValidGroups fs disk) (counts : Normalised fs disk) (repaired : Nat) :
    Marks (fun cg f => ∃ frag_indices, (cg, frag_indices) ∈ work ∧ f ∈ frag_indices) disk
        (work.foldl (mark_group fs) (disk, repaired)).1 ∧
      Normalised fs (work.foldl (mark_group fs) (disk, repaired)).1 ∧
      (work.foldl (mark_group fs) (disk, repaired)).2 =
        repaired + (work.map fun entry => entry.2.length).sum := by
  induction work generalizing disk repaired with
  | nil =>
    refine ⟨?_, counts, rfl⟩
    exact { Marks.refl disk with free := fun cg f => by simp }
  | cons entry rest ih =>
    obtain ⟨first, counts', number⟩ :=
      mark_group_spec valid counts (inside entry (mem_cons_self ..)) entry.2 repaired
    obtain ⟨later, counts'', number'⟩ := ih (fun e mem => inside e (mem_cons_of_mem _ mem))
      (first.valid valid) counts' (mark_group fs (disk, repaired) entry).2
    refine ⟨?_, counts'', ?_⟩
    · refine { first.trans later with free := fun cg f => ?_ }
      refine ((first.trans later).free cg f).trans (and_congr_right fun _ => not_congr ?_)
      constructor
      · rintro (⟨rfl, mem⟩ | ⟨frag_indices, there, mem⟩)
        · exact ⟨entry.2, mem_cons_self .., mem⟩
        · exact ⟨frag_indices, mem_cons_of_mem _ there, mem⟩
      · rintro ⟨frag_indices, there, mem⟩
        rcases mem_cons.mp there with rfl | there
        · exact .inl ⟨rfl, mem⟩
        · exact .inr ⟨frag_indices, there, mem⟩
    · rw [map_cons, sum_cons, ← add_assoc, ← number]
      exact number'

theorem mem_wrongly_free {cg f : Nat} : (cg, f) ∈ wrongly_free fs disk ↔
    ∃ x, Claimed fs disk x ∧ (disk.groups (x / fs.fpg)).free (x % fs.fpg) = true ∧
      x / fs.fpg = cg ∧ x % fs.fpg = f := by
  have each (n : Nat) : (cg, f) ∈ (if live disk n then
      (ufs_inode_owned_fragments fs disk.pointers (disk.inodes n)).filterMap fun x =>
        if (disk.groups (x / fs.fpg)).free (x % fs.fpg) then some (x / fs.fpg, x % fs.fpg)
        else none
      else []) ↔ live disk n = true ∧
        ∃ x ∈ ufs_inode_owned_fragments fs disk.pointers (disk.inodes n),
          (disk.groups (x / fs.fpg)).free (x % fs.fpg) = true ∧
            x / fs.fpg = cg ∧ x % fs.fpg = f := by
    split
    · next alive =>
      simp only [alive, true_and, mem_filterMap, Option.ite_none_right_eq_some,
        Option.some.injEq, Prod.mk.injEq]
    · next dead =>
      exact ⟨fun mem => (not_mem_nil mem).elim, fun h => (dead h.1).elim⟩
  unfold wrongly_free
  simp only [mem_flatMap]
  rw [exists_number (p := fun n => (cg, f) ∈ (if live disk n then
      (ufs_inode_owned_fragments fs disk.pointers (disk.inodes n)).filterMap fun x =>
        if (disk.groups (x / fs.fpg)).free (x % fs.fpg) then some (x / fs.fpg, x % fs.fpg)
        else none
      else []))]
  constructor
  · rintro ⟨n, inside, mem⟩
    obtain ⟨alive, x, owned, rest⟩ := (each n).mp mem
    exact ⟨x, ⟨n, ⟨inside, alive⟩, owned⟩, rest⟩
  · rintro ⟨x, ⟨n, ⟨inside, alive⟩, owned⟩, rest⟩
    exact ⟨n, inside, (each n).mpr ⟨alive, x, owned, rest⟩⟩

theorem foldl_add_sums (counts : Nat → Counts) (n : Nat) :
    (((List.range n).map counts).foldl (· + ·) Counts.zero).nbfree =
      ∑ i ∈ Finset.range n, (counts i).nbfree ∧
    (((List.range n).map counts).foldl (· + ·) Counts.zero).nffree =
      ∑ i ∈ Finset.range n, (counts i).nffree := by
  induction n with
  | zero => exact ⟨rfl, rfl⟩
  | succ n ih =>
    rw [range_succ, map_append, foldl_append, Finset.sum_range_succ,
      Finset.sum_range_succ, ← ih.1, ← ih.2]
    exact ⟨rfl, rfl⟩

theorem Normalised.of_agrees {directory : Nat → Bool} {fs_cs : Nat → Counts}
    (agrees : Agrees fs.toGeometry { disk with directory, fs_cs }) :
    Normalised fs disk where
  nbfree cg inside := congrArg Counts.nbfree (agrees.header cg inside)
  nffree cg inside := congrArg Counts.nffree (agrees.header cg inside)
  total_nbfree := (congrArg Counts.nbfree agrees.totals).trans (foldl_add_sums _ _).1
  total_nffree := (congrArg Counts.nffree agrees.totals).trans (foldl_add_sums _ _).2

/-- Whether the counts are brought up to date or are so already, the bitmaps stay as they are. -/
structure Ensured (fs : Volume) (disk disk' : Disk) : Prop where
  free : ∀ cg, (disk'.groups cg).free = (disk.groups cg).free
  ndblk : ∀ cg, (disk'.groups cg).ndblk = (disk.groups cg).ndblk
  used : ∀ cg, (disk'.groups cg).used = (disk.groups cg).used
  inodes : disk'.inodes = disk.inodes
  records : disk'.records = disk.records
  pointers : disk'.pointers = disk.pointers
  counts : Normalised fs disk'

theorem ensured (now : Nat) (counts : metadata_normalized = true → Normalised fs disk) :
    Ensured fs disk (ensure_ufs_metadata_normalized fs now metadata_normalized disk) := by
  cases metadata_normalized with
  | true => exact ⟨fun _ => rfl, fun _ => rfl, fun _ => rfl, rfl, rfl, rfl, counts rfl⟩
  | false =>
    have agrees : Agrees fs.toGeometry
        ((summary_image disk).write_ufs_summary_counts fs.toGeometry false) :=
      (write_ufs_summary_counts_agrees false fun h => (Bool.false_ne_true h).elim).1
    refine ⟨fun cg => ?_, fun cg => ?_, fun cg => ?_, rfl, rfl, rfl, Normalised.of_agrees agrees⟩
    all_goals
      unfold ensure_ufs_metadata_normalized recompute_ufs_summary_counts
        Image.write_ufs_summary_counts summary_image
      rw [if_neg Bool.false_ne_true]
      dsimp only
      split <;> rfl

end Runs

/-- After a reconciliation exactly the free fragments with an owner are used now, the counts are
those of the bitmaps, and nothing is left to be done. -/
structure Reconciled (fs : Volume) (metadata_normalized : Bool) (owned : Nat → Prop) (disk : Disk)
    (result : Disk × Nat) : Prop where
  bits : ∀ cg < fs.ncg, ∀ f, (result.1.groups cg).free f = true ↔
    (disk.groups cg).free f = true ∧ ¬ owned (ufs_cgbase fs.toLayout cg + f)
  used : ∀ cg, (result.1.groups cg).used = (disk.groups cg).used
  ndblk : ∀ cg, (result.1.groups cg).ndblk = (disk.groups cg).ndblk
  files : result.1.inodes = disk.inodes ∧ result.1.records = disk.records ∧
    result.1.pointers = disk.pointers
  nbfree : ∀ cg < fs.ncg, ∀ trust, (result.1.groups cg).counts.nbfree =
    (expected_counts fs.toGeometry (directory_inode disk) cg (result.1.groups cg) trust).nbfree
  nffree : ∀ cg < fs.ncg, ∀ trust, (result.1.groups cg).counts.nffree =
    (expected_counts fs.toGeometry (directory_inode disk) cg (result.1.groups cg) trust).nffree
  total_nbfree : ∀ trust, result.1.totals.nbfree = ∑ cg ∈ Finset.range fs.ncg,
    (expected_counts fs.toGeometry (directory_inode disk) cg (result.1.groups cg) trust).nbfree
  total_nffree : ∀ trust, result.1.totals.nffree = ∑ cg ∈ Finset.range fs.ncg,
    (expected_counts fs.toGeometry (directory_inode disk) cg (result.1.groups cg) trust).nffree
  others : metadata_normalized = true →
    (∀ cg, (result.1.groups cg).tables = (disk.groups cg).tables ∧
      (result.1.groups cg).counts.ndir = (disk.groups cg).counts.ndir ∧
      (result.1.groups cg).counts.nifree = (disk.groups cg).counts.nifree) ∧
    result.1.totals.ndir = disk.totals.ndir ∧ result.1.totals.nifree = disk.totals.nifree ∧
    result.1.headers = disk.headers ∧ result.1.fs_cs = disk.fs_cs
  second : ∀ now normalized order, Orders order →
    (reconcile_ufs_block_bitmap_from_inodes fs now normalized order result.1).2 = 0

section Results
variable {fs : Volume} {disk : Disk} {now : Nat} {metadata_normalized : Bool}
  {order : List (Nat × Nat) → List (Nat × List Nat)}

theorem expected_nbfree (directory : Nat → Bool) (cg : Nat) (g : Group) (trust : Bool) :
    (expected_counts fs.toGeometry directory cg g trust).nbfree =
      (scan fs.toGeometry g).nbfree := by
  cases trust <;> rfl

theorem expected_nffree (directory : Nat → Bool) (cg : Nat) (g : Group) (trust : Bool) :
    (expected_counts fs.toGeometry directory cg g trust).nffree =
      (scan fs.toGeometry g).nffree := by
  cases trust <;> rfl

theorem place_iff (fs : Volume) (x cg : Nat) {f : Nat} (inside : f < fs.fpg) :
    x / fs.fpg = cg ∧ x % fs.fpg = f ↔ x = ufs_cgbase fs.toLayout cg + f := by
  unfold ufs_cgbase
  constructor
  · rintro ⟨rfl, rfl⟩
    exact (div_add_mod x fs.fpg).symm
  · rintro rfl
    rw [mul_add_div fs.fpg_pos, mul_add_mod, div_eq_of_lt inside, mod_eq_of_lt inside]
    exact ⟨add_zero cg, rfl⟩

theorem claimed_congr (fs : Volume) {disk' : Disk} (inodes : disk'.inodes = disk.inodes)
    (pointers : disk'.pointers = disk.pointers) (x : Nat) :
    Claimed fs disk' x ↔ Claimed fs disk x := by
  unfold Claimed Live live
  rw [inodes, pointers]

theorem entry_claimed (orders : Orders order) {entry : Nat × List Nat}
    (mem : entry ∈ order (wrongly_free fs disk)) : ∃ x, Claimed fs disk x ∧
      (disk.groups (x / fs.fpg)).free (x % fs.fpg) = true ∧ x / fs.fpg = entry.1 := by
  obtain ⟨f, there⟩ := exists_mem_of_ne_nil _ (orders.nonempty _ _ mem)
  have found : (entry.1, f) ∈ wrongly_free fs disk :=
    (orders.mem _ entry.1 f).mp ⟨entry.2, mem, there⟩
  obtain ⟨x, claimed, free, group, -⟩ := mem_wrongly_free.mp found
  exact ⟨x, claimed, free, group⟩

theorem nothing_repaired (orders : Orders order) (none_free : ∀ x, Claimed fs disk x →
      (disk.groups (x / fs.fpg)).free (x % fs.fpg) = false) :
    (order (wrongly_free fs disk)) = [] := by
  rw [eq_nil_iff_forall_not_mem]
  intro entry mem
  obtain ⟨x, claimed, free, -⟩ := entry_claimed orders mem
  rw [none_free x claimed] at free
  exact Bool.false_ne_true free

theorem reconciled_claimed (now : Nat) (orders : Orders order) (valid : ValidGroups fs disk)
    (counts : metadata_normalized = true → Normalised fs disk) (in_range : InRange fs disk) :
    Reconciled fs metadata_normalized (Claimed fs disk) disk
      (reconcile_ufs_block_bitmap_from_inodes fs now metadata_normalized order disk) := by
  have ready := ensured now counts
  have same : metadata_normalized = true →
      ensure_ufs_metadata_normalized fs now metadata_normalized disk = disk := by
    rintro rfl
    rfl
  unfold reconcile_ufs_block_bitmap_from_inodes
  generalize ensure_ufs_metadata_normalized fs now metadata_normalized disk = d at ready same
  have claims := claimed_congr fs ready.inodes ready.pointers
  have valid' : ValidGroups fs d := by
    refine ⟨fun cg inside => ?_, fun cg inside f behind => ?_⟩
    · rw [ready.ndblk]
      exact valid.ndblk cg inside
    · rw [ready.ndblk] at behind
      rw [ready.free]
      exact valid.beyond cg inside f behind
  have inside : ∀ entry ∈ order (wrongly_free fs d), entry.1 < fs.ncg := by
    intro entry mem
    obtain ⟨x, claimed, -, group⟩ := entry_claimed orders mem
    rw [← group, div_lt_iff_lt_mul fs.fpg_pos, mul_comm]
    exact in_range x ((claims x).mp claimed)
  obtain ⟨marks, counts', -⟩ := mark_groups_spec _ inside valid' ready.counts 0
  generalize (order (wrongly_free fs d)).foldl (mark_group fs) (d, 0) = result at marks counts'
  have others := marks.others
  have bits : ∀ cg < fs.ncg, ∀ f, (result.1.groups cg).free f = true ↔
      (disk.groups cg).free f = true ∧ ¬ Claimed fs disk (ufs_cgbase fs.toLayout cg + f) := by
    intro cg there f
    rw [marks.free, ready.free]
    refine and_congr_right fun free => not_congr ?_
    have within : f < fs.fpg := by
      by_contra behind
      rw [valid.beyond cg there f
        (Nat.le_trans (valid.ndblk cg there) (Nat.le_of_not_lt behind))] at free
      exact Bool.false_ne_true free
    rw [orders.mem, mem_wrongly_free]
    constructor
    · rintro ⟨x, claimed, -, place⟩
      rw [← (place_iff fs x cg within).mp place]
      exact (claims x).mp claimed
    · intro claimed
      have place := (place_iff fs _ cg within).mpr rfl
      refine ⟨_, (claims _).mpr claimed, ?_, place⟩
      rw [place.1, place.2, ready.free]
      exact free
  refine ⟨bits, fun cg => (marks.used cg).trans (ready.used cg),
    fun cg => (marks.ndblk cg).trans (ready.ndblk cg), ?_, ?_, ?_, ?_, ?_, ?_, ?_⟩
  · rw [others]
    exact ⟨ready.inodes, ready.records, ready.pointers⟩
  · intro cg there trust
    rw [expected_nbfree]
    exact counts'.nbfree cg there
  · intro cg there trust
    rw [expected_nffree]
    exact counts'.nffree cg there
  · intro trust
    simp only [expected_nbfree]
    exact counts'.total_nbfree
  · intro trust
    simp only [expected_nffree]
    exact counts'.total_nffree
  · intro normalized
    obtain rfl := same normalized
    refine ⟨fun cg => ⟨marks.tables cg, marks.ndir cg, marks.nifree cg⟩, marks.total_ndir,
      marks.total_nifree, ?_⟩
    rw [others]
    exact ⟨rfl, rfl⟩
  · intro now normalized order' orders'
    have again : Ensured fs result.1 (ensure_ufs_metadata_normalized fs now normalized result.1) :=
      ensured now fun _ => counts'
    unfold reconcile_ufs_block_bitmap_from_inodes
    dsimp only
    rw [nothing_repaired orders']
    · rfl
    · intro x claimed
      have claimed : Claimed fs disk x := by
        refine (claimed_congr fs ?_ ?_ x).mp claimed
        · rw [again.inodes, others]
          exact ready.inodes
        · rw [again.pointers, others]
          exact ready.pointers
      have there : x / fs.fpg < fs.ncg := by
        rw [div_lt_iff_lt_mul fs.fpg_pos, mul_comm]
        exact in_range x claimed
      rw [again.free, ← Bool.not_eq_true, bits _ there]
      have place := (place_iff fs x _ (mod_lt x fs.fpg_pos)).mp ⟨rfl, rfl⟩
      rw [← place]
      exact fun h => h.2 claimed

theorem claimed_iff (x : Nat) : Claimed fs disk x ↔ Owned fs disk x ∨
    ∃ n, Live fs disk n ∧ Excess fs disk.pointers (disk.inodes n) x := by
  constructor
  · rintro ⟨n, alive, claims⟩
    rcases mem_owned_iff.mp claims with owns | excess
    · exact .inl ⟨n, alive, owns⟩
    · exact .inr ⟨n, alive, excess⟩
  · rintro (⟨n, alive, owns⟩ | ⟨n, alive, excess⟩)
    · exact ⟨n, alive, mem_owned_iff.mpr (.inl owns)⟩
    · exact ⟨n, alive, mem_owned_iff.mpr (.inr excess)⟩

theorem Reconciled.congr {owned owned' : Nat → Prop} {result : Disk × Nat}
    (done : Reconciled fs metadata_normalized owned disk result)
    (same : ∀ cg < fs.ncg, ∀ f, (disk.groups cg).free f = true →
      (owned (ufs_cgbase fs.toLayout cg + f) ↔ owned' (ufs_cgbase fs.toLayout cg + f))) :
    Reconciled fs metadata_normalized owned' disk result :=
  { done with
    bits := fun cg inside f => (done.bits cg inside f).trans
      (and_congr_right fun free => not_congr (same cg inside f free)) }

/-- The reconciliation is right exactly when the free fragments that the holes of files bring in
have an owner. -/
theorem reconciles (orders : Orders order) (valid : ValidGroups fs disk)
    (counts : metadata_normalized = true → Normalised fs disk) (in_range : InRange fs disk) :
    Reconciled fs metadata_normalized (Claimed fs disk) disk
        (reconcile_ufs_block_bitmap_from_inodes fs now metadata_normalized order disk) ∧
      (Reconciled fs metadata_normalized (Owned fs disk) disk
          (reconcile_ufs_block_bitmap_from_inodes fs now metadata_normalized order disk) ↔
        ∀ n x, Live fs disk n → Excess fs disk.pointers (disk.inodes n) x →
          (disk.groups (x / fs.fpg)).free (x % fs.fpg) = true → Owned fs disk x) := by
  have done := reconciled_claimed now orders valid counts in_range
  refine ⟨done, ?_, ?_⟩
  · intro right n x alive excess free
    have claimed := (claimed_iff x).mpr (.inr ⟨n, alive, excess⟩)
    have there : x / fs.fpg < fs.ncg := by
      rw [div_lt_iff_lt_mul fs.fpg_pos, mul_comm]
      exact in_range x claimed
    have place := (place_iff fs x _ (mod_lt x fs.fpg_pos)).mp ⟨rfl, rfl⟩
    by_contra nobody
    have stays := (right.bits _ there (x % fs.fpg)).mpr ⟨free, place ▸ nobody⟩
    exact ((done.bits _ there _).mp stays).2 (place ▸ claimed)
  · intro harmless
    refine done.congr fun cg inside f free => ?_
    have within : f < fs.fpg := by
      by_contra behind
      rw [valid.beyond cg inside f
        (Nat.le_trans (valid.ndblk cg inside) (Nat.le_of_not_lt behind))] at free
      exact Bool.false_ne_true free
    rw [claimed_iff]
    constructor
    · rintro (owned | ⟨n, alive, excess⟩)
      · exact owned
      · have place := (place_iff fs _ cg within).mpr rfl
        exact harmless n _ alive excess (by rw [place.1, place.2]; exact free)
    · exact .inl

end Results

def grouped (found : List (Nat × Nat)) : List (Nat × List Nat) :=
  (found.map Prod.fst).dedup.map fun cg =>
    (cg, ((found.filter fun place => place.1 = cg).map Prod.snd).dedup)

theorem mem_grouped {found : List (Nat × Nat)} {cg f : Nat} :
    f ∈ ((found.filter fun place => place.1 = cg).map Prod.snd).dedup ↔ (cg, f) ∈ found := by
  rw [mem_dedup, mem_map]
  constructor
  · rintro ⟨⟨cg', f⟩, there, rfl⟩
    obtain ⟨mem, same⟩ := mem_filter.mp there
    obtain rfl : cg' = cg := of_decide_eq_true same
    exact mem
  · intro mem
    exact ⟨(cg, f), mem_filter.mpr ⟨mem, decide_eq_true rfl⟩, rfl⟩

theorem grouped_orders : Orders grouped where
  mem found cg f := by
    constructor
    · rintro ⟨frag_indices, there, mem⟩
      obtain ⟨cg', -, same⟩ := mem_map.mp there
      obtain ⟨rfl, rfl⟩ := Prod.mk.inj same
      exact mem_grouped.mp mem
    · intro mem
      refine ⟨_, mem_map.mpr ⟨cg, ?_, rfl⟩, mem_grouped.mpr mem⟩
      exact mem_dedup.mpr (mem_map.mpr ⟨(cg, f), mem, rfl⟩)
  nonempty found entry mem := by
    obtain ⟨cg, found_in, rfl⟩ := mem_map.mp mem
    obtain ⟨⟨cg, f⟩, there, rfl⟩ := mem_map.mp (mem_dedup.mp found_in)
    exact ne_nil_of_mem (mem_grouped.mpr there)

section Sample

theorem four_kilobytes : 0 < 4096 := by decide

def quarter : Volume where
  ncg := 1
  ipg := 8
  frag := 4
  spc := 0
  nsect := 0
  nspf := 2
  csaddr := 0
  cssize := 0
  bsize := 4096
  fsize := 1024
  nindir := 1024
  fpg := 16
  dsize := 16
  cgoffset := 0
  cgmask := 0
  cblkno := 0
  dblkno := 0
  cpg := 0
  ncyl := 0
  bsize_pos := four_kilobytes
  frag_fsize := rfl
  fpg_pos := by decide

def file (direct_blocks : List Nat) : Inode :=
  ⟨0o100644, 5000, 1, 0, direct_blocks, [0, 0, 0], []⟩

def partly_free : Group :=
  ⟨16, fun f => decide (4 ≤ f ∧ f < 16 ∧ f ≠ 8), fun i => decide (i ≤ 2), ⟨0, 2, 5, 3⟩,
    ⟨[], [], []⟩⟩

def one_file (direct_blocks : List Nat) : Disk where
  inodes n := if n = 2 then file direct_blocks else ⟨0, 0, 0, 0, [], [], []⟩
  groups _ := partly_free
  headers _ := ⟨0, 0, 0, 0, 0, 0, 0, 0⟩
  fs_cs _ := ⟨0, 2, 5, 3⟩
  totals := ⟨0, 2, 5, 3⟩
  records _ := []
  pointers _ := []

variable (direct_blocks : List Nat)

theorem one_file_valid : ValidGroups quarter (one_file direct_blocks) where
  ndblk _ _ := Nat.le_refl 16
  beyond _ _ f behind := by
    have behind : 16 ≤ f := behind
    exact decide_eq_false (by omega)

theorem partly_free_scan : (scan quarter.toGeometry partly_free).nbfree = 2 ∧
    (scan quarter.toGeometry partly_free).nffree = 3 := by
  decide +kernel

theorem one_file_counts : Normalised quarter (one_file direct_blocks) where
  nbfree _ _ := congrArg Int.ofNat partly_free_scan.1.symm
  nffree _ _ := congrArg Int.ofNat partly_free_scan.2.symm
  total_nbfree := (congrArg Int.ofNat partly_free_scan.1.symm).trans
    (Finset.sum_range_one fun _ => ((scan quarter.toGeometry partly_free).nbfree : Int)).symm
  total_nffree := (congrArg Int.ofNat partly_free_scan.2.symm).trans
    (Finset.sum_range_one fun _ => ((scan quarter.toGeometry partly_free).nffree : Int)).symm

theorem sizes_5000 : UfsSizes.ufs_allocation_byte_sizes quarter.sizes 5000 = [4096, 1024] := by
  simp [UfsSizes.ufs_allocation_byte_sizes, UfsSizes.whole_loop, UfsSizes.allocation,
    UfsSizes.needed_blocks, UfsSizes.ufs_fragroundup, quarter, Volume.sizes, UfsSizes.UFS_NDADDR]

theorem live_iff (n : Nat) : Live quarter (one_file direct_blocks) n ↔ n = 2 := by
  unfold Live live one_file
  constructor
  · rintro ⟨-, alive⟩
    by_contra other
    simp [other] at alive
  · rintro rfl
    exact ⟨by decide, by simp [file]⟩

theorem claimed_list : (ufs_inode_owned_fragments quarter (fun _ => []) (file [0, 8]) =
      [8, 9, 10, 11]) ∧
    ufs_inode_owned_fragments quarter (fun _ => []) (file [4, 8]) = [4, 5, 6, 7, 8] := by
  have size (direct_blocks : List Nat) : (file direct_blocks).size = 5000 := rfl
  constructor
  all_goals
    simp only [ufs_inode_owned_fragments, frag_count, size, sizes_5000]
    rfl

theorem one_file_claimed (x : Nat) : Claimed quarter (one_file direct_blocks) x ↔
    x ∈ ufs_inode_owned_fragments quarter (fun _ => []) (file direct_blocks) := by
  unfold Claimed
  simp only [live_iff, exists_eq_left]
  rfl

theorem in_range_of_list (list : ∀ x ∈ ufs_inode_owned_fragments quarter (fun _ => [])
    (file direct_blocks), x < 16) : InRange quarter (one_file direct_blocks) :=
  fun x claimed => list x ((one_file_claimed direct_blocks x).mp claimed)

/-- Without a hole the file gets back its first block. -/
theorem reconciles_dense :
    Reconciled quarter true (Owned quarter (one_file [4, 8])) (one_file [4, 8])
      (reconcile_ufs_block_bitmap_from_inodes quarter 0 true grouped (one_file [4, 8])) := by
  have in_range : InRange quarter (one_file [4, 8]) := by
    apply in_range_of_list
    rw [claimed_list.2]
    decide
  refine (reconciles grouped_orders (one_file_valid _) (fun _ => one_file_counts _)
    in_range).2.mpr fun n x alive excess _ => ?_
  obtain rfl := (live_iff [4, 8] n).mp alive
  refine absurd excess (no_excess fun i inside => ?_)
  match i with
  | 0 => exact ⟨4, by decide, rfl⟩
  | 1 => exact ⟨8, by decide, rfl⟩

/-- The block behind a hole has one fragment; the rest of it is marked too, though nobody owns it.
-/
theorem marks_unowned : ValidGroups quarter (one_file [0, 8]) ∧
    Normalised quarter (one_file [0, 8]) ∧ InRange quarter (one_file [0, 8]) ∧ Orders grouped ∧
    ¬ Reconciled quarter true (Owned quarter (one_file [0, 8])) (one_file [0, 8])
      (reconcile_ufs_block_bitmap_from_inodes quarter 0 true grouped (one_file [0, 8])) := by
  have in_range : InRange quarter (one_file [0, 8]) := by
    apply in_range_of_list
    rw [claimed_list.1]
    decide
  refine ⟨one_file_valid _, one_file_counts _, in_range, grouped_orders, fun right => ?_⟩
  have done := @reconciled_claimed _ _ true _ 0 grouped_orders (one_file_valid [0, 8])
    (fun _ => one_file_counts _) in_range
  have claimed : Claimed quarter (one_file [0, 8]) 9 := by
    rw [one_file_claimed, claimed_list.1]
    decide
  have nobody : ¬ Owned quarter (one_file [0, 8]) 9 := by
    rintro ⟨n, alive, owns⟩
    obtain rfl := (live_iff [0, 8] n).mp alive
    rcases owns with ⟨i, fs_block, j, inside, here, some, within, same⟩ | ⟨fs_block, mem, -⟩
    · match i with
      | 0 =>
        obtain rfl : (0 : Nat) = fs_block := Option.some.inj here
        exact some rfl
      | 1 =>
        obtain rfl : (8 : Nat) = fs_block := Option.some.inj here
        have count : frag_count quarter 5000 1 = 1 := by
          rw [frag_count, sizes_5000]
          rfl
        have within : j < frag_count quarter 5000 1 := within
        omega
    · exact absurd mem not_mem_nil
  have stays := (right.bits 0 (by decide) 9).mpr ⟨by decide, nobody⟩
  exact ((done.bits 0 (by decide) 9).mp stays).2 claimed

end Sample

end UfsReconcile
