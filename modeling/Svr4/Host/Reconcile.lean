import Mathlib.Algebra.BigOperators.Intervals
import Svr4.Host.Ownership

/- host_tools/fs/ufs.py: the fragments that an inode owns and the bitmaps call free are marked as
   used, one at a time and in any order, and the counts go along. -/
namespace UfsReconcile
open Function UfsGroups UfsFsck List

section Code
variable (fs : Volume)

def live (disk : Disk) (inode_number : Nat) : Bool :=
  2 ≤ inode_number ∧ (disk.inodes inode_number).mode ≠ 0

/-- `wrongly_free_by_cg`: groups and indices in them. -/
def wrongly_free (disk : Disk) : List (Nat × Nat) :=
  (List.range fs.ncg).flatMap fun cg =>
    (List.range fs.ipg).flatMap fun local_inode =>
      let inode_number := cg * fs.ipg + local_inode
      if live disk inode_number then
        (ufs_inode_owned_fragments fs disk.pointers (disk.inodes inode_number)).filterMap fun x =>
          if (disk.groups (x / fs.fpg)).free (x % fs.fpg) then some (x / fs.fpg, x % fs.fpg)
          else none
      else []

structure Marking where
  group : Group
  totals : Counts
  frag_delta : Int
  repaired : Nat

/-- `before == full_frag_mask and after != full_frag_mask` -/
def block_delta (before after : Nat) : Int :=
  if before = fs.frag ∧ after ≠ fs.frag then -1 else 0

def mark_frag (m : Marking) (frag_index : Nat) : Marking :=
  let block_base := frag_index - frag_index % fs.frag
  let free := update m.group.free frag_index false
  let before := free_count m.group.free block_base fs.frag
  let after := free_count free block_base fs.frag
  { group :=
      { m.group with
        free := free
        counts := m.group.counts + ⟨0, block_delta fs before after, 0, 0⟩ }
    totals := m.totals + ⟨0, block_delta fs before after, 0, 0⟩
    frag_delta := m.frag_delta + (partial_fragment_contribution fs.toGeometry after -
      partial_fragment_contribution fs.toGeometry before)
    repaired := m.repaired + 1 }

/-- The loop over `wrongly_free_by_cg`, with the image and `repaired`. -/
def mark_group (s : Disk × Nat) (entry : Nat × List Nat) : Disk × Nat :=
  let m := entry.2.foldl (mark_frag fs) ⟨s.1.groups entry.1, s.1.totals, 0, s.2⟩
  let delta : Counts := if m.frag_delta ≠ 0 then ⟨0, 0, 0, m.frag_delta⟩ else Counts.zero
  ({ s.1 with
     groups := update s.1.groups entry.1 { m.group with counts := m.group.counts + delta }
     totals := m.totals + delta },
    m.repaired)

variable (now : Nat) (metadata_normalized : Bool)

def ensure_ufs_metadata_normalized (disk : Disk) : Disk :=
  if metadata_normalized then disk else recompute_ufs_summary_counts now fs.toLayout disk

/-- The dict and its sets are gone through in the order that `order` gives. -/
def reconcile_ufs_block_bitmap_from_inodes (order : List (Nat × Nat) → List (Nat × List Nat))
    (disk : Disk) : Disk × Nat :=
  let disk := ensure_ufs_metadata_normalized fs now metadata_normalized disk
  (order (wrongly_free fs disk)).foldl (mark_group fs) (disk, 0)

end Code

/-- Every fragment that was gathered comes under its group, and no other. -/
structure Orders (order : List (Nat × Nat) → List (Nat × List Nat)) : Prop where
  mem : ∀ found cg f, (∃ frag_indices, (cg, frag_indices) ∈ order found ∧ f ∈ frag_indices) ↔
    (cg, f) ∈ found
  nonempty : ∀ found entry, entry ∈ order found → entry.2 ≠ []

section Specification
variable (fs : Volume) (disk : Disk)

/-- The bitmap of a group is about the fragments it has. -/
structure ValidGroups : Prop where
  ndblk : ∀ cg < fs.ncg, (disk.groups cg).ndblk ≤ fs.fpg
  beyond : ∀ cg < fs.ncg, ∀ f, (disk.groups cg).ndblk ≤ f → (disk.groups cg).free f = false

/-- The free blocks and fragments are counted as `expected_ufs_cg_header` counts them. -/
structure Normalised : Prop where
  nbfree : ∀ cg < fs.ncg, (disk.groups cg).counts.nbfree =
    (scan fs.toGeometry (disk.groups cg)).nbfree
  nffree : ∀ cg < fs.ncg, (disk.groups cg).counts.nffree =
    (scan fs.toGeometry (disk.groups cg)).nffree
  total_nbfree : disk.totals.nbfree =
    ∑ cg ∈ Finset.range fs.ncg, ((scan fs.toGeometry (disk.groups cg)).nbfree : Int)
  total_nffree : disk.totals.nffree =
    ∑ cg ∈ Finset.range fs.ncg, ((scan fs.toGeometry (disk.groups cg)).nffree : Int)

def Live (n : Nat) : Prop := n < fs.ipg * fs.ncg ∧ live disk n = true

def Claimed (x : Nat) : Prop :=
  ∃ n, Live fs disk n ∧ x ∈ ufs_inode_owned_fragments fs disk.pointers (disk.inodes n)

def Owned (x : Nat) : Prop := ∃ n, Live fs disk n ∧ Owns fs disk.pointers (disk.inodes n) x

def InRange : Prop := ∀ x, Claimed fs disk x → x < fs.fpg * fs.ncg

end Specification

structure Marks (P : Nat → Nat → Prop) (disk disk' : Disk) : Prop where
  free : ∀ cg f, (disk'.groups cg).free f = true ↔ (disk.groups cg).free f = true ∧ ¬ P cg f
  ndblk : ∀ cg, (disk'.groups cg).ndblk = (disk.groups cg).ndblk
  used : ∀ cg, (disk'.groups cg).used = (disk.groups cg).used
  tables : ∀ cg, (disk'.groups cg).tables = (disk.groups cg).tables
  ndir : ∀ cg, (disk'.groups cg).counts.ndir = (disk.groups cg).counts.ndir
  nifree : ∀ cg, (disk'.groups cg).counts.nifree = (disk.groups cg).counts.nifree
  total_ndir : disk'.totals.ndir = disk.totals.ndir
  total_nifree : disk'.totals.nifree = disk.totals.nifree
  others : disk' = { disk with groups := disk'.groups, totals := disk'.totals }

section Scans
variable {fs : Volume} {g : Group} {free free' : Nat → Bool} {f : Nat}

theorem free_count_le (free : Nat → Bool) (base n : Nat) : free_count free base n ≤ n :=
  countP_le_length.trans (le_of_eq length_range)

theorem free_count_lt {base n k : Nat} (within : k < n) (used : free (base + k) = false) :
    free_count free base n < n := by
  refine lt_of_le_of_ne (free_count_le free base n) fun full => ?_
  have all := countP_eq_length.mp (full.trans length_range.symm)
  rw [all k (mem_range.mpr within)] at used
  cases used

theorem free_count_congr {base n : Nat} (same : ∀ k < n, free' (base + k) = free (base + k)) :
    free_count free' base n = free_count free base n :=
  countP_congr fun k mem => by rw [same k (mem_range.mp mem)]

theorem free_count_beyond {base n m : Nat} (fewer : n ≤ m)
    (used : ∀ k, n ≤ k → free (base + k) = false) :
    free_count free base m = free_count free base n := by
  obtain ⟨d, rfl⟩ := Nat.exists_eq_add_of_le fewer
  have later : ((List.range d).map (n + ·)).countP (fun k => free (base + k)) = 0 := by
    rw [countP_eq_zero]
    intro k mem
    obtain ⟨j, -, rfl⟩ := mem_map.mp mem
    rw [used (n + j) (Nat.le_add_right n j)]
    exact Bool.false_ne_true
  unfold free_count
  rw [range_add, countP_append, later, add_zero]

def block_count (fs : Volume) (free : Nat → Bool) (block : Nat) : Nat :=
  free_count free (block * fs.frag) fs.frag

def whole (fs : Volume) (count : Nat) : Int := if count = fs.frag then 1 else 0

theorem frag_pos (fs : Volume) : 0 < fs.frag :=
  Nat.pos_of_mul_pos_right (fs.frag_fsize ▸ fs.bsize_pos)

theorem last_block_short (fs : Volume) (beyond : ∀ f, g.ndblk ≤ f → g.free f = false) :
    block_count fs g.free (g.ndblk / fs.frag) < fs.frag := by
  have rest := Nat.mod_lt g.ndblk (frag_pos fs)
  refine free_count_lt rest (beyond _ ?_)
  rw [Nat.mul_comm, Nat.div_add_mod]

theorem scan_sums (fs : Volume) (beyond : ∀ f, g.ndblk ≤ f → g.free f = false) :
    ((scan fs.toGeometry g).nbfree : Int) =
      ∑ block ∈ Finset.range (g.ndblk / fs.frag + 1), whole fs (block_count fs g.free block) ∧
    ((scan fs.toGeometry g).nffree : Int) = ∑ block ∈ Finset.range (g.ndblk / fs.frag + 1),
        partial_fragment_contribution fs.toGeometry (block_count fs g.free block) := by
  have short := last_block_short fs beyond
  obtain ⟨nbfree, nffree⟩ := scan_counts fs.toLayout g
  rw [nbfree, nffree, Finset.sum_range_succ, Finset.sum_range_succ]
  unfold actual_nbfree actual_nffree
  constructor
  · rw [show whole fs (block_count fs g.free (g.ndblk / fs.frag)) = 0 from
      if_neg (ne_of_lt short), add_zero]
    induction g.ndblk / fs.frag with
    | zero => rfl
    | succ n ih =>
      rw [range_succ, countP_append, Finset.sum_range_succ, ← ih, countP_singleton,
        whole, block_count]
      simp
  · have trailing : free_count g.free (g.ndblk / fs.frag * fs.frag)
        (g.ndblk - g.ndblk / fs.frag * fs.frag) = block_count fs g.free (g.ndblk / fs.frag) := by
      refine (free_count_beyond ?_ fun k behind => beyond _ (by omega)).symm
      have := Nat.lt_div_mul_add (frag_pos fs) (a := g.ndblk)
      omega
    have last : (block_count fs g.free (g.ndblk / fs.frag) : Int) =
        partial_fragment_contribution fs.toGeometry
          (block_count fs g.free (g.ndblk / fs.frag)) := by
      unfold partial_fragment_contribution
      split
      · omega
      · rfl
    rw [trailing, ← last]
    push_cast
    congr 1
    induction g.ndblk / fs.frag with
    | zero => rfl
    | succ n ih =>
      rw [range_succ, Finset.sum_range_succ, ← ih]
      simp only [map_append, sum_append]
      simp only [map_cons, map_nil, sum_singleton]
      have most := free_count_le g.free (n * fs.frag) fs.frag
      unfold partial_fragment_contribution block_count
      split
      · next full => rw [if_pos (.inr (le_of_eq full.symm))]; rfl
      · split
        · omega
        · rfl

theorem block_count_update {block : Nat} (other : block ≠ f / fs.frag) :
    block_count fs (update free f false) block = block_count fs free block := by
  refine free_count_congr fun k within => update_of_ne ?_ _ _
  rintro rfl
  rw [Nat.mul_comm, Nat.mul_add_div (frag_pos fs), Nat.div_eq_of_lt within, Nat.add_zero] at other
  exact other rfl

theorem sum_update {n : Nat} (term : Nat → Int) (inside : f / fs.frag < n) :
    ∑ block ∈ Finset.range n, term (block_count fs (update free f false) block) =
      ∑ block ∈ Finset.range n, term (block_count fs free block) +
        (term (block_count fs (update free f false) (f / fs.frag)) -
          term (block_count fs free (f / fs.frag))) := by
  rw [← sub_eq_iff_eq_add', ← Finset.sum_sub_distrib]
  refine Finset.sum_eq_single_of_mem _ (Finset.mem_range.mpr inside) fun block _ other => ?_
  rw [block_count_update other, sub_self]

theorem block_base (f : Nat) : f - f % fs.frag = f / fs.frag * fs.frag := by
  have := Nat.div_add_mod f fs.frag
  rw [mul_comm] at this
  omega

theorem block_delta_eq (free : Nat → Bool) (f : Nat) :
    block_delta fs (block_count fs free (f / fs.frag))
      (block_count fs (update free f false) (f / fs.frag)) =
    whole fs (block_count fs (update free f false) (f / fs.frag)) -
      whole fs (block_count fs free (f / fs.frag)) := by
  have after : block_count fs (update free f false) (f / fs.frag) ≠ fs.frag := by
    refine Nat.ne_of_lt (free_count_lt (Nat.mod_lt f (frag_pos fs)) ?_)
    rw [Nat.mul_comm, Nat.div_add_mod, update_self]
  unfold block_delta whole
  rw [if_neg after]
  split
  · next both => rw [if_pos both.1]; rfl
  · next not => rw [if_neg fun before => not ⟨before, after⟩]; rfl

theorem scan_update (beyond : ∀ f, g.ndblk ≤ f → g.free f = false) (fs : Volume) (f : Nat)
    (counts : Counts) :
    let free := update g.free f false
    let before := free_count g.free (f - f % fs.frag) fs.frag
    let after := free_count free (f - f % fs.frag) fs.frag
    ((scan fs.toGeometry { g with free := free, counts := counts }).nbfree : Int) =
      (scan fs.toGeometry g).nbfree + block_delta fs before after ∧
    ((scan fs.toGeometry { g with free := free, counts := counts }).nffree : Int) =
      (scan fs.toGeometry g).nffree + (partial_fragment_contribution fs.toGeometry after -
        partial_fragment_contribution fs.toGeometry before) := by
  have beyond' : ∀ i, g.ndblk ≤ i → update g.free f false i = false := by
    intro i behind
    rw [update_apply]
    split
    · rfl
    · exact beyond i behind
  obtain ⟨nbfree, nffree⟩ := scan_sums fs beyond
  have sums := @scan_sums { g with free := update g.free f false, counts := counts } fs
  obtain ⟨nbfree', nffree'⟩ := sums beyond'
  dsimp only at nbfree' nffree' ⊢
  rw [nbfree, nffree, nbfree', nffree', block_base]
  by_cases inside : f / fs.frag < g.ndblk / fs.frag + 1
  · rw [sum_update (whole fs) inside, sum_update _ inside]
    refine ⟨?_, rfl⟩
    congr 1
    exact (block_delta_eq g.free f).symm
  have used : update g.free f false = g.free := by
    refine update_eq_self_iff.mpr (beyond f ?_).symm
    by_contra within
    have := Nat.div_le_div_right (c := fs.frag) (Nat.le_of_not_le within)
    omega
  rw [used, sub_self, add_zero]
  refine ⟨?_, rfl⟩
  rw [block_delta, if_neg fun both => both.2 both.1, add_zero]

end Scans

section Marking
variable {fs : Volume} {m m' : Marking} {disk : Disk} {cg : Nat}

/-- The counts differ from those of the scan by as much as before, with `frag_delta` still to be
added. -/
structure Keeps (fs : Volume) (P : Nat → Prop) (m m' : Marking) : Prop where
  free : ∀ f, m'.group.free f = true ↔ m.group.free f = true ∧ ¬ P f
  ndblk : m'.group.ndblk = m.group.ndblk
  used : m'.group.used = m.group.used
  tables : m'.group.tables = m.group.tables
  ndir : m'.group.counts.ndir = m.group.counts.ndir
  nifree : m'.group.counts.nifree = m.group.counts.nifree
  nffree : m'.group.counts.nffree = m.group.counts.nffree
  nbfree : m'.group.counts.nbfree - (scan fs.toGeometry m'.group).nbfree =
    m.group.counts.nbfree - (scan fs.toGeometry m.group).nbfree
  delta : m'.frag_delta - (scan fs.toGeometry m'.group).nffree =
    m.frag_delta - (scan fs.toGeometry m.group).nffree
  total_ndir : m'.totals.ndir = m.totals.ndir
  total_nifree : m'.totals.nifree = m.totals.nifree
  total_nffree : m'.totals.nffree = m.totals.nffree
  total_nbfree : m'.totals.nbfree - m'.group.counts.nbfree =
    m.totals.nbfree - m.group.counts.nbfree

theorem mark_frag_keeps (fs : Volume) (beyond : ∀ f, m.group.ndblk ≤ f → m.group.free f = false)
    (f : Nat) :
    Keeps fs (· = f) m (mark_frag fs m f) := by
  have scans := scan_update beyond fs f (mark_frag fs m f).group.counts
  obtain ⟨nbfree, nffree⟩ := scans
  refine ⟨fun i => ?_, rfl, rfl, rfl, add_zero _, add_zero _, add_zero _, ?_, ?_,
    Int.add_zero _, Int.add_zero _, Int.add_zero _, Int.add_sub_add_right _ _ _⟩
  · change update m.group.free f false i = true ↔ _
    by_cases same : i = f
    · rw [same, update_self]
      exact ⟨fun h => (Bool.false_ne_true h).elim, fun h => (h.2 rfl).elim⟩
    · rw [update_of_ne same]
      exact ⟨fun h => ⟨h, same⟩, And.left⟩
  · exact (congrArg ((mark_frag fs m f).group.counts.nbfree - ·) nbfree).trans
      (Int.add_sub_add_right _ _ _)
  · exact (congrArg ((mark_frag fs m f).frag_delta - ·) nffree).trans (Int.add_sub_add_right _ _ _)

theorem Keeps.trans {P Q : Nat → Prop} {m'' : Marking} (first : Keeps fs P m m')
    (second : Keeps fs Q m' m'') : Keeps fs (fun f => P f ∨ Q f) m m'' where
  free f := by rw [second.free, first.free, and_assoc, not_or]
  ndblk := second.ndblk.trans first.ndblk
  used := second.used.trans first.used
  tables := second.tables.trans first.tables
  ndir := second.ndir.trans first.ndir
  nifree := second.nifree.trans first.nifree
  nffree := second.nffree.trans first.nffree
  nbfree := second.nbfree.trans first.nbfree
  delta := second.delta.trans first.delta
  total_ndir := second.total_ndir.trans first.total_ndir
  total_nifree := second.total_nifree.trans first.total_nifree
  total_nffree := second.total_nffree.trans first.total_nffree
  total_nbfree := second.total_nbfree.trans first.total_nbfree

theorem Keeps.beyond {P : Nat → Prop} (keeps : Keeps fs P m m')
    (beyond : ∀ f, m.group.ndblk ≤ f → m.group.free f = false) (f : Nat)
    (behind : m'.group.ndblk ≤ f) : m'.group.free f = false := by
  rw [keeps.ndblk] at behind
  rw [← Bool.not_eq_true, keeps.free, beyond f behind]
  exact fun h => Bool.false_ne_true h.1

theorem mark_frags_keeps (fs : Volume) (m : Marking)
    (beyond : ∀ f, m.group.ndblk ≤ f → m.group.free f = false) (frag_indices : List Nat) :
    Keeps fs (· ∈ frag_indices) m (frag_indices.foldl (mark_frag fs) m) := by
  induction frag_indices generalizing m with
  | nil => exact ⟨fun f => by simp, rfl, rfl, rfl, rfl, rfl, rfl, rfl, rfl, rfl, rfl, rfl, rfl⟩
  | cons f rest ih =>
    have first := mark_frag_keeps fs beyond f
    have both := first.trans (ih _ (first.beyond beyond))
    exact { both with free := fun i => by rw [mem_cons]; exact both.free i }

theorem mark_frags_repaired (fs : Volume) (m : Marking) (frag_indices : List Nat) :
    (frag_indices.foldl (mark_frag fs) m).repaired = m.repaired + frag_indices.length := by
  induction frag_indices generalizing m with
  | nil => rfl
  | cons f rest ih =>
    rw [foldl_cons, ih, length_cons, add_comm rest.length, ← add_assoc]
    rfl

theorem Marks.refl (disk : Disk) : Marks (fun _ _ => False) disk disk :=
  ⟨fun _ _ => by simp, fun _ => rfl, fun _ => rfl, fun _ => rfl, fun _ => rfl, fun _ => rfl,
    rfl, rfl, rfl⟩

theorem Marks.trans {P Q : Nat → Nat → Prop} {disk disk' disk'' : Disk}
    (first : Marks P disk disk') (second : Marks Q disk' disk'') :
    Marks (fun cg f => P cg f ∨ Q cg f) disk disk'' where
  free cg f := by rw [second.free, first.free, and_assoc, not_or]
  ndblk cg := (second.ndblk cg).trans (first.ndblk cg)
  used cg := (second.used cg).trans (first.used cg)
  tables cg := (second.tables cg).trans (first.tables cg)
  ndir cg := (second.ndir cg).trans (first.ndir cg)
  nifree cg := (second.nifree cg).trans (first.nifree cg)
  total_ndir := second.total_ndir.trans first.total_ndir
  total_nifree := second.total_nifree.trans first.total_nifree
  others := by rw [second.others, first.others]

theorem Marks.valid {P : Nat → Nat → Prop} {disk disk' : Disk} (marks : Marks P disk disk')
    (valid : ValidGroups fs disk) : ValidGroups fs disk' where
  ndblk cg inside := by
    rw [marks.ndblk]
    exact valid.ndblk cg inside
  beyond cg inside f behind := by
    rw [marks.ndblk] at behind
    rw [← Bool.not_eq_true, marks.free, valid.beyond cg inside f behind]
    exact fun h => Bool.false_ne_true h.1

theorem sum_group_update (groups : Nat → Group) (g : Group) (term : Group → Int)
    (inside : cg < fs.ncg) :
    ∑ i ∈ Finset.range fs.ncg, term (update groups cg g i) =
      ∑ i ∈ Finset.range fs.ncg, term (groups i) + (term g - term (groups cg)) := by
  rw [← sub_eq_iff_eq_add', ← Finset.sum_sub_distrib,
    Finset.sum_eq_single_of_mem cg (Finset.mem_range.mpr inside)]
  · rw [update_self]
  · intro i _ other
    rw [update_of_ne other, sub_self]

theorem mark_group_spec (valid : ValidGroups fs disk) (counts : Normalised fs disk)
    (inside : cg < fs.ncg) (frag_indices : List Nat) (repaired : Nat) :
    Marks (fun cg' f => cg' = cg ∧ f ∈ frag_indices) disk
        (mark_group fs (disk, repaired) (cg, frag_indices)).1 ∧
      Normalised fs (mark_group fs (disk, repaired) (cg, frag_indices)).1 ∧
      (mark_group fs (disk, repaired) (cg, frag_indices)).2 = repaired + frag_indices.length := by
  have keeps := mark_frags_keeps fs ⟨disk.groups cg, disk.totals, 0, repaired⟩
    (valid.beyond cg inside) frag_indices
  have count := mark_frags_repaired fs ⟨disk.groups cg, disk.totals, 0, repaired⟩ frag_indices
  unfold mark_group
  dsimp only at keeps count ⊢
  generalize frag_indices.foldl (mark_frag fs) ⟨disk.groups cg, disk.totals, 0, repaired⟩ = m
    at keeps count
  have delta : (if m.frag_delta ≠ 0 then (⟨0, 0, 0, m.frag_delta⟩ : Counts) else Counts.zero) =
      ⟨0, 0, 0, m.frag_delta⟩ := by
    split
    · rfl
    · next none => rw [not_not.mp none, Counts.zero]
  rw [delta]
  have scan_eq (g : Group) (c : Counts) :
      scan fs.toGeometry { g with counts := c } = scan fs.toGeometry g := rfl
  have nbfree := keeps.nbfree
  have nffree := keeps.delta
  dsimp only at nbfree nffree
  rw [counts.nbfree cg inside, sub_self] at nbfree
  have groups (p : Nat → Group → Prop)
      (here : p cg { m.group with counts := m.group.counts + ⟨0, 0, 0, m.frag_delta⟩ })
      (elsewhere : ∀ i, i ≠ cg → p i (disk.groups i)) :=
    (forall_update_iff disk.groups p).mpr ⟨here, elsewhere⟩
  refine ⟨⟨?_, ?_, ?_, ?_, ?_, ?_, ?_, ?_, rfl⟩, ⟨?_, ?_, ?_, ?_⟩, count⟩
  · refine groups (fun i g => ∀ f, g.free f = true ↔ (disk.groups i).free f = true ∧
      ¬ (i = cg ∧ f ∈ frag_indices)) (fun f => ?_) fun i other f => ?_
    · exact (keeps.free f).trans (and_congr_right fun _ =>
        not_congr ⟨fun h => ⟨rfl, h⟩, And.right⟩)
    · exact ⟨fun h => ⟨h, fun there => other there.1⟩, And.left⟩
  · exact groups (fun i g => g.ndblk = (disk.groups i).ndblk) keeps.ndblk fun _ _ => rfl
  · exact groups (fun i g => g.used = (disk.groups i).used) keeps.used fun _ _ => rfl
  · exact groups (fun i g => g.tables = (disk.groups i).tables) keeps.tables fun _ _ => rfl
  · exact groups (fun i g => g.counts.ndir = (disk.groups i).counts.ndir)
      ((add_zero _).trans keeps.ndir) fun _ _ => rfl
  · exact groups (fun i g => g.counts.nifree = (disk.groups i).counts.nifree)
      ((add_zero _).trans keeps.nifree) fun _ _ => rfl
  · exact (add_zero _).trans keeps.total_ndir
  · exact (add_zero _).trans keeps.total_nifree
  · refine groups (fun i g => i < fs.ncg → g.counts.nbfree = (scan fs.toGeometry g).nbfree)
      (fun _ => ?_) fun i _ => counts.nbfree i
    exact (add_zero _).trans (sub_eq_zero.mp nbfree)
  · refine groups (fun i g => i < fs.ncg → g.counts.nffree = (scan fs.toGeometry g).nffree)
      (fun _ => ?_) fun i _ => counts.nffree i
    change m.group.counts.nffree + m.frag_delta = (scan fs.toGeometry m.group).nffree
    rw [keeps.nffree, counts.nffree cg inside]
    omega
  · change m.totals.nbfree + 0 = _
    have total := keeps.total_nbfree
    rw [counts.total_nbfree, counts.nbfree cg inside] at total
    have change := sum_group_update disk.groups
      { m.group with counts := m.group.counts + ⟨0, 0, 0, m.frag_delta⟩ }
      (fun g => ((scan fs.toGeometry g).nbfree : Int)) inside
    rw [change, scan_eq]
    omega
  · change m.totals.nffree + m.frag_delta = _
    have change := sum_group_update disk.groups
      { m.group with counts := m.group.counts + ⟨0, 0, 0, m.frag_delta⟩ }
      (fun g => ((scan fs.toGeometry g).nffree : Int)) inside
    have total := keeps.total_nffree
    rw [change, scan_eq, total, counts.total_nffree]
    omega

end Marking

end UfsReconcile
