import Svr4.Host.Summary

/- When the tables of an unmounted file system agree with its bitmaps. -/
namespace UfsGroups
open Function List

variable {fs : Geometry} {image : Image} {m : Mount} {ps : List Prim} {p p' : Nat → Bool}
  {completes : Bool} {inode n : Nat} {g' : Group}

variable {g : Group} {cg i : Nat}

theorem countP_range_ge (other : ∀ j, j ≠ i → p' j = p j) (after : n ≤ i) :
    (range n).countP p' = (range n).countP p := by
  refine countP_congr fun j mem => ?_
  rw [other j (ne_of_lt (lt_of_lt_of_le (mem_range.mp mem) after))]

theorem countP_range_set (other : ∀ j, j ≠ i → p' j = p j) (before : p i = false) (inside : i < n) :
    (range n).countP p' = (range n).countP p + if p' i then 1 else 0 := by
  induction n with
  | zero => exact absurd inside (Nat.not_lt_zero i)
  | succ n ih =>
    rw [range_succ, countP_append, countP_append, countP_singleton, countP_singleton]
    by_cases last : i = n
    · subst last
      rw [countP_range_ge other (le_refl i), before]
      rfl
    · rw [ih (by omega), other n (Ne.symm last)]
      omega

theorem number_inj {cg' i' ipg : Nat} (inside : i < ipg) (inside' : i' < ipg)
    (same : cg * ipg + i = cg' * ipg + i') : cg = cg' ∧ i = i' := by
  have pos : 0 < ipg := by omega
  have group : (cg * ipg + i) / ipg = (cg' * ipg + i') / ipg := by rw [same]
  rw [Nat.mul_comm, Nat.mul_add_div pos, Nat.mul_comm cg', Nat.mul_add_div pos,
    Nat.div_eq_of_lt inside, Nat.div_eq_of_lt inside'] at group
  have same_group : cg = cg' := by omega
  subst same_group
  exact ⟨rfl, add_left_cancel same⟩

def inode_count (fs : Geometry) (g : Group) (cg : Nat) : Nat :=
  (range fs.ipg).countP (counted_inode g cg)

def directory_count (fs : Geometry) (directory : Nat → Bool) (g : Group) (cg : Nat) : Nat :=
  (range fs.ipg).countP fun i => counted_inode g cg i && directory (cg * fs.ipg + i)

/-- The counts of a header that are trusted at the end. -/
def Trusted (fs : Geometry) (image : Image) : Prop :=
  ∀ cg < fs.ncg,
    (image.groups cg).counts.ndir = directory_count fs image.directory (image.groups cg) cg ∧
    (image.groups cg).counts.nifree =
      fs.ipg - (if cg = 0 then 2 else 0) - inode_count fs (image.groups cg) cg

theorem Trusted.change_frags (h : Trusted fs image) (used : g.used = (image.groups cg).used)
    (ndir : g.counts.ndir = (image.groups cg).counts.ndir)
    (nifree : g.counts.nifree = (image.groups cg).counts.nifree) :
    Trusted fs (image.change_group cg g) := by
  intro cg' inside
  unfold Image.change_group
  dsimp only
  by_cases same : cg' = cg
  · subst same
    have counted : counted_inode g cg' = counted_inode (image.groups cg') cg' := by
      funext i
      unfold counted_inode
      rw [used]
    rw [update_self, ndir, nifree, inode_count, directory_count, counted]
    exact h cg' inside
  · rw [update_of_ne same]
    exact h cg' inside

theorem directory_count_update {directory : Nat → Bool} {cg' : Nat} {b : Bool} (inside : i < fs.ipg)
    (other : cg' ≠ cg) :
    directory_count fs (update directory (cg * fs.ipg + i) b) g cg' =
      directory_count fs directory g cg' := by
  refine countP_congr fun j mem => ?_
  rw [update_of_ne fun same =>
    other (number_inj (mem_range.mp mem) inside same).1]

theorem Trusted.change_inode (h : Trusted fs image) {directory : Bool} (inside : i < fs.ipg)
    (counts : cg < fs.ncg → g.counts.ndir =
      directory_count fs (update image.directory (cg * fs.ipg + i) directory) g cg ∧
      g.counts.nifree = fs.ipg - (if cg = 0 then 2 else 0) - inode_count fs g cg) :
    Trusted fs { image.change_group cg g with
      directory := update image.directory (cg * fs.ipg + i) directory } := by
  intro cg' cg_inside
  unfold Image.change_group
  dsimp only
  by_cases same : cg' = cg
  · subst same
    rw [update_self]
    exact counts cg_inside
  · rw [update_of_ne same, directory_count_update inside same]
    exact h cg' cg_inside

theorem inode_count_set (inside : i < fs.ipg) (counted : reserved cg i = false)
    (other : ∀ j, j ≠ i → g'.used j = g.used j) (before : g.used i = false)
    (after : g'.used i = true) : inode_count fs g' cg = inode_count fs g cg + 1 := by
  have at_i : counted_inode g' cg i = true := by
    unfold counted_inode
    unfold reserved at counted
    rw [counted, after]
    rfl
  have was : counted_inode g cg i = false := by
    unfold counted_inode
    rw [before, Bool.and_false]
  unfold inode_count
  rw [countP_range_set (fun j ne => by unfold counted_inode; rw [other j ne]) was inside, at_i]
  rfl

theorem directory_count_set (directory : Nat → Bool) (b b₀ : Bool) (inside : i < fs.ipg)
    (counted : reserved cg i = false) (other : ∀ j, j ≠ i → g'.used j = g.used j)
    (before : g.used i = false) (after : g'.used i = true) :
    directory_count fs (update directory (cg * fs.ipg + i) b) g' cg =
      directory_count fs (update directory (cg * fs.ipg + i) b₀) g cg + if b then 1 else 0 := by
  have at_i : (counted_inode g' cg i &&
      update directory (cg * fs.ipg + i) b (cg * fs.ipg + i)) = b := by
    unfold counted_inode
    unfold reserved at counted
    rw [counted, after, update_self]
    rfl
  have was : (counted_inode g cg i &&
      update directory (cg * fs.ipg + i) b₀ (cg * fs.ipg + i)) = false := by
    unfold counted_inode
    rw [before, Bool.and_false, Bool.false_and]
  have rest : ∀ j, j ≠ i → (counted_inode g' cg j &&
      update directory (cg * fs.ipg + i) b (cg * fs.ipg + j)) = (counted_inode g cg j &&
          update directory (cg * fs.ipg + i) b₀ (cg * fs.ipg + j)) := by
    intro j ne
    have apart : cg * fs.ipg + j ≠ cg * fs.ipg + i := fun same => ne (add_left_cancel same)
    rw [update_of_ne apart, update_of_ne apart]
    unfold counted_inode
    rw [other j ne]
  unfold directory_count
  rw [countP_range_set rest was inside, at_i]

theorem Trusted.prim (h : Trusted fs image) (p : Prim) : Trusted fs (image.prim fs p) := by
  cases p with
  | allocate_inode cg i directory =>
    unfold Image.prim
    dsimp only
    split
    · next ready =>
      obtain ⟨-, inside, counted, unused⟩ := ready
      refine h.change_inode inside fun cg_inside => ?_
      have old := h cg cg_inside
      have other : ∀ j, j ≠ i → ((image.groups cg).allocate_inode i directory).used j =
          (image.groups cg).used j := fun j ne => update_of_ne ne _ _
      have after : ((image.groups cg).allocate_inode i directory).used i = true := update_self _ _ _
      have inodes := inode_count_set inside counted other unused after
      have directories := directory_count_set image.directory directory
        (image.directory (cg * fs.ipg + i)) inside counted other unused after
      rw [inodes, directories]
      have ndir : ((image.groups cg).allocate_inode i directory).counts.ndir =
        (image.groups cg).counts.ndir + if directory then 1 else 0 := rfl
      have nifree : ((image.groups cg).allocate_inode i directory).counts.nifree =
        (image.groups cg).counts.nifree + -1 := rfl
      rw [ndir, nifree, old.1, old.2]
      refine ⟨?_, by omega⟩
      cases directory <;> simp
    · exact h
  | free_inode cg i =>
    unfold Image.prim
    dsimp only
    split
    · next ready =>
      obtain ⟨-, inside, counted⟩ := ready
      refine h.change_inode inside fun cg_inside => ?_
      have old := h cg cg_inside
      unfold Group.free_inode
      split
      · next used =>
        have other : ∀ j, j ≠ i → (image.groups cg).used j =
            update (image.groups cg).used i false j :=
          fun j ne => (update_of_ne ne _ _).symm
        have unused : update (image.groups cg).used i false i = false := update_self _ _ _
        have inodes := inode_count_set (g := { image.groups cg with
          used := update (image.groups cg).used i false }) inside counted other unused used
        have directories := directory_count_set (g := { image.groups cg with
          used := update (image.groups cg).used i false }) image.directory
            (image.directory (cg * fs.ipg + i)) false inside counted other unused used
        rw [update_eq_self] at directories
        refine ⟨?_, ?_⟩
        · have ndir := old.1
          rw [directories] at ndir
          change (image.groups cg).counts.ndir +
            (if image.directory (cg * fs.ipg + i) = true then -1 else 0) = _
          rw [ndir]
          cases image.directory (cg * fs.ipg + i)
          · exact add_zero _
          · change ((_ : Nat) + 1 : Int) + -1 = _
            exact add_neg_cancel_right _ _
        · have nifree := old.2
          rw [inodes] at nifree
          change (image.groups cg).counts.nifree + 1 = _
          rw [nifree]
          have one_more : ∀ (a b : Int) (k : Nat), a - b - ((k + 1 : Nat) : Int) + 1 = a - b - k := by
            intro a b k
            omega
          exact one_more _ _ _
      · next unused =>
        have not_counted : counted_inode (image.groups cg) cg i = false := by
          unfold counted_inode
          rw [Bool.eq_false_iff.mpr unused, Bool.and_false]
        refine ⟨old.1.trans ?_, old.2⟩
        congr 1
        refine countP_congr fun j _ => ?_
        by_cases same : j = i
        · rw [same, not_counted, Bool.false_and, Bool.false_and]
        · rw [update_of_ne fun eq => same (add_left_cancel eq)]
    · exact h
  | allocate_block cg f | allocate_fragments cg f n | free_allocation cg f n =>
    exact h.change_frags rfl (add_zero _) (add_zero _)
  | free_block cg f =>
    unfold Image.prim Group.free_block
    dsimp only
    split
    · exact h.change_frags rfl rfl rfl
    · exact h.change_frags rfl (add_zero _) (add_zero _)

theorem Trusted.prims (h : Trusted fs image) (ps : List Prim) : Trusted fs (image.prims fs ps) := by
  induction ps generalizing image with
  | nil => exact h
  | cons p ps ih => exact ih (h.prim p)

theorem write_ufs_summary_counts_agrees (trust : Bool) (h : trust = true → Trusted fs image) :
    Agrees fs (image.write_ufs_summary_counts fs trust) ∧
      Trusted fs (image.write_ufs_summary_counts fs trust) := by
  have right : ∀ cg < fs.ncg, expected_counts fs image.directory cg (image.groups cg) trust =
      expected_counts fs image.directory cg (image.groups cg) false := by
    intro cg inside
    cases trust with
    | false => rfl
    | true =>
      have counts := h rfl cg inside
      unfold expected_counts
      rw [if_pos rfl, if_neg Bool.false_ne_true, counts.1, counts.2]
      rfl
  have same : ∀ cg < fs.ncg, expected_counts fs image.directory cg
      ((image.write_ufs_summary_counts fs trust).groups cg) false =
        expected_counts fs image.directory cg (image.groups cg) false := by
    intro cg inside
    unfold Image.write_ufs_summary_counts
    dsimp only
    rw [if_pos inside]
    rfl
  have counts : ∀ cg < fs.ncg, ((image.write_ufs_summary_counts fs trust).groups cg).counts =
      expected_counts fs image.directory cg (image.groups cg) false := by
    intro cg inside
    rw [← right cg inside]
    unfold Image.write_ufs_summary_counts
    dsimp only
    rw [if_pos inside]
  refine ⟨⟨?_, ?_, ?_, ?_⟩, ?_⟩
  · intro cg inside
    exact (counts cg inside).trans (same cg inside).symm
  · intro cg inside
    unfold Image.write_ufs_summary_counts
    dsimp only
    rw [if_pos inside]
    rfl
  · intro cg inside present
    refine Eq.trans ?_ (same cg inside).symm
    rw [← right cg inside]
    unfold Image.write_ufs_summary_counts
    dsimp only
    rw [if_pos ⟨inside, present⟩]
  · have lists : (range fs.ncg).map (fun cg =>
        expected_counts fs image.directory cg (image.groups cg) trust) =
          (range fs.ncg).map fun cg => expected_counts fs image.directory cg
            ((image.write_ufs_summary_counts fs trust).groups cg) false := by
      refine map_congr_left fun cg mem => ?_
      have inside := mem_range.mp mem
      rw [right cg inside, same cg inside]
    exact congrArg (foldl (· + ·) Counts.zero) lists
  · intro cg inside
    rw [counts cg inside, ← same cg inside]
    exact ⟨rfl, rfl⟩

/-- What the flag stands for: without it no bitmap has changed since the tables were written. -/
structure Marked (fs : Geometry) (m : Mount) : Prop where
  trusted : Trusted fs m.image
  agrees : m.summary_dirty = false → Agrees fs m.image
  pending : m.pending_deletions ≠ [] → m.summary_dirty = true

/-- The work of a call that does not mark the summary: that of `link`, and of a call that ends in an
error. -/
def Call.unmarked : Call → List Prim
  | .create _ ps completes | .mknod _ ps completes | .mkdir _ ps completes
  | .symlink _ ps completes | .unlink _ _ ps completes | .rmdir _ _ ps completes
  | .rename _ ps completes | .write ps completes =>
    if completes then [] else ps
  | .link ps _ => ps
  | .setattr resizes ps completes => if resizes && !completes then ps else []
  | _ => []

/-- Such work is done only when the summary is dirty already. -/
def Calm (m : Mount) (c : Call) : Prop := m.summary_dirty = true ∨ c.unmarked = []

def CalmRun (fs : Geometry) : Mount → List Call → Prop
  | _, [] => True
  | m, c :: calls => Calm m c ∧ CalmRun fs (m.call fs c) calls

section
variable (h : Marked fs m)
include h

theorem Marked.work (covered : m.summary_dirty = true ∨ ps = []) : Marked fs (m.work fs ps) := by
  refine ⟨h.trusted.prims ps, fun clean => ?_, h.pending⟩
  obtain dirty | rfl := covered
  · have still : m.summary_dirty = false := clean
    rw [dirty] at still
    cases still
  · exact h.agrees clean

theorem Marked.marked (ps : List Prim) (pending : List Nat) :
    Marked fs { (m.work fs ps).mark_summary_dirty with pending_deletions := pending } :=
  ⟨h.trusted.prims ps, nofun, fun _ => rfl⟩

theorem Marked.unpend (p : Nat → Bool) :
    Marked fs { m with pending_deletions := m.pending_deletions.filter p } := by
  refine ⟨h.trusted, h.agrees, fun some_left => h.pending fun none => some_left ?_⟩
  rw [none]
  rfl

theorem Marked.make (calm : m.summary_dirty = true ∨ (if completes then [] else ps) = []) :
    Marked fs (m.make fs inode ps completes) := by
  unfold Mount.make
  split
  · exact h.marked ps _
  · next failed =>
    rw [if_neg failed] at calm
    exact h.work calm

theorem Marked.remove {held : Bool}
    (calm : m.summary_dirty = true ∨ (if completes then [] else ps) = []) :
    Marked fs (m.remove fs inode held ps completes) := by
  unfold Mount.remove
  split
  · split
    · exact h.marked ps _
    · exact h.marked ps _
  · next failed =>
    rw [if_neg failed] at calm
    exact h.work calm

theorem Marked.finalize_pending (inode : Nat) (last : Bool) (ps : List Prim) :
    Marked fs (m.maybe_finalize_pending_inode fs inode last ps) := by
  unfold Mount.maybe_finalize_pending_inode
  split
  · next waiting =>
    have dirty := h.pending (ne_nil_of_mem waiting.1)
    exact (h.work (.inl dirty)).unpend _
  · exact h

theorem Marked.call {c : Call} (calm : Calm m c) : Marked fs (m.call fs c) := by
  unfold Calm at calm
  cases c with
  | create inode ps completes => exact h.make calm
  | mknod inode ps completes => exact h.make calm
  | mkdir inode ps completes => exact h.make calm
  | symlink inode ps completes => exact h.make calm
  | unlink inode held ps completes => exact h.remove calm
  | rmdir inode held ps completes => exact h.remove calm
  | rename overwritten ps completes | write ps completes =>
    unfold Mount.call
    dsimp only
    split
    · exact h.marked ps _
    · next failed =>
      unfold Call.unmarked at calm
      dsimp only at calm
      rw [if_neg failed] at calm
      exact h.work calm
  | link ps completes => exact h.work calm
  | setattr resizes ps completes =>
    unfold Mount.call
    dsimp only
    split
    · next resizes =>
      split
      · exact h.marked ps _
      · next failed =>
        unfold Call.unmarked at calm
        dsimp only at calm
        rw [if_pos (by simp [resizes, failed])] at calm
        exact h.work calm
    · exact h
  | forget inode last ps | release inode last ps => exact h.finalize_pending inode last ps
  | other => exact h

theorem Marked.run {calls : List Call} (calm : CalmRun fs m calls) :
    Marked fs (m.run fs calls) := by
  induction calls generalizing m with
  | nil => exact h
  | cons c calls ih => exact ih (h.call calm.1) calm.2

end

theorem reconciled (image : Image) : Marked fs (Mount.reconcile_on_mount fs image) := by
  have written : Agrees fs (image.write_ufs_summary_counts fs false) ∧
      Trusted fs (image.write_ufs_summary_counts fs false) :=
    write_ufs_summary_counts_agrees false nofun
  obtain ⟨agrees, trusted⟩ := written
  exact ⟨trusted, fun _ => agrees, fun some_left => absurd rfl some_left⟩

/-- After an unmount no summary differs from the bitmaps. -/
theorem finalized_summary_agrees (image : Image) {calls : List Call}
    (calm : CalmRun fs (Mount.reconcile_on_mount fs image) calls) :
    Agrees fs (((Mount.reconcile_on_mount fs image).run fs calls).finalize_summary fs).image := by
  have marked := (reconciled image).run calm
  unfold Mount.finalize_summary
  split
  · exact (write_ufs_summary_counts_agrees true fun _ => marked.trusted).1
  · next clean => exact marked.agrees (by simpa using clean)

def one_group : Geometry :=
  { ncg := 1, ipg := 4, frag := 8, spc := 64, nsect := 32, nspf := 2, csaddr := 1, cssize := 16 }

def only_root : Image where
  groups _ := ⟨16, fun f => 0 < f, fun i => i < 3, Counts.zero, Scan.start.tables⟩
  directory inode := inode = 2
  fs_cs _ := Counts.zero
  totals := Counts.zero

def growing_link : Call := .link [.free_allocation 0 0 1, .allocate_fragments 0 8 2] true

theorem finalized_summary_agrees_marked :
    Agrees one_group (((Mount.reconcile_on_mount one_group only_root).run one_group
      [.create 3 [.allocate_inode 0 3 false] true, growing_link]).finalize_summary one_group).image :=
  finalized_summary_agrees only_root ⟨.inr rfl, .inl rfl, trivial⟩

theorem growing_link_leaves_stale_tables :
    ¬ Agrees one_group (((Mount.reconcile_on_mount one_group only_root).run one_group
      [growing_link]).finalize_summary one_group).image := by
  intro agrees
  exact absurd (agrees.tables 0 (by decide)) (by decide +kernel)

end UfsGroups
