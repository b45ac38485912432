import Svr4.Ufs.Hashalloc

/- The callers of the overflow search, which report a file system as full. -/
namespace Cylinders

def EINVAL : Int := 22

def btodb (bytes : Int) : Int := bytes % 2 ^ 32 / 512

/-- What the callers read of the superblock, and what they call. -/
structure Ufs (S : Type) where
  fs_ncg : Int
  fs_ipg : Int
  fs_fpg : Int
  fs_size : Int
  fs_bsize : Int
  fs_fsize : Int
  cs_nbfree : S → Int
  cs_nifree : S → Int
  freespace : S → Int
  chkdq : S → Int → S × Int
  chkiq : S → Int → S × Int
  alloccg : Allocator S
  ialloccg : Allocator S
  ufs_iget : S → Int → S × Except Int Int
  ufs_ifree : S → Int → S
  ufs_iupdat : S → Int → S

/-- `full` is `ENOSPC`, after the message that there is no space or that there are no inodes. -/
inductive Answer
  | done (n : Int)
  | full
  | error (errno : Int)
  | panic
  | unfinished
  deriving DecidableEq

variable {S : Type}

def Ufs.itog (fs : Ufs S) (x : Int) : Int := int (x / fs.fs_ipg)

def Ufs.dtog (fs : Ufs S) (d : Int) : Int := d.tdiv fs.fs_fpg

/-- The calls are those of `hashalloc`. -/
def Ufs.alloc (fs : Ufs S) (fuel : Nat) (s : S) (cr_uid i_number bpref size : Int) :
    S × List Call × Answer :=
  if size = 0 then (s, [], .error EINVAL)
  else if fs.fs_bsize < size % 2 ^ 32 ∨ size % fs.fs_fsize ≠ 0 then (s, [], .panic)
  else if size = fs.fs_bsize ∧ fs.cs_nbfree s = 0 then (s, [], .full)
  else if cr_uid ≠ 0 ∧ fs.freespace s ≤ 0 then (s, [], .full)
  else
    let (s, err) := fs.chkdq s (btodb size)
    if err ≠ 0 then (s, [], .error err)
    else
      let bpref := if fs.fs_size ≤ bpref then 0 else bpref
      let cg := if bpref = 0 then fs.itog i_number else fs.dtog bpref
      let search := hashalloc fs.alloccg fs.fs_ncg fuel s cg bpref size
      (search.state, search.calls,
        match search.found with
        | .found bno => if 0 < bno then .done bno else .full
        | .refused => .full
        | .unfinished => .unfinished)

/-- `turns` are the rounds that start at `loop`. The calls are those of the last round. -/
def Ufs.ufs_ialloc (fs : Ufs S) (fuel : Nat) (cr_uid mode : Int) :
    Nat → S → Int → S × List Call × Answer
  | 0, s, _ => (s, [], .unfinished)
  | turns + 1, s, ipref =>
    if fs.cs_nifree s = 0 then (s, [], .full)
    else
      let (s, err) := fs.chkiq s cr_uid
      if err ≠ 0 then (s, [], .error err)
      else
        let ipref := if fs.fs_ncg * fs.fs_ipg % 2 ^ 32 ≤ ipref then 0 else ipref
        let search := hashalloc fs.ialloccg fs.fs_ncg fuel s (fs.itog ipref) ipref mode
        match search.found with
        | .refused => (search.state, search.calls, .full)
        | .unfinished => (search.state, search.calls, .unfinished)
        | .found ino =>
          match fs.ufs_iget search.state ino with
          | (s, .error err) => (fs.ufs_ifree s ino, search.calls, .error err)
          | (s, .ok i_mode) =>
            if i_mode ≠ 0 then fs.ufs_ialloc fuel cr_uid mode turns (fs.ufs_iupdat s ino) ipref
            else (s, search.calls, .done ino)

/-- A file system with 32-bit addresses: its fragments are those of its groups, and the fragments
    that `alloccg` allocates have addresses of their own, none of which is negative. -/
structure Ufs.Valid (fs : Ufs S) : Prop where
  some_group : 1 ≤ fs.fs_ncg
  groups : fs.fs_ncg ≤ 2 ^ 30
  inodes : 0 < fs.fs_ipg
  fragments : 0 < fs.fs_fpg
  size : fs.fs_size ≤ fs.fs_ncg * fs.fs_fpg
  addresses : ∀ s cg bpref size, 0 ≤ cg → cg < fs.fs_ncg → 0 ≤ (fs.alloccg s cg bpref size).2

def AllRefused (fs_ncg : Int) (calls : List Call) : Prop :=
  ∀ cg, 0 ≤ cg → cg < fs_ncg → ∃ call ∈ calls, call.cg = cg ∧ call.result = 0

section
variable {fs : Ufs S} {allocator : Allocator S} {fs_ncg size cg : Int} {search : Search S}

theorem Complete.all_refused (complete : Complete allocator fs_ncg size search)
    (refused : search.found = .refused) :
    AllRefused fs_ncg search.calls := by
  intro cg low high
  obtain ⟨call, mem, here⟩ := complete.covered refused cg low high
  exact ⟨call, mem, here, complete.refused refused call mem⟩

theorem Ufs.Valid.itog_group (valid : fs.Valid) {ino : Int} (low : 0 ≤ ino)
    (high : ino < fs.fs_ncg * fs.fs_ipg) : 0 ≤ fs.itog ino ∧ fs.itog ino < fs.fs_ncg := by
  have inodes := valid.inodes
  have groups := valid.groups
  have nonneg := Int.ediv_nonneg low (Int.le_of_lt inodes)
  have below := Int.ediv_lt_of_lt_mul inodes high
  unfold Ufs.itog
  rw [int_eq (by omega) (by omega)]
  exact ⟨nonneg, below⟩

theorem Ufs.Valid.dtog_group (valid : fs.Valid) {d : Int} (low : 0 ≤ d) (high : d < fs.fs_size) :
    0 ≤ fs.dtog d ∧ fs.dtog d < fs.fs_ncg := by
  have below := Int.ediv_lt_of_lt_mul valid.fragments (Int.lt_of_lt_of_le high valid.size)
  unfold Ufs.dtog
  rw [Int.tdiv_eq_ediv_of_nonneg low]
  exact ⟨Int.ediv_nonneg low (Int.le_of_lt valid.fragments), below⟩

theorem Ufs.Valid.alloc_full (valid : fs.Valid) (fuel : Nat) (enough : fs.fs_ncg + 31 ≤ fuel)
    (s : S) (cr_uid : Int) {i_number bpref : Int} (low : 0 ≤ i_number)
    (high : i_number < fs.fs_ncg * fs.fs_ipg) (some_pref : 0 ≤ bpref) :
    (fs.alloc fuel s cr_uid i_number bpref size).2.2 ≠ .unfinished ∧
      ((fs.alloc fuel s cr_uid i_number bpref size).2.2 = .full →
        (fs.alloc fuel s cr_uid i_number bpref size).2.1 ≠ [] →
        AllRefused fs.fs_ncg (fs.alloc fuel s cr_uid i_number bpref size).2.1) := by
  unfold Ufs.alloc
  by_cases empty : size = 0
  · rw [if_pos empty]
    exact ⟨nofun, fun _ asked => absurd rfl asked⟩
  rw [if_neg empty]
  by_cases bad : fs.fs_bsize < size % 2 ^ 32 ∨ size % fs.fs_fsize ≠ 0
  · rw [if_pos bad]
    exact ⟨nofun, fun _ asked => absurd rfl asked⟩
  rw [if_neg bad]
  by_cases nobody : size = fs.fs_bsize ∧ fs.cs_nbfree s = 0
  · rw [if_pos nobody]
    exact ⟨nofun, fun _ asked => absurd rfl asked⟩
  rw [if_neg nobody]
  by_cases poor : cr_uid ≠ 0 ∧ fs.freespace s ≤ 0
  · rw [if_pos poor]
    exact ⟨nofun, fun _ asked => absurd rfl asked⟩
  rw [if_neg poor]
  obtain ⟨t, err, quota⟩ : ∃ t err, fs.chkdq s (btodb size) = (t, err) := ⟨_, _, rfl⟩
  simp only [quota]
  by_cases over_quota : err ≠ 0
  · rw [if_pos over_quota]
    exact ⟨nofun, fun _ asked => absurd rfl asked⟩
  rw [if_neg over_quota]
  obtain ⟨pref, pref_eq⟩ : ∃ pref, pref = if fs.fs_size ≤ bpref then 0 else bpref := ⟨_, rfl⟩
  rw [← pref_eq]
  have group : 0 ≤ (if pref = 0 then fs.itog i_number else fs.dtog pref) ∧
      (if pref = 0 then fs.itog i_number else fs.dtog pref) < fs.fs_ncg := by
    by_cases zero : pref = 0
    · rw [if_pos zero]
      exact valid.itog_group low high
    · rw [if_neg zero]
      have inside : pref = bpref ∧ bpref < fs.fs_size := by
        split at pref_eq
        · exact absurd pref_eq zero
        · exact ⟨pref_eq, by omega⟩
      rw [inside.1]
      exact valid.dtog_group some_pref inside.2
  have complete := hashalloc_spec fs.alloccg valid.some_group valid.groups fuel enough
    group.1 group.2 t pref size
  obtain ⟨search, made⟩ : ∃ search, search = hashalloc fs.alloccg fs.fs_ncg fuel t
    (if pref = 0 then fs.itog i_number else fs.dtog pref) pref size := ⟨_, rfl⟩
  rw [← made] at complete ⊢
  cases found : search.found with
  | unfinished => exact absurd found complete.ended
  | refused => exact ⟨nofun, fun _ _ => complete.all_refused found⟩
  | found bno =>
    obtain ⟨nonzero, call, mem, same⟩ := complete.found bno found
    obtain ⟨s', answer⟩ := complete.answered call mem
    obtain ⟨inside, below⟩ := complete.inside call mem
    have address := valid.addresses s' call.cg call.pref size inside below
    simp only [if_pos (show 0 < bno by omega)]
    exact ⟨nofun, nofun⟩

theorem Ufs.Valid.ialloc_full (valid : fs.Valid) (fuel : Nat) (enough : fs.fs_ncg + 31 ≤ fuel)
    (cr_uid mode : Int) (turns : Nat) (s : S) {ipref : Int} (low : 0 ≤ ipref) :
    (fs.ufs_ialloc fuel cr_uid mode turns s ipref).2.2 = .full →
      (fs.ufs_ialloc fuel cr_uid mode turns s ipref).2.1 ≠ [] →
      AllRefused fs.fs_ncg (fs.ufs_ialloc fuel cr_uid mode turns s ipref).2.1 := by
  induction turns generalizing s ipref with
  | zero => exact fun full => by cases full
  | succ turns ih =>
    unfold Ufs.ufs_ialloc
    by_cases nobody : fs.cs_nifree s = 0
    · rw [if_pos nobody]
      exact fun _ asked => absurd rfl asked
    rw [if_neg nobody]
    obtain ⟨t, err, quota⟩ : ∃ t err, fs.chkiq s cr_uid = (t, err) := ⟨_, _, rfl⟩
    simp only [quota]
    by_cases over_quota : err ≠ 0
    · rw [if_pos over_quota]
      exact fun full => by cases full
    rw [if_neg over_quota]
    obtain ⟨pref, pref_eq⟩ : ∃ pref,
      pref = if fs.fs_ncg * fs.fs_ipg % 2 ^ 32 ≤ ipref then 0 else ipref := ⟨_, rfl⟩
    rw [← pref_eq]
    have some_inode : 0 < fs.fs_ncg * fs.fs_ipg :=
      mul_pos (lt_of_lt_of_le zero_lt_one valid.some_group) valid.inodes
    have inside : 0 ≤ pref ∧ pref < fs.fs_ncg * fs.fs_ipg := by
      split at pref_eq
      · omega
      · omega
    obtain ⟨group_low, group_high⟩ := valid.itog_group inside.1 inside.2
    have complete := hashalloc_spec fs.ialloccg valid.some_group valid.groups fuel
      enough group_low group_high t pref mode
    obtain ⟨search, made⟩ : ∃ search,
      search = hashalloc fs.ialloccg fs.fs_ncg fuel t (fs.itog pref) pref mode := ⟨_, rfl⟩
    rw [← made] at complete ⊢
    cases found : search.found with
    | unfinished => exact absurd found complete.ended
    | refused => exact fun _ _ => complete.all_refused found
    | found ino =>
      obtain ⟨t', got, gets⟩ : ∃ t' got, fs.ufs_iget search.state ino = (t', got) := ⟨_, _, rfl⟩
      simp only [gets]
      cases got with
      | error err => exact fun full => by cases full
      | ok i_mode =>
        by_cases used : i_mode ≠ 0
        · simp only [if_pos used]
          exact ih _ inside.1
        · simp only [if_neg used]
          exact fun full => by cases full

end

/-- The search is complete and bounded, and only then is the file system found full. -/
theorem overflow_search_complete :
    (∀ (S : Type) (allocator : Allocator S) (fs_ncg cg pref size : Int) (s : S) (fuel : Nat),
      1 ≤ fs_ncg → fs_ncg ≤ 2 ^ 30 → 0 ≤ cg → cg < fs_ncg → fs_ncg + 31 ≤ fuel →
      Complete allocator fs_ncg size (hashalloc allocator fs_ncg fuel s cg pref size)) ∧
    (∀ (S : Type) (fs : Ufs S), fs.Valid → ∀ (fuel : Nat), fs.fs_ncg + 31 ≤ fuel →
      ∀ (s : S) (cr_uid i_number bpref size : Int),
        0 ≤ i_number → i_number < fs.fs_ncg * fs.fs_ipg → 0 ≤ bpref →
        (fs.alloc fuel s cr_uid i_number bpref size).2.2 ≠ .unfinished ∧
        ((fs.alloc fuel s cr_uid i_number bpref size).2.2 = .full →
          (fs.alloc fuel s cr_uid i_number bpref size).2.1 ≠ [] →
          AllRefused fs.fs_ncg (fs.alloc fuel s cr_uid i_number bpref size).2.1)) ∧
    ∀ (S : Type) (fs : Ufs S), fs.Valid → ∀ (fuel : Nat), fs.fs_ncg + 31 ≤ fuel →
      ∀ (cr_uid mode : Int) (turns : Nat) (s : S) (ipref : Int), 0 ≤ ipref →
        (fs.ufs_ialloc fuel cr_uid mode turns s ipref).2.2 = .full →
          (fs.ufs_ialloc fuel cr_uid mode turns s ipref).2.1 ≠ [] →
          AllRefused fs.fs_ncg (fs.ufs_ialloc fuel cr_uid mode turns s ipref).2.1 := by
  refine ⟨?_, ?_, ?_⟩
  · intro S allocator fs_ncg cg pref size s fuel some_group groups low high enough
    exact hashalloc_spec allocator some_group groups fuel enough low high s pref size
  · intro S fs valid fuel enough s cr_uid i_number bpref size low high some_pref
    exact valid.alloc_full fuel enough s cr_uid low high some_pref
  · intro S fs valid fuel enough cr_uid mode turns s ipref low
    exact valid.ialloc_full fuel enough cr_uid mode turns s low

def nothing_left : Ufs Unit where
  fs_ncg := 5
  fs_ipg := 64
  fs_fpg := 1000
  fs_size := 4800
  fs_bsize := 8192
  fs_fsize := 1024
  cs_nbfree := fun _ => 1
  cs_nifree := fun _ => 1
  freespace := fun _ => 1
  chkdq := fun s _ => (s, 0)
  chkiq := fun s _ => (s, 0)
  alloccg := fun s _ _ _ => (s, 0)
  ialloccg := fun s _ _ _ => (s, 0)
  ufs_iget := fun s _ => (s, .ok 0)
  ufs_ifree := fun s _ => s
  ufs_iupdat := fun s _ => s

theorem nothing_left_valid : nothing_left.Valid :=
  ⟨by decide, by decide, by decide, by decide, by decide, fun _ _ _ _ _ _ => le_refl 0⟩

theorem overflow_search_complete_five :
    Complete nothing_left.alloccg 5 8192 (hashalloc nothing_left.alloccg 5 40 () 3 3100 8192) ∧
      (nothing_left.alloc 40 () 0 70 3100 8192).2.2 = .full ∧
      AllRefused 5 (nothing_left.alloc 40 () 0 70 3100 8192).2.1 ∧
      (nothing_left.ufs_ialloc 40 0 0 1 () 70).2.2 = .full ∧
      AllRefused 5 (nothing_left.ufs_ialloc 40 0 0 1 () 70).2.1 := by
  obtain ⟨search, blocks, inodes⟩ := overflow_search_complete
  refine ⟨search Unit _ 5 3 3100 8192 () 40 (by decide) (by decide) (by decide) (by decide)
    (by decide), by decide +kernel, ?_, by decide +kernel, ?_⟩
  · exact (blocks Unit nothing_left nothing_left_valid 40 (by decide) () 0 70 3100 8192 (by decide)
      (by decide) (by decide)).2 (by decide +kernel) (by decide +kernel)
  · exact inodes Unit nothing_left nothing_left_valid 40 (by decide) 0 0 1 () 70 (by decide)
      (by decide +kernel) (by decide +kernel)

/-- With more groups the step of the rehash overflows, and a group is asked that there is not. -/
theorem too_many_groups :
    ¬ ∀ call ∈ (hashalloc nothing_left.alloccg (2 ^ 30 + 1) 40 () 0 0 8192).calls,
      0 ≤ call.cg ∧ call.cg < 2 ^ 30 + 1 := by
  decide +kernel

end Cylinders
