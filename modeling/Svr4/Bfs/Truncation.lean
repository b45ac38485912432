import Svr4.Bfs.Directory

/- The two ways a file is cut short: bfs_truncate and bfs_setattr. -/
namespace Bfs
open BlockExtents Option

structure Kept (bs bs' : Bsuper) : Prop where
  fslocked : bs'.bsup_fslocked = bs.bsup_fslocked
  ioinprog : bs'.bsup_ioinprog = bs.bsup_ioinprog
  inomap : bs'.bsup_inomap = bs.bsup_inomap

theorem Kept.refl (bs : Bsuper) : Kept bs bs := ⟨rfl, rfl, rfl⟩

theorem Kept.trans {a b c : Bsuper} (one : Kept a b) (two : Kept b c) : Kept a c :=
  ⟨two.fslocked.trans one.fslocked, two.ioinprog.trans one.ioinprog, two.inomap.trans one.inomap⟩

variable {bs bs' : Bsuper} {k length : Nat}

theorem Quiet.of_kept (quiet : Quiet bs) (kept : Kept bs bs') : Quiet bs' :=
  ⟨kept.fslocked.trans quiet.unlocked, kept.ioinprog.trans quiet.no_io,
    kept.inomap.trans quiet.free_inodes⟩

/-- When bfs_truncate takes blocks away: from a file in use, of more than one block if nothing is
left; in the middle only while no compaction is claimed. -/
def TruncateOk (bs : Bsuper) (k length : Nat) : Prop :=
  let dir := bs.inodes k
  dir.d_sblock ≠ 0 → length < dir.d_eoffset + 1 - dir.d_sblock * BFS_BSIZE →
    dir.d_ino ≠ 0 ∧ (length = 0 → dir.d_sblock < dir.d_eblock) ∧
    (length ≠ 0 → (dir.d_sblock * BFS_BSIZE + length - 1) / BFS_BSIZE < dir.d_eblock →
      bs.bsup_lastfile = some k ∨ bs.bsup_compacted = false)

theorem leave_kept (free : bs.bsup_inomap k = false) (kept : Kept (bs.held k) bs') :
    Kept bs (BFS_INOUNLOCK (BFS_IOEND bs') k) := by
  refine ⟨kept.fslocked, ?_, ?_⟩
  · show bs'.bsup_ioinprog - 1 = _
    rw [kept.ioinprog]
    rfl
  · show Function.update bs'.bsup_inomap k false = _
    rw [kept.inomap]
    exact locked_section free

theorem leave_sums (sums : bs.Sums) (k : Nat) : (BFS_INOUNLOCK (BFS_IOEND bs) k).Sums := sums

def Dirent.emptied (d : Dirent) : Dirent := { d with d_sblock := 0, d_eblock := 0, d_eoffset := 0 }

theorem emptied_sums (sums : bs.Sums) {k : Nat} (inside : k < bs.slots) (not_root : k ≠ root)
    (live : (bs.inodes k).d_ino ≠ 0) {compacted : Bool}
    (noted : compacted = true → bs.bsup_compacted = true ∧ (bs.bsup_lastfile = some k ∨ bs.layout k
      = none)) :
    Sums (bs.toImage.put k (bs.inodes k).emptied) (bs.bsup_freeblocks + blocks (bs.layout k))
      bs.bsup_freedrents (last_without bs.toImage bs.bsup_lastfile k) compacted := by
  have live' : (bs.inodes k).emptied.d_ino ≠ 0 := live
  have lost := Sums.lose_blocks sums inside (d := (bs.inodes k).emptied)
    (.inr ⟨rfl, rfl⟩) not_root
    (sums.linked.put live' fun _ => le_refl _) noted
  rw [one_if_free_of_live live, one_if_free_of_live live'] at lost
  simpa using lost

def Dirent.cut (d : Dirent) (length : Nat) : Dirent :=
  { d with d_eoffset := d.d_sblock * BFS_BSIZE + length - 1,
           d_eblock := (d.d_sblock * BFS_BSIZE + length - 1) / BFS_BSIZE }

theorem Placed.cut {im : Image} {d : Dirent} (placed : Placed im d) (pos : 0 < length)
    (short : length < d.d_eoffset + 1 - d.d_sblock * BFS_BSIZE) :
    Placed im (d.cut length) ∧ (d.cut length).d_eblock ≤ d.d_eblock := by
  have stop := placed.stop
  refine ⟨⟨placed.start, ?_, rfl, ?_⟩, ?_⟩
  · exact Nat.le_sub_of_add_le (Nat.add_le_add_left pos _)
  · show d.d_sblock * BFS_BSIZE + length - 1 ≤ im.bsup_end
    omega
  · rw [placed.eblock]
    apply Nat.div_le_div_right
    omega

theorem shortened_sums (sums : bs.Sums) {k length : Nat} (inside : k < bs.slots)
    (live : (bs.inodes k).d_ino ≠ 0) (full : (bs.inodes k).d_sblock ≠ 0) (pos : 0 < length)
    (short : length < (bs.inodes k).d_eoffset + 1 - (bs.inodes k).d_sblock * BFS_BSIZE)
    (noted : ((bs.inodes k).cut length).d_eblock < (bs.inodes k).d_eblock → bs.bsup_lastfile = some
      k ∨ bs.bsup_compacted = false) :
    Sums (bs.toImage.put k ((bs.inodes k).cut length))
      (bs.bsup_freeblocks + ((bs.inodes k).d_eblock - ((bs.inodes k).cut length).d_eblock : Int))
      bs.bsup_freedrents bs.bsup_lastfile bs.bsup_compacted := by
  have placed := sums.laid.placed k inside live full
  obtain ⟨placed', shorter⟩ := placed.cut pos short
  have order' := placed'.order
  have changed := Sums.shorten sums inside (d := (bs.inodes k).cut length) live live full rfl
    shorter
    rfl placed' ?_
  · rw [layout_of_full inside live full, extent_of_full (d := (bs.inodes k).cut length) live full]
      at changed
    have amount : (bs.bsup_freeblocks + ((bs.inodes k).d_eblock -
        ((bs.inodes k).cut length).d_eblock : Int)) = bs.bsup_freeblocks +
        blocks (some ⟨(bs.inodes k).d_sblock, (bs.inodes k).d_eblock - (bs.inodes k).d_sblock⟩) -
        blocks (some ⟨((bs.inodes k).cut length).d_sblock, ((bs.inodes k).cut length).d_eblock -
          ((bs.inodes k).cut length).d_sblock⟩) := by
      have same : ((bs.inodes k).cut length).d_sblock = (bs.inodes k).d_sblock := rfl
      simp only [blocks]
      omega
    rw [amount]
    exact changed
  · intro claimed
    rcases lt_or_ge ((bs.inodes k).cut length).d_eblock (bs.inodes k).d_eblock with less | same
    · refine .inl ((noted less).resolve_right ?_)
      rw [claimed]
      exact Bool.noConfusion
    · exact .inr (le_antisymm shorter same)

/-- What is left to do when a file has lost its blocks: the last file is looked for again, or
    the gap is noted or closed. -/
theorem truncate_gap_spec {k oeblock : Nat}
    (gap : Sums bs.toImage bs.bsup_freeblocks bs.bsup_freedrents (last_without bs.toImage
      bs.bsup_lastfile k) false)
    (end_ : bs.bsup_lastfile = some k → Sums bs.toImage bs.bsup_freeblocks bs.bsup_freedrents
      (last_without bs.toImage bs.bsup_lastfile k) bs.bsup_compacted)
    (unlocked : bs.bsup_fslocked = false) :
    ∃ bs', truncate_gap bs k oeblock = some bs' ∧ bs'.Sums ∧ Kept bs bs' := by
  unfold truncate_gap
  by_cases was_last : bs.bsup_lastfile = some k
  · rw [if_pos was_last]
    refine ⟨_, rfl, ?_, ⟨rfl, rfl, rfl⟩⟩
    have sums := end_ was_last
    unfold last_without at sums
    rw [if_pos was_last] at sums
    exact sums
  rw [if_neg was_last]
  unfold last_without at gap
  rw [if_neg was_last] at gap
  by_cases big : BIGFILE < oeblock
  · rw [if_pos big]
    have top := gap.last
    cases last : bs.bsup_lastfile with
    | none =>
      -- the root directory has blocks
      rw [last] at top
      have nothing := top root
      rw [layout_of_full gap.rooted.slot gap.rooted.live gap.rooted.full] at nothing
      cases nothing
    | some l =>
      simp only [bind_eq_bind, bind_some]
      by_cases small : small_behind (bs.inodes l) oeblock = true
      · rw [if_pos small]
        obtain ⟨im, run, slid, packed⟩ := compact_spec gap.laid
          (layout_of_full gap.rooted.slot gap.rooted.live gap.rooted.full)
        exact ⟨_, run, gap.compact slid packed, ⟨unlocked.symm, rfl, rfl⟩⟩
      · rw [if_neg small]
        rw [last] at gap
        exact ⟨_, rfl, gap, ⟨rfl, rfl, rfl⟩⟩
  · rw [if_neg big]
    exact ⟨_, rfl, gap, ⟨rfl, rfl, rfl⟩⟩

theorem truncate_spec (sums : bs.Sums) (inside : k < bs.slots) (not_root : k ≠ root)
    (free : bs.bsup_inomap k = false) (unlocked : bs.bsup_fslocked = false)
    (ok : TruncateOk bs k length) :
    ∃ r bs', bfs_truncate bs k length = some (r, bs') ∧ bs'.Sums ∧ Kept bs bs' := by
  have same : (bs.held k).inodes = bs.inodes := rfl
  have unchanged := leave_kept free (Kept.refl (bs.held k))
  unfold bfs_truncate
  rw [lock_eq free]
  simp only [bind_eq_bind, bind_some, same]
  by_cases empty : (bs.inodes k).d_sblock = 0
  · rw [if_pos empty]
    exact ⟨_, _, rfl, leave_sums sums k, unchanged⟩
  rw [if_neg empty]
  by_cases exact_ : (bs.inodes k).d_eoffset + 1 - (bs.inodes k).d_sblock * BFS_BSIZE = length
  · rw [if_pos exact_]
    exact ⟨_, _, rfl, leave_sums sums k, unchanged⟩
  rw [if_neg exact_]
  by_cases longer : (bs.inodes k).d_eoffset + 1 - (bs.inodes k).d_sblock * BFS_BSIZE < length
  · rw [if_pos longer]
    exact ⟨_, _, rfl, leave_sums sums k, unchanged⟩
  rw [if_neg longer]
  have short : length < (bs.inodes k).d_eoffset + 1 - (bs.inodes k).d_sblock * BFS_BSIZE := by omega
  obtain ⟨live, several, noted⟩ := ok empty short
  have placed := sums.laid.placed k inside live empty
  by_cases zero : length = 0
  · -- nothing is left of the file
    subst zero
    have end_eq : ((bs.inodes k).d_sblock * BFS_BSIZE - 1) / BFS_BSIZE =
        (bs.inodes k).d_sblock - 1 := by
      unfold BFS_BSIZE
      omega
    have freed : ((if (bs.inodes k).d_sblock - 1 < (bs.inodes k).d_eblock
          then ((bs.inodes k).d_eblock : Int) - ((bs.inodes k).d_sblock - 1 : Nat) else 0) +
        (if (bs.inodes k).d_eblock = (bs.inodes k).d_sblock ∧ True then 1 else 0)) =
        blocks (bs.layout k) := by
      rw [layout_of_full inside live empty, if_pos (by omega), if_neg (by omega)]
      simp only [blocks]
      omega
    simp only [add_zero, end_eq, freed, if_true]
    obtain ⟨cleared, hc⟩ : ∃ cleared, cleared = BFS_PUTINODE { bs.held k with
        bsup_freeblocks := bs.bsup_freeblocks + blocks (bs.layout k) } k (bs.inodes k).emptied :=
      ⟨_, rfl⟩
    have scan : last_without cleared.toImage cleared.bsup_lastfile k =
        last_without bs.toImage bs.bsup_lastfile k := by
      rw [hc]
      show (if bs.bsup_lastfile = some k then last_scan (Function.update bs.inodes k _) _ _ _ _
        else bs.bsup_lastfile) = _
      rw [last_scan_update]
      rfl
    have gap := @emptied_sums bs sums k inside not_root live false (fun absurd => by cases absurd)
    obtain ⟨bs', run, sums', kept⟩ := @truncate_gap_spec cleared k (bs.inodes k).d_eblock
      (by rw [scan, hc]; exact gap)
      (by
        intro was_last
        rw [scan]
        rw [hc] at was_last ⊢
        exact emptied_sums sums inside not_root live fun set => ⟨set, .inl was_last⟩)
      (by rw [hc]; exact unlocked)
    have step : Kept (bs.held k) cleared := by
      rw [hc]
      exact ⟨rfl, rfl, rfl⟩
    refine ⟨none, BFS_INOUNLOCK (BFS_IOEND bs') k, ?_, leave_sums sums' k,
      leave_kept free (step.trans kept)⟩
    rw [hc] at run
    exact congrArg (fun o : Option Bsuper =>
      o.bind fun bs => some (none, BFS_INOUNLOCK (BFS_IOEND bs) k)) run
  · have pos : 0 < length := pos_of_ne_zero zero
    have left : ¬ (bs.inodes k).d_sblock * BFS_BSIZE + length - 1 =
        (bs.inodes k).d_sblock * BFS_BSIZE - 1 := by
      unfold BFS_BSIZE
      omega
    obtain ⟨_, shorter⟩ := placed.cut pos short
    have freed : ((if ((bs.inodes k).cut length).d_eblock < (bs.inodes k).d_eblock
          then ((bs.inodes k).d_eblock : Int) - ((bs.inodes k).cut length).d_eblock else 0) +
        (if (bs.inodes k).d_eblock = (bs.inodes k).d_sblock ∧ length = 0 then 1 else 0)) =
        (bs.inodes k).d_eblock - ((bs.inodes k).cut length).d_eblock := by
      rw [if_neg (fun both : _ ∧ length = 0 => zero both.2)]
      split <;> omega
    rw [if_neg left]
    refine ⟨_, _, rfl, ?_, leave_kept free ⟨rfl, rfl, rfl⟩⟩
    have cut := shortened_sums sums inside live empty pos short (noted zero)
    rw [← freed] at cut
    exact cut

/-- When bfs_setattr takes blocks away: from a nonempty file in use, in the middle only while no
compaction is claimed. -/
def SetattrOk (bs : Bsuper) (k : Nat) (vap : Vattr) : Prop :=
  vap.noset = false → vap.early = none → vap.va_size = some 0 → k ≠ root → vap.deny = none →
    (bs.inodes k).d_ino ≠ 0 ∧ (bs.inodes k).d_sblock ≠ 0 ∧
      (bs.bsup_lastfile = some k ∨ bs.bsup_compacted = false)

theorem put_same (bs : Bsuper) (k : Nat) : BFS_PUTINODE bs k (bs.inodes k) = bs := by
  unfold BFS_PUTINODE
  rw [Function.update_eq_self]

theorem setattr_free_kept (bs : Bsuper) (k : Nat) (dir : Dirent) :
    Kept bs (setattr_free bs k dir) := by
  by_cases was_last : bs.bsup_lastfile = some k
  · rw [setattr_free, if_pos (show (Bsuper.mk _ _ _ _ _ _ _ _ _).bsup_lastfile = _ from was_last)]
    exact ⟨rfl, rfl, rfl⟩
  · rw [setattr_free, if_neg (show (Bsuper.mk _ _ _ _ _ _ _ _ _).bsup_lastfile ≠ _ from was_last)]
    exact ⟨rfl, rfl, rfl⟩

theorem setattr_spec (sums : bs.Sums) (inside : k < bs.slots) (free : bs.bsup_inomap k = false)
    (unlocked : bs.bsup_fslocked = false) (vap : Vattr) (ok : SetattrOk bs k vap) :
    ∃ r bs', bfs_setattr bs k vap = some (r, bs') ∧ bs'.Sums ∧ Kept bs bs' := by
  have unchanged := leave_kept free (Kept.refl (bs.held k))
  have unlocked' : (bs.held k).bsup_fslocked = false := unlocked
  unfold bfs_setattr
  simp only [bind_eq_bind, enter_eq unlocked free, put_same]
  by_cases noset : vap.noset = true
  · simp only [noset, if_true]
    exact ⟨_, _, rfl, leave_sums sums k, unchanged⟩
  simp only [noset]
  by_cases early : vap.early.isSome = true
  · simp only [early, if_true]
    exact ⟨_, _, rfl, leave_sums sums k, unchanged⟩
  simp only [early]
  cases size : vap.va_size with
  | none =>
    exact ⟨_, _, rfl, leave_sums sums k, unchanged⟩
  | some n =>
    by_cases zero : n = 0
    · subst zero
      by_cases is_root : k = root
      · simp only [is_root, if_true]
        exact ⟨_, _, rfl, leave_sums sums root, by rw [← is_root]; exact unchanged⟩
      simp only [is_root, iaccess_eq vap.deny unlocked', bind_some]
      by_cases denied : vap.deny.isSome = true
      · simp only [denied, if_true, put_same]
        exact ⟨_, _, rfl, leave_sums sums k, unchanged⟩
      simp only [denied]
      obtain ⟨live, full, last_or⟩ := ok (by simpa using noset) (by simpa using early) size is_root
        (by simpa using denied)
      have placed := sums.laid.placed k inside live full
      have order := placed.order
      have freed : ((bs.inodes k).d_eblock : Int) - (bs.inodes k).d_sblock + 1 =
          blocks (bs.layout k) := by
        rw [layout_of_full inside live full]
        simp only [blocks]
        omega
      have cleared := @emptied_sums bs sums k inside is_root live bs.bsup_compacted (by
          intro set
          refine ⟨set, .inl (last_or.resolve_right ?_)⟩
          rw [set]
          exact Bool.noConfusion)
      rw [← freed] at cleared
      unfold last_without at cleared
      refine ⟨_, _, rfl, ?_, ?_⟩
      · unfold setattr_free
        by_cases was_last : bs.bsup_lastfile = some k
        · rw [if_pos was_last] at cleared
          rw [if_pos (show (bs.held k).bsup_lastfile = some k from was_last)]
          exact cleared
        · rw [if_neg was_last] at cleared
          rw [if_neg (show (bs.held k).bsup_lastfile ≠ some k from was_last)]
          exact cleared
      · have kept := setattr_free_kept (bs.held k) k (bs.inodes k)
        exact leave_kept free { kept with }
    · simp only [ne_eq, zero, not_false_eq_true, if_true]
      exact ⟨_, _, rfl, leave_sums sums k, unchanged⟩

end Bfs
