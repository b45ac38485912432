import Mathlib.Order.Interval.Finset.Nat
import Svr4.S5.InodeScan

/- `s_inode[0]` as an entry of the cache, as the hint for the next search and as an end marker. -/
namespace S5
open Function List
variable {fs : Ilist} {s s' : Inodes} {faults : Faults} {mode x n : Nat}

def free_inodes (fs : Ilist) (s : Inodes) : Finset Nat :=
  (Finset.Icc 1 fs.inodes).filter fun x => s.di_mode x = 0

/-- The cache has distinct free inodes, and a search from the hint misses no other. -/
structure Exact (fs : Ilist) (s : Inodes) : Prop where
  bound : s.s_ninode ≤ NICINOD
  distinct : (cached s.s_inode s.s_ninode).Nodup
  free : ∀ x ∈ cached s.s_inode s.s_ninode, x ∈ free_inodes fs s
  count : s.s_tinode = (free_inodes fs s).card
  marker : ∀ k < s.s_ninode, s.s_inode k = 0 → s.s_inode 0 = 0
  hint : ∀ x ∈ free_inodes fs s, x ∉ cached s.s_inode s.s_ninode →
    fs.FsINOS (s.s_inode 0) ≤ x

theorem mem_free : x ∈ free_inodes fs s ↔ (1 ≤ x ∧ x ≤ fs.inodes) ∧ s.di_mode x = 0 := by
  unfold free_inodes
  rw [Finset.mem_filter, Finset.mem_Icc]

section Numbers

theorem FsINOS_le_succ (x : Nat) : fs.FsINOS x ≤ x + 1 := by
  rw [FsINOS_eq]
  exact Nat.succ_le_succ (Nat.div_mul_le_self x _)

theorem FsINOS_mono {y : Nat} (le : x ≤ y) : fs.FsINOS x ≤ fs.FsINOS y := by
  rw [FsINOS_eq, FsINOS_eq]
  exact Nat.succ_le_succ (Nat.mul_le_mul_right _ (Nat.div_le_div_right le))

theorem FsINOS_zero : fs.FsINOS 0 = 1 := by
  rw [FsINOS_eq, Nat.zero_div, Nat.zero_mul]

theorem FsINOS_le (inner : ¬ fs.vfs_inopb ∣ x) : fs.FsINOS x ≤ x := by
  rw [FsINOS_eq]
  have le := Nat.div_mul_le_self x fs.vfs_inopb
  have ne : x / fs.vfs_inopb * fs.vfs_inopb ≠ x := fun same =>
    inner ⟨x / fs.vfs_inopb, by rw [mul_comm, same]⟩
  omega

def first_of_block (fs : Ilist) (x : Nat) : Nat := (x - 1) / fs.vfs_inopb * fs.vfs_inopb + 1

theorem first_of_block_le : first_of_block fs x ≤ fs.FsINOS x := by
  rw [FsINOS_eq]
  exact Nat.succ_le_succ (Nat.mul_le_mul_right _ (Nat.div_le_div_right (Nat.sub_le x 1)))

end Numbers

section Found

theorem mem_numbers : x ∈ List.range' (fs.dinode_number (fs.FsITOD (fs.FsINOS (s.s_inode 0))) 0)
      ((fs.s_isize - fs.FsITOD (fs.FsINOS (s.s_inode 0))) * fs.vfs_inopb) ↔
    fs.FsINOS (s.s_inode 0) ≤ x ∧ x ≤ fs.inodes := by
  obtain ⟨inodes, number⟩ := search_begins fs (s.s_inode 0)
  obtain ⟨adr, adr_eq⟩ : ∃ adr, adr = fs.FsITOD (fs.FsINOS (s.s_inode 0)) := ⟨_, rfl⟩
  rw [← adr_eq] at inodes number ⊢
  rw [number, mem_range'_1]
  refine and_congr_right fun above => ?_
  unfold Ilist.dinode_number Ilist.inodes at *
  by_cases room : adr ≤ fs.s_isize
  · have sum : (fs.s_isize - 2) * fs.vfs_inopb =
        (adr - 2) * fs.vfs_inopb + (fs.s_isize - adr) * fs.vfs_inopb := by
      rw [← Nat.add_mul]
      congr 1
      omega
    rw [sum]
    omega
  · have large := Nat.mul_le_mul_right fs.vfs_inopb (show fs.s_isize - 2 ≤ adr - 2 by omega)
    rw [Nat.sub_eq_zero_of_le (Nat.le_of_not_le room), Nat.zero_mul]
    omega

theorem found_sorted (fs : Ilist) (faults : Faults) (s : Inodes) :
    (found_free fs faults s).Pairwise (· < ·) := by
  have below := readable_sublist fs faults
    (fs.s_isize - fs.FsITOD (fs.FsINOS (s.s_inode 0))) (search_begins fs (s.s_inode 0)).1
  exact Pairwise.filter _ (Pairwise.sublist below pairwise_lt_range')

theorem found_is_free (mem : x ∈ found_free fs faults s) : x ∈ free_inodes fs s := by
  obtain ⟨readable, free⟩ := mem_filter.mp mem
  have below := readable_sublist fs faults
    (fs.s_isize - fs.FsITOD (fs.FsINOS (s.s_inode 0))) (search_begins fs (s.s_inode 0)).1
  obtain ⟨above, below⟩ := mem_numbers.mp (below.subset readable)
  have positive : 1 ≤ fs.FsINOS (s.s_inode 0) := by
    rw [FsINOS_eq]
    omega
  exact mem_free.mpr ⟨⟨le_trans positive above, below⟩, of_decide_eq_true free⟩

theorem found_pos (mem : x ∈ found_free fs faults s) : x ≠ 0 := by
  have := (mem_free.mp (found_is_free mem)).1.1
  omega

theorem found_all (good : ∀ adr, faults.bread adr = false) (free : x ∈ free_inodes fs s)
    (above : fs.FsINOS (s.s_inode 0) ≤ x) : x ∈ found_free fs faults s := by
  obtain ⟨range, free⟩ := mem_free.mp free
  refine mem_filter.mpr ⟨?_, decide_eq_true free⟩
  rw [readable_all _ (search_begins fs (s.s_inode 0)).1 good]
  exact mem_numbers.mpr ⟨above, range.2⟩

theorem found_card_le (fs : Ilist) (faults : Faults) (s : Inodes) :
    (found_free fs faults s).length ≤ (free_inodes fs s).card := by
  have nodup : (found_free fs faults s).Nodup :=
    (found_sorted fs faults s).imp fun less => ne_of_lt less
  rw [← toFinset_card_of_nodup nodup]
  exact Finset.card_le_card fun y mem => found_is_free (mem_toFinset.mp mem)

def last_found (fs : Ilist) (faults : Faults) (s : Inodes) : Option Nat :=
  (found_free fs faults s)[NICINOD - 1]?

def CalmBread (fs : Ilist) (faults : Faults) (s : Inodes) : Prop :=
  cached s.s_inode s.s_ninode = [] →
    (found_free fs faults s = [] → free_inodes fs s = ∅) ∧
      ∀ last ∈ last_found fs faults s, ∀ x ∈ free_inodes fs s, x ∉ found_free fs faults s →
        fs.FsINOS last ≤ x

theorem Exact.calm_bread (h : Exact fs s) (good : ∀ adr, faults.bread adr = false) :
    CalmBread fs faults s := by
  intro empty
  have all : ∀ y ∈ free_inodes fs s, y ∈ found_free fs faults s := fun y mem =>
    found_all good mem (h.hint y mem (by rw [empty]; exact not_mem_nil))
  refine ⟨fun none_ => Finset.eq_empty_of_forall_notMem fun y mem => ?_,
    fun last _ x mem other => absurd (all x mem) other⟩
  have mem := all y mem
  rw [none_] at mem
  cases mem

theorem Exact.rebuilt (h : Exact fs s) (empty : cached s.s_inode s.s_ninode = [])
    (calm : CalmBread fs faults s) :
    Exact fs { s.rebuild fs faults with s_ninode := NICINOD } ∧
      ((s.rebuild fs faults).s_ninode = NICINOD ↔ free_inodes fs s = ∅) ∧
      free_inodes fs { s.rebuild fs faults with s_ninode := NICINOD } = free_inodes fs s := by
  obtain ⟨some_found, behind⟩ := calm empty
  have r := S5.rebuilt fs faults s fun y mem => found_pos mem
  have same : free_inodes fs { s.rebuild fs faults with s_ninode := NICINOD } =
      free_inodes fs s := by
    unfold free_inodes
    rw [r.modes]
  have sorted := found_sorted fs faults s
  refine ⟨⟨le_refl _, ?_, fun y mem => ?_, ?_, fun k below zero => ?_, fun y mem other => ?_⟩,
    ?_, same⟩
  · rw [r.cached]
    exact (sorted.imp fun less => ne_of_lt less).take
  · rw [same]
    rw [r.cached] at mem
    exact found_is_free (mem_of_mem_take mem)
  · rw [same]
    exact r.tinode.trans h.count
  · by_cases less : (found_free fs faults s).length < NICINOD
    · exact r.partly less
    · have mem := r.full (by omega) k below
      exact absurd zero (found_pos (mem_of_mem_take mem))
  · rw [same] at mem
    rw [r.cached] at other
    by_cases less : (found_free fs faults s).length < NICINOD
    · rw [r.partly less, FsINOS_zero]
      exact (mem_free.mp mem).1.1
    have many : NICINOD ≤ (found_free fs faults s).length := by omega
    by_cases found : y ∈ found_free fs faults s
    · -- the rest of the numbers are larger than those in the cache
      have first := r.full many 0 (by decide)
      have split := take_append_drop NICINOD (found_free fs faults s)
      have rest : y ∈ (found_free fs faults s).drop NICINOD := by
        rw [← split] at found
        exact (mem_append.mp found).resolve_left other
      rw [← split] at sorted
      have less := (pairwise_append.mp sorted).2.2 _ first y rest
      exact le_trans (FsINOS_le_succ _) less
    · exact behind _ (r.last many) y mem found
  · rw [r.ninode]
    constructor
    · intro none_
      refine some_found (eq_nil_of_length_eq_zero ?_)
      unfold NICINOD at none_
      omega
    · intro none_
      have le := found_card_le fs faults s
      rw [none_, Finset.card_empty] at le
      omega

end Found

section Ialloc

theorem pop_cached (faults : Faults) (h : ∀ y ∈ cached s.s_inode s.s_ninode, s.di_mode y = 0) :
    (cached s.s_inode s.s_ninode = [] ∧ ∃ k, s.pop faults s.s_ninode = .empty k) ∨
      ∃ y n, s.s_ninode = n + 1 ∧ y = s.s_inode n ∧
        cached s.s_inode s.s_ninode = y :: cached s.s_inode n ∧
        s.pop faults s.s_ninode = if faults.iget y then .failed n else .found y n := by
  generalize s.s_ninode = n at *
  cases n with
  | zero => exact .inl ⟨rfl, 0, rfl⟩
  | succ n =>
    rw [cached_succ] at h ⊢
    unfold Inodes.pop
    by_cases zero : s.s_inode n = 0
    · rw [if_pos zero, if_pos zero]
      exact .inl ⟨rfl, n, rfl⟩
    · rw [if_neg zero] at h
      rw [if_neg zero, if_neg zero, if_pos (h _ mem_cons_self)]
      exact .inr ⟨_, n, rfl, rfl, rfl, rfl⟩

theorem taken_free (typed : mode ≠ 0) (n : Nat) :
    free_inodes fs (s.take mode x n) = (free_inodes fs s).erase x := by
  ext y
  rw [Finset.mem_erase, mem_free, mem_free]
  unfold Inodes.take
  dsimp only
  by_cases same : y = x
  · subst same
    rw [update_self]
    exact iff_of_false (fun h => typed h.2) fun h => h.1 rfl
  · rw [update_of_ne same, and_iff_right same]

theorem Exact.take (h : Exact fs s) (typed : mode ≠ 0) (top : s.s_ninode = n + 1)
    (list : cached s.s_inode s.s_ninode = x :: cached s.s_inode n) :
    Exact fs (s.take mode x n) := by
  have distinct := h.distinct
  rw [list, nodup_cons] at distinct
  refine ⟨by have := h.bound; show n ≤ _; omega, distinct.2, fun y mem => ?_, ?_,
    fun k below => h.marker k (by have : k < n := below; omega), fun y mem other => ?_⟩
  · rw [taken_free typed, Finset.mem_erase]
    exact ⟨fun same => distinct.1 (same ▸ mem), h.free y (list ▸ mem_cons_of_mem x mem)⟩
  · rw [taken_free typed, Finset.card_erase_of_mem (h.free x (list ▸ mem_cons_self)), ← h.count]
    rfl
  · rw [taken_free typed, Finset.mem_erase] at mem
    refine h.hint y mem.2 ?_
    rw [list, mem_cons, not_or]
    exact ⟨mem.1, other⟩

theorem Exact.drop (h : Exact fs s) (top : s.s_ninode = n + 1)
    (list : cached s.s_inode s.s_ninode = x :: cached s.s_inode n)
    (above : fs.FsINOS (s.s_inode 0) ≤ x) : Exact fs { s with s_ninode := n } := by
  have distinct := h.distinct
  rw [list, nodup_cons] at distinct
  refine ⟨by have := h.bound; show n ≤ _; omega, distinct.2, fun y mem => ?_, h.count,
    fun k below => h.marker k (by have : k < n := below; omega), fun y mem other => ?_⟩
  · exact h.free y (list ▸ mem_cons_of_mem x mem)
  · by_cases same : y = x
    · exact same ▸ above
    · refine h.hint y mem ?_
      rw [list, mem_cons, not_or]
      exact ⟨same, other⟩

def Granted (fs : Ilist) (faults : Faults) (s : Inodes) (mode : Nat) (s' : Inodes) : Ialloc → Prop
  | .inode ino => ino ∈ free_inodes fs s ∧ s'.di_mode = update s.di_mode ino mode
  | .ENOSPC => free_inodes fs s = ∅ ∧ s'.di_mode = s.di_mode
  | .error => (∃ x ∈ free_inodes fs s, faults.iget x = true) ∧ s'.di_mode = s.di_mode

/-- `iget` fails only for a number that a later search finds again. -/
def CalmIget (fs : Ilist) (faults : Faults) (s : Inodes) : Prop :=
  ∀ x, faults.iget x = true →
    match cached s.s_inode s.s_ninode with
    | top :: _ => x = top → fs.FsINOS (s.s_inode 0) ≤ x
    | [] => (found_free fs faults s).head? = some x →
        ∀ last ∈ last_found fs faults s, fs.FsINOS last ≤ x

theorem Exact.loop1 (h : Exact fs s) (typed : mode ≠ 0) (faults : Faults) (turns : Nat)
    (some_ : cached s.s_inode s.s_ninode ≠ []) :
    ∃ s' result, s.loop1 fs faults mode (turns + 1) = some (s', result) ∧
      Granted fs faults s mode s' result ∧
      ((∀ x, faults.iget x = true → x ∈ (cached s.s_inode s.s_ninode).head? →
        fs.FsINOS (s.s_inode 0) ≤ x) → Exact fs s') := by
  rcases pop_cached faults fun y mem => (mem_free.mp (h.free y mem)).2 with
    ⟨nil, -⟩ | ⟨y, n, top, -, list, popped⟩
  · exact absurd nil some_
  unfold Inodes.loop1
  rw [popped]
  by_cases fails : faults.iget y = true
  · rw [if_pos fails]
    have free := h.free y (list ▸ mem_cons_self)
    refine ⟨_, _, rfl, ⟨⟨y, free, fails⟩, rfl⟩, fun calm => h.drop top list (calm y fails ?_)⟩
    rw [list]
    rfl
  · rw [if_neg fails]
    exact ⟨_, _, rfl, ⟨h.free y (list ▸ mem_cons_self), rfl⟩, fun _ => h.take typed top list⟩

theorem Exact.ialloc (h : Exact fs s) (typed : mode ≠ 0) (readable : CalmBread fs faults s) :
    ∃ s' result, s.ialloc fs faults mode = some (s', result) ∧
      Granted fs faults s mode s' result ∧ (CalmIget fs faults s → Exact fs s') := by
  unfold Inodes.ialloc
  by_cases nil : cached s.s_inode s.s_ninode = []
  · rcases pop_cached faults fun y mem => (mem_free.mp (h.free y mem)).2 with
      ⟨-, k, popped⟩ | ⟨y, n, -, -, list, -⟩
    · unfold Inodes.loop1
      rw [popped]
      dsimp only
      by_cases some_left : 0 < s.s_tinode
      · rw [if_pos some_left]
        obtain ⟨exact_, none_iff, free⟩ := h.rebuilt nil readable
        have some_free : free_inodes fs s ≠ ∅ := by
          rintro none_
          rw [h.count, none_, Finset.card_empty] at some_left
          cases some_left
        rw [if_neg (mt none_iff.mp some_free)]
        have r := S5.rebuilt fs faults s fun y mem => found_pos mem
        have filled : cached (s.rebuild fs faults).s_inode NICINOD ≠ [] := by
          intro none_
          have length : (found_free fs faults s).length = 0 := by
            have taken := congrArg length (r.cached.symm.trans none_)
            simpa [NICINOD] using taken
          refine mt none_iff.mp some_free ?_
          rw [r.ninode, length, Nat.sub_zero]
        obtain ⟨s', result, called, granted, keeps⟩ := exact_.loop1 typed faults 0 filled
        refine ⟨s', result, called, ?_, fun calm => keeps fun y fails head => ?_⟩
        · cases result with
          | inode ino => exact ⟨free ▸ granted.1, granted.2.trans (by rw [r.modes])⟩
          | ENOSPC | error => exact ⟨free ▸ granted.1, granted.2.trans r.modes⟩
        · have calm := calm y fails
          rw [nil] at calm
          by_cases less : (found_free fs faults s).length < NICINOD
          · rw [r.partly less, FsINOS_zero]
            exact (mem_free.mp (exact_.free y (mem_of_mem_head? head))).1.1
          · rw [r.cached, head?_take, if_neg (by decide)] at head
            exact calm head _ (r.last (by omega))
      · rw [if_neg some_left]
        have none_ : free_inodes fs s = ∅ := by
          rw [← Finset.card_eq_zero, ← h.count]
          omega
        refine ⟨_, _, rfl, ⟨none_, rfl⟩, fun _ => ?_⟩
        refine ⟨Nat.zero_le _, nodup_nil, nofun, ?_, nofun, fun y mem => ?_⟩
        · show 0 = (free_inodes fs s).card
          rw [none_, Finset.card_empty]
        · have mem : y ∈ free_inodes fs s := mem
          rw [none_] at mem
          cases mem
    · rw [nil] at list
      cases list
  · obtain ⟨s', result, called, granted, keeps⟩ := h.loop1 typed faults 1 nil
    refine ⟨s', result, called, granted, fun calm => keeps fun y fails head => ?_⟩
    have calm := calm y fails
    cases list : cached s.s_inode s.s_ninode with
    | nil => exact absurd list nil
    | cons z rest =>
      rw [list] at calm head
      exact calm (Option.some.inj head).symm

end Ialloc
section Ifree

theorem cached_first (e : Nat → Nat) (full : ∀ k < n + 1, e k ≠ 0) :
    cached e (n + 1) = cached (fun k => e (k + 1)) n ++ [e 0] := by
  induction n with
  | zero =>
    rw [cached_succ, if_neg (full 0 one_pos)]
    rfl
  | succ n ih =>
    rw [cached_succ e (n + 1), cached_succ (fun k => e (k + 1)) n,
      if_neg (full (n + 1) (Nat.lt_succ_self _)), if_neg (full (n + 1) (Nat.lt_succ_self _)),
      cons_append]
    exact congrArg _ (ih fun k below => full k (Nat.lt_succ_of_lt below))

theorem freed_inodes (range : 1 ≤ x ∧ x ≤ fs.inodes)
    (modes : s'.di_mode = update s.di_mode x 0) :
    free_inodes fs s' = insert x (free_inodes fs s) := by
  ext y
  rw [Finset.mem_insert, mem_free, mem_free, modes]
  by_cases same : y = x
  · subst same
    rw [update_self]
    exact iff_of_true ⟨range, rfl⟩ (.inl rfl)
  · rw [update_of_ne same, or_iff_right same]

/-- An inode may be left out of an empty cache where the hint finds it again: not the last of its
block, or above the hint. -/
def CalmIfree (fs : Ilist) (s : Inodes) (x : Nat) : Prop :=
  ¬ (s.s_ninode = 0 ∧ x ≤ s.s_inode 0 ∧ fs.vfs_inopb ∣ x)

section
variable (h : Exact fs s) (range : 1 ≤ x ∧ x ≤ fs.inodes) (allocated : s.di_mode x ≠ 0)
  (modes : s'.di_mode = update s.di_mode x 0) (total : s'.s_tinode = s.s_tinode + 1)
include h range allocated modes total

theorem Exact.count_freed : s'.s_tinode = (free_inodes fs s').card := by
  rw [freed_inodes range modes,
    Finset.card_insert_of_notMem fun mem => allocated (mem_free.mp mem).2, total, h.count]

section
variable (inode : s'.s_inode = update s.s_inode 0 x) (ninode : s'.s_ninode = s.s_ninode)
  (lower : x < s.s_inode 0)
include inode ninode lower

theorem Exact.ifree_hint (empty : s.s_ninode = 0) (calm : CalmIfree fs s x) : Exact fs s' := by
  have bound := h.bound
  have none_ : cached s'.s_inode s'.s_ninode = [] := by
    rw [ninode, empty]
    rfl
  refine ⟨ninode ▸ bound, none_ ▸ nodup_nil, fun y mem => ?_,
    h.count_freed range allocated modes total, fun k below => by omega, fun y mem other => ?_⟩
  · rw [none_] at mem
    exact absurd mem not_mem_nil
  · rw [freed_inodes range modes, Finset.mem_insert] at mem
    rw [inode, update_self]
    rcases mem with rfl | mem
    · exact FsINOS_le fun last => calm ⟨empty, le_of_lt lower, last⟩
    · refine le_trans (FsINOS_mono (le_of_lt lower)) (h.hint y mem ?_)
      rw [empty]
      exact not_mem_nil

theorem Exact.ifree_lowest (top : s.s_ninode = n + 1) : Exact fs s' := by
  have full : ∀ k < n + 1, s.s_inode k ≠ 0 := by
    intro k below zero
    have first := h.marker k (top ▸ below) zero
    omega
  have list := cached_first s.s_inode full
  have new : cached s'.s_inode s'.s_ninode = cached (fun k => s.s_inode (k + 1)) n ++ [x] := by
    rw [inode, ninode, top, cached_first _ fun k below => ?_, update_self]
    · refine congrArg (· ++ [x]) (cached_congr fun k _ => ?_)
      exact update_of_ne (Nat.succ_ne_zero k) x s.s_inode
    · rw [update_apply]
      split
      · omega
      · exact full k below
  have bound := h.bound
  have distinct := h.distinct
  have free := h.free
  have hint := h.hint
  rw [top, list] at distinct free hint
  refine ⟨ninode ▸ bound, ?_, fun y mem => ?_, h.count_freed range allocated modes total,
    fun k below zero => ?_, fun y mem other => ?_⟩
  · rw [new]
    refine Nodup.append (nodup_append.mp distinct).1 (nodup_singleton x) ?_
    intro y mem last
    obtain rfl := mem_singleton.mp last
    exact allocated (mem_free.mp (free y (mem_append_left _ mem))).2
  · rw [new] at mem
    rw [freed_inodes range modes]
    rcases mem_append.mp mem with mem | mem
    · exact Finset.mem_insert_of_mem (free y (mem_append_left _ mem))
    · rw [mem_singleton.mp mem]
      exact Finset.mem_insert_self x _
  · rw [inode] at zero ⊢
    by_cases first : k = 0
    · subst first
      exact zero
    · rw [update_of_ne first] at zero
      exact absurd zero (full k (by omega))
  · rw [new, mem_append, mem_singleton, not_or] at other
    rw [freed_inodes range modes, Finset.mem_insert, or_iff_right other.2] at mem
    rw [inode, update_self]
    by_cases first : y = s.s_inode 0
    · rw [first]
      exact le_trans (FsINOS_le_succ x) lower
    · refine le_trans (FsINOS_mono (le_of_lt lower)) (hint y mem ?_)
      rw [mem_append, mem_singleton, not_or]
      exact ⟨other.1, first⟩

end

theorem Exact.ifree_uncached (inode : s'.s_inode = s.s_inode) (ninode : s'.s_ninode = s.s_ninode)
    (calm : CalmIfree fs s x) (above : s.s_inode 0 ≤ x) : Exact fs s' := by
  have count := h.count_freed range allocated modes total
  have uncached : x ∉ cached s.s_inode s.s_ninode :=
    fun mem => allocated (mem_free.mp (h.free x mem)).2
  cases s'
  subst inode ninode
  refine ⟨h.bound, h.distinct, fun y mem => ?_, count, h.marker, fun y mem other => ?_⟩
  · rw [freed_inodes range modes]
    exact Finset.mem_insert_of_mem (h.free y mem)
  rw [freed_inodes range modes, Finset.mem_insert] at mem
  rcases mem with rfl | mem
  · show fs.FsINOS (s.s_inode 0) ≤ y
    rcases Nat.eq_zero_or_pos s.s_ninode with empty | some_
    · by_cases same : y = s.s_inode 0
      · rw [← same]
        exact FsINOS_le fun last => calm ⟨empty, le_of_eq same, last⟩
      · exact le_trans (FsINOS_le_succ _) (by omega)
    · by_cases zero : s.s_inode 0 = 0
      · rw [zero, FsINOS_zero]
        exact range.1
      · have first := first_cached some_ fun k below none_ => zero (h.marker k below none_)
        have differ : y ≠ s.s_inode 0 := fun same => uncached (same ▸ first)
        exact le_trans (FsINOS_le_succ _) (by omega)
  · exact h.hint y mem other

theorem Exact.ifree_cached (inode : s'.s_inode = update s.s_inode s.s_ninode x)
    (ninode : s'.s_ninode = s.s_ninode + 1) (room : s.s_ninode < NICINOD)
    (some_ : s.s_ninode ≠ 0) : Exact fs s' := by
  have first : s'.s_inode 0 = s.s_inode 0 := by
    rw [inode, update_of_ne some_.symm]
  have list : cached s'.s_inode s'.s_ninode = x :: cached s.s_inode s.s_ninode := by
    rw [inode, ninode, cached_succ, update_self, if_neg (by omega)]
    refine congrArg _ (cached_congr fun k below => ?_)
    exact update_of_ne (ne_of_lt below) x s.s_inode
  refine ⟨ninode ▸ room, ?_, fun y mem => ?_, h.count_freed range allocated modes total,
    fun k below zero => ?_, fun y mem other => ?_⟩
  · rw [list]
    exact nodup_cons.mpr ⟨fun mem => allocated (mem_free.mp (h.free x mem)).2, h.distinct⟩
  · rw [list] at mem
    rw [freed_inodes range modes]
    rcases mem_cons.mp mem with rfl | mem
    · exact Finset.mem_insert_self y _
    · exact Finset.mem_insert_of_mem (h.free y mem)
  · rw [first]
    rw [inode] at zero
    by_cases same : k = s.s_ninode
    · rw [same, update_self] at zero
      omega
    · rw [update_of_ne same] at zero
      exact h.marker k (by omega) zero
  · rw [list, mem_cons, not_or] at other
    rw [freed_inodes range modes, Finset.mem_insert, or_iff_right other.1] at mem
    rw [first]
    exact h.hint y mem other.2

end

theorem Exact.ifree (h : Exact fs s) (range : 1 ≤ x ∧ x ≤ fs.inodes)
    (allocated : s.di_mode x ≠ 0) (calm : CalmIfree fs s x) : Exact fs (s.ifree x) := by
  unfold Inodes.ifree
  rw [if_neg allocated]
  dsimp only
  split
  · split
    · next lower =>
      cases top : s.s_ninode with
      | zero => exact h.ifree_hint range allocated rfl rfl rfl top.symm lower top calm
      | succ n => exact h.ifree_lowest range allocated rfl rfl rfl top.symm lower top
    · next above =>
      exact h.ifree_uncached range allocated rfl rfl rfl rfl calm (Nat.le_of_not_lt above)
  · next inside =>
    rw [not_or] at inside
    exact h.ifree_cached range allocated rfl rfl rfl rfl (Nat.lt_of_not_le inside.1) inside.2

end Ifree

inductive CalmRun (fs : Ilist) : Inodes → Inodes → Prop
  | start (s : Inodes) : CalmRun fs s s
  | ialloc {s₀ s s' : Inodes} {mode : Nat} {faults : Faults} {result : Ialloc}
      (run : CalmRun fs s₀ s) (typed : mode ≠ 0) (good : ∀ adr, faults.bread adr = false)
      (calm : CalmIget fs faults s) (called : s.ialloc fs faults mode = some (s', result)) :
      CalmRun fs s₀ s'
  | ifree {s₀ s : Inodes} {x : Nat} (run : CalmRun fs s₀ s) (range : 1 ≤ x ∧ x ≤ fs.inodes)
      (allocated : s.di_mode x ≠ 0) (calm : CalmIfree fs s x) : CalmRun fs s₀ (s.ifree x)

theorem Exact.run {s₀ : Inodes} (start : Exact fs s₀) (run : CalmRun fs s₀ s) : Exact fs s := by
  induction run with
  | start => exact start
  | @ialloc s s' mode faults result run typed good calm called ih =>
    obtain ⟨s'', result', called', -, keeps⟩ := ih.ialloc typed (ih.calm_bread good)
    have same := Option.some.inj (called.symm.trans called')
    rw [Prod.mk.injEq] at same
    exact same.1 ▸ keeps calm
  | ifree run range allocated calm ih => exact ih.ifree range allocated calm

/-- In every state reached the counts and the cache are right, and so is every call from it. -/
theorem inode_allocation_exact {s₀ : Inodes} (start : Exact fs s₀) (run : CalmRun fs s₀ s) :
    s.s_tinode = (free_inodes fs s).card ∧ (cached s.s_inode s.s_ninode).Nodup ∧
      (∀ x ∈ free_inodes fs s, x ∉ cached s.s_inode s.s_ninode →
        s.s_inode 0 = 0 ∨ first_of_block fs (s.s_inode 0) ≤ x) ∧
      ∀ mode faults, mode ≠ 0 → (∀ adr, faults.bread adr = false) →
        ∃ s' result, s.ialloc fs faults mode = some (s', result) ∧
          Granted fs faults s mode s' result := by
  have h := start.run run
  refine ⟨h.count, h.distinct, fun x mem other => .inr ?_, fun mode faults typed good => ?_⟩
  · exact le_trans first_of_block_le (h.hint x mem other)
  · obtain ⟨s', result, called, granted, -⟩ := h.ialloc typed (h.calm_bread good)
    exact ⟨s', result, called, granted⟩

def small_ilist : Ilist := ⟨4, 3, by decide⟩

def all_used : Inodes := ⟨0, fun _ => 16, 0, fun _ => 0o100644⟩

theorem all_used_exact : Exact small_ilist all_used := by
  have none_ : free_inodes small_ilist all_used = ∅ := by decide
  refine ⟨by decide, nodup_nil, nofun, by rw [none_]; rfl, nofun, fun x mem => ?_⟩
  cases mem

/-- Inode 8, the last of the first block, is freed and cannot be found. -/
theorem last_of_block_is_missed : Exact small_ilist all_used ∧
    8 ∈ free_inodes small_ilist (all_used.ifree 8) ∧
      ∃ s', (all_used.ifree 8).ialloc small_ilist Faults.none 0o100644 = some (s', .ENOSPC) := by
  refine ⟨all_used_exact, by decide, ?_⟩
  exact ⟨((all_used.ifree 8).rebuild small_ilist Faults.none).out_of_inodes, rfl⟩

/-- Inode 7 is freed and allocated again. -/
theorem inode_allocation_exact_small : ∃ s' result,
    (all_used.ifree 7).ialloc small_ilist Faults.none 0o100644 = some (s', result) ∧
      Granted small_ilist Faults.none (all_used.ifree 7) 0o100644 s' result := by
  have run : CalmRun small_ilist all_used (all_used.ifree 7) :=
    (CalmRun.start all_used).ifree (by decide) (by decide) (by unfold CalmIfree; decide)
  exact (inode_allocation_exact all_used_exact run).2.2.2 0o100644 Faults.none (by decide)
    fun _ => rfl

end S5
