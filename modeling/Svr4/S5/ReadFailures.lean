import Svr4.S5.BlockTrees
import Svr4.S5.InodeHint

/- Which failing reads lose a block or an inode. -/
namespace S5
open Function OwnedForests
variable {g : Geometry} {v v' : Volume} {held held' : Set Nat} {free : List Nat}

/-- The reads with a block at hand that is recorded nowhere yet succeed. -/
structure Reads.Calm (reads : Reads) : Prop where
  chain : ∀ level, reads.chain level = false
  reread : ∀ level, reads.reread level = false

section Fetch
variable {vfs_nshift : Nat} {i_addr : Nat → Nat → Nat} {s s' : State} {reads : Reads}
variable {alloc_only : Bool} {file nb : Nat}

theorem new_data_ok (h : Blocks vfs_nshift i_addr s held free) (own : nb ∈ held)
    (made : new_data alloc_only reads s nb = some s') :
    Blocks vfs_nshift i_addr s' held free ∧
      accounted vfs_nshift i_addr s' held free = accounted vfs_nshift i_addr s held free ∧
      (∀ {file level c}, InFile vfs_nshift i_addr s'.blocks file level c ↔
        InFile vfs_nshift i_addr s.blocks file level c) ∧
      ∀ c, c ≠ nb → s'.blocks c = s.blocks c := by
  unfold new_data at made
  split at made
  · cases made
    exact ⟨h, rfl, Iff.rfl, fun _ _ => rfl⟩
  · split at made
    · cases made
    · cases made
      obtain ⟨kept, same, in_file⟩ := h.write (.inl own) Fblk.cleared
      exact ⟨kept, same, in_file, fun c other => update_of_ne other _ s.blocks⟩

theorem Blocks.give_back (h : Blocks vfs_nshift i_addr s (insert nb held) free)
    (new : nb ∉ held) : Blocks vfs_nshift i_addr (s.release nb) held (nb :: free) ∧
      accounted vfs_nshift i_addr (s.release nb) held (nb :: free) =
        accounted vfs_nshift i_addr s (insert nb held) free := by
  have released := h.release (Set.mem_insert nb held)
  rwa [Set.insert_sdiff_self_of_notMem new] at released

theorem fetch_ok (calm : reads.Calm) (bn left : Nat) {inb : Nat}
    (h : Blocks vfs_nshift i_addr s held free)
    (in_file : InFile vfs_nshift i_addr s.blocks file left inb) : ∃ free',
    Blocks vfs_nshift i_addr (fetch vfs_nshift bn alloc_only reads left inb s).1 held free' ∧
      accounted vfs_nshift i_addr (fetch vfs_nshift bn alloc_only reads left inb s).1 held free' =
        accounted vfs_nshift i_addr s held free ∧
      ((fetch vfs_nshift bn alloc_only reads left inb s).2 = .ENOSPC → free' = []) := by
  induction left generalizing s inb free with
  | zero => exact ⟨free, h, rfl, nofun⟩
  | succ left ih =>
    have range : bn >>> (vfs_nshift * left) % 2 ^ vfs_nshift < 2 ^ vfs_nshift :=
      Nat.mod_lt _ (Nat.two_pow_pos _)
    unfold fetch
    generalize bn >>> (vfs_nshift * left) % 2 ^ vfs_nshift = i at range ⊢
    split
    · exact ⟨free, h, rfl, nofun⟩
    by_cases zero : (s.blocks inb).daddr i = 0
    · rw [if_neg (not_not.mpr zero), calm.chain left, calm.reread left]
      rcases h.alloc with
        ⟨-, s₁, called, kept, same⟩ | ⟨nb, rest, s₁, called, new, blocks, kept, same⟩
      · rw [called]
        exact ⟨[], kept, same, fun _ => rfl⟩
      rw [called]
      dsimp only
      have own := Set.mem_insert nb held
      have above : InFile vfs_nshift i_addr s₁.blocks file (left + 1) inb := blocks ▸ in_file
      have differ : inb ≠ nb := fun eq => kept.not_in_file own _ _ (eq ▸ above)
      split
      · obtain ⟨kept', same'⟩ := kept.give_back new
        exact ⟨nb :: rest, kept', same'.trans same, nofun⟩
      next s₂ made =>
      have ready : Blocks vfs_nshift i_addr s₂ (insert nb held) rest ∧
          accounted vfs_nshift i_addr s₂ (insert nb held) rest =
            accounted vfs_nshift i_addr s₁ (insert nb held) rest ∧
          InFile vfs_nshift i_addr s₂.blocks file (left + 1) inb ∧
          s₂.blocks inb = s.blocks inb ∧ (0 < left → s₂.blocks nb = Fblk.cleared) := by
        split at made
        · next last =>
          obtain ⟨kept', same', in_file', other⟩ := new_data_ok kept own made
          exact ⟨kept', same', in_file'.mpr above, (other _ differ).trans (by rw [blocks]),
            fun more => absurd last (ne_of_gt more)⟩
        · cases made
          obtain ⟨kept', same', in_file'⟩ := kept.write (.inl own) Fblk.cleared
          refine ⟨kept', same', in_file'.mpr above, ?_, fun _ => ?_⟩
          · exact (update_of_ne differ _ s₁.blocks).trans (by rw [blocks])
          · exact update_self nb Fblk.cleared s₁.blocks
      obtain ⟨kept₂, same₂, above₂, entry, cleared⟩ := ready
      obtain ⟨kept₃, same₃, there⟩ :=
        kept₂.set_daddr own range above₂ (by rw [entry, zero]) cleared
      rw [Set.insert_sdiff_self_of_notMem new] at kept₃ same₃
      obtain ⟨free', last, same₄, none_⟩ := ih kept₃ there
      exact ⟨free', last, same₄.trans (same₃.trans (same₂.trans same)), none_⟩
    · rw [if_pos zero]
      exact ih h (Recorded.child in_file ⟨i, range, rfl, zero⟩)

end Fetch

structure Whole (g : Geometry) (v : Volume) (held : Set Nat) (free : List Nat) : Prop where
  blocks : Blocks g.vfs_nshift v.i_addr v.fs held free
  inodes : Exact g.ilist v.inodes
  empty : ∀ file, v.inodes.di_mode file = 0 → ∀ i, v.i_addr file i = 0

def all_blocks (g : Geometry) (v : Volume) (held : Set Nat) (free : List Nat) : Set Nat :=
  accounted g.vfs_nshift v.i_addr v.fs held free

section Calls

theorem empty_update {v : Volume} {file : Nat} (used : v.inodes.di_mode file ≠ 0)
    (empty : ∀ file, v.inodes.di_mode file = 0 → ∀ i, v.i_addr file i = 0) (i nb : Nat) :
    ∀ o, v.inodes.di_mode o = 0 → ∀ k, (v.set_i_addr file i nb).i_addr o k = 0 := by
  intro o unused k
  have other : o ≠ file := fun same => used (same ▸ unused)
  show update v.i_addr file _ o k = 0
  rw [update_of_ne other]
  exact empty o unused k

variable (h : Whole g v held free)
include h

theorem Whole.blkalloc : ∃ free', Whole g (v.blkalloc false).1
        (match (v.blkalloc false).2 with | .block nb => insert nb held | _ => held) free' ∧
      all_blocks g (v.blkalloc false).1
        (match (v.blkalloc false).2 with | .block nb => insert nb held | _ => held) free' =
          all_blocks g v held free ∧
      ((v.blkalloc false).2 = .ENOSPC → free = []) := by
  unfold Volume.blkalloc
  rcases h.blocks.alloc with
    ⟨nil, s, called, kept, same⟩ | ⟨nb, rest, s, called, -, -, kept, same⟩
  · rw [called]
    exact ⟨[], ⟨kept, h.inodes, h.empty⟩, same, fun _ => nil⟩
  · rw [called]
    exact ⟨rest, ⟨kept, h.inodes, h.empty⟩, same, nofun⟩

variable {file lbn : Nat} {alloc_only : Bool} {reads : Reads}

theorem Whole.fetch (calm : reads.Calm) (bn : Nat)
    {levels inb : Nat} (in_file : InFile g.vfs_nshift v.i_addr v.fs.blocks file levels inb) :
    ∃ free', Whole g { v with
          fs := (S5.fetch g.vfs_nshift bn alloc_only reads levels inb v.fs).1 } held free' ∧
      all_blocks g { v with
          fs := (S5.fetch g.vfs_nshift bn alloc_only reads levels inb v.fs).1 } held free' =
        all_blocks g v held free ∧
      ((S5.fetch g.vfs_nshift bn alloc_only reads levels inb v.fs).2 = .ENOSPC → free' = []) := by
  obtain ⟨free', kept, same, none_⟩ := fetch_ok calm bn levels h.blocks in_file
  exact ⟨free', ⟨kept, h.inodes, h.empty⟩, same, none_⟩

theorem Whole.lbmap (used : v.inodes.di_mode file ≠ 0) (calm : reads.Calm) : ∃ free',
    Whole g (v.lbmap g file lbn alloc_only reads).1 held free' ∧
      all_blocks g (v.lbmap g file lbn alloc_only reads).1 held free' = all_blocks g v held free ∧
      ((v.lbmap g file lbn alloc_only reads).2 = .ENOSPC → free' = []) := by
  unfold Volume.lbmap
  rw [calm.chain]
  split
  · next direct =>
    by_cases zero : v.i_addr file lbn = 0
    · rw [if_neg (not_not.mpr zero)]
      rcases h.blocks.alloc with
        ⟨-, s, called, kept, same⟩ | ⟨nb, rest, s, called, new, blocks, kept, same⟩
      · rw [called]
        exact ⟨[], ⟨kept, h.inodes, h.empty⟩, same, fun _ => rfl⟩
      rw [called]
      dsimp only
      split
      · obtain ⟨kept', same'⟩ := kept.give_back new
        exact ⟨nb :: rest, ⟨kept', h.inodes, h.empty⟩, same'.trans same, nofun⟩
      next s₁ made =>
      obtain ⟨kept₁, same₁, -, -⟩ := new_data_ok kept (Set.mem_insert nb held) made
      have level : slot_level lbn = 0 := by
        unfold slot_level NADDR at *
        omega
      obtain ⟨kept₂, same₂, -⟩ := kept₁.set_i_addr (Set.mem_insert nb held) zero
        fun positive => absurd level (ne_of_gt positive)
      rw [Set.insert_sdiff_self_of_notMem new] at kept₂ same₂
      exact ⟨rest, ⟨kept₂, h.inodes, empty_update used h.empty lbn nb⟩,
        same₂.trans (same₁.trans same), nofun⟩
    · rw [if_pos zero]
      exact ⟨free, h, rfl, nofun⟩
  · cases indirection g.vfs_nshift (lbn - (NADDR - 3)) with
    | none => exact ⟨free, h, rfl, nofun⟩
    | some found =>
      obtain ⟨levels, bn⟩ := found
      dsimp only
      have level : slot_level (NADDR - 4 + levels) = levels := Nat.add_sub_cancel_left _ _
      rw [calm.chain]
      by_cases zero : v.i_addr file (NADDR - 4 + levels) = 0
      · rw [if_neg (not_not.mpr zero)]
        rcases h.blocks.alloc with
          ⟨-, s, called, kept, same⟩ | ⟨nb, rest, s, called, new, blocks, kept, same⟩
        · rw [called]
          exact ⟨[], ⟨kept, h.inodes, h.empty⟩, same, fun _ => rfl⟩
        rw [called]
        obtain ⟨kept₁, same₁, -⟩ := kept.write (.inl (Set.mem_insert nb held)) Fblk.cleared
        obtain ⟨kept₂, same₂, there⟩ := kept₁.set_i_addr (Set.mem_insert nb held) zero
          fun _ => update_self nb Fblk.cleared s.blocks
        rw [Set.insert_sdiff_self_of_notMem new] at kept₂ same₂
        rw [level] at there
        have whole : Whole g ({ v with fs := s.clrbuf nb }.set_i_addr file
            (NADDR - 4 + levels) nb) held rest :=
          ⟨kept₂, h.inodes, empty_update used h.empty _ nb⟩
        obtain ⟨free', last, same₃, none_⟩ := whole.fetch calm bn there
        exact ⟨free', last, same₃.trans (same₂.trans (same₁.trans same)), none_⟩
      · rw [if_pos zero]
        exact h.fetch calm bn (Recorded.root ⟨NADDR - 4 + levels, level, rfl, zero⟩)

theorem Whole.bmap (used : v.inodes.di_mode file ≠ 0) (sync : Bool) (calm : reads.Calm) :
    ∃ free', Whole g (v.bmap g file lbn sync alloc_only reads).1 held free' ∧
      all_blocks g (v.bmap g file lbn sync alloc_only reads).1 held free' =
        all_blocks g v held free ∧
      ((v.bmap g file lbn sync alloc_only reads).2 = .ENOSPC → free' = []) := by
  unfold Volume.bmap
  split
  · exact h.lbmap used calm
  · split
    · exact ⟨free, h, rfl, nofun⟩
    · have unmapped : Whole g { v with i_map := update v.i_map file none } held free :=
        { h with }
      exact unmapped.lbmap used calm

theorem Whole.ialloc {mode : Nat} {faults : Faults} (typed : mode ≠ 0)
    (readable : CalmBread g.ilist faults v.inodes) :
    ∃ v' result, v.ialloc g faults mode = some (v', result) ∧
      (result = .ENOSPC → free_inodes g.ilist v.inodes = ∅) ∧
      (CalmIget g.ilist faults v.inodes → Whole g v' held free ∧
        all_blocks g v' held free = all_blocks g v held free) := by
  obtain ⟨inodes, result, called, granted, keeps⟩ := h.inodes.ialloc typed readable
  unfold Volume.ialloc
  rw [called, Option.map_some]
  cases result with
  | inode ino =>
    obtain ⟨mem, modes⟩ := granted
    -- a free inode has no addresses
    have same : update v.i_addr ino (fun _ => 0) = v.i_addr := by
      rw [show (fun _ => 0) = v.i_addr ino from
        (funext (h.empty ino (mem_free.mp mem).2)).symm, update_eq_self]
    refine ⟨_, _, rfl, nofun, fun calm => ?_⟩
    rw [same]
    refine ⟨⟨h.blocks, keeps calm, fun file unused => h.empty file ?_⟩, rfl⟩
    have unused : inodes.di_mode file = 0 := unused
    rw [modes] at unused
    rw [update_apply] at unused
    split at unused
    · exact absurd unused typed
    · exact unused
  | ENOSPC =>
    refine ⟨_, _, rfl, fun _ => granted.1, fun calm => ⟨⟨h.blocks, keeps calm, ?_⟩, rfl⟩⟩
    rw [granted.2]
    exact h.empty
  | error =>
    refine ⟨_, _, rfl, nofun, fun calm => ⟨⟨h.blocks, keeps calm, ?_⟩, rfl⟩⟩
    rw [granted.2]
    exact h.empty

end Calls

inductive CalmCalls (g : Geometry) (v₀ : Volume) (held₀ : Set Nat) : Volume → Set Nat → Prop
  | start : CalmCalls g v₀ held₀ v₀ held₀
  | blkalloc {v : Volume} {held : Set Nat} (run : CalmCalls g v₀ held₀ v held) :
      CalmCalls g v₀ held₀ (v.blkalloc false).1
        (match (v.blkalloc false).2 with | .block nb => insert nb held | _ => held)
  | blkfree {v : Volume} {held : Set Nat} {bno : Nat} (run : CalmCalls g v₀ held₀ v held)
      (own : bno ∈ held) :
      CalmCalls g v₀ held₀ { v with fs := v.fs.release bno } (held \ {bno})
  | write {v : Volume} {held : Set Nat} {bno : Nat} (run : CalmCalls g v₀ held₀ v held)
      (own : bno ∈ held ∨ ∃ file, InFile g.vfs_nshift v.i_addr v.fs.blocks file 0 bno)
      (contents : Fblk) : CalmCalls g v₀ held₀
        { v with fs := { v.fs with blocks := update v.fs.blocks bno contents } } held
  | bmap {v : Volume} {held : Set Nat} {file lbn : Nat} {sync alloc_only : Bool} {reads : Reads}
      (run : CalmCalls g v₀ held₀ v held) (used : v.inodes.di_mode file ≠ 0) (calm : reads.Calm) :
      CalmCalls g v₀ held₀ (v.bmap g file lbn sync alloc_only reads).1 held
  | ialloc {v v' : Volume} {held : Set Nat} {mode : Nat} {faults : Faults} {result : Ialloc}
      (run : CalmCalls g v₀ held₀ v held) (typed : mode ≠ 0)
      (readable : CalmBread g.ilist faults v.inodes) (calm : CalmIget g.ilist faults v.inodes)
      (called : v.ialloc g faults mode = some (v', result)) : CalmCalls g v₀ held₀ v' held
  | itrunc {v : Volume} {held : Set Nat} (run : CalmCalls g v₀ held₀ v held) (file : Nat) :
      CalmCalls g v₀ held₀ (v.itrunc file)
        (held ∪ { b | ∃ level, InFile g.vfs_nshift v.i_addr v.fs.blocks file level b })
  | ifree {v : Volume} {held : Set Nat} {x : Nat} (run : CalmCalls g v₀ held₀ v held)
      (range : 1 ≤ x ∧ x ≤ g.ilist.inodes) (allocated : v.inodes.di_mode x ≠ 0)
      (truncated : ∀ i, v.i_addr x i = 0) (calm : CalmIfree g.ilist v.inodes x) :
      CalmCalls g v₀ held₀ { v with inodes := v.inodes.ifree x } held

theorem ifree_modes (s : Inodes) (x : Nat) (allocated : s.di_mode x ≠ 0) :
    (s.ifree x).di_mode = update s.di_mode x 0 := by
  unfold Inodes.ifree
  rw [if_neg allocated]
  dsimp only
  split
  · split <;> rfl
  · rfl

theorem Whole.run {v₀ : Volume} {held₀ : Set Nat} {free₀ : List Nat}
    (start : Whole g v₀ held₀ free₀) (run : CalmCalls g v₀ held₀ v held) : ∃ free,
    Whole g v held free ∧ all_blocks g v held free = all_blocks g v₀ held₀ free₀ := by
  induction run with
  | start => exact ⟨free₀, start, rfl⟩
  | blkalloc run ih =>
    obtain ⟨free, whole, same⟩ := ih
    obtain ⟨free', whole', same', -⟩ := whole.blkalloc
    exact ⟨free', whole', same'.trans same⟩
  | @blkfree v held bno run own ih =>
    obtain ⟨free, whole, same⟩ := ih
    obtain ⟨kept, same'⟩ := whole.blocks.release own
    exact ⟨bno :: free, ⟨kept, whole.inodes, whole.empty⟩, same'.trans same⟩
  | write run own contents ih =>
    obtain ⟨free, whole, same⟩ := ih
    obtain ⟨kept, same', -⟩ := whole.blocks.write own contents
    exact ⟨free, ⟨kept, whole.inodes, whole.empty⟩, same'.trans same⟩
  | bmap run used calm ih =>
    obtain ⟨free, whole, same⟩ := ih
    obtain ⟨free', whole', same', -⟩ := whole.bmap used _ calm
    exact ⟨free', whole', same'.trans same⟩
  | ialloc run typed readable calm called ih =>
    obtain ⟨free, whole, same⟩ := ih
    obtain ⟨v'', result', called', -, keeps⟩ := whole.ialloc typed readable
    have equal := Option.some.inj (called.symm.trans called')
    rw [Prod.mk.injEq] at equal
    obtain ⟨whole', same'⟩ := keeps calm
    exact ⟨free, equal.1 ▸ whole', (equal.1 ▸ same').trans same⟩
  | @itrunc v held run file ih =>
    obtain ⟨free, whole, same⟩ := ih
    obtain ⟨kept, same'⟩ := whole.blocks.cut file
    refine ⟨free, ⟨kept, whole.inodes, fun o unused i => ?_⟩, same'.trans same⟩
    show update v.i_addr file (fun _ => 0) o i = 0
    rw [update_apply]
    split
    · rfl
    · exact whole.empty o unused i
  | @ifree v held x run range allocated truncated calm ih =>
    obtain ⟨free, whole, same⟩ := ih
    refine ⟨free, ⟨whole.blocks, whole.inodes.ifree range allocated calm, fun o unused => ?_⟩, same⟩
    by_cases eq : o = x
    · exact eq ▸ truncated
    · refine whole.empty o ?_
      have unused : (v.inodes.ifree x).di_mode o = 0 := unused
      rwa [ifree_modes _ _ allocated, update_of_ne eq] at unused

/-- In every state reached nothing is lost, and calls fail for want of space only when nothing is
left. -/
theorem read_failures_lose_nothing {v₀ : Volume} {held₀ : Set Nat} {free₀ : List Nat}
    (start : Whole g v₀ held₀ free₀) (run : CalmCalls g v₀ held₀ v held) : ∃ free,
    Whole g v held free ∧ all_blocks g v held free = all_blocks g v₀ held₀ free₀ ∧
      ((v.blkalloc false).2 = .ENOSPC → free = []) ∧
      (∀ file lbn sync alloc_only (reads : Reads), v.inodes.di_mode file ≠ 0 → reads.Calm →
        (v.bmap g file lbn sync alloc_only reads).2 = .ENOSPC →
          Whole g (v.bmap g file lbn sync alloc_only reads).1 held []) ∧
      ∀ mode faults, mode ≠ 0 → CalmBread g.ilist faults v.inodes →
        ∃ v' result, v.ialloc g faults mode = some (v', result) ∧
          (result = .ENOSPC → free_inodes g.ilist v.inodes = ∅) := by
  obtain ⟨free, whole, same⟩ := start.run run
  refine ⟨free, whole, same, ?_, fun file lbn sync alloc_only reads used calm failed => ?_,
    fun mode faults typed readable => ?_⟩
  · obtain ⟨-, -, -, none_⟩ := whole.blkalloc
    exact none_
  · obtain ⟨free', whole', -, none_⟩ := whole.bmap used sync calm
    exact none_ failed ▸ whole'
  · obtain ⟨v', result, called, none_, -⟩ := whole.ialloc typed readable
    exact ⟨v', result, called, none_⟩

def small_volume : Volume := ⟨small_state, all_used, fun _ _ => 0, fun _ => none⟩

def small_geometry : Geometry := ⟨small_ilist, 7⟩

theorem small_volume_whole : Whole small_geometry small_volume {7} [5, 4, 6] := by
  have none_ : ∀ file level b, ¬ InFile 7 small_volume.i_addr small_state.blocks file level b := by
    intro file level b mem
    induction mem with
    | root at_root =>
      obtain ⟨i, -, zero, some_⟩ := at_root
      exact some_ zero.symm
    | child above edge ih => exact ih
  have empty : recorded 7 small_volume.i_addr small_state.blocks = ∅ :=
    Set.eq_empty_of_forall_notMem fun b ⟨file, level, mem⟩ => none_ file level b mem
  refine ⟨⟨rfl, ?_, ?_, fun o o' l l' b mem => absurd mem (none_ o l b)⟩, all_used_exact,
    fun _ _ _ => rfl⟩
  · show Sound small_state (_ ∪ recorded 7 small_volume.i_addr small_state.blocks) _
    rw [empty, Set.union_empty]
    exact small_state_sound
  · rintro b - ⟨file, level, mem⟩
    exact none_ file level b mem

def reread_fails : Reads := ⟨fun _ => false, fun _ => false, fun _ => true, false⟩

/-- When the table in block 4 cannot be read, all free blocks are lost; when block 5 cannot be read
again, block 4 is. -/
theorem blocks_are_lost : Whole small_geometry small_volume {7} [5, 4, 6] ∧
    (let first := small_volume.blkalloc false
     let second := first.1.blkalloc true
     first.2 = .block 5 ∧ second.2 = .ENOSPC ∧ second.1.fs.fp.s_nfree = 0 ∧
       (second.1.blkalloc false).2 = .ENOSPC) ∧
    let call := small_volume.bmap small_geometry 1 10 false true reread_fails
    let next := call.1.blkalloc false
    call.2 = .error ∧ call.1.i_addr 1 10 = 5 ∧
      (∀ i < 128, (call.1.fs.blocks 5).daddr i = 0) ∧ next.2 = .block 6 ∧
        (next.1.blkalloc false).2 = .ENOSPC := by
  refine ⟨small_volume_whole, ⟨rfl, rfl, rfl, rfl⟩, rfl, rfl, fun i _ => ?_, rfl, rfl⟩
  cases i <;> rfl

/-- A file gets its first block after its page could not be read. -/
theorem read_failures_lose_nothing_small :
    let page_fails : Reads := ⟨fun _ => false, fun _ => true, fun _ => false, true⟩
    let first := small_volume.bmap small_geometry 1 0 false false page_fails
    let second := first.1.bmap small_geometry 1 0 false true page_fails
    first.2 = .error ∧ second.2 = .block 5 ∧ ∃ free, Whole small_geometry second.1 {7} free ∧
      all_blocks small_geometry second.1 {7} free =
        all_blocks small_geometry small_volume {7} [5, 4, 6] := by
  intro page_fails first second
  have used : ∀ v : Volume, v.inodes = all_used → v.inodes.di_mode 1 ≠ 0 := by
    rintro v same
    rw [same]
    decide
  have calm : page_fails.Calm := ⟨fun _ => rfl, fun _ => rfl⟩
  have run : CalmCalls small_geometry small_volume {7} second.1 {7} :=
    (CalmCalls.start.bmap (used small_volume rfl) calm).bmap (used first.1 rfl) calm
  obtain ⟨free, whole, same, -⟩ := read_failures_lose_nothing small_volume_whole run
  exact ⟨rfl, rfl, free, whole, same⟩

end S5
