import Mathlib.Order.BooleanAlgebra.Set
import Svr4.OwnedForests
import Svr4.S5.FreeStack
import Svr4.S5.InodeScan

/- uts/i386/fs/s5/s5bmap.c: the block tree of a file, and the calls that change a volume. -/
namespace S5
open Function

/-- sys/fs/s5inode.h -/
def NADDR : Nat := 13

/-- The block as an array of addresses; `df_nfree` overlays the first. -/
def Fblk.daddr (contents : Fblk) : Nat → Nat
  | 0 => contents.df_nfree.toNat
  | i + 1 => contents.df_free i

def Fblk.set_daddr (contents : Fblk) (i nb : Nat) : Fblk :=
  match i with
  | 0 => { contents with df_nfree := nb }
  | i + 1 => { contents with df_free := update contents.df_free i nb }

namespace State
variable (s : State)

/-- A call of `blkalloc` to its end, with what happens to its read. -/
def alloc (error : Bool) : State × Result :=
  match s.blkalloc with
  | (s, .asleep) => s.wake error
  | called => called

/-- A call of `blkfree` to its end, for a block without a leftover buffer; it does not read. -/
def release (bno : Nat) : State :=
  match s.blkfree bno false with
  | (s, .asleep) => (s.wake false).1
  | (s, _) => s

def clrbuf (bno : Nat) : State := { s with blocks := update s.blocks bno Fblk.cleared }

def set_daddr (inb i nb : Nat) : State :=
  { s with blocks := update s.blocks inb ((s.blocks inb).set_daddr i nb) }

end State

/-- Which reads of a call fail. The block allocated and those that record it differ in the levels
below. -/
structure Reads where
  /-- of the next table in `blkalloc` -/
  chain : Nat → Bool
  /-- of the block above, for the address -/
  bread : Nat → Bool
  /-- of the block above once more, to record the address -/
  reread : Nat → Bool
  fbread : Bool

inductive Bmap
  | block (nb : Nat)
  | EFBIG
  | ENOSPC
  /-- of a read -/
  | error
  deriving DecidableEq

section Bmap
variable (vfs_nshift : Nat)

/-- The new data block; with `alloc_only` no page is made for it. -/
def new_data (alloc_only : Bool) (reads : Reads) (s : State) (nb : Nat) : Option State :=
  if alloc_only then some s
  else if reads.fbread then none
  else some (s.clrbuf nb)

/-- Fetching through the indirect blocks, of which `left` are left. -/
def fetch (bn : Nat) (alloc_only : Bool) (reads : Reads) : Nat → Nat → State → State × Bmap
  | 0, inb, s => (s, .block inb)
  | left + 1, inb, s =>
      if reads.bread left then (s, .error)
      else
        let i := bn >>> (vfs_nshift * left) % 2 ^ vfs_nshift
        let nb := (s.blocks inb).daddr i
        if nb ≠ 0 then fetch bn alloc_only reads left nb s
        else
          match s.alloc (reads.chain left) with
          | (s, .block nb) =>
              match if left = 0 then new_data alloc_only reads s nb else some (s.clrbuf nb) with
              | none => (s.release nb, .error)
              | some s =>
                  if reads.reread left then (s, .error)
                  else fetch bn alloc_only reads left nb (s.set_daddr inb i nb)
          | (s, _) => (s, .ENOSPC)

def indirection (bn : Nat) : Option (Nat × Nat) :=
  if bn < 2 ^ vfs_nshift then some (1, bn)
  else
    let bn := bn - 2 ^ vfs_nshift
    if bn < 2 ^ (2 * vfs_nshift) then some (2, bn)
    else
      let bn := bn - 2 ^ (2 * vfs_nshift)
      if bn < 2 ^ (3 * vfs_nshift) then some (3, bn) else none

end Bmap

structure Geometry where
  ilist : Ilist
  vfs_nshift : Nat

/-- The device number of a special file, which shares the space of the addresses, is left out. -/
structure Volume where
  fs : State
  inodes : Inodes
  i_addr : Nat → Nat → Nat
  i_map : Nat → Option (Nat → Nat)

namespace Volume
variable (g : Geometry) (v : Volume)

def set_i_addr (file i nb : Nat) : Volume :=
  { v with
    i_addr := update v.i_addr file (update (v.i_addr file) i nb) }

/-- From `lbmap` on, for `S_WRITE`. -/
def lbmap (file lbn : Nat) (alloc_only : Bool) (reads : Reads) : Volume × Bmap :=
  if lbn < NADDR - 3 then
    if v.i_addr file lbn ≠ 0 then (v, .block (v.i_addr file lbn))
    else
      match v.fs.alloc (reads.chain 0) with
      | (s, .block nb) =>
          match new_data alloc_only reads s nb with
          | none => ({ v with fs := s.release nb }, .error)
          | some s => ({ v with fs := s }.set_i_addr file lbn nb, .block nb)
      | (s, _) => ({ v with fs := s }, .ENOSPC)
  else
    match indirection g.vfs_nshift (lbn - (NADDR - 3)) with
    | none => (v, .EFBIG)
    | some (levels, bn) =>
        let slot := NADDR - 4 + levels
        if v.i_addr file slot ≠ 0 then
          let fetched := fetch g.vfs_nshift bn alloc_only reads levels (v.i_addr file slot) v.fs
          ({ v with fs := fetched.1 }, fetched.2)
        else
          match v.fs.alloc (reads.chain levels) with
          | (s, .block inb) =>
              let v := { v with fs := s.clrbuf inb }.set_i_addr file slot inb
              let fetched := fetch g.vfs_nshift bn alloc_only reads levels inb v.fs
              ({ v with fs := fetched.1 }, fetched.2)
          | (s, _) => ({ v with fs := s }, .ENOSPC)

/-- `bmap` for `S_WRITE`; what is written at once (`sync`) gets its pages. -/
def bmap (file lbn : Nat) (sync alloc_only : Bool) (reads : Reads) : Volume × Bmap :=
  match v.i_map file with
  | none => v.lbmap g file lbn (alloc_only && !sync) reads
  | some i_map =>
      if i_map lbn ≠ 0 then (v, .block (i_map lbn))
      else
        { v with i_map := update v.i_map file none }.lbmap g file lbn
          (alloc_only && !sync) reads

def blkalloc (error : Bool) : Volume × Result :=
  ({ v with fs := (v.fs.alloc error).1 }, (v.fs.alloc error).2)

def ialloc (faults : Faults) (mode : Nat) : Option (Volume × Ialloc) :=
  (v.inodes.ialloc g.ilist faults mode).map fun (inodes, result) =>
    match result with
    | .inode ino =>
        ({ v with inodes := inodes, i_addr := update v.i_addr ino fun _ => 0 }, result)
    | _ => ({ v with inodes := inodes }, result)

/-- The first half of `itrunc`: the addresses are saved for the caller to free the blocks. -/
def itrunc (file : Nat) : Volume :=
  { v with
    i_addr := update v.i_addr file fun _ => 0
    i_map := update v.i_map file none }

end Volume
end S5

/- Every block that is not free is recorded in the tree of one file, or held by a caller. -/
namespace S5
open Function OwnedForests
variable {vfs_nshift : Nat} {i_addr : Nat → Nat → Nat} {s s' : State} {held : Set Nat}
variable {free : List Nat} {file level b nb : Nat}

def slot_level (i : Nat) : Nat := i - (NADDR - 4)

def Root (i_addr : Nat → Nat → Nat) (file level b : Nat) : Prop :=
  ∃ i, slot_level i = level ∧ i_addr file i = b ∧ b ≠ 0

def Child (vfs_nshift : Nat) (blocks : Nat → Fblk) (b nb : Nat) : Prop :=
  ∃ i < 2 ^ vfs_nshift, (blocks b).daddr i = nb ∧ nb ≠ 0

abbrev InFile (vfs_nshift : Nat) (i_addr : Nat → Nat → Nat) (blocks : Nat → Fblk) :
    Nat → Nat → Nat → Prop :=
  Recorded (Root i_addr) (Child vfs_nshift blocks)

def recorded (vfs_nshift : Nat) (i_addr : Nat → Nat → Nat) (blocks : Nat → Fblk) : Set Nat :=
  { b | ∃ file level, InFile vfs_nshift i_addr blocks file level b }

/-- The free blocks, those held by callers and those in files, each in one place only. -/
structure Blocks (vfs_nshift : Nat) (i_addr : Nat → Nat → Nat) (s : State) (held : Set Nat)
    (free : List Nat) : Prop where
  awake : s.s_flock = none
  sound : Sound s (held ∪ recorded vfs_nshift i_addr s.blocks) free
  apart : ∀ b ∈ held, b ∉ recorded vfs_nshift i_addr s.blocks
  one_place : OnePlace (Root i_addr) (Child vfs_nshift s.blocks)

def accounted (vfs_nshift : Nat) (i_addr : Nat → Nat → Nat) (s : State) (held : Set Nat)
    (free : List Nat) : Set Nat :=
  { b | b ∈ free } ∪ (held ∪ recorded vfs_nshift i_addr s.blocks)

section Calls
variable {owned : Set Nat}

theorem hand_out_cases (fp : Filsys) (bno : Nat) :
    (fp.hand_out bno).2 = .ENOSPC ∨ (fp.hand_out bno).2 = .block bno := by
  unfold Filsys.hand_out
  split
  · exact .inl rfl
  · exact .inr rfl

theorem blkalloc_cases (s : State) : ∃ fp, s.blkalloc = ({ s with fp := fp }, .ENOSPC) ∨
      (∃ b, s.blkalloc = ({ s with fp := fp }, .block b)) ∨
        ∃ b, s.blkalloc = ({ s with fp := fp, s_flock := some (.bread b) }, .asleep) := by
  unfold State.blkalloc
  cases s.fp.next_block s.fp.s_nfree.toNat with
  | none => exact ⟨_, .inl rfl⟩
  | some taken =>
    obtain ⟨b, n⟩ := taken
    dsimp only
    split
    · exact ⟨_, .inr (.inr ⟨b, rfl⟩)⟩
    · rcases hand_out_cases { s.fp with s_nfree := n } b with result | result
      · exact ⟨_, .inl (by rw [result])⟩
      · exact ⟨_, .inr (.inl ⟨b, by rw [result]⟩)⟩

theorem Sound.alloc (h : Sound s owned free) (awake : s.s_flock = none) :
    (s.alloc false).1.s_flock = none ∧ (s.alloc false).1.blocks = s.blocks ∧
      ((free = [] ∧ (s.alloc false).2 = .ENOSPC ∧ Sound (s.alloc false).1 owned []) ∨
        ∃ b rest, free = b :: rest ∧ (s.alloc false).2 = .block b ∧
          Sound (s.alloc false).1 (insert b owned) rest) := by
  obtain ⟨between, first, sound⟩ := h.blkalloc awake
  obtain ⟨fp, called | ⟨b, called⟩ | ⟨b, called⟩⟩ := blkalloc_cases s
  · unfold State.alloc
    rw [called] at first sound ⊢
    cases first
    exact ⟨awake, rfl, .inl ⟨rfl, rfl, sound⟩⟩
  · unfold State.alloc
    rw [called] at first sound ⊢
    cases first
    exact ⟨awake, rfl, .inr ⟨b, between, rfl, rfl, sound⟩⟩
  · unfold State.alloc
    rw [called] at first sound ⊢
    cases first
    obtain ⟨rest, second, woken⟩ := sound.wake nofun
    unfold State.wake at second woken ⊢
    dsimp only at second woken ⊢
    refine ⟨rfl, rfl, ?_⟩
    obtain ⟨loaded, loaded_eq⟩ : ∃ loaded : Filsys, loaded = if false = true then fp else
      { fp with s_nfree := short (s.blocks b).df_nfree, s_free := (s.blocks b).df_free } := ⟨_, rfl⟩
    rw [← loaded_eq] at second woken ⊢
    rcases hand_out_cases loaded b with result | result
    · rw [result] at second
      cases second
    · rw [result] at second woken
      cases second with
      | read => exact .inr ⟨b, _, rfl, result, woken⟩

theorem Sound.release (h : Sound s owned free) (awake : s.s_flock = none) (own : b ∈ owned) :
    (s.release b).s_flock = none ∧ (∀ c, c ≠ b → (s.release b).blocks c = s.blocks c) ∧
      Sound (s.release b) (owned \ {b}) (b :: free) := by
  have good := h.owned_inside b own
  obtain ⟨between, first, ⟨-, sound⟩ | ⟨incore, -⟩⟩ := h.blkfree awake own false
  swap
  · exact absurd incore Bool.false_ne_true
  unfold State.release
  unfold State.blkfree at first sound ⊢
  rw [if_neg (by simp [good])] at first sound ⊢
  dsimp only at first sound ⊢
  split at first
  · next full =>
    rw [if_pos full] at sound ⊢
    cases first
    obtain ⟨rest, second, woken⟩ := sound.wake nofun
    cases second
    exact ⟨rfl, fun c other => update_of_ne other _ s.blocks, woken⟩
  · next room =>
    rw [if_neg room] at sound ⊢
    cases first
    exact ⟨awake, fun _ _ => rfl, sound⟩

end Calls

section Changes
variable (h : Blocks vfs_nshift i_addr s held free)
include h

theorem Blocks.alloc : (free = [] ∧ ∃ s₁, s.alloc false = (s₁, .ENOSPC) ∧
      Blocks vfs_nshift i_addr s₁ held [] ∧
      accounted vfs_nshift i_addr s₁ held [] = accounted vfs_nshift i_addr s held free) ∨
    ∃ nb rest s₁, s.alloc false = (s₁, .block nb) ∧ nb ∉ held ∧ s₁.blocks = s.blocks ∧
      Blocks vfs_nshift i_addr s₁ (insert nb held) rest ∧
      accounted vfs_nshift i_addr s₁ (insert nb held) rest =
        accounted vfs_nshift i_addr s held free := by
  obtain ⟨awake, blocks, result⟩ := h.sound.alloc h.awake
  unfold accounted
  rcases result with ⟨rfl, result, sound⟩ | ⟨nb, rest, rfl, result, sound⟩
  · refine .inl ⟨rfl, _, Prod.ext rfl result, ⟨awake, ?_, ?_, ?_⟩, by rw [blocks]⟩
    · rw [blocks]
      exact sound
    · rw [blocks]
      exact h.apart
    · rw [blocks]
      exact h.one_place
  have new := h.sound.apart nb List.mem_cons_self
  refine .inr ⟨nb, rest, _, Prod.ext rfl result, fun own => new (.inl own), blocks,
    ⟨awake, ?_, ?_, ?_⟩, ?_⟩
  · rw [blocks, Set.insert_union]
    exact sound
  · rw [blocks]
    rintro b (rfl | old)
    · exact fun mem => new (.inr mem)
    · exact h.apart b old
  · rw [blocks]
    exact h.one_place
  · rw [blocks]
    ext c
    simp only [Set.mem_union, Set.mem_ofPred_eq, List.mem_cons, Set.mem_insert_iff]
    constructor
    · rintro (mem | (eq | own) | mem)
      · exact .inl (.inr mem)
      · exact .inl (.inl eq)
      · exact .inr (.inl own)
      · exact .inr (.inr mem)
    · rintro ((eq | mem) | own | mem)
      · exact .inr (.inl (.inl eq))
      · exact .inl mem
      · exact .inr (.inl (.inr own))
      · exact .inr (.inr mem)

theorem Blocks.unrelated (blocks : Nat → Fblk) (other : ∀ b, blocks b ≠ s.blocks b →
      ∀ file level, ¬ InFile vfs_nshift i_addr s.blocks file (level + 1) b) :
    (∀ {file level b}, InFile vfs_nshift i_addr blocks file level b ↔
      InFile vfs_nshift i_addr s.blocks file level b) ∧
    recorded vfs_nshift i_addr blocks = recorded vfs_nshift i_addr s.blocks ∧
      OnePlace (Root i_addr) (Child vfs_nshift blocks) := by
  have same : ∀ {file level b}, InFile vfs_nshift i_addr blocks file level b ↔
      InFile vfs_nshift i_addr s.blocks file level b := by
    refine recorded_congr fun file level a b above => ?_
    have equal : blocks a = s.blocks a := by
      by_contra differ
      exact other a differ file level above
    unfold Child
    rw [equal]
  refine ⟨same, ?_, fun o o' l l' a first second => ?_⟩
  · ext b
    exact exists_congr fun file => exists_congr fun level => same
  · exact h.one_place (same.mp first) (same.mp second)
theorem Blocks.not_in_file (own : b ∈ held) (file level : Nat) :
    ¬ InFile vfs_nshift i_addr s.blocks file level b :=
  fun mem => h.apart b own ⟨file, level, mem⟩

theorem Blocks.release (own : b ∈ held) :
    Blocks vfs_nshift i_addr (s.release b) (held \ {b}) (b :: free) ∧
      accounted vfs_nshift i_addr (s.release b) (held \ {b}) (b :: free) =
        accounted vfs_nshift i_addr s held free := by
  obtain ⟨awake, blocks, sound⟩ := h.sound.release h.awake (.inl own)
  obtain ⟨-, same, one⟩ := h.unrelated (s.release b).blocks fun c differ file level => by
    by_cases eq : c = b
    · exact eq ▸ h.not_in_file own file (level + 1)
    · exact absurd (blocks c eq) differ
  refine ⟨⟨awake, ?_, ?_, one⟩, ?_⟩
  · rw [same]
    rwa [Set.union_sdiff_distrib, Set.sdiff_singleton_eq_self (h.apart b own)] at sound
  · rw [same]
    exact fun c mem => h.apart c mem.1
  · unfold accounted
    rw [same]
    ext c
    simp only [Set.mem_union, Set.mem_ofPred_eq, List.mem_cons, Set.mem_sdiff, Set.mem_singleton_iff]
    by_cases eq : c = b
    · subst eq
      exact iff_of_true (.inl (.inl rfl)) (.inr (.inl own))
    · simp only [eq, false_or, not_false_eq_true, and_true]

theorem Blocks.write (own : b ∈ held ∨ ∃ file, InFile vfs_nshift i_addr s.blocks file 0 b)
    (contents : Fblk) : Blocks vfs_nshift i_addr
        { s with blocks := update s.blocks b contents } held free ∧
      accounted vfs_nshift i_addr { s with blocks := update s.blocks b contents } held free =
        accounted vfs_nshift i_addr s held free ∧
      ∀ {file level c}, InFile vfs_nshift i_addr (update s.blocks b contents) file level c ↔
        InFile vfs_nshift i_addr s.blocks file level c := by
  obtain ⟨in_file, same, one⟩ := h.unrelated (update s.blocks b contents)
    fun c differ file level above => by
      by_cases eq : c = b
      · subst eq
        rcases own with own | ⟨file', data⟩
        · exact h.not_in_file own _ _ above
        · exact absurd (h.one_place above data).2 (Nat.succ_ne_zero level)
      · exact differ (update_of_ne eq contents s.blocks)
  refine ⟨⟨h.awake, ?_, ?_, one⟩, ?_, in_file⟩
  · rw [same]
    exact h.sound.write (own.imp id fun ⟨file, data⟩ => ⟨file, 0, data⟩) contents
  · rw [same]
    exact h.apart
  · unfold accounted
    rw [same]

theorem Blocks.grown (own : nb ∈ held) (i_addr' : Nat → Nat → Nat) (file level : Nat)
    (blocks : Nat → Fblk)
    (grown : Grown (Root i_addr) (Root i_addr') (Child vfs_nshift s.blocks)
      (Child vfs_nshift blocks) file level nb)
    (sound : Sound { s with blocks := blocks } (held ∪ recorded vfs_nshift i_addr s.blocks) free) :
    Blocks vfs_nshift i_addr' { s with blocks := blocks } (held \ {nb}) free ∧
      accounted vfs_nshift i_addr' { s with blocks := blocks } (held \ {nb}) free =
        accounted vfs_nshift i_addr s held free := by
  have new : ∀ c, c ∈ recorded vfs_nshift i_addr' blocks ↔
      c ∈ recorded vfs_nshift i_addr s.blocks ∨ c = nb := by
    intro c
    constructor
    · rintro ⟨o, l, mem⟩
      exact (grown.recorded_iff.mp mem).imp (fun old => ⟨o, l, old⟩) fun leaf => leaf.2.2
    · rintro (⟨o, l, old⟩ | rfl)
      · exact ⟨o, l, grown.recorded_iff.mpr (.inl old)⟩
      · exact ⟨file, level, grown.there⟩
  have same : held \ {nb} ∪ recorded vfs_nshift i_addr' blocks =
      held ∪ recorded vfs_nshift i_addr s.blocks := by
    ext c
    rw [Set.mem_union, Set.mem_union, new, Set.mem_sdiff, Set.mem_singleton_iff]
    by_cases eq : c = nb
    · exact iff_of_true (.inr (.inr eq)) (.inl (eq ▸ own))
    · rw [and_iff_left eq, or_iff_left eq]
  refine ⟨⟨h.awake, ?_, fun c mem => ?_, ?_⟩, ?_⟩
  · rw [same]
    exact sound
  · intro mem'
    rcases (new c).mp mem' with old | eq
    · exact h.apart c mem.1 old
    · exact mem.2 eq
  · exact grown.one_place h.one_place (h.not_in_file own)
  · show _ ∪ (_ ∪ recorded _ _ blocks) = _
    rw [same]
    rfl

end Changes

section Recording

theorem daddr_set_daddr (contents : Fblk) (i nb k : Nat) :
    (contents.set_daddr i nb).daddr k = if k = i then nb else contents.daddr k := by
  unfold Fblk.set_daddr Fblk.daddr
  cases i with
  | zero =>
    cases k with
    | zero => exact Int.toNat_natCast nb
    | succ k => rfl
  | succ i =>
    cases k with
    | zero => rfl
    | succ k =>
      dsimp only
      rw [update_apply]
      exact if_congr (Nat.succ_inj).symm rfl rfl

theorem childless_of_cleared {blocks : Nat → Fblk} (cleared : blocks b = Fblk.cleared) (c : Nat) :
    ¬ Child vfs_nshift blocks b c := by
  rintro ⟨i, -, found, some_⟩
  rw [cleared] at found
  refine some_ (found.symm.trans ?_)
  cases i with
  | zero => rfl
  | succ i => rfl

variable (h : Blocks vfs_nshift i_addr s held free)
include h

theorem Blocks.held_pos (own : nb ∈ held) : nb ≠ 0 :=
  not_bad_pos h.sound.isize (h.sound.owned_inside nb (.inl own))

theorem Blocks.set_daddr (own : nb ∈ held) {inb i : Nat} (range : i < 2 ^ vfs_nshift)
    (above : InFile vfs_nshift i_addr s.blocks file (level + 1) inb)
    (zero : (s.blocks inb).daddr i = 0) (cleared : 0 < level → s.blocks nb = Fblk.cleared) :
    Blocks vfs_nshift i_addr (s.set_daddr inb i nb) (held \ {nb}) free ∧
      accounted vfs_nshift i_addr (s.set_daddr inb i nb) (held \ {nb}) free =
        accounted vfs_nshift i_addr s held free ∧
      InFile vfs_nshift i_addr (s.set_daddr inb i nb).blocks file level nb := by
  have differ : nb ≠ inb := fun same => h.not_in_file own _ _ (same ▸ above)
  have read : ∀ b k, ((s.set_daddr inb i nb).blocks b).daddr k =
      if b = inb ∧ k = i then nb else (s.blocks b).daddr k := by
    intro b k
    by_cases same : b = inb
    · subst same
      show (update s.blocks b _ b).daddr k = _
      rw [update_self, daddr_set_daddr]
      exact if_congr (and_iff_right rfl).symm rfl rfl
    · show (update s.blocks inb _ b).daddr k = _
      rw [update_of_ne same, if_neg fun both => same both.1]
  have children : ∀ {b c}, Child vfs_nshift s.blocks b c →
      Child vfs_nshift (s.set_daddr inb i nb).blocks b c := by
    rintro b c ⟨k, below, found, some_⟩
    refine ⟨k, below, ?_, some_⟩
    rw [read, if_neg]
    · exact found
    · rintro ⟨rfl, rfl⟩
      exact some_ (found.symm.trans zero)
  have old : ∀ {o l b}, InFile vfs_nshift i_addr s.blocks o l b →
      InFile vfs_nshift i_addr (s.set_daddr inb i nb).blocks o l b := by
    intro o l b mem
    induction mem with
    | root at_root => exact Recorded.root at_root
    | child _ edge ih => exact Recorded.child ih (children edge)
  have there : InFile vfs_nshift i_addr (s.set_daddr inb i nb).blocks file level nb := by
    refine Recorded.child (old above) ⟨i, range, ?_, h.held_pos own⟩
    rw [read, if_pos ⟨rfl, rfl⟩]
  obtain ⟨kept, same⟩ := h.grown own i_addr file level (s.set_daddr inb i nb).blocks
    { roots := id
      new_roots := Or.inl
      children := fun _ => children
      new_children := by
        rintro o l b c recorded ⟨k, below, found, some_⟩
        rw [read] at found
        split at found
        · next same =>
          obtain ⟨rfl, rfl⟩ := same
          obtain ⟨rfl, levels⟩ := h.one_place recorded above
          exact .inr ⟨rfl, Nat.succ.inj levels, found.symm⟩
        · exact .inl ⟨k, below, found, some_⟩
      childless := fun positive => childless_of_cleared (by
        show update s.blocks inb _ nb = _
        rw [update_of_ne differ]
        exact cleared positive)
      there := there }
    (h.sound.write (.inr ⟨file, level + 1, above⟩) _)
  exact ⟨kept, same, there⟩

theorem Blocks.set_i_addr (own : nb ∈ held) {i : Nat} (zero : i_addr file i = 0)
    (cleared : 0 < slot_level i → s.blocks nb = Fblk.cleared) :
    Blocks vfs_nshift (update i_addr file (update (i_addr file) i nb)) s (held \ {nb}) free ∧
      accounted vfs_nshift (update i_addr file (update (i_addr file) i nb)) s (held \ {nb}) free =
        accounted vfs_nshift i_addr s held free ∧
      InFile vfs_nshift (update i_addr file (update (i_addr file) i nb))
        s.blocks file (slot_level i) nb := by
  have read : ∀ o k, update i_addr file (update (i_addr file) i nb) o k =
      if o = file ∧ k = i then nb else i_addr o k := by
    intro o k
    by_cases same : o = file
    · subst same
      rw [update_self, update_apply]
      exact if_congr (and_iff_right rfl).symm rfl rfl
    · rw [update_of_ne same, if_neg fun both => same both.1]
  have there : Root (update i_addr file (update (i_addr file) i nb)) file (slot_level i) nb := by
    refine ⟨i, rfl, ?_, h.held_pos own⟩
    rw [read, if_pos ⟨rfl, rfl⟩]
  obtain ⟨kept, same⟩ := h.grown own
    (update i_addr file (update (i_addr file) i nb)) file (slot_level i) s.blocks
    { roots := by
        rintro o l b ⟨k, at_level, found, some_⟩
        refine ⟨k, at_level, ?_, some_⟩
        rw [read, if_neg]
        · exact found
        · rintro ⟨rfl, rfl⟩
          exact some_ (found.symm.trans zero)
      new_roots := by
        rintro o l b ⟨k, at_level, found, some_⟩
        rw [read] at found
        split at found
        · next same =>
          obtain ⟨rfl, rfl⟩ := same
          exact .inr ⟨rfl, at_level.symm, found.symm⟩
        · exact .inl ⟨k, at_level, found, some_⟩
      children := fun _ => id
      new_children := fun _ => Or.inl
      childless := fun positive => childless_of_cleared (cleared positive)
      there := Recorded.root there }
    h.sound
  exact ⟨kept, same, Recorded.root there⟩

theorem Blocks.cut (file : Nat) : Blocks vfs_nshift (update i_addr file fun _ => 0) s
      (held ∪ { b | ∃ level, InFile vfs_nshift i_addr s.blocks file level b }) free ∧
    accounted vfs_nshift (update i_addr file fun _ => 0) s
        (held ∪ { b | ∃ level, InFile vfs_nshift i_addr s.blocks file level b }) free =
      accounted vfs_nshift i_addr s held free := by
  have cut : ∀ {o l b}, InFile vfs_nshift (update i_addr file fun _ => 0) s.blocks o l b ↔
      o ≠ file ∧ InFile vfs_nshift i_addr s.blocks o l b := by
    refine recorded_cut fun o l b => ?_
    unfold Root
    by_cases same : o = file
    · subst same
      rw [update_self]
      exact iff_of_false (fun ⟨i, _, found, some_⟩ => some_ found.symm) fun both => both.1 rfl
    · rw [update_of_ne same, and_iff_right same]
  have owned : held ∪ { b | ∃ level, InFile vfs_nshift i_addr s.blocks file level b } ∪
      recorded vfs_nshift (update i_addr file fun _ => 0) s.blocks =
        held ∪ recorded vfs_nshift i_addr s.blocks := by
    ext b
    rw [Set.mem_union, Set.mem_union, Set.mem_union, or_assoc]
    refine or_congr_right ⟨?_, ?_⟩
    · rintro (⟨l, mem⟩ | ⟨o, l, mem⟩)
      · exact ⟨file, l, mem⟩
      · exact ⟨o, l, (cut.mp mem).2⟩
    · rintro ⟨o, l, mem⟩
      by_cases same : o = file
      · exact .inl ⟨l, same ▸ mem⟩
      · exact .inr ⟨o, l, cut.mpr ⟨same, mem⟩⟩
  refine ⟨⟨h.awake, owned ▸ h.sound, ?_, fun o o' l l' b first second => ?_⟩, ?_⟩
  · rintro b (own | ⟨l, mem⟩) ⟨o, l', mem'⟩
    · exact h.not_in_file own _ _ (cut.mp mem').2
    · exact (cut.mp mem').1 (h.one_place mem (cut.mp mem').2).1.symm
  · exact h.one_place (cut.mp first).2 (cut.mp second).2
  · unfold accounted
    rw [owned]

end Recording
end S5
