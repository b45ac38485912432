import Mathlib.Algebra.Group.Nat.Defs
import Mathlib.Data.List.Perm.Basic
import Mathlib.Data.Set.Insert
import Svr4.ChainedTables

/- uts/i386/fs/s5/s5alloc.c: the free block list of a System V file system. -/
namespace S5
open Function List

/-- sys/fs/s5param.h -/
def NICFREE : Nat := 50

/-- What a block holds when it is read as a table of free blocks. -/
structure Fblk where
  df_nfree : Int
  df_free : Nat → Nat

def Fblk.cleared : Fblk := ⟨0, fun _ => 0⟩

/-- The part of the super-block that is about free blocks; `s_nfree` is a short. -/
structure Filsys where
  s_isize : Nat
  s_fsize : Nat
  s_nfree : Int
  s_free : Nat → Nat
  s_tfree : Nat

inductive Sleeper
  | bread (bno : Nat)
  | getblk (bno : Nat)
  deriving DecidableEq

/-- `leftover` has the blocks for which calls of `blkfree` look for a leftover buffer; they may
sleep while it is busy, without `s_flock`. -/
structure State where
  fp : Filsys
  blocks : Nat → Fblk
  s_flock : Option Sleeper
  leftover : List Nat

inductive Result
  | block (bno : Nat)
  | ENOSPC
  | freed (bno : Nat)
  | asleep
  /-- of a block that `badblock` refuses, or of a write by its owner -/
  | nothing
  deriving DecidableEq

def short (n : Int) : Int := Int.bmod n (2 ^ 16)

namespace Filsys
variable (fp : Filsys)

def badblock (bn : Nat) : Bool := bn < fp.s_isize ∨ fp.s_fsize ≤ bn

def nospace : Filsys := { fp with s_nfree := 0, s_tfree := 0 }

/-- The loop of `blkalloc`: the entry taken and how many are left below it. -/
def next_block : Nat → Option (Nat × Nat)
  | 0 => none
  | s_nfree + 1 =>
      let bno := fp.s_free s_nfree
      if bno = 0 then none
      else if fp.badblock bno then next_block s_nfree
      else some (bno, s_nfree)

/-- The end of `blkalloc`, with the table as it is then. -/
def hand_out (bno : Nat) : Filsys × Result :=
  if fp.s_nfree ≤ 0 ∨ NICFREE < fp.s_nfree then (fp.nospace, .ENOSPC)
  else ({ fp with s_tfree := fp.s_tfree - 1 }, .block bno)

def push (bno : Nat) : Filsys :=
  { fp with
    s_free := update fp.s_free fp.s_nfree.toNat bno
    s_nfree := fp.s_nfree + 1
    s_tfree := fp.s_tfree + 1 }

def with_marker : Filsys :=
  if fp.s_nfree ≤ 0 then { fp with s_nfree := 1, s_free := update fp.s_free 0 0 } else fp

end Filsys

namespace State
variable (s : State)

def blkalloc : State × Result :=
  match s.fp.next_block s.fp.s_nfree.toNat with
  | none => ({ s with fp := s.fp.nospace }, .ENOSPC)
  | some (bno, s_nfree) =>
      let fp := { s.fp with s_nfree := s_nfree }
      if s_nfree = 0 then ({ s with fp := fp, s_flock := some (.bread bno) }, .asleep)
      else ({ s with fp := (fp.hand_out bno).1 }, (fp.hand_out bno).2)

def blkfree (bno : Nat) (incore : Bool) : State × Result :=
  if s.fp.badblock bno then (s, .nothing)
  else
    let fp := s.fp.with_marker
    if NICFREE ≤ fp.s_nfree then ({ s with fp := fp, s_flock := some (.getblk bno) }, .asleep)
    else if incore then ({ s with fp := fp, leftover := bno :: s.leftover }, .asleep)
    else ({ s with fp := fp.push bno }, .freed bno)

/-- `blkfree` has the leftover buffer and makes it stale: the block is again what is on the disk. -/
def discard (bno : Nat) (contents : Fblk) : State × Result :=
  ({ s with
      fp := s.fp.push bno
      blocks := update s.blocks bno contents
      leftover := s.leftover.erase bno }, .freed bno)

/-- The sleeper has its buffer, or with `error` none that could be read. -/
def wake (error : Bool) : State × Result :=
  match s.s_flock with
  | none => (s, .nothing)
  | some (.bread bno) =>
      let table := s.blocks bno
      let fp :=
        if error then s.fp
        else { s.fp with s_nfree := short table.df_nfree, s_free := table.df_free }
      ({ s with fp := (fp.hand_out bno).1, s_flock := none }, (fp.hand_out bno).2)
  | some (.getblk bno) =>
      ({ s with
         fp := { s.fp with s_nfree := 0 }.push bno
         blocks := update s.blocks bno ⟨s.fp.s_nfree, s.fp.s_free⟩
         s_flock := none }, .freed bno)

end State

inductive Event
  | blkalloc
  | blkfree (bno : Nat) (incore : Bool)
  | wake (error : Bool)
  | discard (bno : Nat) (contents : Fblk)
  /-- the owner of a block writes into it -/
  | write (bno : Nat) (contents : Fblk)

def State.step (s : State) : Event → State × Result
  | .blkalloc => s.blkalloc
  | .blkfree bno incore => s.blkfree bno incore
  | .wake error => s.wake error
  | .discard bno contents => s.discard bno contents
  | .write bno contents => ({ s with blocks := update s.blocks bno contents }, .nothing)

/-- The calls wait for `s_flock`; only what is allocated is freed or written. -/
def Allowed (s : State) (owned : Set Nat) : Event → Prop
  | .blkalloc => s.s_flock = none
  | .blkfree bno _ => s.s_flock = none ∧ bno ∈ owned
  | .wake error => s.s_flock ≠ none ∧ error = false
  | .discard bno _ => bno ∈ s.leftover
  | .write bno _ => bno ∈ owned

/-- When `blkfree` goes on with the leftover buffer, the table is not locked, empty or full. -/
def Undisturbed (s : State) : Event → Prop
  | .discard _ _ => s.s_flock = none ∧ 0 < s.fp.s_nfree ∧ s.fp.s_nfree < NICFREE
  | _ => True

def owned_after (owned : Set Nat) (event : Event) (result : Result) : Set Nat :=
  match event, result with
  | .blkfree bno _, _ => owned \ {bno}
  | _, .block bno => insert bno owned
  | _, _ => owned

/-- The calls of `events` with their results, each taken in a state that satisfies `ok`. -/
inductive Run (ok : State → Event → Prop) :
    State → Set Nat → List Event → List Result → State → Set Nat → Prop
  | done {s : State} {owned : Set Nat} : Run ok s owned [] [] s owned
  | step {s s' : State} {owned owned' : Set Nat} {events : List Event} {results : List Result}
      (event : Event) (allowed : Allowed s owned event) (fine : ok s event)
      (rest : Run ok (s.step event).1 (owned_after owned event (s.step event).2) events results
        s' owned') :
      Run ok s owned (event :: events) ((s.step event).2 :: results) s' owned'

end S5

/- The free list is a stack: what is freed last is handed out first. -/
namespace S5
open Function ChainedTables List
variable {s s' : State} {owned owned' : Set Nat} {free free' : List Nat} {results : List Result}
  {fp : Filsys} {e : Nat → Nat}

def HoldsTable (blocks : Nat → Fblk) (c n : Nat) (e : Nat → Nat) : Prop :=
  (blocks c).df_nfree = n ∧ (blocks c).df_free = e

/-- The free blocks that a table lists, with those of the blocks behind it. -/
abbrev Listed (blocks : Nat → Fblk) : Nat → (Nat → Nat) → List Nat → Prop :=
  Lists (HoldsTable blocks) 0 NICFREE

/-- The table of the super-block, which may be empty. -/
def Front (fp : Filsys) (blocks : Nat → Fblk) (free : List Nat) : Prop :=
  (fp.s_nfree = 0 ∧ free = []) ∨
    ∃ n : Nat, fp.s_nfree = n ∧ n ≤ NICFREE ∧ Listed blocks n fp.s_free free

def Asleep (fp : Filsys) (blocks : Nat → Fblk) (owned : Set Nat) (free : List Nat) :
    Option Sleeper → Prop
  | none => Front fp blocks free
  | some (.bread bno) => fp.s_nfree = 0 ∧ ∃ rest, free = bno :: rest ∧
      ∃ n e, HoldsTable blocks bno n e ∧ n ≤ NICFREE ∧ Listed blocks n e rest
  | some (.getblk bno) => fp.s_nfree = NICFREE ∧ Listed blocks NICFREE fp.s_free free ∧
      bno ∉ free ∧ bno ∉ owned ∧ fp.badblock bno = false

/-- The free blocks are distinct, owned by nobody, in range and counted. -/
structure Sound (s : State) (owned : Set Nat) (free : List Nat) : Prop where
  isize : 0 < s.fp.s_isize
  distinct : free.Nodup
  apart : ∀ b ∈ free, b ∉ owned
  inside : ∀ b ∈ free, s.fp.badblock b = false
  owned_inside : ∀ b ∈ owned, s.fp.badblock b = false
  tfree : s.fp.s_tfree = free.length
  listed : Asleep s.fp s.blocks owned free s.s_flock

/-- What each call answers, by the stack of free blocks before and after it. -/
inductive Served (s : State) : Event → List Nat → State × Result → List Nat → Prop
  | block (bno : Nat) (free : List Nat) (s' : State) :
      Served s .blkalloc (bno :: free) (s', .block bno) free
  | reads (bno : Nat) (free : List Nat) (s' : State) (locked : s'.s_flock = some (.bread bno)) :
      Served s .blkalloc (bno :: free) (s', .asleep) (bno :: free)
  | read (bno : Nat) (free : List Nat) (s' : State) (locked : s.s_flock = some (.bread bno)) :
      Served s (.wake false) (bno :: free) (s', .block bno) free
  | nospace (s' : State) : Served s .blkalloc [] (s', .ENOSPC) []
  | freed (bno : Nat) (incore : Bool) (free : List Nat) (s' : State) :
      Served s (.blkfree bno incore) free (s', .freed bno) (bno :: free)
  | writes (bno : Nat) (incore : Bool) (free : List Nat) (s' : State)
      (locked : s'.s_flock = some (.getblk bno)) :
      Served s (.blkfree bno incore) free (s', .asleep) free
  | written (bno : Nat) (free : List Nat) (s' : State) (locked : s.s_flock = some (.getblk bno)) :
      Served s (.wake false) free (s', .freed bno) (bno :: free)
  | waits (bno : Nat) (free : List Nat) (s' : State) (waiting : bno ∈ s'.leftover) :
      Served s (.blkfree bno true) free (s', .asleep) free
  | discarded (bno : Nat) (contents : Fblk) (free : List Nat) (s' : State) :
      Served s (.discard bno contents) free (s', .freed bno) (bno :: free)
  | wrote (bno : Nat) (contents : Fblk) (free : List Nat) (s' : State) :
      Served s (.write bno contents) free (s', .nothing) free

variable {blocks : Nat → Fblk} {n b : Nat}

theorem not_bad_pos (isize : 0 < fp.s_isize) (good : fp.badblock b = false) : b ≠ 0 := by
  have bounds := of_decide_eq_false good
  omega

theorem short_of_small (small : n ≤ NICFREE) : short n = n := by
  unfold short NICFREE at *
  rw [Int.bmod_eq_of_le] <;> omega

theorem held_frame {c : Nat} (held : HoldsTable blocks c n e) (differ : c ≠ b) (contents : Fblk) :
    HoldsTable (update blocks b contents) c n e := by
  unfold HoldsTable
  rw [update_of_ne differ]
  exact held

theorem listed_frame (h : Listed blocks n e free) (other : b ∉ free) (contents : Fblk) :
    Listed (update blocks b contents) n e free := by
  refine h.frame fun c mem n e held => held_frame held ?_ contents
  exact fun same => other (same ▸ mem)

theorem next_block_top (inside : ∀ b ∈ free, fp.badblock b = false)
    (h : Listed blocks n fp.s_free free) :
    (fp.next_block n = none ∧ free = []) ∨
      ∃ b rest, free = b :: rest ∧ fp.next_block n = some (b, n - 1) ∧
        ((n = 1 ∧ ∃ m e, HoldsTable blocks b m e ∧ m ≤ NICFREE ∧ Listed blocks m e rest) ∨
          1 < n ∧ Listed blocks (n - 1) fp.s_free rest) := by
  have found : ∀ k, fp.s_free k ≠ 0 → fp.badblock (fp.s_free k) = false →
      fp.next_block (k + 1) = some (fp.s_free k, k) := by
    intro k some_ good
    unfold Filsys.next_block
    rw [if_neg some_, if_neg (by simp [good])]
  cases h with
  | bottom last =>
    refine .inl ⟨?_, rfl⟩
    exact if_pos last
  | link some_ held positive fits tail =>
    exact .inr ⟨_, _, rfl, found 0 some_ (inside _ mem_cons_self),
      .inl ⟨rfl, _, _, held, fits, tail⟩⟩
  | @entry e n rest some_ positive tail =>
    exact .inr ⟨_, _, rfl, found n some_ (inside _ mem_cons_self),
      .inr ⟨Nat.succ_lt_succ positive, tail⟩⟩

theorem hand_out_good (count : fp.s_nfree = n) (positive : 0 < n) (fits : n ≤ NICFREE) (bno : Nat) :
    fp.hand_out bno = ({ fp with s_tfree := fp.s_tfree - 1 }, .block bno) := by
  unfold Filsys.hand_out
  rw [if_neg]
  rw [count]
  omega

section Steps
variable (h : Sound s owned free)
include h

variable {b : Nat}

theorem Sound.handed {rest : List Nat} (same : free = b :: rest) (isize : fp.s_isize = s.fp.s_isize)
    (fsize : fp.s_fsize = s.fp.s_fsize) (tfree : fp.s_tfree = s.fp.s_tfree - 1)
    (front : Front fp s.blocks rest) :
    Sound ⟨fp, s.blocks, none, s.leftover⟩ (insert b owned) rest := by
  subst same
  have bad : ∀ c, fp.badblock c = s.fp.badblock c := by
    intro c
    unfold Filsys.badblock
    rw [isize, fsize]
  have distinct := nodup_cons.mp h.distinct
  refine ⟨isize ▸ h.isize, distinct.2, fun c mem => ?_, fun c mem => ?_, fun c mem => ?_, ?_, front⟩
  · rintro (rfl | old)
    · exact distinct.1 mem
    · exact h.apart c (mem_cons_of_mem _ mem) old
  · exact (bad c).trans (h.inside c (mem_cons_of_mem _ mem))
  · rw [bad c]
    rcases mem with rfl | old
    · exact h.inside c mem_cons_self
    · exact h.owned_inside c old
  · rw [tfree, h.tfree, length_cons, Nat.add_sub_cancel]

theorem Sound.blkalloc (awake : s.s_flock = none) : ∃ free',
    Served s .blkalloc free s.blkalloc free' ∧
      Sound (s.blkalloc).1 (owned_after owned .blkalloc (s.blkalloc).2) free' := by
  have front : Front s.fp s.blocks free := by
    have listed := h.listed
    rwa [awake] at listed
  have empty : s.fp.next_block s.fp.s_nfree.toNat = none → free = [] → ∃ free',
      Served s .blkalloc free s.blkalloc free' ∧
        Sound (s.blkalloc).1 (owned_after owned .blkalloc (s.blkalloc).2) free' := by
    rintro none_ rfl
    refine ⟨[], ?_⟩
    unfold State.blkalloc
    rw [none_]
    refine ⟨Served.nospace _, h.isize, nodup_nil, nofun, nofun, h.owned_inside, rfl, ?_⟩
    rw [awake]
    exact .inl ⟨rfl, rfl⟩
  rcases front with ⟨zero, none_⟩ | ⟨n, count, fits, listed⟩
  · exact empty (by rw [zero]; rfl) none_
  have counted : s.fp.s_nfree.toNat = n := by rw [count]; exact Int.toNat_natCast n
  rcases next_block_top h.inside listed with
    ⟨none_, nil⟩ | ⟨b, rest, same, top, ⟨one, m, e, held, m_fits, tail⟩ | ⟨more, tail⟩⟩
  · exact empty (counted.symm ▸ none_) nil
  · refine ⟨free, ?_⟩
    unfold State.blkalloc
    rw [counted, top]
    dsimp only
    rw [if_pos (by omega)]
    refine ⟨same ▸ Served.reads b rest _ rfl, h.isize, h.distinct, h.apart, h.inside,
      h.owned_inside, h.tfree, ?_⟩
    exact ⟨by subst one; rfl, rest, same, m, e, held, m_fits, tail⟩
  · refine ⟨rest, ?_⟩
    have handed : ∀ fp : Filsys, fp = { s.fp with s_nfree := ((n - 1 : Nat) : Int) } →
        fp.hand_out b = ({ fp with s_tfree := fp.s_tfree - 1 }, .block b) := by
      rintro fp rfl
      exact hand_out_good rfl (by omega) (by omega) b
    unfold State.blkalloc
    rw [counted, top]
    dsimp only
    rw [if_neg (by omega), handed _ rfl]
    refine ⟨same ▸ Served.block b rest _, ?_⟩
    rw [awake]
    exact h.handed same rfl rfl rfl (.inr ⟨n - 1, rfl, by omega, tail⟩)

theorem Sound.returned (new : b ∉ free) (own : b ∉ owned) (good : s.fp.badblock b = false)
    {blocks : Nat → Fblk} {leftover : List Nat} (isize : fp.s_isize = s.fp.s_isize)
    (fsize : fp.s_fsize = s.fp.s_fsize)
    (tfree : fp.s_tfree = s.fp.s_tfree + 1) (front : Front fp blocks (b :: free)) :
    Sound ⟨fp, blocks, none, leftover⟩ owned (b :: free) := by
  have bad : ∀ c, fp.badblock c = s.fp.badblock c := by
    intro c
    unfold Filsys.badblock
    rw [isize, fsize]
  refine ⟨isize ▸ h.isize, nodup_cons.mpr ⟨new, h.distinct⟩, fun c mem => ?_, fun c mem => ?_,
    fun c mem => (bad c).trans (h.owned_inside c mem), ?_, front⟩
  · rcases mem_cons.mp mem with rfl | old
    · exact own
    · exact h.apart c old
  · rw [bad c]
    rcases mem_cons.mp mem with rfl | old
    · exact good
    · exact h.inside c old
  · rw [tfree, h.tfree, length_cons]

theorem Sound.given_up (b : Nat) (awake : s.s_flock = none) : Sound s (owned \ {b}) free := by
  refine ⟨h.isize, h.distinct, fun c mem own => h.apart c mem own.1, h.inside,
    fun c own => h.owned_inside c own.1, h.tfree, ?_⟩
  have listed := h.listed
  rw [awake] at listed ⊢
  exact listed

theorem with_marker_listed (awake : s.s_flock = none) : ∃ n : Nat, s.fp.with_marker.s_nfree = n ∧
    n ≤ NICFREE ∧ Listed s.blocks n s.fp.with_marker.s_free free := by
  have listed := h.listed
  rw [awake] at listed
  unfold Filsys.with_marker
  rcases listed with ⟨zero, rfl⟩ | ⟨n, count, fits, listed⟩
  · rw [if_pos (by omega)]
    exact ⟨1, rfl, by decide, Lists.bottom (update_self 0 0 s.fp.s_free)⟩
  · have positive := listed.positive
    rw [if_neg (by omega)]
    exact ⟨n, count, fits, listed⟩

/-- The block is pushed, or it is a sleeper's that nobody owns. -/
theorem Sound.blkfree {b : Nat} (awake : s.s_flock = none) (own : b ∈ owned) (incore : Bool) :
    ∃ free', Served s (.blkfree b incore) free (s.blkfree b incore) free' ∧
      ((s.blkfree b incore).1.leftover = s.leftover ∧
          Sound (s.blkfree b incore).1 (owned \ {b}) free' ∨
        incore = true ∧ (s.blkfree b incore).1.leftover = b :: s.leftover ∧
          Sound (s.blkfree b incore).1 owned free') := by
  have good := h.owned_inside b own
  have new : b ∉ free := fun mem => h.apart b mem own
  have fields : s.fp.with_marker.s_isize = s.fp.s_isize ∧
      s.fp.with_marker.s_fsize = s.fp.s_fsize ∧ s.fp.with_marker.s_tfree = s.fp.s_tfree := by
    unfold Filsys.with_marker
    split <;> exact ⟨rfl, rfl, rfl⟩
  have bad : ∀ c, s.fp.with_marker.badblock c = s.fp.badblock c := by
    intro c
    unfold Filsys.badblock
    rw [fields.1, fields.2.1]
  obtain ⟨n, count, fits, listed⟩ := with_marker_listed h awake
  have gone := h.given_up b awake
  unfold State.blkfree
  rw [if_neg (by simp [good])]
  by_cases full : NICFREE ≤ n
  · obtain rfl : n = NICFREE := le_antisymm fits full
    rw [if_pos (by rw [count])]
    exact ⟨free, Served.writes b incore free _ rfl, .inl ⟨rfl, fields.1 ▸ h.isize, h.distinct,
      gone.apart, fun c mem => (bad c).trans (h.inside c mem),
      fun c mem => (bad c).trans (gone.owned_inside c mem), fields.2.2.trans h.tfree, count, listed,
      new, fun mem => mem.2 rfl, (bad b).trans good⟩⟩
  rw [if_neg (by rw [count]; omega)]
  cases incore with
  | true =>
    refine ⟨free, Served.waits b free _ mem_cons_self, .inr ⟨rfl, rfl, ?_⟩⟩
    refine ⟨fields.1 ▸ h.isize, h.distinct, h.apart, fun c mem => (bad c).trans (h.inside c mem),
      fun c mem => (bad c).trans (h.owned_inside c mem), fields.2.2.trans h.tfree, ?_⟩
    rw [if_pos rfl, awake]
    exact .inr ⟨n, count, fits, listed⟩
  | false =>
    refine ⟨b :: free, Served.freed b false free _, .inl ⟨rfl, ?_⟩⟩
    rw [if_neg Bool.false_ne_true, awake]
    refine gone.returned new (fun mem => mem.2 rfl) good fields.1 fields.2.1
      (congrArg (· + 1) fields.2.2) (.inr ⟨n + 1, ?_, by omega, ?_⟩)
    · show s.fp.with_marker.s_nfree + 1 = _
      rw [count]
      rfl
    · show Listed _ _ (update _ s.fp.with_marker.s_nfree.toNat b) _
      rw [count, Int.toNat_natCast]
      exact listed.push (not_bad_pos h.isize good)

theorem Sound.discard (own : b ∈ owned) (contents : Fblk)
    (fine : Undisturbed s (.discard b contents)) :
    Sound (s.discard b contents).1 (owned \ {b}) (b :: free) := by
  obtain ⟨awake, positive, room⟩ := fine
  have good := h.owned_inside b own
  have new : b ∉ free := fun mem => h.apart b mem own
  have listed := h.listed
  rw [awake] at listed
  obtain ⟨zero, -⟩ | ⟨n, count, -, listed⟩ := listed
  · omega
  have gone := h.given_up b awake
  unfold State.discard
  rw [awake]
  refine gone.returned new (fun mem => mem.2 rfl) good rfl rfl rfl (.inr ⟨n + 1, ?_, by omega, ?_⟩)
  · show s.fp.s_nfree + 1 = _
    rw [count]
    rfl
  · show Listed _ _ (update _ s.fp.s_nfree.toNat b) _
    rw [count, Int.toNat_natCast]
    exact (listed_frame listed new contents).push (not_bad_pos h.isize good)

theorem Sound.wake (asleep : s.s_flock ≠ none) : ∃ free',
    Served s (.wake false) free (s.wake false) free' ∧
      Sound (s.wake false).1 (owned_after owned (.wake false) (s.wake false).2) free' := by
  have listed := h.listed
  cases sleeper : s.s_flock with
  | none => exact absurd sleeper asleep
  | some waiting =>
    rw [sleeper] at listed
    unfold State.wake
    rw [sleeper]
    cases waiting with
    | bread b =>
      obtain ⟨-, rest, same, n, e, ⟨count, entries⟩, fits, tail⟩ := listed
      have read : short (s.blocks b).df_nfree = n := by rw [count, short_of_small fits]
      obtain ⟨fp, loaded⟩ : ∃ fp : Filsys, fp = { s.fp with
          s_nfree := short (s.blocks b).df_nfree, s_free := (s.blocks b).df_free } := ⟨_, rfl⟩
      have nfree : fp.s_nfree = n := loaded ▸ read
      refine ⟨rest, ?_⟩
      dsimp only
      rw [if_neg Bool.false_ne_true, ← loaded, hand_out_good nfree tail.positive fits b]
      refine ⟨same ▸ Served.read b rest _ sleeper, ?_⟩
      subst loaded
      exact h.handed same rfl rfl rfl (.inr ⟨n, nfree, fits, entries ▸ tail⟩)
    | getblk b =>
      obtain ⟨full, table, new, own, good⟩ := listed
      refine ⟨b :: free, Served.written b free _ sleeper, ?_⟩
      refine h.returned new own good rfl rfl rfl (.inr ⟨1, rfl, by decide, ?_⟩)
      have held : HoldsTable (update s.blocks b ⟨s.fp.s_nfree, s.fp.s_free⟩) b NICFREE
          s.fp.s_free := by
        unfold HoldsTable
        rw [update_self]
        exact ⟨full, rfl⟩
      have first : update s.fp.s_free 0 b 0 = b := update_self 0 b s.fp.s_free
      exact (listed_frame table new _).chain first (not_bad_pos h.isize good) held (le_refl NICFREE)

theorem Sound.write (own : b ∈ owned) (contents : Fblk) :
    Sound { s with blocks := update s.blocks b contents } owned free := by
  have new : b ∉ free := fun mem => h.apart b mem own
  refine { h with listed := ?_ }
  have listed := h.listed
  cases sleeper : s.s_flock with
  | none =>
    rw [sleeper] at listed
    exact listed.imp id fun ⟨n, count, fits, table⟩ =>
      ⟨n, count, fits, listed_frame table new contents⟩
  | some waiting =>
    rw [sleeper] at listed
    cases waiting with
    | bread c =>
      obtain ⟨zero, rest, same, n, e, held, fits, tail⟩ := listed
      have differ : c ≠ b := fun eq => new (same ▸ eq ▸ mem_cons_self)
      exact ⟨zero, rest, same, n, e, held_frame held differ contents, fits,
        listed_frame tail (fun mem => new (same ▸ mem_cons_of_mem c mem)) contents⟩
    | getblk c =>
      obtain ⟨full, table, rest⟩ := listed
      exact ⟨full, listed_frame table new contents, rest⟩

end Steps

/-- The blocks of the sleepers that wait for leftover buffers are nobody's, and not free yet. -/
structure Orderly (s : State) (owned : Set Nat) (free : List Nat) : Prop where
  sound : Sound s (owned ∪ {b | b ∈ s.leftover}) free
  once : s.leftover.Nodup
  apart : ∀ b ∈ s.leftover, b ∉ owned

theorem Orderly.of_same (h : Orderly s owned free) (same : s'.leftover = s.leftover)
    (sound : Sound s' (owned' ∪ {b | b ∈ s.leftover}) free')
    (apart : ∀ b ∈ s.leftover, b ∉ owned') : Orderly s' owned' free' :=
  ⟨same ▸ sound, same ▸ h.once, same ▸ apart⟩

theorem Orderly.blkfree (h : Orderly s owned free) {b : Nat} (awake : s.s_flock = none)
    (own : b ∈ owned) (incore : Bool) : ∃ free',
    Served s (.blkfree b incore) free (s.blkfree b incore) free' ∧
      Orderly (s.blkfree b incore).1 (owned \ {b}) free' := by
  have gone : ∀ c ∈ s.leftover, c ∉ owned \ {b} := fun c mem own => h.apart c mem own.1
  have new : b ∉ s.leftover := fun mem => h.apart b mem own
  obtain ⟨free', served, ⟨same, sound⟩ | ⟨-, more, sound⟩⟩ := h.sound.blkfree awake (.inl own) incore
  · refine ⟨free', served, h.of_same same ?_ gone⟩
    convert sound using 1
    ext c
    simp only [Set.mem_union, Set.mem_sdiff, Set.mem_singleton_iff, Set.mem_ofPred_eq]
    constructor
    · rintro (⟨own, other⟩ | mem)
      · exact ⟨.inl own, other⟩
      · exact ⟨.inr mem, fun eq => new (eq ▸ mem)⟩
    · rintro ⟨own | mem, other⟩
      · exact .inl ⟨own, other⟩
      · exact .inr mem
  · refine ⟨free', served, ?_, ?_, ?_⟩
    · convert sound using 1
      rw [more]
      ext c
      simp only [Set.mem_union, Set.mem_sdiff, Set.mem_singleton_iff, Set.mem_ofPred_eq, mem_cons]
      by_cases eq : c = b
      · exact iff_of_true (.inr (.inl eq)) (.inl (eq ▸ own))
      · simp [eq]
    · exact more ▸ nodup_cons.mpr ⟨new, h.once⟩
    · rw [more]
      intro c mem own
      rcases mem_cons.mp mem with eq | mem
      · exact own.2 eq
      · exact h.apart c mem own.1

theorem Orderly.discard (h : Orderly s owned free) {b : Nat} (waits : b ∈ s.leftover)
    (contents : Fblk) (fine : Undisturbed s (.discard b contents)) :
    Orderly (s.discard b contents).1 owned (b :: free) := by
  have sound := h.sound.discard (.inr waits) contents fine
  have erased : ∀ c, c ∈ s.leftover.erase b ↔ c ≠ b ∧ c ∈ s.leftover := fun c => h.once.mem_erase_iff
  refine ⟨?_, h.once.erase b, fun c mem => h.apart c ((erased c).mp mem).2⟩
  convert sound using 1
  ext c
  show c ∈ owned ∨ c ∈ s.leftover.erase b ↔ (c ∈ owned ∨ c ∈ s.leftover) ∧ c ≠ b
  rw [erased]
  constructor
  · rintro (own | ⟨other, mem⟩)
    · exact ⟨.inl own, fun eq => h.apart b waits (eq ▸ own)⟩
    · exact ⟨.inr mem, other⟩
  · rintro ⟨own | mem, other⟩
    · exact .inl own
    · exact .inr ⟨other, mem⟩

theorem Orderly.step (h : Orderly s owned free) {event : Event} (allowed : Allowed s owned event)
    (fine : Undisturbed s event) : ∃ free', Served s event free (s.step event) free' ∧
      Orderly (s.step event).1 (owned_after owned event (s.step event).2) free' := by
  -- a block that is handed out was free, and so no sleeper's
  have handed : ∀ {s' : State} {b : Nat} {free' : List Nat}, b ∈ free →
      s'.leftover = s.leftover → Sound s' (insert b (owned ∪ {b | b ∈ s.leftover})) free' →
      Orderly s' (insert b owned) free' := by
    intro s' b free' mem same sound
    refine h.of_same same (by rwa [Set.insert_union]) ?_
    rintro c waits (rfl | own)
    · exact h.sound.apart c mem (.inr waits)
    · exact h.apart c waits own
  cases event with
  | blkalloc =>
    obtain ⟨free', served, sound⟩ := h.sound.blkalloc allowed
    refine ⟨free', served, ?_⟩
    have same : s.blkalloc.1.leftover = s.leftover := by
      unfold State.blkalloc
      split
      · rfl
      · split <;> rfl
    unfold State.step
    generalize s.blkalloc = after at served sound same
    cases served with
    | block b free s' => exact handed mem_cons_self same sound
    | reads b free s' locked => exact h.of_same same sound h.apart
    | nospace s' => exact h.of_same same sound h.apart
  | blkfree b incore => exact h.blkfree allowed.1 allowed.2 incore
  | wake error =>
    obtain ⟨asleep, rfl⟩ := allowed
    obtain ⟨free', served, sound⟩ := h.sound.wake asleep
    refine ⟨free', served, ?_⟩
    have same : (s.wake false).1.leftover = s.leftover := by
      unfold State.wake
      split <;> rfl
    unfold State.step
    dsimp only
    generalize s.wake false = after at served sound same
    cases served with
    | read b free s' locked => exact handed mem_cons_self same sound
    | written b free s' locked => exact h.of_same same sound h.apart
  | discard b contents =>
    exact ⟨b :: free, Served.discarded b contents free _, h.discard allowed contents fine⟩
  | write b contents =>
    exact ⟨free, Served.wrote b contents free _, h.of_same rfl (h.sound.write (.inl allowed) contents)
      h.apart⟩

/-- The stack of free blocks through a run. -/
inductive ServedAll : State → List Event → List Nat → List Nat → Prop
  | done (s : State) (free : List Nat) : ServedAll s [] free free
  | step {s : State} {free between free' : List Nat} {event : Event} {events : List Event}
      (first : Served s event free (s.step event) between)
      (rest : ServedAll (s.step event).1 events between free') :
      ServedAll s (event :: events) free free'

def handed_out (results : List Result) : List Nat :=
  results.filterMap fun | .block bno => some bno | _ => none

def given_back (results : List Result) : List Nat :=
  results.filterMap fun | .freed bno => some bno | _ => none

theorem Served.balance {event : Event} {after : State × Result}
    (h : Served s event free after free') :
    (handed_out [after.2] ++ free').Perm (given_back [after.2] ++ free) := by
  cases h <;> exact List.Perm.refl _

theorem Orderly.run {events : List Event} (h : Orderly s owned free)
    (run : Run Undisturbed s owned events results s' owned') :
    ∃ free', ServedAll s events free free' ∧
      (handed_out results ++ free').Perm (given_back results ++ free) ∧ Orderly s' owned' free' := by
  induction run generalizing free with
  | done => exact ⟨free, ServedAll.done _ free, List.Perm.refl _, h⟩
  | @step s _ owned _ events results event allowed fine rest ih =>
    obtain ⟨between, first, orderly⟩ := h.step allowed fine
    obtain ⟨free', served, balance, last⟩ := ih orderly
    refine ⟨free', ServedAll.step first served, ?_, last⟩
    have one := first.balance
    generalize (s.step event).2 = result at one ⊢
    rw [show handed_out (result :: results) = handed_out [result] ++ handed_out results from
        filterMap_append (l := [result]) .., show given_back (result :: results) =
          given_back [result] ++ given_back results from filterMap_append (l := [result]) ..]
    rw [append_assoc, append_assoc]
    calc handed_out [result] ++ (handed_out results ++ free')
        _ ~ handed_out [result] ++ (given_back results ++ between) := balance.append_left _
        _ ~ given_back results ++ (handed_out [result] ++ between) := perm_append_comm_assoc ..
        _ ~ given_back results ++ (given_back [result] ++ free) := one.append_left _
        _ ~ given_back [result] ++ (given_back results ++ free) := perm_append_comm_assoc ..

/-- Between calls the super-block and the chain list the free blocks. -/
theorem free_list_exact {events : List Event} (h : Sound s owned free) (idle : s.leftover = [])
    (run : Run Undisturbed s owned events results s' owned') :
    ∃ free', ServedAll s events free free' ∧
      (handed_out results ++ free').Perm (given_back results ++ free) ∧ free'.Nodup ∧
      (∀ b ∈ free', b ∉ owned' ∧ s'.fp.s_isize ≤ b ∧ b < s'.fp.s_fsize) ∧
      s'.fp.s_tfree = free'.length ∧
      (s'.s_flock = none → 0 ≤ s'.fp.s_nfree ∧ s'.fp.s_nfree ≤ NICFREE ∧
        Front s'.fp s'.blocks free') := by
  have orderly : Orderly s owned free := by
    refine ⟨?_, idle ▸ nodup_nil, fun b mem => by rw [idle] at mem; cases mem⟩
    convert h using 1
    ext c
    simp [idle]
  obtain ⟨free', served, balance, sound, -, -⟩ := orderly.run run
  refine ⟨free', served, balance, sound.distinct,
    fun b mem => ⟨fun own => sound.apart b mem (.inl own), ?_⟩, sound.tfree, fun awake => ?_⟩
  · have good := sound.inside b mem
    have bounds := of_decide_eq_false good
    omega
  · have front := sound.listed
    rw [awake] at front
    refine ⟨?_, ?_, front⟩
    · rcases front with ⟨zero, -⟩ | ⟨n, count, -⟩ <;> omega
    · rcases front with ⟨zero, -⟩ | ⟨n, count, fits, -⟩
      · rw [zero]
        decide
      · omega

def small_state : State where
  fp :=
    { s_isize := 4
      s_fsize := 8
      s_nfree := 2
      s_free := fun k => if k = 0 then 4 else 5
      s_tfree := 3 }
  blocks b := if b = 4 then ⟨2, fun k => if k = 0 then 0 else 6⟩ else ⟨0, fun _ => 0⟩
  s_flock := none
  leftover := []

theorem small_state_sound : Sound small_state {7} [5, 4, 6] := by
  refine ⟨by decide, by decide, ?_, by decide, ?_, rfl, .inr ⟨2, rfl, by decide, ?_⟩⟩
  · intro b mem own
    rw [Set.mem_singleton_iff.mp own] at mem
    exact absurd mem (by decide)
  · rintro b rfl
    rfl
  · have below : Listed small_state.blocks 2 (fun k => if k = 0 then 0 else 6) [6] :=
      Lists.entry (n := 1) (by decide) (by decide) (Lists.bottom rfl)
    have table : Listed small_state.blocks 1 small_state.fp.s_free [4, 6] :=
      Lists.link (by decide) ⟨rfl, rfl⟩ (by decide) (by decide) below
    exact Lists.entry (n := 1) (by decide) (by decide) table

/-- The block 7 comes back and all are handed out again, through the table in block 4. -/
theorem free_list_exact_small : ∃ s' owned' free',
    ServedAll small_state [.blkfree 7 true, .discard 7 Fblk.cleared, .blkalloc, .blkalloc, .blkalloc,
      .wake false, .blkalloc, .blkalloc] [5, 4, 6] free' ∧
      s'.fp.s_tfree = free'.length ∧
      Run Undisturbed small_state {7} [.blkfree 7 true, .discard 7 Fblk.cleared, .blkalloc,
        .blkalloc, .blkalloc, .wake false, .blkalloc, .blkalloc]
        [.asleep, .freed 7, .block 7, .block 5, .asleep, .block 4, .block 6, .ENOSPC] s' owned' := by
  have run : ∃ s' owned', Run Undisturbed small_state {7} [.blkfree 7 true,
      .discard 7 Fblk.cleared, .blkalloc, .blkalloc, .blkalloc, .wake false, .blkalloc, .blkalloc]
      [.asleep, .freed 7, .block 7, .block 5, .asleep, .block 4, .block 6, .ENOSPC] s' owned' :=
    ⟨_, _, .step (.blkfree 7 true) ⟨rfl, rfl⟩ trivial <|
      .step (.discard 7 Fblk.cleared) mem_cons_self ⟨rfl, by decide, by decide⟩ <|
      .step .blkalloc rfl trivial <| .step .blkalloc rfl trivial <| .step .blkalloc rfl trivial <|
      .step (.wake false) ⟨nofun, rfl⟩ trivial <| .step .blkalloc rfl trivial <|
      .step .blkalloc rfl trivial .done⟩
  obtain ⟨s', owned', run⟩ := run
  obtain ⟨free', served, -, -, -, tfree, -⟩ := free_list_exact small_state_sound rfl run
  exact ⟨s', owned', free', served, tfree, run⟩

/-- While `blkfree` waits for the leftover buffer of block 7 the table is used up. Block 7 goes into
the empty table, its old content is read as a table, and block 5 is handed out again. -/
theorem handed_out_twice :
    let stale : Fblk := ⟨2, fun k => if k = 0 then 0 else 5⟩
    let events := [.blkfree 7 true, .blkalloc, .blkalloc, .wake false, .blkalloc, .blkalloc,
      .discard 7 stale, .blkalloc, .wake false, .blkalloc]
    let results := [.asleep, .block 5, .asleep, .block 4, .block 6, .ENOSPC, .freed 7, .asleep,
      .block 7, .block 5]
    (∃ s' owned', Run (fun _ _ => True) small_state {7} events results s' owned') ∧
      ¬ ∃ free', (handed_out results ++ free').Perm (given_back results ++ [5, 4, 6]) := by
  intro stale events results
  constructor
  · exact ⟨_, _, .step (.blkfree 7 true) ⟨rfl, rfl⟩ trivial <| .step .blkalloc rfl trivial <|
      .step .blkalloc rfl trivial <| .step (.wake false) ⟨nofun, rfl⟩ trivial <|
      .step .blkalloc rfl trivial <| .step .blkalloc rfl trivial <|
      .step (.discard 7 stale) mem_cons_self trivial <|
      .step .blkalloc rfl trivial <| .step (.wake false) ⟨nofun, rfl⟩ trivial <|
      .step .blkalloc rfl trivial .done⟩
  · rintro ⟨free', balance⟩
    have same := balance.count_eq 5
    rw [count_append] at same
    have twice : (handed_out results).count 5 = 2 := by decide
    have once : (given_back results ++ [5, 4, 6]).count 5 = 1 := by decide
    omega

end S5
