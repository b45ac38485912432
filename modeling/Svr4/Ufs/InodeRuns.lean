import Svr4.Counting
import Svr4.Runs
import Svr4.Ufs.Hashalloc
import Svr4.Ufs.Inodes

/- fs/ufs/ufs_alloc.c: `ufs_ialloc` and `ufs_ifree` run by any number of processes, which sleep
   where a block or an inode is read. What happens between two sleeps is one step. -/
namespace UfsInodes
open Function Cylinders LabelledRuns Nat Finset

structure Fs where
  fs_ncg : Nat
  fs_ipg : Nat

/-- Where a process is. `places` are the groups that `hashalloc` has still to ask, and the
    preferences it asks them with. -/
inductive Pc
  | idle
  | looping (ipref mode : Nat)
  | asking (ipref mode : Nat) (places : List (Nat × Nat))
  | reading (ipref mode cg pref : Nat) (places : List (Nat × Nat))
  | getting (ipref mode ino : Nat)
  | freeing (ino mode : Nat)

/-- `dirs` is kept for the record: the inodes that have been allocated as directories. -/
structure Kernel where
  groups : Nat → Cg
  fs_cs : Nat → Csum
  fs_cstotal : Csum
  procs : Nat → Pc
  panic : Option Panic
  dirs : Nat → Bool

/-- `bad` blocks have not been read, or are not those of a group. -/
inductive Label
  | ialloc (p ipref mode : Nat)
  | loop (p : Nat) (over_quota : Bool)
  | ask (p : Nat)
  | read (p : Nat) (bad : Bool)
  | iget (p : Nat) (error busy : Bool)
  | ifree (p ino mode : Nat)
  | freed (p : Nat) (bad : Bool)

namespace Kernel

def setProc (s : Kernel) (p : Nat) (pc : Pc) : Kernel :=
  { s with procs := update s.procs p pc }

variable (fs : Fs)

/-- The calls of `hashalloc` when every group refuses. -/
def places (cg ipref : Nat) : List (Nat × Nat) :=
  (hashalloc (fun (_ : Unit) _ _ _ => ((), 0)) fs.fs_ncg (fs.fs_ncg + 31) () cg ipref 0).calls.map
    fun call => (call.cg.toNat, call.pref.toNat)

/-- From `loop` to the first group. -/
def loop (s : Kernel) (p ipref mode : Nat) (over_quota : Bool) : Kernel :=
  if s.fs_cstotal.cs_nifree = 0 ∨ over_quota then s.setProc p .idle
  else
    let ipref := if fs.fs_ncg * fs.fs_ipg ≤ ipref then 0 else ipref
    s.setProc p (.asking ipref mode (places fs (ipref / fs.fs_ipg) ipref))

/-- `ialloccg` up to `bread` -/
def ask (s : Kernel) (p ipref mode : Nat) : List (Nat × Nat) → Kernel
  | [] => s.setProc p .idle
  | (cg, pref) :: places =>
      if (s.fs_cs cg).cs_nifree = 0 then s.setProc p (.asking ipref mode places)
      else s.setProc p (.reading ipref mode cg pref places)

def take (s : Kernel) (cg : Nat) (g : Cg) (i mode : Nat) : Kernel :=
  { s with
    groups := update s.groups cg (g.take i (ifdir mode))
    fs_cs := update s.fs_cs cg ((s.fs_cs cg).take (ifdir mode))
    fs_cstotal := s.fs_cstotal.take (ifdir mode)
    dirs := update s.dirs (cg * fs.fs_ipg + i) (ifdir mode) }

/-- `ialloccg` from `bread`; `hashalloc` takes inode 0 for a refusal. -/
def read (s : Kernel) (p ipref mode cg pref : Nat) (places : List (Nat × Nat)) (bad : Bool) :
    Kernel :=
  if bad ∨ (s.groups cg).cg_cs.cs_nifree = 0 then s.setProc p (.asking ipref mode places)
  else
    match choose fs.fs_ipg (s.groups cg) pref with
    | .error panic => { s with panic := some panic }
    | .ok (i, g) =>
        (s.take fs cg g i mode).setProc p
          (if cg * fs.fs_ipg + i = 0 then .asking ipref mode places
          else .getting ipref mode (cg * fs.fs_ipg + i))

/-- `ufs_ifree` up to `bread` -/
def ifree (s : Kernel) (p ino mode : Nat) : Kernel :=
  if fs.fs_ipg * fs.fs_ncg ≤ ino then { s with panic := some .range }
  else s.setProc p (.freeing ino mode)

def got (s : Kernel) (p ipref mode ino : Nat) (error busy : Bool) : Kernel :=
  if error then s.ifree fs p ino 0
  else s.setProc p (if busy then .looping ipref mode else .idle)

/-- `ufs_ifree` from `bread` -/
def freed (s : Kernel) (ino mode : Nat) (bad : Bool) : Kernel :=
  let cg := ino / fs.fs_ipg
  let g := s.groups cg
  if bad ∨ isclr g.cg_iused (ino % fs.fs_ipg) then s
  else
    { s with
      groups := update s.groups cg (g.give (ino % fs.fs_ipg) (ifdir mode))
      fs_cs := update s.fs_cs cg ((s.fs_cs cg).give (ifdir mode))
      fs_cstotal := s.fs_cstotal.give (ifdir mode) }

def step (s : Kernel) (l : Label) : Option Kernel :=
  if s.panic.isSome then none
  else
    match l with
    | .ialloc p ipref mode =>
        match s.procs p with
        | .idle => some (s.setProc p (.looping ipref mode))
        | _ => none
    | .loop p over_quota =>
        match s.procs p with
        | .looping ipref mode => some (s.loop fs p ipref mode over_quota)
        | _ => none
    | .ask p =>
        match s.procs p with
        | .asking ipref mode places => some (s.ask p ipref mode places)
        | _ => none
    | .read p bad =>
        match s.procs p with
        | .reading ipref mode cg pref places => some (s.read fs p ipref mode cg pref places bad)
        | _ => none
    | .iget p error busy =>
        match s.procs p with
        | .getting ipref mode ino => some (s.got fs p ipref mode ino error busy)
        | _ => none
    | .ifree p ino mode =>
        match s.procs p with
        | .idle => some (s.ifree fs p ino mode)
        | _ => none
    | .freed p bad =>
        match s.procs p with
        | .freeing ino mode => some ((s.freed fs ino mode bad).setProc p .idle)
        | _ => none

end Kernel

structure Fs.Valid (fs : Fs) : Prop where
  some_group : 0 < fs.fs_ncg
  some_inode : 0 < fs.fs_ipg
  whole : 8 ∣ fs.fs_ipg
  numbers : fs.fs_ncg * fs.fs_ipg < 2 ^ 31

def Pc.Placed (fs : Fs) : Pc → Prop
  | .asking _ _ places => ∀ place ∈ places, place.1 < fs.fs_ncg
  | .reading _ _ cg _ places => cg < fs.fs_ncg ∧ ∀ place ∈ places, place.1 < fs.fs_ncg
  | .getting _ _ ino | .freeing ino _ => ino < fs.fs_ipg * fs.fs_ncg
  | _ => True

/-- The counts of the groups are those of their maps, and the superblock has the same ones. -/
structure Accounted (fs : Fs) (s : Kernel) : Prop where
  counted : ∀ cg < fs.fs_ncg,
    (s.groups cg).Counted fs.fs_ipg fun i => s.dirs (cg * fs.fs_ipg + i)
  summary : ∀ cg < fs.fs_ncg, s.fs_cs cg = (s.groups cg).cg_cs
  nifree : s.fs_cstotal.cs_nifree = ∑ cg ∈ range fs.fs_ncg, (s.fs_cs cg).cs_nifree
  ndir : s.fs_cstotal.cs_ndir = ∑ cg ∈ range fs.fs_ncg, (s.fs_cs cg).cs_ndir

def Finds (fs : Fs) (s : Kernel) : Prop :=
  ∀ cg < fs.fs_ncg, (s.groups cg).cg_cs.cs_nifree ≠ 0 → ∀ pref, ∃ i g,
    choose fs.fs_ipg (s.groups cg) pref = .ok (i, g) ∧ i < fs.fs_ipg ∧
      isclr (s.groups cg).cg_iused i = true

structure Sound (fs : Fs) (s : Kernel) : Prop extends Accounted fs s where
  rotor : ∀ cg < fs.fs_ncg, (s.groups cg).cg_irotor < fs.fs_ipg
  placed : ∀ p, (s.procs p).Placed fs
  unspoilt : s.panic = none ∨ s.panic = some .range

def lapse (fs : Fs) (s : Kernel) : Label → Bool
  | .freed p false =>
      match s.procs p with
      | .freeing ino mode =>
          !isclr (s.groups (ino / fs.fs_ipg)).cg_iused (ino % fs.fs_ipg) &&
            ifdir mode != s.dirs ino
      | _ => false
  | _ => false

def Careful (fs : Fs) (s : Kernel) (l : Label) : Prop := lapse fs s l = false

instance (fs : Fs) (s : Kernel) (l : Label) : Decidable (Careful fs s l) :=
  inferInstanceAs (Decidable (_ = false))

section
variable {fs : Fs} {s t : Kernel} {p cg pref i ino mode ipref : Nat} {g : Cg} {pc : Pc} {l : Label}
  {labels : List Label} {places : List (Nat × Nat)}

theorem sum_update (inside : cg < fs.fs_ncg) (c : Csum) (part : Csum → Int) :
    ∑ k ∈ range fs.fs_ncg, part (update s.fs_cs cg c k) =
      ∑ k ∈ range fs.fs_ncg, part (s.fs_cs k) + (part c - part (s.fs_cs cg)) := by
  have mem := mem_range.mpr inside
  have others : ∑ k ∈ (range fs.fs_ncg).erase cg, part (update s.fs_cs cg c k) =
      ∑ k ∈ (range fs.fs_ncg).erase cg, part (s.fs_cs k) :=
    sum_congr rfl fun k hk => by rw [update_of_ne (ne_of_mem_erase hk)]
  rw [← sum_erase_add _ _ mem, ← sum_erase_add _ (fun k => part (s.fs_cs k)) mem,
    others, update_self]
  omega

theorem places_inside (valid : fs.Valid) (inside : cg < fs.fs_ncg) (ipref : Nat) :
    ∀ place ∈ Kernel.places fs cg ipref, place.1 < fs.fs_ncg := by
  intro place mem
  obtain ⟨call, called, rfl⟩ := List.mem_map.mp mem
  obtain ⟨bytes, whole⟩ := valid.whole
  have some_inode := valid.some_inode
  have groups : fs.fs_ncg * 8 ≤ fs.fs_ncg * fs.fs_ipg := mul_le_mul_left _ (by omega)
  have numbers := valid.numbers
  have complete := hashalloc_spec (fun (_ : Unit) _ _ _ => ((), 0))
    (show 1 ≤ (fs.fs_ncg : Int) by omega) (by omega) (fs.fs_ncg + 31) (by omega)
    (show 0 ≤ (cg : Int) by omega) (by omega) () (ipref : Int) 0
  have := complete.inside call called
  omega

theorem Sound.finds (sound : Sound fs s) (valid : fs.Valid) : Finds fs s := by
  intro cg inside some pref
  obtain ⟨i, within, free, r, -, chosen⟩ := choose_spec valid.whole (sound.rotor cg inside)
    ((sound.counted cg inside).some_free some) pref
  exact ⟨i, _, chosen, within, free⟩

theorem Sound.setProc (sound : Sound fs s) (placed : pc.Placed fs) : Sound fs (s.setProc p pc) where
  counted := sound.counted
  summary := sound.summary
  nifree := sound.nifree
  ndir := sound.ndir
  rotor := sound.rotor
  unspoilt := sound.unspoilt
  placed := by
    intro q
    show (update s.procs p pc q).Placed fs
    rw [update_apply]
    split
    · exact placed
    · exact sound.placed q

theorem apart_of_ne {cg' i' : Nat} (within : i < fs.fs_ipg) (within' : i' < fs.fs_ipg)
    (apart : cg' ≠ cg) : cg' * fs.fs_ipg + i' ≠ cg * fs.fs_ipg + i := by
  intro same
  apply apart
  have := congrArg (· / fs.fs_ipg) same
  simp only [add_comm _ i, add_comm _ i'] at this
  rwa [add_mul_div_right _ _ (zero_lt_of_lt within),
    add_mul_div_right _ _ (zero_lt_of_lt within), div_eq_of_lt within,
    div_eq_of_lt within', zero_add, zero_add] at this

theorem Cg.Counted.congr {fs_ipg : Nat} {dirs dirs' : Nat → Bool} (counted : g.Counted fs_ipg dirs)
    (same : ∀ i < fs_ipg, dirs' i = dirs i) : g.Counted fs_ipg dirs' := by
  refine ⟨counted.nifree, counted.ndir.trans ?_⟩
  rw [count_eq_card_filter_range, count_eq_card_filter_range]
  congr 2
  apply filter_congr
  intro i inside
  rw [same i (mem_range.mp inside)]

section
variable (sound : Sound fs s)
include sound

theorem Sound.written (inside : cg < fs.fs_ncg) {total : Csum} {dirs : Nat → Bool}
    (counted : g.Counted fs.fs_ipg fun i => dirs (cg * fs.fs_ipg + i))
    (others : ∀ k, k ≠ cg → ∀ i < fs.fs_ipg, dirs (k * fs.fs_ipg + i) = s.dirs (k * fs.fs_ipg + i))
    (rotor : g.cg_irotor < fs.fs_ipg)
    (nifree : total.cs_nifree = s.fs_cstotal.cs_nifree + (g.cg_cs.cs_nifree - (s.fs_cs
      cg).cs_nifree))
    (ndir : total.cs_ndir = s.fs_cstotal.cs_ndir + (g.cg_cs.cs_ndir - (s.fs_cs cg).cs_ndir)) :
    Sound fs { s with
      groups := update s.groups cg g
      fs_cs := update s.fs_cs cg g.cg_cs
      fs_cstotal := total
      dirs := dirs } where
  counted := by
    intro k within
    by_cases here : k = cg
    · rw [here]
      simpa only [update_self] using counted
    · simp only [update_of_ne here]
      exact (sound.counted k within).congr (others k here)
  summary := by
    intro k within
    by_cases here : k = cg
    · rw [here]
      simp only [update_self]
    · simp only [update_of_ne here]
      exact sound.summary k within
  nifree := by
    rw [sum_update inside _ Csum.cs_nifree, nifree, sound.nifree]
  ndir := by
    rw [sum_update inside _ Csum.cs_ndir, ndir, sound.ndir]
  rotor := by
    intro k within
    by_cases here : k = cg
    · rw [here]
      simpa only [update_self] using rotor
    · simp only [update_of_ne here]
      exact sound.rotor k within
  placed := sound.placed
  unspoilt := sound.unspoilt

theorem Sound.take (inside : cg < fs.fs_ncg) (within : i < fs.fs_ipg)
    (free : isclr (s.groups cg).cg_iused i = true) {r : Nat} (rotor : r < fs.fs_ipg) (mode : Nat) :
    Sound fs (s.take fs cg { s.groups cg with cg_irotor := r } i mode) := by
  have counted := (sound.counted cg inside).take within free (ifdir mode)
  unfold Kernel.take
  rw [sound.summary cg inside]
  refine sound.written inside (g := Cg.take { s.groups cg with cg_irotor := r } i (ifdir mode))
    ?_ ?_ rotor ?_ ?_
  · have counted' : (Cg.take { s.groups cg with cg_irotor := r } i (ifdir mode)).Counted fs.fs_ipg
        (update (fun i => s.dirs (cg * fs.fs_ipg + i)) i (ifdir mode)) :=
      { counted with }
    refine counted'.congr fun j inside' => ?_
    by_cases here : j = i
    · rw [here, update_self, update_self]
    · rw [update_of_ne here, update_of_ne (by omega)]
  · intro k other j inside'
    exact update_of_ne (apart_of_ne within inside' other) _ _
  · rw [sound.summary cg inside]
    simp only [Csum.take, Cg.take]
    omega
  · rw [sound.summary cg inside]
    simp only [Csum.take, Cg.take]
    split <;> omega

theorem Sound.give (inside : cg < fs.fs_ncg) (within : i < fs.fs_ipg)
    (used : isclr (s.groups cg).cg_iused i = false)
    (kind : ifdir mode = s.dirs (cg * fs.fs_ipg + i)) :
    Sound fs { s with
      groups := update s.groups cg ((s.groups cg).give i (ifdir mode))
      fs_cs := update s.fs_cs cg ((s.fs_cs cg).give (ifdir mode))
      fs_cstotal := s.fs_cstotal.give (ifdir mode) } := by
  have counted := (sound.counted cg inside).give within used
  rw [← kind] at counted
  have rotor := sound.rotor cg inside
  rw [sound.summary cg inside]
  refine sound.written inside (g := (s.groups cg).give i (ifdir mode)) counted
    (fun _ _ _ _ => rfl) ?_ ?_ ?_
  · show (if i < (s.groups cg).cg_irotor then i else (s.groups cg).cg_irotor) < fs.fs_ipg
    split
    · exact within
    · exact rotor
  · rw [sound.summary cg inside]
    simp only [Csum.give, Cg.give]
    omega
  · rw [sound.summary cg inside]
    simp only [Csum.give, Cg.give]
    split <;> omega

theorem Sound.ifree (p ino mode : Nat) : Sound fs (s.ifree fs p ino mode) := by
  unfold Kernel.ifree
  split
  · exact { sound with unspoilt := .inr rfl }
  · next inside => exact sound.setProc (show ino < fs.fs_ipg * fs.fs_ncg by omega)

theorem Sound.loop (valid : fs.Valid) (p ipref mode : Nat) (over_quota : Bool) :
    Sound fs (s.loop fs p ipref mode over_quota) := by
  unfold Kernel.loop
  split
  · exact sound.setProc trivial
  · apply sound.setProc
    apply places_inside valid
    have some_inode := valid.some_inode
    rw [div_lt_iff_lt_mul some_inode]
    have some := mul_pos valid.some_group some_inode
    split <;> omega

theorem Sound.ask (inside : ∀ place ∈ places, place.1 < fs.fs_ncg) (p ipref mode : Nat) :
    Sound fs (s.ask p ipref mode places) := by
  cases places with
  | nil => exact sound.setProc trivial
  | cons place places =>
    have rest : ∀ place ∈ places, place.1 < fs.fs_ncg :=
      fun place mem => inside place (List.mem_cons_of_mem _ mem)
    obtain ⟨cg, pref⟩ := place
    unfold Kernel.ask
    dsimp only
    split
    · exact sound.setProc rest
    · exact sound.setProc ⟨inside (cg, pref) List.mem_cons_self, rest⟩

theorem Sound.read (valid : fs.Valid) (inside : cg < fs.fs_ncg)
    (rest : ∀ place ∈ places, place.1 < fs.fs_ncg) (p ipref mode pref : Nat) (bad : Bool) :
    Sound fs (s.read fs p ipref mode cg pref places bad) := by
  unfold Kernel.read
  split
  · exact sound.setProc rest
  next some =>
  obtain ⟨i, within, free, r, rotor, chosen⟩ := choose_spec valid.whole (sound.rotor cg inside)
    ((sound.counted cg inside).some_free fun none => some (.inr none)) pref
  rw [chosen]
  apply (sound.take inside within free rotor mode).setProc
  split
  · exact rest
  · show cg * fs.fs_ipg + i < fs.fs_ipg * fs.fs_ncg
    have := mul_le_mul_right fs.fs_ipg (succ_le_of_lt inside)
    rw [succ_mul, mul_comm fs.fs_ncg] at this
    omega

theorem Sound.freed (valid : fs.Valid) (inside : ino < fs.fs_ipg * fs.fs_ncg) {bad : Bool}
    (careful : bad = false → isclr (s.groups (ino / fs.fs_ipg)).cg_iused (ino % fs.fs_ipg) = false
      → ifdir mode = s.dirs ino) : Sound fs (s.freed fs ino mode bad) := by
  unfold Kernel.freed
  dsimp only
  split
  · exact sound
  · next used =>
    rw [not_or, Bool.not_eq_true, Bool.not_eq_true] at used
    refine sound.give (Nat.div_lt_of_lt_mul inside) (Nat.mod_lt _ valid.some_inode) used.2 ?_
    rw [mul_comm, div_add_mod]
    exact careful used.1 used.2

theorem Sound.step (valid : fs.Valid) (careful : Careful fs s l)
    (taken : Kernel.step fs s l = some t) : Sound fs t := by
  unfold Kernel.step at taken
  split at taken
  · cases taken
  cases l with
  | ialloc p ipref mode =>
    dsimp only at taken
    split at taken
    · cases taken
      exact sound.setProc trivial
    · cases taken
  | loop p over_quota =>
    dsimp only at taken
    split at taken
    · cases taken
      exact sound.loop valid _ _ _ _
    · cases taken
  | ask p =>
    dsimp only at taken
    split at taken
    · next here =>
      cases taken
      have placed := sound.placed p
      rw [here] at placed
      exact sound.ask placed _ _ _
    · cases taken
  | read p bad =>
    dsimp only at taken
    split at taken
    · next here =>
      cases taken
      have placed := sound.placed p
      rw [here] at placed
      exact sound.read valid placed.1 placed.2 _ _ _ _ _
    · cases taken
  | iget p error busy =>
    dsimp only at taken
    split at taken
    · cases taken
      unfold Kernel.got
      split
      · exact sound.ifree _ _ _
      · apply sound.setProc
        split <;> trivial
    · cases taken
  | ifree p ino mode =>
    dsimp only at taken
    split at taken
    · cases taken
      exact sound.ifree _ _ _
    · cases taken
  | freed p bad =>
    dsimp only at taken
    split at taken
    · next here =>
      cases taken
      have placed := sound.placed p
      rw [here] at placed
      refine Sound.setProc (sound.freed valid placed fun read used => ?_) trivial
      subst read
      unfold Careful lapse at careful
      dsimp only at careful
      rw [here] at careful
      simpa [used] using careful
    · cases taken

end

/-- What every state of a run is like, as long as inodes are given back as what they are. -/
theorem inode_counts_hold (valid : fs.Valid) (start : Sound fs s)
    (careful : Guarded (Kernel.step fs) (Careful fs) s labels) :
    Throughout (Kernel.step fs) (fun t => Accounted fs t ∧ Finds fs t ∧
      t.panic ≠ some .map_corrupted ∧ t.panic ≠ some .block_not_in_map) s labels := by
  refine throughout_of_guarded (Sound fs) (fun t sound => ?_)
    (fun u l t sound careful taken => sound.step valid careful taken) start careful
  refine ⟨sound.toAccounted, sound.finds valid, fun spoilt => ?_, fun spoilt => ?_⟩
  all_goals
    rcases sound.unspoilt with none | range
    · rw [none] at spoilt
      cases spoilt
    · rw [range] at spoilt
      cases spoilt

end

def small : Fs := ⟨1, 8⟩

def fresh : Kernel where
  groups := fun _ => ⟨⟨6, 0⟩, 0, fun _ => 3⟩
  fs_cs := fun _ => ⟨6, 0⟩
  fs_cstotal := ⟨6, 0⟩
  procs := fun _ => .idle
  panic := none
  dirs := fun _ => false

theorem fresh_sound : Sound small fresh where
  counted := by
    intro cg inside
    obtain rfl := Nat.lt_one_iff.mp inside
    exact ⟨by decide +kernel, by decide +kernel⟩
  summary := fun _ _ => rfl
  nifree := by decide
  ndir := by decide
  rotor := fun _ _ => show 0 < 8 by decide
  placed := fun _ => trivial
  unspoilt := .inl rfl

/-- A directory is made and removed. -/
theorem inode_counts_hold_small :
    Throughout (Kernel.step small) (fun t => Accounted small t ∧ Finds small t ∧
        t.panic ≠ some .map_corrupted ∧ t.panic ≠ some .block_not_in_map) fresh
      [.ialloc 0 0 IFDIR, .loop 0 false, .ask 0, .read 0 false, .iget 0 false false,
        .ifree 0 2 IFDIR, .freed 0 false] :=
  inode_counts_hold ⟨by decide, by decide, by decide, by decide⟩ fresh_sound (by decide +kernel)

/-- `ufs_iget` fails for a new directory: the group counts one directory, and has none. -/
theorem iget_failure_counts_directory :
    ∃ t, exec (Kernel.step small) fresh [.ialloc 0 0 IFDIR, .loop 0 false, .ask 0, .read 0 false,
      .iget 0 true false, .freed 0 false] = some t ∧ ¬ Accounted small t := by
  refine ⟨_, rfl, fun accounted => ?_⟩
  have ndir := (accounted.counted 0 (by decide)).ndir
  exact absurd ndir (by decide +kernel)

end UfsInodes
