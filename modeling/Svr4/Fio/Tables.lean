import Mathlib.Data.List.Basic

/- The descriptor table of a process: a chain of chunks that grows and never shrinks. -/
namespace Fio
open Function

abbrev Fp := Nat

def NFPCHUNK : Nat := 24

structure Ufchunk where
  uf_ofile : Nat → Option Fp
  uf_pofile : Nat → Nat

/-- What the u area has of the table. `u_flist` has the chunks in the order of `uf_next`. -/
structure Table where
  u_flist : List Ufchunk
  u_nofiles : Nat
  rlim_cur : Nat
  u_rval1 : Nat

inductive Errno
  | EMFILE
  | ENOMEM
  | ENFILE
  deriving DecidableEq

def zeroed : Ufchunk := ⟨fun _ => none, fun _ => 0⟩

/-- `ufp->uf_ofile[fd]`, after as many steps along the chunks as `fd` needs. -/
def ofile : List Ufchunk → Nat → Option Fp
  | [], _ => none
  | ufp :: rest, fd => if fd < NFPCHUNK then ufp.uf_ofile fd else ofile rest (fd - NFPCHUNK)

/-- `none` is `EBADF`. -/
def getf (u : Table) (fd : Nat) : Option Fp :=
  if fd < NFPCHUNK then u.u_flist.head?.bind fun ufp => ufp.uf_ofile fd
  else if u.u_nofiles ≤ fd then none
  else ofile u.u_flist fd

def setf (u : Table) (fd : Nat) (fp : Option Fp) : Table :=
  { u with
    u_flist := u.u_flist.modify (fd / NFPCHUNK) fun ufp =>
      { ufp with uf_ofile := update ufp.uf_ofile (fd % NFPCHUNK) fp } }

inductive Found
  | limit
  | full
  | free (i : Nat)
  deriving DecidableEq

/-- The search of `ufalloc`; `ufp` has the chunks from number `count` on. -/
def search (rlim_cur u_nofiles : Nat) : Nat → Nat → Nat → List Ufchunk → Found
  | 0, _, _, _ => .full
  | fuel + 1, i, count, ufp =>
    if i < u_nofiles then
      if rlim_cur ≤ i then .limit
      else
        let ufp := if count < i / NFPCHUNK then ufp.tail else ufp
        let count := if count < i / NFPCHUNK then i / NFPCHUNK else count
        if ufp.head?.bind (fun ufp => ufp.uf_ofile (i % NFPCHUNK)) = none then .free i
        else search rlim_cur u_nofiles fuel (i + 1) count ufp
    else .full

open List Nat

def Table.longer (u : Table) : Table :=
  { u with u_flist := u.u_flist ++ [zeroed], u_nofiles := u.u_nofiles + NFPCHUNK }

/-- `j` more chunks, of which there is memory for `memory`. -/
def grow : Nat → Nat → Table → Table × Bool
  | 0, _, u => (u, true)
  | _ + 1, 0, u => (u, false)
  | j + 1, memory + 1, u => grow j memory u.longer

/-- The second half of `ufalloc`. `memory` is the number of chunks that `kmem_zalloc` has. -/
def extend (u : Table) (start memory : Nat) : Table × Except Errno Nat :=
  if u.rlim_cur ≤ u.u_nofiles then (u, .error .EMFILE)
  else if start = 0 then
    match grow 1 memory u with
    | (u', true) => ({ u' with u_rval1 := u.u_nofiles }, .ok u.u_nofiles)
    | (u', false) => (u', .error .ENOMEM)
  else
    match grow (max 1 (start / NFPCHUNK + 1 - u.u_nofiles / NFPCHUNK)) memory u with
    | (u', true) =>
      if start < u.u_nofiles then ({ u' with u_rval1 := u.u_nofiles }, .ok u.u_nofiles)
      else ({ u' with u_rval1 := start }, .ok start)
    | (u', false) => (u', .error .ENOMEM)

def ufalloc (u : Table) (start memory : Nat) : Table × Except Errno Nat :=
  if start < u.u_nofiles then
    match search u.rlim_cur u.u_nofiles u.u_nofiles start (start / NFPCHUNK)
        (u.u_flist.drop (start / NFPCHUNK)) with
    | .limit => (u, .error .EMFILE)
    | .free i =>
      ({ u with
          u_rval1 := i
          u_flist := u.u_flist.modify (i / NFPCHUNK) fun ufp =>
            { ufp with uf_pofile := update ufp.uf_pofile (i % NFPCHUNK) 0 } }, .ok i)
    | .full => extend u start memory
  else if u.rlim_cur ≤ start then (u, .error .EMFILE)
  else extend u start memory

/-- There is at least one chunk, and `u_nofiles` is the number of slots. -/
structure Table.Ok (u : Table) : Prop where
  chunks : u.u_flist ≠ []
  slots : u.u_nofiles = NFPCHUNK * u.u_flist.length

section
variable {u : Table} {fd i j start memory : Nat} {fp : Option Fp} {ufp : Ufchunk}
  {chunks rest : List Ufchunk}

theorem ofile_beyond (beyond : NFPCHUNK * chunks.length ≤ fd) : ofile chunks fd = none := by
  induction chunks generalizing fd with
  | nil => rfl
  | cons ufp rest ih =>
    rw [length_cons] at beyond
    unfold NFPCHUNK at ih beyond
    unfold ofile NFPCHUNK
    rw [if_neg (by omega)]
    exact ih (by omega)

theorem Table.Ok.getf_eq (ok : u.Ok) (fd : Nat) : getf u fd = ofile u.u_flist fd := by
  unfold getf
  split
  · rename_i first
    cases shape : u.u_flist with
    | nil => exact absurd shape ok.chunks
    | cons ufp rest =>
      unfold ofile
      rw [if_pos first]
      rfl
  · split
    · rename_i beyond
      rw [ok.slots] at beyond
      exact (ofile_beyond beyond).symm
    · rfl

theorem ofile_eq (chunks : List Ufchunk) (fd : Nat) : ofile chunks fd =
      (chunks.drop (fd / NFPCHUNK)).head?.bind fun ufp => ufp.uf_ofile (fd % NFPCHUNK) := by
  induction chunks generalizing fd with
  | nil => simp [ofile]
  | cons ufp rest ih =>
    unfold ofile
    split
    · rename_i first
      rw [div_eq_of_lt first, mod_eq_of_lt first]
      rfl
    · have shape : fd = (fd - NFPCHUNK) + NFPCHUNK := by omega
      rw [ih]
      conv_rhs => rw [shape]
      rw [add_div_right _ (by decide), add_mod_right]
      rfl

theorem ofile_modify (chunks : List Ufchunk) (inside : i < NFPCHUNK * chunks.length) :
    ofile (chunks.modify (i / NFPCHUNK) fun ufp =>
      { ufp with uf_ofile := update ufp.uf_ofile (i % NFPCHUNK) fp }) fd =
      if fd = i then fp else ofile chunks fd := by
  induction chunks generalizing i fd with
  | nil => simp at inside
  | cons ufp rest ih =>
    by_cases first : i < NFPCHUNK
    · rw [div_eq_of_lt first, mod_eq_of_lt first, modify_zero_cons]
      unfold ofile
      dsimp only
      by_cases here : fd = i
      · subst here
        rw [if_pos first, if_pos rfl, update_self]
      · rw [update_of_ne here, if_neg here]
    · obtain ⟨k, rfl⟩ : ∃ k, i = k + NFPCHUNK := ⟨i - NFPCHUNK, by omega⟩
      rw [add_div_right _ (by decide), add_mod_right, modify_succ_cons]
      unfold ofile
      by_cases here : fd < NFPCHUNK
      · rw [if_pos here, if_pos here, if_neg (by omega)]
      · rw [if_neg here, if_neg here, ih]
        · by_cases same : fd = k + NFPCHUNK
          · rw [if_pos (by omega), if_pos same]
          · rw [if_neg (by omega), if_neg same]
        · rw [length_cons] at inside
          unfold NFPCHUNK at inside ⊢
          omega

theorem ofile_append (chunks : List Ufchunk) : ofile (chunks ++ [zeroed]) fd = ofile chunks fd := by
  induction chunks generalizing fd with
  | nil =>
    simp only [nil_append, ofile, zeroed]
    split
    all_goals rfl
  | cons ufp rest ih =>
    simp only [cons_append, ofile]
    split
    · rfl
    · exact ih

theorem ofile_clear (chunks : List Ufchunk) : ofile (chunks.modify (i / NFPCHUNK) fun ufp =>
      { ufp with uf_pofile := update ufp.uf_pofile (i % NFPCHUNK) 0 }) fd = ofile chunks fd := by
  generalize i / NFPCHUNK = k
  induction chunks generalizing k fd with
  | nil => simp
  | cons ufp rest ih =>
    cases k with
    | zero =>
      rw [modify_zero_cons]
      rfl
    | succ k =>
      rw [modify_succ_cons]
      unfold ofile
      split
      · rfl
      · exact ih k

theorem Table.Ok.modify {f : Ufchunk → Ufchunk} {r : Nat} (ok : u.Ok) (k : Nat) :
    Table.Ok { u with u_flist := u.u_flist.modify k f, u_rval1 := r } := by
  constructor
  · intro empty
    have length := congrArg List.length empty
    rw [length_modify] at length
    exact ok.chunks (length_eq_zero_iff.mp length)
  · rw [length_modify]
    exact ok.slots

theorem Table.Ok.setf (ok : u.Ok) : (setf u fd fp).Ok := ok.modify (fd / NFPCHUNK)

theorem Table.Ok.getf_setf (ok : u.Ok) (inside : i < u.u_nofiles) (fd : Nat) :
    getf (Fio.setf u i fp) fd = if fd = i then fp else getf u fd := by
  rw [ok.setf.getf_eq, ok.getf_eq]
  exact ofile_modify _ (ok.slots ▸ inside)

theorem Table.Ok.inside {fp : Fp} (ok : u.Ok) (here : getf u fd = some fp) : fd < u.u_nofiles := by
  by_contra beyond
  rw [ok.getf_eq, ofile_beyond (ok.slots ▸ Nat.not_lt.mp beyond)] at here
  cases here

theorem grow_spec (ok : u.Ok) (j memory : Nat) : ∃ n ≤ j, (grow j memory u).1.Ok ∧
    (∀ fd, getf (grow j memory u).1 fd = getf u fd) ∧
    (grow j memory u).1.u_nofiles = u.u_nofiles + NFPCHUNK * n ∧
    (grow j memory u).1.rlim_cur = u.rlim_cur ∧
    ((grow j memory u).2 = true ↔ j ≤ memory) ∧ ((grow j memory u).2 = true → n = j) := by
  induction j generalizing memory u with
  | zero => exact ⟨0, Nat.le_refl 0, ok, fun _ => rfl, rfl, rfl, by simp [grow], fun _ => rfl⟩
  | succ j ih =>
    cases memory with
    | zero => exact ⟨0, zero_le _, ok, fun _ => rfl, rfl, rfl, by simp [grow], by simp [grow]⟩
    | succ memory =>
      have ok' : u.longer.Ok := by
        refine ⟨by simp [Table.longer], ?_⟩
        show u.u_nofiles + NFPCHUNK = NFPCHUNK * (u.u_flist ++ [zeroed]).length
        rw [ok.slots, length_append, Nat.mul_add]
        rfl
      have same : ∀ fd, getf u.longer fd = getf u fd := by
        intro fd
        rw [ok'.getf_eq, ok.getf_eq]
        exact ofile_append _
      obtain ⟨n, few, ok'', files, slots, limit, enough, all⟩ := ih ok' memory
      refine ⟨n + 1, by omega, ok'', fun fd => (files fd).trans (same fd), ?_, limit, ?_, ?_⟩
      · show (grow j memory u.longer).1.u_nofiles = _
        rw [slots]
        show u.u_nofiles + NFPCHUNK + NFPCHUNK * n = _
        rw [Nat.mul_add]
        omega
      · show (grow j memory u.longer).2 = true ↔ _
        rw [enough]
        omega
      · intro grown
        rw [all grown]

def Found.Tells (chunks : List Ufchunk) (limit nofiles i : Nat) : Found → Prop
  | .limit => ∃ k, limit ≤ k ∧ ∀ j, i ≤ j → j < k → ofile chunks j ≠ none
  | .free k => i ≤ k ∧ k < nofiles ∧ k < limit ∧ ofile chunks k = none ∧
      ∀ j, i ≤ j → j < k → ofile chunks j ≠ none
  | .full => ∀ j, i ≤ j → j < nofiles → ofile chunks j ≠ none

theorem Found.Tells.earlier {limit nofiles : Nat} {found : Found}
    (tells : found.Tells chunks limit nofiles (i + 1)) (used : ofile chunks i ≠ none) :
    found.Tells chunks limit nofiles i := by
  have more : ∀ k, (∀ j, i + 1 ≤ j → j < k → ofile chunks j ≠ none) →
      ∀ j, i ≤ j → j < k → ofile chunks j ≠ none := by
    intro k later j first last
    by_cases here : j = i
    · rw [here]
      exact used
    · exact later j (by omega) last
  cases found with
  | limit =>
    obtain ⟨k, past, later⟩ := tells
    exact ⟨k, past, more k later⟩
  | free k =>
    obtain ⟨first, last, under, none_here, later⟩ := tells
    exact ⟨by omega, last, under, none_here, more k later⟩
  | full => exact more nofiles tells

theorem search_tells {limit nofiles count : Nat} (chunks : List Ufchunk) (fuel : Nat)
    (enough : nofiles ≤ fuel + i) (low : count ≤ i / NFPCHUNK) (near : i / NFPCHUNK ≤ count + 1) :
    (search limit nofiles fuel i count (chunks.drop count)).Tells chunks limit nofiles i := by
  induction fuel generalizing i count with
  | zero =>
    intro j first last
    omega
  | succ fuel ih =>
    unfold search
    by_cases inside : i < nofiles
    · rw [if_pos inside]
      by_cases limit_here : limit ≤ i
      · rw [if_pos limit_here]
        exact ⟨i, limit_here, fun j first last => by omega⟩
      rw [if_neg limit_here]
      have chunk :
          (if count < i / NFPCHUNK then (chunks.drop count).tail else chunks.drop count) =
            chunks.drop (i / NFPCHUNK) := by
        split
        · rw [tail_drop]
          congr 1
          omega
        · congr 1
          omega
      have number : (if count < i / NFPCHUNK then i / NFPCHUNK else count) = i / NFPCHUNK := by
        split
        · rfl
        · omega
      dsimp only
      rw [chunk, number, ← ofile_eq]
      by_cases free : ofile chunks i = none
      · rw [if_pos free]
        refine ⟨Nat.le_refl i, inside, Nat.not_le.mp limit_here, free, fun j first last => ?_⟩
        omega
      · rw [if_neg free]
        refine Found.Tells.earlier ?_ free
        refine ih (by omega) (Nat.div_le_div_right (by omega)) ?_
        unfold NFPCHUNK
        omega
    · rw [if_neg inside]
      intro j first last
      omega

def Table.Full (u : Table) (start : Nat) : Prop :=
  ∀ j, start ≤ j → j < u.rlim_cur → getf u j ≠ none

/-- The lowest free descriptor at or above `start`, which is below the limit. -/
structure Table.Lowest (u : Table) (start fd : Nat) : Prop where
  above : start ≤ fd
  limit : fd < u.rlim_cur
  free : getf u fd = none
  lowest : ∀ j, start ≤ j → j < fd → getf u j ≠ none

def Table.needs (u : Table) (fd : Nat) : Nat := fd / NFPCHUNK + 1 - u.u_flist.length

structure Allocated (u : Table) (start memory : Nat) (v : Table) (r : Except Errno Nat) : Prop where
  ok : v.Ok
  same : ∀ fd, getf v fd = getf u fd
  limit : v.rlim_cur = u.rlim_cur
  lowest : ∀ fd, r = .ok fd → u.Lowest start fd ∧ fd < v.u_nofiles ∧ u.needs fd ≤ memory
  full : r = .error .EMFILE → u.Full start
  short : r = .error .ENOMEM → ∃ fd, u.Lowest start fd ∧ memory < u.needs fd
  others : r ≠ .error .ENFILE

theorem Allocated.refused (ok : u.Ok) (full : u.Full start) :
    Allocated u start memory u (.error .EMFILE) :=
  ⟨ok, fun _ => rfl, rfl, nofun, fun _ => full, nofun, nofun⟩

theorem allocated_grow {result : Table × Except Errno Nat} {r : Nat} (ok : u.Ok)
    (lowest : u.Lowest start fd) (needs : u.needs fd = j)
    (made : result = match grow j memory u with
      | (u', true) => ({ u' with u_rval1 := r }, .ok fd)
      | (u', false) => (u', .error .ENOMEM)) :
    Allocated u start memory result.1 result.2 := by
  obtain ⟨n, -, ok', files, slots, limit, enough, all⟩ := grow_spec ok j memory
  obtain ⟨v, grown, grows⟩ : ∃ v grown, grow j memory u = (v, grown) := ⟨_, _, rfl⟩
  rw [grows] at ok' files slots limit enough all made
  subst made
  cases grown with
  | true =>
    refine ⟨⟨ok'.chunks, ok'.slots⟩, files, limit, fun fd' same => ?_, nofun, nofun, nofun⟩
    obtain rfl : fd = fd' := Except.ok.inj same
    refine ⟨lowest, ?_, needs ▸ enough.mp rfl⟩
    have size := ok.slots
    have all_here := all rfl
    rw [slots, size, all_here, ← needs]
    unfold Table.needs NFPCHUNK
    omega
  | false =>
    refine ⟨ok', files, limit, nofun, nofun, fun _ => ⟨fd, lowest, ?_⟩, nofun⟩
    rw [needs]
    simpa using enough

theorem extend_spec (ok : u.Ok) (memory : Nat)
    (used : ∀ j, start ≤ j → j < u.u_nofiles → getf u j ≠ none)
    (reach : start < u.u_nofiles ∨ start < u.rlim_cur) :
    Allocated u start memory (extend u start memory).1 (extend u start memory).2 := by
  have size := ok.slots
  have chunks : 0 < u.u_flist.length := length_pos_of_ne_nil ok.chunks
  have free : ∀ fd, u.u_nofiles ≤ fd → getf u fd = none := by
    intro fd beyond
    rw [ok.getf_eq]
    exact ofile_beyond (size ▸ beyond)
  unfold extend
  by_cases limit : u.rlim_cur ≤ u.u_nofiles
  · rw [if_pos limit]
    exact .refused ok fun j first last => used j first (by omega)
  rw [if_neg limit]
  have number : u.u_nofiles / NFPCHUNK = u.u_flist.length := by
    rw [size]
    exact Nat.mul_div_cancel_left _ (by decide)
  have at_end : start < u.u_nofiles → u.Lowest start u.u_nofiles ∧ u.needs u.u_nofiles = 1 := by
    intro inside
    refine ⟨⟨Nat.le_of_lt inside, Nat.not_le.mp limit, free _ (Nat.le_refl _), used⟩, ?_⟩
    unfold Table.needs
    omega
  by_cases zero : start = 0
  · rw [if_pos zero]
    have inside : start < u.u_nofiles := by
      unfold NFPCHUNK at size
      omega
    exact allocated_grow ok (at_end inside).1 (at_end inside).2 rfl
  rw [if_neg zero]
  by_cases inside : start < u.u_nofiles
  · have below : start / NFPCHUNK < u.u_flist.length := by
      rw [Nat.div_lt_iff_lt_mul (by decide), Nat.mul_comm, ← size]
      exact inside
    have chunk : max 1 (start / NFPCHUNK + 1 - u.u_nofiles / NFPCHUNK) = 1 := by omega
    simp only [if_pos inside, chunk]
    exact allocated_grow ok (at_end inside).1 (at_end inside).2 rfl
  · have beyond : u.u_flist.length ≤ start / NFPCHUNK := by
      rw [Nat.le_div_iff_mul_le (by decide), Nat.mul_comm, ← size]
      exact Nat.not_lt.mp inside
    have needs : u.needs start = max 1 (start / NFPCHUNK + 1 - u.u_nofiles / NFPCHUNK) := by
      unfold Table.needs
      omega
    simp only [if_neg inside]
    refine allocated_grow ok ⟨Nat.le_refl _, reach.resolve_left inside,
      free start (Nat.not_lt.mp inside), fun j first last => by omega⟩ needs rfl

theorem ufalloc_spec (ok : u.Ok) (start memory : Nat) :
    Allocated u start memory (ufalloc u start memory).1 (ufalloc u start memory).2 := by
  unfold ufalloc
  by_cases inside : start < u.u_nofiles
  · rw [if_pos inside]
    have tells : (search u.rlim_cur u.u_nofiles u.u_nofiles start (start / NFPCHUNK)
        (u.u_flist.drop (start / NFPCHUNK))).Tells u.u_flist u.rlim_cur u.u_nofiles start :=
      search_tells u.u_flist u.u_nofiles (by omega) (Nat.le_refl _) (Nat.le_succ _)
    cases found : search u.rlim_cur u.u_nofiles u.u_nofiles start (start / NFPCHUNK)
        (u.u_flist.drop (start / NFPCHUNK)) with
    | limit =>
      rw [found] at tells
      obtain ⟨k, past, used⟩ := tells
      refine .refused ok fun j first last => ?_
      rw [ok.getf_eq]
      exact used j first (by omega)
    | free k =>
      rw [found] at tells
      obtain ⟨first, last, under, none_here, used⟩ := tells
      have ok' := ok.modify (f := fun ufp =>
        { ufp with uf_pofile := update ufp.uf_pofile (k % NFPCHUNK) 0 }) (r := k) (k / NFPCHUNK)
      refine ⟨ok', fun fd => ?_, rfl, fun fd same => ?_, nofun, nofun, nofun⟩
      · rw [ok'.getf_eq, ok.getf_eq]
        exact ofile_clear _
      · obtain rfl : k = fd := Except.ok.inj same
        refine ⟨⟨first, under, ?_, fun j here there => ?_⟩, last, ?_⟩
        · rw [ok.getf_eq]
          exact none_here
        · rw [ok.getf_eq]
          exact used j here there
        · have size := ok.slots
          unfold Table.needs NFPCHUNK at *
          omega
    | full =>
      rw [found] at tells
      refine extend_spec ok memory (fun j first last => ?_) (.inl inside)
      rw [ok.getf_eq]
      exact tells j first last
  · rw [if_neg inside]
    by_cases limit : u.rlim_cur ≤ start
    · rw [if_pos limit]
      exact .refused ok fun j first last => by omega
    · rw [if_neg limit]
      exact extend_spec ok memory (fun j first last => by omega) (.inr (by omega))

end

end Fio
