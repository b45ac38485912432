import Svr4.Counting
import Svr4.DoublyLinked
import Svr4.Fio.Tables
import Svr4.Runs

/- Open files, which the processes share. A process sleeps in `VOP_OPEN`, in `VOP_CLOSE` and in
   `procdup`, and may be interrupted between two rounds of a loop. -/
namespace Fio
open Function DoublyLinked Counting Finset

abbrev Vnode := Nat

/-- The last field is not in the source: the calls of `VOP_CLOSE` with the count 1. -/
structure File where
  f_flag : Nat
  f_count : Int
  f_vnode : Option Vnode
  calls : Nat

def cnt (n : Int) : Int := (n + 32768) % 65536 - 32768

inductive After
  | close (fd : Nat)
  | execclose
  | closeall (i : Nat)
  | pexit (child i : Nat)
  deriving DecidableEq

/-- `closing` is asleep in `VOP_CLOSE`, which has got `count`. The loops of `closeall` are at slot
`i`. An `embryo` has its descriptors and does not run before `procdup` is done. -/
inductive Pc
  | idle
  | opening (fd : Nat) (fp : Fp)
  | closing (fp : Fp) (count : Int) (next : After)
  | closeall (i : Nat)
  | pexit (child i : Nat)
  | procdup (child : Nat)
  | embryo (parent : Nat)
  deriving DecidableEq

/-- How a file was freed: by `closef`, which had passed `count`, or by `unfalloc`. -/
inductive Ending
  | closed (calls : Nat) (count : Int)
  | dropped (calls : Nat)
  deriving DecidableEq

/-- No step reads the pointer to the last cell of `file`. `allocated` has what `kmem_zalloc` has
given out, `ended` is not in the source. -/
structure State where
  file : DList Fp
  filecnt : Nat
  files : Fp → File
  allocated : Fp → Bool
  procs : Finset Nat
  u : Nat → Table
  pc : Nat → Pc
  ended : List Ending

def State.setTable (s : State) (p : Nat) (u : Table) : State := { s with u := update s.u p u }

def State.goes (s : State) (p : Nat) (pc : Pc) : State := { s with pc := update s.pc p pc }

def State.setCount (s : State) (fp : Fp) (count : Int) : State :=
  { s with files := update s.files fp { s.files fp with f_count := cnt count } }

def discard (s : State) (fp : Fp) (how : Ending) : Option State :=
  if s.allocated fp then
    some { s with
      file := s.file.remove fp
      filecnt := s.filecnt - 1
      allocated := update s.allocated fp false
      ended := how :: s.ended }
  else none

/-- `fp` is what `kmem_zalloc` returns for the file. -/
def falloc (s : State) (p : Nat) (vp : Option Vnode) (flag : Nat) (fp : Option Fp) (memory : Nat) :
    State × Except Errno (Nat × Fp) :=
  match ufalloc (s.u p) 0 memory with
  | (u, .error error) => (s.setTable p u, .error error)
  | (u, .ok fd) =>
    match fp with
    | none => (s.setTable p u, .error .ENFILE)
    | some fp =>
      ({ s with
          file := s.file.pushFront fp
          filecnt := s.filecnt + 1
          u := update s.u p (setf u fd (some fp))
          files := update s.files fp ⟨flag, 1, vp, 0⟩
          allocated := update s.allocated fp true }, .ok (fd, fp))

def unfalloc (s : State) (fp : Fp) : Option State :=
  let s := s.setCount fp ((s.files fp).f_count - 1)
  if (s.files fp).f_count ≤ 0 then discard s fp (.dropped (s.files fp).calls) else some s

/-- What follows the call of `closef`. An embryo's slots are only on record: `pexit` takes back
their counts. -/
def resume (s : State) (p : Nat) : After → State
  | .close fd => (s.setTable p (setf (s.u p) fd none)).goes p .idle
  | .execclose => s.goes p .idle
  | .closeall i => (s.setTable p (setf (s.u p) i none)).goes p (.closeall (i + 1))
  | .pexit child i =>
    (s.setTable child (setf (s.u child) i none)).goes p (.pexit child (i + 1))

/-- `closef` up to the call of `VOP_CLOSE`. -/
def closef (s : State) (p : Nat) (fp : Fp) (next : After) : State :=
  let count := (s.files fp).f_count
  if count ≤ 0 then resume s p next
  else
    { s with
      files := update s.files fp
        { s.files fp with calls := (s.files fp).calls + one (count = 1) }
      pc := update s.pc p (.closing fp count next) }

/-- `closef` after `VOP_CLOSE`. -/
def closed (s : State) (p : Nat) (fp : Fp) (count : Int) (next : After) : Option State :=
  let now := (s.files fp).f_count
  if 1 < now ∨ now < 0 then some (resume (s.setCount fp (now - 1)) p next)
  else (discard s fp (.closed (s.files fp).calls count)).map fun s => resume s p next

/-- `for (n = 0; n < u.u_nofiles; n++) if (getf(n, &fp) == 0) fp->f_count++;` -/
def share (u : Table) (files : Fp → File) : Fp → File :=
  (List.range u.u_nofiles).foldl (fun files n =>
    match getf u n with
    | none => files
    | some fp => update files fp { files fp with f_count := cnt ((files fp).f_count + 1) }) files

/-- The child is given the descriptors of its parent. -/
def newproc (s : State) (p child : Nat) : State :=
  { s with
    files := share (s.u p) s.files
    procs := insert child s.procs
    u := update s.u child (s.u p)
    pc := update (update s.pc child (.embryo p)) p (.procdup child) }

def State.exits (s : State) (p : Nat) : State :=
  { s with procs := s.procs.erase p, pc := update s.pc p .idle }

/-- The process goes on after `VOP_CLOSE`, or with the next round of its loop. -/
def go (s : State) (p : Nat) : Option State :=
  match s.pc p with
  | .closing fp count next => closed s p fp count next
  | .closeall i =>
    if i < (s.u p).u_nofiles then
      match getf (s.u p) i with
      | none => some (s.goes p (.closeall (i + 1)))
      | some fp => some (closef s p fp (.closeall i))
    else some (s.exits p)
  | .pexit child i =>
    if i < (s.u p).u_nofiles then
      match getf (s.u p) i with
      | none => some (s.goes p (.pexit child (i + 1)))
      | some fp => some (closef s p fp (.pexit child i))
    else some ((s.exits child).goes p .idle)
  | _ => none

/-- `setf(fd, fp); fp->f_count++;` -/
def install (s : State) (p fd : Nat) (fp : Fp) : State :=
  (s.setTable p (setf (s.u p) fd (some fp))).setCount fp ((s.files fp).f_count + 1)

/-- A label has the answers of `kmem_zalloc`, of `VOP_OPEN` and of `procdup`. -/
inductive Label
  | falloc (p : Nat) (vp : Vnode) (flag : Nat) (fp : Option Fp) (memory : Nat)
  | fassign (p : Nat) (flag : Nat) (fp : Option Fp) (memory : Nat)
  | opened (p : Nat) (vp : Option Vnode)
  | unfalloc (p fd : Nat)
  | close (p fd : Nat)
  | execclose (p fd : Nat)
  | exit (p : Nat)
  | dup (p fd start memory : Nat)
  | dup2 (p fd fd2 : Nat)
  | newproc (p child : Nat)
  | procdup (p : Nat) (copied : Bool)
  | setrlimit (p rlim_cur : Nat)
  | go (p : Nat)

def State.free (s : State) (p : Nat) : Bool := decide (p ∈ s.procs) && decide (s.pc p = .idle)

def State.fresh (s : State) (fp : Option Fp) : Bool := fp.all fun fp => ! s.allocated fp

/-- `unfalloc` is for files that their creator has alone. -/
def step (s : State) : Label → Option State
  | .falloc p vp flag fp memory =>
    if s.free p && s.fresh fp then some (falloc s p (some vp) flag fp memory).1 else none
  | .fassign p flag fp memory =>
    if s.free p && s.fresh fp then
      match falloc s p none flag fp memory with
      | (s, .error _) => some s
      | (s, .ok (fd, fp)) => some (s.goes p (.opening fd fp))
    else none
  | .opened p vp =>
    match s.pc p with
    | .opening fd fp =>
      match vp with
      | some vp =>
        some { s with
          files := update s.files fp { s.files fp with f_vnode := some vp }
          pc := update s.pc p .idle }
      | none => unfalloc ((s.setTable p (setf (s.u p) fd none)).goes p .idle) fp
    | _ => none
  | .unfalloc p fd =>
    if s.free p then
      (getf (s.u p) fd).bind fun fp =>
        if (s.files fp).f_count = 1 then
          (unfalloc s fp).map fun s => s.setTable p (setf (s.u p) fd none)
        else none
    else none
  | .close p fd =>
    if s.free p then (getf (s.u p) fd).map fun fp => closef s p fp (.close fd) else none
  | .execclose p fd =>
    if s.free p then
      (getf (s.u p) fd).map fun fp =>
        closef (s.setTable p (setf (s.u p) fd none)) p fp .execclose
    else none
  | .exit p => if s.free p then some (s.goes p (.closeall 0)) else none
  | .dup p fd start memory =>
    if s.free p then
      (getf (s.u p) fd).map fun fp =>
        match ufalloc (s.u p) start memory with
        | (u, .error _) => s.setTable p u
        | (u, .ok fd) => install (s.setTable p u) p fd fp
    else none
  | .dup2 p fd fd2 =>
    if s.free p && decide (fd2 < (s.u p).u_nofiles) && (getf (s.u p) fd2).isNone then
      (getf (s.u p) fd).map fun fp => install s p fd2 fp
    else none
  | .newproc p child =>
    if s.free p && decide (child ∉ s.procs) then some (newproc s p child) else none
  | .procdup p copied =>
    match s.pc p with
    | .procdup child =>
      some (if copied then (s.goes child .idle).goes p .idle else s.goes p (.pexit child 0))
    | _ => none
  | .setrlimit p rlim_cur =>
    if s.free p then some (s.setTable p { s.u p with rlim_cur := rlim_cur }) else none
  | .go p => go s p

def finit (rlim_cur : Nat) : State where
  file := ⟨fun _ => none, fun _ => none, none, none⟩
  filecnt := 0
  files := fun _ => ⟨0, 0, none, 0⟩
  allocated := fun _ => false
  procs := {0}
  u := fun _ => ⟨[zeroed], NFPCHUNK, rlim_cur, 0⟩
  pc := fun _ => .idle
  ended := []

end Fio

/- What the counts of the files count. -/
namespace Fio
open Function DoublyLinked Counting Finset

def slots (u : Table) (fp : Fp) : Nat := ∑ fd ∈ Finset.range u.u_nofiles, one (getf u fd = some fp)

/-- A close in progress whose slot has been cleared already. -/
def Pc.hand (fp : Fp) : Pc → Nat
  | .closing f _ .execclose => one (f = fp)
  | _ => 0

def Pc.closes (fp : Fp) : Pc → Nat
  | .closing f _ _ => one (f = fp)
  | _ => 0

def State.mine (s : State) (fp : Fp) (p : Nat) : Nat := slots (s.u p) fp + (s.pc p).hand fp

/-- The references to the file: the slots, those of opens and closes in progress among them, and
closes without a slot. -/
def State.refs (s : State) (fp : Fp) : Nat := ∑ p ∈ s.procs, s.mine fp p

def State.closers (s : State) (fp : Fp) : Nat := ∑ p ∈ s.procs, (s.pc p).closes fp

/-- What the process and the slots say about each other. -/
def Pc.Ok (s : State) (p : Nat) : Pc → Prop
  | .idle => True
  | .opening fd fp => p ∈ s.procs ∧ getf (s.u p) fd = some fp ∧ (s.files fp).f_count = 1
  | .closing fp _ next => p ∈ s.procs ∧
    match next with
    | .close fd => getf (s.u p) fd = some fp
    | .execclose => True
    | .closeall i => getf (s.u p) i = some fp ∧ ∀ j, j < i → getf (s.u p) j = none
    | .pexit c i => c ∈ s.procs ∧ s.pc c = .embryo p ∧ getf (s.u p) i = some fp ∧
      (∀ j, i ≤ j → getf (s.u c) j = getf (s.u p) j) ∧ ∀ j, j < i → getf (s.u c) j = none
  | .closeall i => p ∈ s.procs ∧ ∀ j, j < i → getf (s.u p) j = none
  | .pexit c i => p ∈ s.procs ∧ c ∈ s.procs ∧ s.pc c = .embryo p ∧
      (∀ j, i ≤ j → getf (s.u c) j = getf (s.u p) j) ∧ ∀ j, j < i → getf (s.u c) j = none
  | .procdup c => p ∈ s.procs ∧ c ∈ s.procs ∧ s.pc c = .embryo p ∧
      ∀ j, getf (s.u c) j = getf (s.u p) j
  | .embryo _ => p ∈ s.procs

def PcOk (s : State) (p : Nat) : Prop := (s.pc p).Ok s p

/-- Nobody is closing the file for the last time and not all references are being closed, or its
only one is. -/
def Closing (s : State) (fp : Fp) : Prop :=
  ((s.files fp).calls = 0 ∧ (s.closers fp : Int) < (s.files fp).f_count ∧
    ∀ p c next, s.pc p = .closing fp c next → c ≠ 1) ∨
  ((s.files fp).calls = 1 ∧ s.closers fp = 1 ∧ (s.files fp).f_count = 1 ∧
    ∀ p c next, s.pc p = .closing fp c next → c = 1)

def Ending.Right : Ending → Prop
  | .closed calls count => calls = 1 ∧ count = 1
  | .dropped calls => calls = 0

def Filed (s : State) : Prop :=
  ∃ xs, s.file.Holds xs ∧ s.filecnt = xs.length ∧ ∀ fp, s.allocated fp = true ↔ fp ∈ xs

structure Sound (s : State) : Prop where
  tables : ∀ p, (s.u p).Ok
  filed : Filed s
  counts : ∀ fp, s.allocated fp = true → (s.files fp).f_count = s.refs fp ∧ s.refs fp ≤ 32767
  live : ∀ fp, s.allocated fp = true → 0 < s.refs fp
  dead : ∀ fp, s.allocated fp = false → s.refs fp = 0
  pcs : ∀ p, PcOk s p
  closing : ∀ fp, s.allocated fp = true → Closing s fp
  ended : ∀ e ∈ s.ended, e.Right

section
variable {s t : State} {p q fd i j : Nat} {fp f : Fp} {u v : Table} {o : Option Fp}

theorem slots_change (fp : Fp) (ok : u.Ok) (inside : i < u.u_nofiles) :
    slots (setf u i o) fp + one (getf u i = some fp) = slots u fp + one (o = some fp) := by
  have change := sum_change (S := range u.u_nofiles)
    (f := fun fd => one (getf (setf u i o) fd = some fp))
    (g := fun fd => one (getf u fd = some fp)) (mem_range.mpr inside) fun fd _ other => by
      rw [ok.getf_setf inside, if_neg other]
  rw [ok.getf_setf inside, if_pos rfl] at change
  exact change

theorem slots_congr (ok : u.Ok) (ok' : v.Ok) (same : ∀ fd, getf v fd = getf u fd) (fp : Fp) :
    slots v fp = slots u fp := by
  have grown : ∀ {a b : Table}, a.Ok → a.u_nofiles ≤ b.u_nofiles →
      (∀ fd, getf b fd = getf a fd) → slots b fp = slots a fp := by
    intro a b ok below same
    unfold slots
    simp only [same]
    refine (sum_subset (range_mono below) fun fd _ out => ?_).symm
    refine one_false fun here => ?_
    exact out (mem_range.mpr (ok.inside here))
  rcases Nat.le_total u.u_nofiles v.u_nofiles with below | below
  · exact grown ok below same
  · exact (grown ok' below fun fd => (same fd).symm).symm

theorem slots_pos (ok : u.Ok) (here : getf u fd = some fp) : 0 < slots u fp := by
  have part := term_le (f := fun fd => one (getf u fd = some fp)) (mem_range.mpr (ok.inside here))
  rw [one_true here] at part
  exact part

theorem slots_empty (empty : ∀ fd, getf u fd = none) : slots u fp = 0 := by
  refine sum_eq_zero fun fd _ => one_false ?_
  rw [empty fd]
  nofun

theorem closes_le (ok : (s.u p).Ok) (here : PcOk s p) (fp : Fp) :
    (s.pc p).closes fp ≤ s.mine fp p := by
  unfold State.mine
  unfold PcOk at here
  generalize s.pc p = pc at here
  cases pc with
  | closing f c next =>
    by_cases same : f = fp
    · subst same
      have one_slot : ∀ {fd}, getf (s.u p) fd = some f → one (f = f) ≤ slots (s.u p) f := by
        intro fd named
        rw [one_true rfl]
        exact slots_pos ok named
      cases next with
      | close fd => exact Nat.le_add_right_of_le (one_slot here.2)
      | execclose => exact Nat.le_add_left _ _
      | closeall i => exact Nat.le_add_right_of_le (one_slot here.2.1)
      | pexit c i => exact Nat.le_add_right_of_le (one_slot here.2.2.2.1)
    · simp [Pc.closes, same]
  | _ => exact Nat.zero_le _

theorem Sound.at {pc : Pc} (sound : Sound s) (here : s.pc p = pc) : pc.Ok s p :=
  here ▸ sound.pcs p

theorem Sound.closers_lt (sound : Sound s) (mem : q ∈ s.procs) (open_file : (s.pc q).closes fp = 0)
    (mine : 0 < s.mine fp q) : s.closers fp < s.refs fp := by
  refine sum_lt_sum (fun p _ => closes_le (sound.tables p) (sound.pcs p) fp) ⟨q, mem, ?_⟩
  omega

theorem Sound.alone (sound : Sound s) (allocated : s.allocated fp = true)
    (single : (s.files fp).f_count = 1) (p_mem : p ∈ s.procs) (q_mem : q ∈ s.procs)
    (p_mine : 0 < s.mine fp p) (q_mine : 0 < s.mine fp q) : p = q := by
  by_contra apart
  have both := two_terms_le (f := s.mine fp) p_mem q_mem apart
  have count := (sound.counts fp allocated).1
  have total : s.refs fp = ∑ i ∈ s.procs, s.mine fp i := rfl
  omega

theorem Sound.named (sound : Sound s) (mem : p ∈ s.procs) (mine : 0 < s.mine fp p) :
    s.allocated fp = true := by
  by_contra free
  have none_left := sound.dead fp (by simpa using free)
  have part := term_le (f := s.mine fp) mem
  have total : s.refs fp = ∑ i ∈ s.procs, s.mine fp i := rfl
  omega

theorem Sound.mine_slot (sound : Sound s) (here : getf (s.u p) fd = some fp) : 0 < s.mine fp p :=
  Nat.lt_of_lt_of_le (slots_pos (sound.tables p) here) (Nat.le_add_right _ _)

theorem Sound.opening_apart (sound : Sound s) (opening : s.pc q = .opening fd fp) (other : q ≠ p)
    (mem : p ∈ s.procs) (mine : 0 < s.mine fp p) : False := by
  obtain ⟨q_mem, named, single⟩ := sound.at opening
  exact other (sound.alone (sound.named mem mine) single q_mem mem (sound.mine_slot named) mine)

theorem Sound.slot_cleared (sound : Sound s) (named : getf (s.u p) fd = some fp) (f : Fp) :
    slots (setf (s.u p) fd none) f + one (fp = f) = slots (s.u p) f := by
  have change := slots_change f (o := none) (sound.tables p) ((sound.tables p).inside named)
  simpa only [named, Option.some.injEq, reduceCtorEq, not_false_eq_true, one_false, add_zero]
    using change

theorem update_ok {us : Nat → Table} (tables : ∀ r, (us r).Ok) (ok : u.Ok) (r : Nat) :
    (update us p u r).Ok :=
  (forall_update_iff us fun _ u => u.Ok).mpr ⟨ok, fun r _ => tables r⟩ r

theorem refs_change (fp : Fp) (procs : t.procs = s.procs) (mem : p ∈ s.procs)
    (others : ∀ q ∈ s.procs, q ≠ p → t.mine fp q = s.mine fp q) :
    t.refs fp + s.mine fp p = s.refs fp + t.mine fp p := by
  unfold State.refs
  rw [procs]
  exact sum_change mem others

theorem refs_same (procs : t.procs = s.procs) (same : ∀ q ∈ s.procs, t.mine fp q = s.mine fp q) :
    t.refs fp = s.refs fp := by
  unfold State.refs
  rw [procs]
  exact sum_congr rfl same

theorem closers_change (procs : t.procs = s.procs) (mem : p ∈ s.procs)
    (others : ∀ q ∈ s.procs, q ≠ p → t.pc q = s.pc q) (fp : Fp) :
    t.closers fp + (s.pc p).closes fp = s.closers fp + (t.pc p).closes fp := by
  unfold State.closers
  rw [procs]
  refine sum_change (f := fun p => (t.pc p).closes fp) (g := fun p => (s.pc p).closes fp) mem ?_
  intro q hq other
  rw [others q hq other]

/-- What another process does matters only to a child that waits to run and to the file that is
being opened. -/
theorem PcOk.frame (ok : PcOk s q) (own : ∀ fd, getf (t.u q) fd = getf (s.u q) fd)
    (pc : t.pc q = s.pc q) (procs : ∀ r, r = q ∨ s.pc r = .embryo q → r ∈ s.procs → r ∈ t.procs)
    (child : ∀ c, s.pc c = .embryo q → t.pc c = s.pc c ∧ ∀ fd, getf (t.u c) fd = getf (s.u c) fd)
    (counts : ∀ fd fp, s.pc q = .opening fd fp → (t.files fp).f_count = (s.files fp).f_count) :
    PcOk t q := by
  unfold PcOk at ok ⊢
  rw [pc]
  cases shape : s.pc q with
  | idle => trivial
  | embryo r =>
    rw [shape] at ok
    exact procs q (.inl rfl) ok
  | opening fd fp =>
    rw [shape] at ok
    obtain ⟨mem, named, single⟩ := ok
    exact ⟨procs q (.inl rfl) mem, (own fd).trans named, (counts fd fp shape).trans single⟩
  | closeall i =>
    rw [shape] at ok
    exact ⟨procs q (.inl rfl) ok.1, fun j before => (own j).trans (ok.2 j before)⟩
  | pexit c i =>
    rw [shape] at ok
    obtain ⟨mem, child_mem, waits, copies, cleared⟩ := ok
    obtain ⟨still, same⟩ := child c waits
    refine ⟨procs q (.inl rfl) mem, procs c (.inr waits) child_mem, still.trans waits, ?_, ?_⟩
    · intro j later
      rw [same, own, copies j later]
    · intro j before
      rw [same, cleared j before]
  | procdup c =>
    rw [shape] at ok
    obtain ⟨mem, child_mem, waits, copies⟩ := ok
    obtain ⟨still, same⟩ := child c waits
    refine ⟨procs q (.inl rfl) mem, procs c (.inr waits) child_mem, still.trans waits, ?_⟩
    intro j
    rw [same, own, copies j]
  | closing fp count next =>
    rw [shape] at ok
    obtain ⟨mem, rest⟩ := ok
    refine ⟨procs q (.inl rfl) mem, ?_⟩
    cases next with
    | close fd => exact (own fd).trans rest
    | execclose => trivial
    | closeall i => exact ⟨(own i).trans rest.1, fun j before => (own j).trans (rest.2 j before)⟩
    | pexit c i =>
      obtain ⟨child_mem, waits, named, copies, cleared⟩ := rest
      obtain ⟨still, same⟩ := child c waits
      refine ⟨procs c (.inr waits) child_mem, still.trans waits, (own i).trans named, ?_, ?_⟩
      · intro j later
        rw [same, own, copies j later]
      · intro j before
        rw [same, cleared j before]

/-- When a process acts that does not wait for its parent, the others stand as they did. -/
theorem Sound.stands (sound : Sound s) (acts : ∀ r, s.pc p ≠ .embryo r) (other : q ≠ p)
    (pcs : ∀ r, r ≠ p → t.pc r = s.pc r) (tables : ∀ r, r ≠ p → t.u r = s.u r)
    (procs : t.procs = s.procs)
    (counts : ∀ fd f, s.pc q = .opening fd f → (t.files f).f_count = (s.files f).f_count) :
    PcOk t q := by
  refine (sound.pcs q).frame (fun _ => by rw [tables q other]) (pcs q other)
    (fun _ _ mem => procs ▸ mem) (fun c waits => ?_) counts
  have apart : c ≠ p := by
    rintro rfl
    exact acts q waits
  exact ⟨pcs c apart, fun _ => by rw [tables c apart]⟩

theorem Closing.frame (closing : Closing s f) (count : (t.files f).f_count = (s.files f).f_count)
    (calls : (t.files f).calls = (s.files f).calls) (closers : t.closers f = s.closers f)
    (same : ∀ r c next, t.pc r = .closing f c next → s.pc r = .closing f c next) :
    Closing t f := by
  unfold Closing
  rw [count, calls, closers]
  rcases closing with ⟨none_told, few, others⟩ | ⟨told, single, last, others⟩
  · exact .inl ⟨none_told, few, fun r c next here => others r c next (same r c next here)⟩
  · exact .inr ⟨told, single, last, fun r c next here => others r c next (same r c next here)⟩

end

end Fio
