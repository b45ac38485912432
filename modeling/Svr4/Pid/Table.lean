import Mathlib.Algebra.Group.Nat.Defs
import Mathlib.Data.List.Range
import Svr4.Runs

/- os/pid.c: process identifiers, the structures that stand for them, and the /proc slots. -/
namespace Pid
open Function

def MAXPID : Nat := 30000
def HASHSZ : Nat := 64

/-- Who calls PID_HOLD: `pid_assign` for the process, `pgjoin` for a group's first member,
`sess_create` for the session, and a stream for its terminal's session and foreground group. A group
is in the session in which its leader was born or that it leads, and each has one terminal. -/
inductive Holder
  | process
  | group
  | session
  | terminal
  | foreground_of_birth
  | foreground_of_session
  deriving DecidableEq

inductive Stat
  | SIDL
  | other
  deriving DecidableEq

structure PidInfo where
  pid_prinactive : Bool
  /-- Six bits. -/
  pid_ref : Nat
  /-- Twenty-four bits. -/
  pid_prslot : Nat
  pid_id : Nat

structure Proc where
  p_stat : Stat
  p_uid : Nat
  p_pidp : Nat

/-- Where the tables are, and the processes that the tunables allow: NPROC is from 50 to 400. -/
structure Config where
  v_proc : Nat
  v_maxup : Nat
  procdir : Nat
  proc_sched : Nat
  pid0 : Nat
  tuned : 50 ≤ v_proc ∧ v_proc ≤ 400
  placed : 0 < procdir
  sched_placed : 0 < proc_sched ∧
    (proc_sched < procdir ∨ procdir + 4 * v_proc ≤ proc_sched)

/-- A word of the /proc directory is the address of a process or of the next free entry, or
    NULL. Who holds a pid is kept beside the count. -/
structure State where
  nproc : Nat
  minpid : Nat
  mpid : Nat
  pidhash : Nat → List Nat
  pids : Nat → PidInfo
  procs : Nat → Proc
  practive : List Nat
  dir : Nat → Nat
  procentfree : Nat
  holders : Nat → List Holder

section
variable (c : Config) (s : State)

def Config.entry (slot : Nat) : Nat := c.procdir + 4 * slot

def Config.InDir (w : Nat) : Prop := c.procdir ≤ w ∧ w < c.procdir + 4 * c.v_proc

instance (w : Nat) : Decidable (c.InDir w) := inferInstanceAs (Decidable (_ ∧ _))

def pid_lookup (pid : Int) : Option Nat :=
  (s.pidhash (pid % HASHSZ).toNat).find? fun pidp => ((s.pids pidp).pid_id : Int) = pid

def PID_HOLD (pidp : Nat) (holder : Holder) : State :=
  { s with
      pids := update s.pids pidp
        { s.pids pidp with pid_ref := ((s.pids pidp).pid_ref + 1) % 64 }
      holders := update s.holders pidp (holder :: s.holders pidp) }

def pid_rele (pidp : Nat) : State :=
  let bucket := (s.pids pidp).pid_id % HASHSZ
  { s with pidhash := update s.pidhash bucket ((s.pidhash bucket).erase pidp) }

def PID_RELE (pidp : Nat) (holder : Holder) : State :=
  let s := { s with holders := update s.holders pidp ((s.holders pidp).erase holder) }
  if 1 < (s.pids pidp).pid_ref then
    { s with
        pids := update s.pids pidp { s.pids pidp with pid_ref := (s.pids pidp).pid_ref - 1 } }
  else pid_rele s pidp

def pid_setmin : State := { s with minpid := s.mpid + 1 }

/-- `if (++mpid == MAXPID) mpid = minpid` -/
def next_mpid (minpid mpid : Nat) : Nat := if mpid + 1 = MAXPID then minpid else mpid + 1

/-- The loop for a free id, in so many turns at most. -/
def search : Nat → Nat → Option Nat
  | 0, _ => none
  | fuel + 1, mpid =>
    let mpid := next_mpid s.minpid mpid
    if (pid_lookup s mpid).isSome then search fuel mpid else some mpid

inductive Halt
  | panic
  | endless

/-- The end of `pid_assign`, from the allocation of the directory entry on. -/
def enter (prp pidp mpid : Nat) : State :=
  let slot := (s.procentfree - c.procdir) / 4
  let s :=
    { s with
        mpid := mpid
        procentfree := s.dir slot
        dir := update s.dir slot prp
        pids := update s.pids pidp ⟨false, 0, slot % 2 ^ 24, mpid⟩
        holders := update s.holders pidp [] }
  let s := PID_HOLD s pidp .process
  { s with
      pidhash := update s.pidhash (mpid % HASHSZ) (pidp :: s.pidhash (mpid % HASHSZ))
      procs := update s.procs prp ⟨.SIDL, 0, pidp⟩
      practive := prp :: s.practive
      nproc := s.nproc + 1 }

/-- The id, or -1. The process and the pid are where memory was found for them, if it was. After
    twice MAXPID turns all ids have been seen, and the search has no end. -/
def pid_assign (np_nolast np_failok : Bool) (cr_uid cr_ruid : Nat) (prp pidp : Option Nat) :
    Except Halt (State × Int) :=
  if c.v_proc - 1 ≤ s.nproc ∧ (s.nproc = c.v_proc ∨ np_nolast = true) then .ok (s, -1)
  else if (cr_uid ≠ 0 ∧ cr_ruid ≠ 0) ∧
      c.v_maxup ≤ s.practive.countP fun prp => (s.procs prp).p_uid = cr_ruid then .ok (s, -1)
  else
    match prp, pidp with
    | some prp, some pidp =>
      match search s (2 * MAXPID) s.mpid with
      | none => .error .endless
      | some mpid => .ok (enter c s prp pidp mpid, mpid)
    | _, _ => if np_failok = true then .ok (s, -1) else .error .panic

/-- `pgexit` and SESS_RELE release the pid of a group or a session that is left empty. -/
def pid_exit (prp : Nat) (group session : Option Nat) : State :=
  let s := match group with
    | some pgp => PID_RELE s pgp .group
    | none => s
  let s := match session with
    | some s_sidp => PID_RELE s s_sidp .session
    | none => s
  let pidp := (s.procs prp).p_pidp
  let slot := (s.pids pidp).pid_prslot
  let s :=
    { s with
        pids := update s.pids pidp { s.pids pidp with pid_prinactive := true }
        dir := update s.dir slot s.procentfree
        procentfree := c.entry slot }
  let s := PID_RELE s pidp .process
  { s with practive := s.practive.erase prp, nproc := s.nproc - 1 }

def prfind (pid : Int) : Option Nat :=
  match pid_lookup s pid with
  | some pidp =>
    if (s.pids pidp).pid_prinactive = false then some (s.dir (s.pids pidp).pid_prslot) else none
  | none => none

def pid_entry (slot : Nat) : Option Nat :=
  let pep := s.dir slot
  if c.InDir pep ∨ pep = 0 then none
  else if (s.procs pep).p_stat = .SIDL then none
  else some pep

def State.held : List Nat := (List.range HASHSZ).flatMap s.pidhash

end

def pid_init (c : Config) (procs : Nat → Proc) (pids : Nat → PidInfo) : State where
  nproc := 1
  minpid := 0
  mpid := 0
  pidhash := fun bucket => if bucket = 0 then [c.pid0] else []
  pids := update pids c.pid0 ⟨false, 3, 0, 0⟩
  procs := update procs c.proc_sched { procs c.proc_sched with p_pidp := c.pid0 }
  practive := [c.proc_sched]
  dir := fun slot =>
    if slot = 0 then c.proc_sched
    else if slot < c.v_proc - 1 then c.entry (slot + 1)
    else 0
  procentfree := c.entry 1
  holders := update (fun _ => []) c.pid0 [.process, .group, .session]

/-- What the rest of the system does with pids. It sets the status and the user of a process. -/
inductive Event
  | pid_assign (np_nolast np_failok : Bool) (cr_uid cr_ruid : Nat) (prp pidp : Option Nat)
  | PID_HOLD (pidp : Nat) (holder : Holder)
  | PID_RELE (pidp : Nat) (holder : Holder)
  | pid_exit (prp : Nat) (group session : Option Nat)
  | pid_setmin
  | set (prp : Nat) (p_stat : Stat) (p_uid : Nat)

/-- Memory is found where nothing else is. A holder holds a pid once and releases what it holds; the
process holds its own until it exits, and process 0 does not exit. -/
def Event.Possible (c : Config) (s : State) : Event → Prop
  | .pid_assign _ _ _ _ prp pidp =>
    (∀ a ∈ prp, a ≠ 0 ∧ ¬ c.InDir a ∧ a ∉ s.practive) ∧ ∀ a ∈ pidp, a ∉ s.held
  | .PID_HOLD pidp holder => pidp ∈ s.held ∧ holder ∉ s.holders pidp ∧ holder ≠ .process
  | .PID_RELE pidp holder => holder ∈ s.holders pidp ∧ holder ≠ .process
  | .pid_exit prp group session =>
    prp ∈ s.practive ∧ prp ≠ c.proc_sched ∧ (∀ pgp ∈ group, .group ∈ s.holders pgp) ∧
      ∀ s_sidp ∈ session, .session ∈ s.holders s_sidp
  | .pid_setmin => True
  | .set prp _ _ => prp ∈ s.practive

instance Event.decidable_possible (c : Config) (s : State) :
    (e : Event) → Decidable (e.Possible c s)
  | .pid_assign .. | .PID_HOLD .. | .PID_RELE .. | .pid_exit .. =>
    inferInstanceAs (Decidable (_ ∧ _))
  | .pid_setmin => inferInstanceAs (Decidable True)
  | .set _ _ _ => inferInstanceAs (Decidable (_ ∈ _))

def run_event (c : Config) (s : State) : Event → Option State
  | .pid_assign np_nolast np_failok cr_uid cr_ruid prp pidp =>
    match pid_assign c s np_nolast np_failok cr_uid cr_ruid prp pidp with
    | .ok (s, _) => some s
    | .error _ => none
  | .PID_HOLD pidp holder => some (PID_HOLD s pidp holder)
  | .PID_RELE pidp holder => some (PID_RELE s pidp holder)
  | .pid_exit prp group session => some (pid_exit c s prp group session)
  | .pid_setmin => some (pid_setmin s)
  | .set prp p_stat p_uid =>
    some { s with
      procs := update s.procs prp { s.procs prp with p_stat := p_stat, p_uid := p_uid } }

def step (c : Config) (s : State) (e : Event) : Option State :=
  if e.Possible c s then run_event c s e else none

/-- A function of the cells that the change of one cell keeps. -/
theorem update_field {α β : Type} {f : α → β} {g : Nat → α} {a : Nat} {v : α} (same : f v = f (g a))
    (b : Nat) : f (update g a v b) = f (g b) := by
  rw [apply_update fun _ => f, same, update_eq_self]

end Pid
