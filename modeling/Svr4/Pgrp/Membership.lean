import Mathlib.Data.List.Count
import Mathlib.Data.List.Nodup
import Svr4.Runs

/- os/pgrp.c: process groups and whether they are orphaned, with the calls that create
   processes, move them between groups and sessions, and end them. -/
namespace Pgrp
open Function List

inductive Stat
  | SSLEEP
  | SRUN
  | SZOMB
  | SSTOP
  | SIDL
  | SONPROC
  | SXBRK
  deriving DecidableEq

inductive Why
  | PR_REQUESTED
  | PR_SIGNALLED
  | PR_SYSENTRY
  | PR_SYSEXIT
  | PR_JOBCONTROL
  | PR_FAULTED
  deriving DecidableEq

inductive Signal
  | SIGHUP
  | SIGKILL
  | SIGCONT
  deriving DecidableEq

/-- A process goes by the number of its pid structure, p_pidp. `posted` has what `psignal` was
called with. -/
structure Proc where
  p_stat : Stat
  p_whystop : Why
  p_parent : Option Nat
  /-- The chain from p_child through p_sibling. -/
  p_child : List Nat
  p_pgidp : Option Nat
  p_sessp : Nat
  sexeced : Bool
  strc : Bool
  posted : List Signal

/-- A pid structure whose count is 0 has been freed. -/
structure PidInfo where
  pid_ref : Nat
  pid_pgorphaned : Bool
  /-- The chain from pid_pglink through p_pglink. -/
  pid_pglink : List Nat

structure Sess where
  s_ref : Nat
  s_sidp : Nat

/-- `streams` counts what the streams hold of a pid. -/
structure State where
  practive : List Nat
  procs : Nat → Proc
  pids : Nat → PidInfo
  sessions : List Nat
  sess : Nat → Sess
  streams : Nat → Nat

def proc_sched : Nat := 0
def proc_init : Nat := 1
def session0 : Nat := 0

def pglinked (procs : Nat → Proc) (cp : Nat) : Bool :=
  match (procs cp).p_parent with
  | some pp =>
    decide ((procs pp).p_pgidp ≠ (procs cp).p_pgidp ∧ (procs pp).p_sessp = (procs cp).p_sessp)
  | none => false

section
variable (s : State)

def setProc (p : Nat) (pr : Proc) : State := { s with procs := update s.procs p pr }

def setPid (g : Nat) (pid : PidInfo) : State := { s with pids := update s.pids g pid }

def PID_HOLD (g : Nat) : State := setPid s g { s.pids g with pid_ref := (s.pids g).pid_ref + 1 }

def PID_RELE (g : Nat) : State := setPid s g { s.pids g with pid_ref := (s.pids g).pid_ref - 1 }

def SESS_HOLD (sp : Nat) : State :=
  { s with sess := update s.sess sp { s.sess sp with s_ref := (s.sess sp).s_ref + 1 } }

/-- `sess_rele` gives the pid and the session up with the last reference. -/
def SESS_RELE (sp : Nat) : State :=
  if 1 < (s.sess sp).s_ref then
    { s with sess := update s.sess sp { s.sess sp with s_ref := (s.sess sp).s_ref - 1 } }
  else { PID_RELE s (s.sess sp).s_sidp with sessions := s.sessions.erase sp }

def pgjoin (p pgp : Nat) : State :=
  let first := (s.pids pgp).pid_pglink.isEmpty
  let s := setPid s pgp { s.pids pgp with pid_pglink := p :: (s.pids pgp).pid_pglink }
  let s := setProc s p { s.procs p with p_pgidp := some pgp }
  if first = true then
    let s := PID_HOLD s pgp
    setPid s pgp { s.pids pgp with pid_pgorphaned := !pglinked s.procs p }
  else if (s.pids pgp).pid_pgorphaned = true ∧ pglinked s.procs p = true then
    setPid s pgp { s.pids pgp with pid_pgorphaned := false }
  else s

/-- The process has a group. -/
def pgexit (prp : Nat) : State :=
  match (s.procs prp).p_pgidp with
  | none => s
  | some pgp =>
    let s := setPid s pgp { s.pids pgp with pid_pglink := (s.pids pgp).pid_pglink.erase prp }
    let s := setProc s prp { s.procs prp with p_pgidp := none }
    if (s.pids pgp).pid_pglink.isEmpty = true then PID_RELE s pgp
    else if (s.pids pgp).pid_pgorphaned = false then
      if (s.pids pgp).pid_pglink.any (pglinked s.procs) = true then s
      else setPid s pgp { s.pids pgp with pid_pgorphaned := true }
    else s

def psignal (p : Nat) (sig : Signal) : State :=
  setProc s p { s.procs p with posted := (s.procs p).posted ++ [sig] }

def pgsignal (g : Nat) (sig : Signal) : State :=
  (s.pids g).pid_pglink.foldl (fun s p => psignal s p sig) s

/-- The members stopped by job control, unless a process other than `pp` links one of them. -/
def stopped_members (pp : Nat) : Nat → List Nat → Option Nat
  | stopped, [] => some stopped
  | stopped, mp :: rest =>
    if mp ≠ pp ∧ (s.procs mp).p_parent ≠ some pp ∧ pglinked s.procs mp = true then none
    else if (s.procs mp).p_stat = .SSTOP ∧ (s.procs mp).p_whystop = .PR_JOBCONTROL then
      stopped_members pp (stopped + 1) rest
    else stopped_members pp stopped rest

def detach_group (pp pgp : Nat) : State :=
  if (s.pids pgp).pid_pgorphaned = true then s
  else
    match stopped_members s pp 0 (s.pids pgp).pid_pglink with
    | none => s
    | some stopped =>
      let s := setPid s pgp { s.pids pgp with pid_pgorphaned := true }
      if stopped ≠ 0 then pgsignal (pgsignal s pgp .SIGHUP) pgp .SIGCONT else s

/-- The loop of `pgdetach` over the children that are left. -/
def detach_groups (pp : Nat) : State → List Nat → State
  | s, [] => s
  | s, cp :: rest =>
    match (s.procs cp).p_pgidp with
    | some pgp => detach_groups pp (detach_group s pp pgp) rest
    | none => detach_groups pp s rest

def pgdetach (pp : Nat) : State := detach_groups pp s (s.procs pp).p_child

def pgmembers (pgid : Nat) : Bool := (s.pids pgid).pid_pglink.any fun p => decide (p ≠ pgid)

def pgfind (pgid : Nat) : Option Nat := (s.pids pgid).pid_pglink.head?

def sess_create (pp sp : Nat) : State :=
  let s := pgexit s pp
  let s := SESS_RELE s (s.procs pp).p_sessp
  let s := { s with sessions := sp :: s.sessions, sess := update s.sess sp ⟨1, pp⟩ }
  let s := setProc s pp { s.procs pp with p_sessp := sp }
  let s := pgjoin s pp pp
  PID_HOLD s pp

/-- What of `newproc` concerns groups: a zeroed process and pid from `pid_assign`, the parent's
session and group, and the place among its children. -/
def newproc (pp cp : Nat) : State :=
  let s :=
    { s with
        practive := cp :: s.practive
        procs := update s.procs cp ⟨.SIDL, .PR_REQUESTED, none, [], none, 0, false, false, []⟩
        pids := update s.pids cp ⟨1, false, []⟩ }
  let s := setProc s cp { s.procs cp with p_sessp := (s.procs pp).p_sessp }
  let s := SESS_HOLD s (s.procs pp).p_sessp
  let s := match (s.procs pp).p_pgidp with
    | some pgp => pgjoin s cp pgp
    | none => s
  let s := setProc s cp { s.procs cp with p_parent := some pp }
  setProc s pp { s.procs pp with p_child := cp :: (s.procs pp).p_child }

def pid_exit (prp : Nat) : State :=
  let s := pgexit s prp
  let s := SESS_RELE s (s.procs prp).p_sessp
  let s := PID_RELE s prp
  { s with practive := s.practive.erase prp }

/-- Off the parent's chain and out of the tables: the end of `freeproc`, and of a `newproc` that
fails late. -/
def freeproc (p : Nat) : State :=
  match (s.procs p).p_parent with
  | some q => pid_exit (setProc s q { s.procs q with p_child := (s.procs q).p_child.erase p }) p
  | none => s

/-- The loop that hands the children that are left to init. -/
def reparent : State → List Nat → State
  | s, [] => s
  | s, q :: rest =>
    let s := setProc s q { s.procs q with p_parent := some proc_init }
    reparent (if (s.procs q).strc = true then psignal s q .SIGKILL else s) rest

/-- What of `exit` concerns groups. -/
def exit (p : Nat) : State :=
  let s := match (s.procs p).p_child with
    | [] => s
    | child =>
      let s := reparent (pgdetach s p) child
      let s := setProc s proc_init
        { s.procs proc_init with p_child := child ++ (s.procs proc_init).p_child }
      setProc s p { s.procs p with p_child := [] }
  setProc s p { s.procs p with p_stat := .SZOMB }

inductive Errno
  | EPERM
  | EINVAL
  | ESRCH
  | EACCES
  deriving DecidableEq

def MAXPID : Int := 30000

def setpgrp (p sp : Nat) : State :=
  if (s.sess (s.procs p).p_sessp).s_sidp ≠ p ∧ pgmembers s p = false then sess_create s p sp
  else s

def setsid (p sp : Nat) : Except Errno State :=
  if (s.procs p).p_pgidp = some p ∨ pgmembers s p = true then .error .EPERM
  else .ok (sess_create s p sp)

def setpgid_target (u_procp : Nat) (pid : Int) : Except Errno Nat :=
  if pid = 0 then .ok u_procp
  else if pid < 0 ∨ MAXPID ≤ pid then .error .EINVAL
  else if pid = u_procp then .ok u_procp
  else
    match (s.procs u_procp).p_child.find? fun p : Nat => decide ((p : Int) = pid) with
    | none => .error .ESRCH
    | some p =>
      if (s.procs p).sexeced = true then .error .EACCES
      else if (s.procs p).p_sessp ≠ (s.procs u_procp).p_sessp then .error .EPERM
      else .ok p

/-- Case 5: setpgid(), once the process is known. -/
def setpgid_of (p : Nat) (pgid : Int) : Except Errno State :=
  if (s.sess (s.procs p).p_sessp).s_sidp = p then .error .EPERM
  else if pgid ≠ 0 ∧ (pgid < 0 ∨ MAXPID ≤ pgid) then .error .EINVAL
  else
    let pgid := if pgid = 0 then p else pgid.toNat
    if (s.procs p).p_pgidp = some pgid then .ok s
    else if p = pgid then .ok (pgjoin (pgexit s p) p p)
    else
      match pgfind s pgid with
      | none => .error .EPERM
      | some q =>
        if (s.procs q).p_sessp ≠ (s.procs p).p_sessp then .error .EPERM
        else
          match (s.procs q).p_pgidp with
          | some pgp => .ok (pgjoin (pgexit s p) p pgp)
          | none => .error .EPERM

def setpgid (u_procp : Nat) (pid pgid : Int) : Except Errno State :=
  match setpgid_target s u_procp pid with
  | .ok p => setpgid_of s p pgid
  | .error e => .error e

end

/-- What processes do. A new process has a pid in nobody's hands, a new session is where no other
is; `failed` is a `newproc` that could not copy the process; `set` is what scheduler, signals and
`exec` do to a process, and the streams hold pids. -/
inductive Call
  | newproc (pp cp : Nat)
  | failed (cp : Nat)
  | setpgrp (p sp : Nat)
  | setsid (p sp : Nat)
  | setpgid (p : Nat) (pid pgid : Int)
  | exit (p : Nat)
  | freeproc (p : Nat)
  | set (p : Nat) (p_stat : Stat) (p_whystop : Why) (sexeced strc : Bool)
  | hold (g : Nat)
  | rele (g : Nat)

def Running (s : State) (p : Nat) : Prop := p ∈ s.practive ∧ (s.procs p).p_stat = .SONPROC

instance (s : State) (p : Nat) : Decidable (Running s p) := inferInstanceAs (Decidable (_ ∧ _))

def done (s : State) : Except Errno State → State
  | .ok t => t
  | .error _ => s

def Call.Possible (s : State) : Call → Prop
  | .newproc pp cp => Running s pp ∧ cp ∉ s.practive ∧ (s.pids cp).pid_ref = 0
  | .failed cp => cp ∈ s.practive ∧ (s.procs cp).p_stat = .SIDL
  | .setpgrp p sp | .setsid p sp => Running s p ∧ sp ∉ s.sessions
  | .setpgid p _ _ | .exit p => Running s p
  | .freeproc p => p ∈ s.practive ∧ (s.procs p).p_stat = .SZOMB
  | .set p p_stat _ _ _ =>
    p ∈ s.practive ∧ (s.procs p).p_stat ≠ .SZOMB ∧ p_stat ≠ .SZOMB ∧ p_stat ≠ .SIDL
  | .hold g => 0 < (s.pids g).pid_ref
  | .rele g => 0 < s.streams g

instance Call.decidable_possible (s : State) : (c : Call) → Decidable (c.Possible s)
  | .newproc .. | .failed _ | .setpgrp .. | .setsid .. | .freeproc _ | .set .. =>
    inferInstanceAs (Decidable (_ ∧ _))
  | .setpgid .. | .exit _ => inferInstanceAs (Decidable (Running _ _))
  | .hold _ | .rele _ => inferInstanceAs (Decidable (_ < _))

def perform (s : State) : Call → State
  | .newproc pp cp => newproc s pp cp
  | .failed cp => freeproc s cp
  | .setpgrp p sp => setpgrp s p sp
  | .setsid p sp => done s (setsid s p sp)
  | .setpgid p pid pgid => done s (setpgid s p pid pgid)
  | .exit p => exit s p
  | .freeproc p => freeproc s p
  | .set p p_stat p_whystop sexeced strc =>
    setProc s p { s.procs p with
      p_stat := p_stat, p_whystop := p_whystop, sexeced := sexeced, strc := strc }
  | .hold g => { PID_HOLD s g with streams := update s.streams g (s.streams g + 1) }
  | .rele g => { PID_RELE s g with streams := update s.streams g (s.streams g - 1) }

def step (s : State) (c : Call) : Option State :=
  if c.Possible s then some (perform s c) else none

def boot : State where
  practive := [proc_sched]
  procs := fun _ => ⟨.SONPROC, .PR_REQUESTED, none, [], some proc_sched, session0, false, false, []⟩
  pids := fun g => if g = proc_sched then ⟨3, true, [proc_sched]⟩ else ⟨0, false, []⟩
  sessions := [session0]
  sess := fun _ => ⟨1, proc_sched⟩
  streams := fun _ => 0

end Pgrp

/- Who is in a group, whose child, and who holds a pid: what every call keeps. -/
namespace Pgrp
open Function List

variable {s t : State} {p q g sp : Nat}

section fields
variable (s : State) (p g sp : Nat) (pr : Proc) (pid : PidInfo)

@[simp] theorem setProc_procs : (setProc s p pr).procs = update s.procs p pr := rfl
@[simp] theorem setProc_pids : (setProc s p pr).pids = s.pids := rfl
@[simp] theorem setProc_practive : (setProc s p pr).practive = s.practive := rfl
@[simp] theorem setProc_sessions : (setProc s p pr).sessions = s.sessions := rfl
@[simp] theorem setProc_sess : (setProc s p pr).sess = s.sess := rfl
@[simp] theorem setProc_streams : (setProc s p pr).streams = s.streams := rfl
@[simp] theorem setPid_procs : (setPid s g pid).procs = s.procs := rfl
@[simp] theorem setPid_pids : (setPid s g pid).pids = update s.pids g pid := rfl
@[simp] theorem setPid_practive : (setPid s g pid).practive = s.practive := rfl
@[simp] theorem setPid_sessions : (setPid s g pid).sessions = s.sessions := rfl
@[simp] theorem setPid_sess : (setPid s g pid).sess = s.sess := rfl
@[simp] theorem setPid_streams : (setPid s g pid).streams = s.streams := rfl

end fields

def regroup (s : State) (p : Nat) (group : Option Nat) : Nat → Proc :=
  update s.procs p { s.procs p with p_pgidp := group }

theorem pgjoin_eq (s : State) (p g : Nat) : pgjoin s p g = { s with
          procs := regroup s p (some g)
          pids := update s.pids g
            { pid_ref := (s.pids g).pid_ref + if (s.pids g).pid_pglink = [] then 1 else 0
              pid_pgorphaned := ((s.pids g).pid_pglink.isEmpty || (s.pids g).pid_pgorphaned) &&
                  !pglinked (regroup s p (some g)) p
              pid_pglink := p :: (s.pids g).pid_pglink } } := by
  unfold pgjoin
  cases list : (s.pids g).pid_pglink with
  | nil => simp [PID_HOLD, setPid, setProc, regroup]
  | cons m ms =>
    cases bit : (s.pids g).pid_pgorphaned <;>
      cases link : pglinked (regroup s p (some g)) p <;>
      simp_all [setPid, setProc, regroup]

theorem pgexit_eq {p g : Nat} (grouped : (s.procs p).p_pgidp = some g) : pgexit s p = { s with
          procs := regroup s p none
          pids := update s.pids g
            { pid_ref := (s.pids g).pid_ref - if (s.pids g).pid_pglink.erase p = [] then 1 else 0
              pid_pgorphaned :=
                (s.pids g).pid_pgorphaned || (!((s.pids g).pid_pglink.erase p).isEmpty &&
                !((s.pids g).pid_pglink.erase p).any (pglinked (regroup s p none)))
              pid_pglink := (s.pids g).pid_pglink.erase p } } := by
  unfold pgexit
  rw [grouped]
  simp only [PID_RELE, setPid, setProc, update_self, update_idem]
  generalize (s.pids g).pid_pglink.erase p = list
  cases list with
  | nil => simp [regroup]
  | cons m ms =>
    cases bit : (s.pids g).pid_pgorphaned <;>
      cases link : (m :: ms).any (pglinked (regroup s p none)) <;>
      simp_all [regroup]

section release
variable (s : State) (sp : Nat)

@[simp] theorem SESS_RELE_practive : (SESS_RELE s sp).practive = s.practive := by
  unfold SESS_RELE
  split <;> rfl

@[simp] theorem SESS_RELE_procs : (SESS_RELE s sp).procs = s.procs := by
  unfold SESS_RELE
  split <;> rfl

@[simp] theorem SESS_RELE_streams : (SESS_RELE s sp).streams = s.streams := by
  unfold SESS_RELE
  split <;> rfl

@[simp] theorem SESS_RELE_pglink (g : Nat) :
    ((SESS_RELE s sp).pids g).pid_pglink = (s.pids g).pid_pglink := by
  unfold SESS_RELE
  split
  · rfl
  · by_cases here : g = (s.sess sp).s_sidp <;> simp [PID_RELE, here]

@[simp] theorem SESS_RELE_orphaned (g : Nat) :
    ((SESS_RELE s sp).pids g).pid_pgorphaned = (s.pids g).pid_pgorphaned := by
  unfold SESS_RELE
  split
  · rfl
  · by_cases here : g = (s.sess sp).s_sidp <;> simp [PID_RELE, here]

end release

/-- Children and parents. The parent of a process has not exited and is past its creation. -/
structure Tree (s : State) : Prop where
  active : s.practive.Nodup
  child : ∀ q ∈ s.practive, ∀ c,
    c ∈ (s.procs q).p_child ↔ c ∈ s.practive ∧ (s.procs c).p_parent = some q
  siblings : ∀ q ∈ s.practive, (s.procs q).p_child.Nodup
  parent : ∀ c ∈ s.practive, ∀ q, (s.procs c).p_parent = some q →
    q ∈ s.practive ∧ (s.procs q).p_stat ≠ .SZOMB ∧ (s.procs q).p_stat ≠ .SIDL

/-- The list of each group holds its members, and every process is in a group. -/
structure Grouping (s : State) : Prop where
  members : ∀ g p, p ∈ (s.pids g).pid_pglink ↔ p ∈ s.practive ∧ (s.procs p).p_pgidp = some g
  once : ∀ g, (s.pids g).pid_pglink.Nodup
  grouped : ∀ p ∈ s.practive, (s.procs p).p_pgidp ≠ none

/-- Each session counts its processes, each pid its process, a group with members, the sessions and
the streams. -/
structure Holding (s : State) : Prop where
  distinct : s.sessions.Nodup
  within : ∀ p ∈ s.practive, (s.procs p).p_sessp ∈ s.sessions
  s_ref : ∀ sp ∈ s.sessions,
    (s.sess sp).s_ref = s.practive.countP (fun p => decide ((s.procs p).p_sessp = sp)) ∧
      0 < (s.sess sp).s_ref
  pid_ref : ∀ g, (s.pids g).pid_ref =
    (if g ∈ s.practive then 1 else 0) + (if (s.pids g).pid_pglink = [] then 0 else 1) +
      s.sessions.countP (fun sp => decide ((s.sess sp).s_sidp = g)) + s.streams g

structure Consistent (s : State) : Prop where
  tree : Tree s
  grouping : Grouping s
  holding : Holding s

def SameKin (a b : Proc) : Prop :=
  a.p_parent = b.p_parent ∧ a.p_child = b.p_child ∧ a.p_stat = b.p_stat

theorem Tree.congr (tree : Tree s) (active : t.practive = s.practive)
    (same : ∀ q, SameKin (t.procs q) (s.procs q)) : Tree t := by
  refine ⟨active ▸ tree.active, ?_, ?_, ?_⟩
  · intro q hq c
    rw [(same q).2.1, (same c).1, active]
    exact tree.child q (active ▸ hq) c
  · intro q hq
    rw [(same q).2.1]
    exact tree.siblings q (active ▸ hq)
  · intro c hc q parent
    rw [(same q).2.2, active]
    exact tree.parent c (active ▸ hc) q ((same c).1 ▸ parent)

theorem Tree.childless (tree : Tree s) (hp : p ∈ s.practive)
    (idle : (s.procs p).p_stat = .SZOMB ∨ (s.procs p).p_stat = .SIDL) :
    (s.procs p).p_child = [] := by
  refine eq_nil_iff_forall_not_mem.mpr fun c hc => ?_
  obtain ⟨active, parent⟩ := (tree.child p hp c).mp hc
  obtain ⟨-, zombie, idl⟩ := tree.parent c active p parent
  rcases idle with at_end | at_start
  · exact zombie at_end
  · exact idl at_start

theorem Grouping.moved (grouping : Grouping s) (active : t.practive = s.practive)
    (hp : p ∈ s.practive)
    (procs : ∀ q, (t.procs q).p_pgidp = if q = p then some g else (s.procs q).p_pgidp)
    (lists : ∀ h q, q ∈ (t.pids h).pid_pglink ↔
      (q ∈ (s.pids h).pid_pglink ∧ q ≠ p) ∨ (h = g ∧ q = p))
    (once : ∀ h, (t.pids h).pid_pglink.Nodup) : Grouping t := by
  refine ⟨?_, once, ?_⟩
  · intro h q
    rw [lists h q, procs q, active, grouping.members h q]
    by_cases here : q = p
    · subst here
      simp [hp, eq_comm]
    · simp [here]
  · intro q hq
    rw [procs q]
    split
    · simp
    · exact grouping.grouped q (active ▸ hq)

theorem Holding.congr (holding : Holding s) (active : t.practive = s.practive)
    (sessp : ∀ q, (t.procs q).p_sessp = (s.procs q).p_sessp) (sessions : t.sessions = s.sessions)
    (sess : t.sess = s.sess) (streams : t.streams = s.streams)
    (counted : ∀ g, (t.pids g).pid_ref + (if (s.pids g).pid_pglink = [] then 0 else 1) =
      (s.pids g).pid_ref + if (t.pids g).pid_pglink = [] then 0 else 1) : Holding t := by
  refine ⟨sessions ▸ holding.distinct, ?_, ?_, ?_⟩
  · intro q hq
    rw [sessp q, sessions]
    exact holding.within q (active ▸ hq)
  · intro sp hsp
    rw [sess, active]
    simp only [sessp]
    exact holding.s_ref sp (sessions ▸ hsp)
  · intro g
    have before := holding.pid_ref g
    have now := counted g
    rw [active, sessions, sess, streams]
    omega

theorem Holding.kept_by_pgjoin (holding : Holding s) (p g : Nat) : Holding (pgjoin s p g) := by
  rw [pgjoin_eq]
  refine holding.congr rfl ?_ rfl rfl rfl ?_
  · intro q
    by_cases here : q = p <;> simp [regroup, here]
  · intro h
    by_cases here : h = g
    · subst here
      by_cases empty : (s.pids h).pid_pglink = [] <;> simp [empty]
    · simp [here]

theorem Holding.kept_by_pgexit (holding : Holding s) (grouped : (s.procs p).p_pgidp = some g)
    (listed : p ∈ (s.pids g).pid_pglink) : Holding (pgexit s p) := by
  rw [pgexit_eq grouped]
  refine holding.congr rfl ?_ rfl rfl rfl ?_
  · intro q
    by_cases here : q = p <;> simp [regroup, here]
  · intro h
    by_cases here : h = g
    · subst here
      have before := holding.pid_ref h
      have some : (s.pids h).pid_pglink ≠ [] := ne_nil_of_mem listed
      simp only [update_self, some, if_false] at before ⊢
      split <;> omega
    · simp [here]

/-- What a session counts beside process `p`. -/
theorem counted_without (hp : p ∈ s.practive) (sp : Nat) :
    s.practive.countP (fun q => decide ((s.procs q).p_sessp = sp)) =
      (s.practive.erase p).countP (fun q => decide ((s.procs q).p_sessp = sp)) +
        if (s.procs p).p_sessp = sp then 1 else 0 := by
  rw [(perm_cons_erase hp).countP_eq, countP_cons]
  simp

theorem alone_in_session (holding : Holding s) (hp : p ∈ s.practive) (hq : q ∈ s.practive)
    (other : q ≠ p) (same : (s.procs q).p_sessp = (s.procs p).p_sessp) :
    1 < (s.sess (s.procs p).p_sessp).s_ref := by
  obtain ⟨counted, -⟩ := holding.s_ref _ (holding.within p hp)
  have second : 0 < (s.practive.erase p).countP
      fun r => decide ((s.procs r).p_sessp = (s.procs p).p_sessp) :=
    countP_pos_iff.mpr ⟨q, (mem_erase_of_ne other).mpr hq, by simpa using same⟩
  rw [counted, counted_without hp, if_pos rfl]
  omega

/-- A session that loses process `p` is counted down, or given up with its pid. -/
structure Released (s t : State) (p : Nat) : Prop where
  distinct : t.sessions.Nodup
  kept : ∀ sp ∈ t.sessions, sp ∈ s.sessions
  within : ∀ q ∈ s.practive, q ≠ p → (s.procs q).p_sessp ∈ t.sessions
  s_ref : ∀ sp ∈ t.sessions, (t.sess sp).s_ref =
      (s.practive.erase p).countP (fun q => decide ((s.procs q).p_sessp = sp)) ∧
    0 < (t.sess sp).s_ref
  pid_ref : ∀ g, (t.pids g).pid_ref =
    (if g ∈ s.practive then 1 else 0) + (if (s.pids g).pid_pglink = [] then 0 else 1) +
      t.sessions.countP (fun sp => decide ((t.sess sp).s_sidp = g)) + s.streams g

theorem SESS_RELE_spec (holding : Holding s) (hp : p ∈ s.practive) :
    Released s (SESS_RELE s (s.procs p).p_sessp) p := by
  have here : (s.procs p).p_sessp ∈ s.sessions := holding.within p hp
  have counted : ∀ sp ∈ s.sessions, (s.sess sp).s_ref =
      (s.practive.erase p).countP (fun q => decide ((s.procs q).p_sessp = sp)) +
        (if (s.procs p).p_sessp = sp then 1 else 0) ∧ 0 < (s.sess sp).s_ref := by
    intro sp hsp
    rw [← counted_without hp]
    exact holding.s_ref sp hsp
  by_cases more : 1 < (s.sess (s.procs p).p_sessp).s_ref
  · have counted_down : SESS_RELE s (s.procs p).p_sessp = { s with
        sess := update s.sess (s.procs p).p_sessp
          { s.sess (s.procs p).p_sessp with s_ref := (s.sess (s.procs p).p_sessp).s_ref - 1 } } :=
      if_pos more
    rw [counted_down]
    refine ⟨holding.distinct, fun sp hsp => hsp, fun q hq _ => holding.within q hq, ?_, ?_⟩
    · intro sp hsp
      have before := counted sp hsp
      by_cases same : sp = (s.procs p).p_sessp
      · subst same
        simp only [update_self, if_true] at before ⊢
        omega
      · simpa [same, Ne.symm same] using before
    · intro g
      rw [holding.pid_ref g]
      congr 3
      funext sp
      by_cases same : sp = (s.procs p).p_sessp <;> simp [same]
  · have given_up : SESS_RELE s (s.procs p).p_sessp =
        { PID_RELE s (s.sess (s.procs p).p_sessp).s_sidp with
          sessions := s.sessions.erase (s.procs p).p_sessp } := if_neg more
    rw [given_up]
    refine ⟨holding.distinct.erase _, fun sp hsp => mem_of_mem_erase hsp, ?_, ?_, ?_⟩
    · intro q hq other
      refine (mem_erase_of_ne fun same => ?_).mpr (holding.within q hq)
      exact more (alone_in_session holding hp hq other same)
    · intro sp hsp
      obtain ⟨apart, hsp⟩ := holding.distinct.mem_erase_iff.mp hsp
      simpa [PID_RELE, Ne.symm apart] using counted sp hsp
    · intro g
      have held := holding.pid_ref g
      rw [(perm_cons_erase here).countP_eq, countP_cons] at held
      simp only [decide_eq_true_eq] at held
      change ((PID_RELE s (s.sess (s.procs p).p_sessp).s_sidp).pids g).pid_ref =
        _ + (s.sessions.erase (s.procs p).p_sessp).countP
          (fun sp => decide ((s.sess sp).s_sidp = g)) + _
      by_cases same : g = (s.sess (s.procs p).p_sessp).s_sidp
      · subst same
        simp only [PID_RELE, setPid_pids, update_self, if_true] at held ⊢
        omega
      · simp only [PID_RELE, setPid_pids, update_of_ne same, Ne.symm same, if_false] at held ⊢
        exact held

end Pgrp
