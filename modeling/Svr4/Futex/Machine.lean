import Mathlib.Data.Finset.Basic

/- Futex waits and wake-ups (os/thread.c) with the sleep, signal, callout and exit code
   that decides how they end (os/slp.c, os/sig.c, os/clock.c, os/exit.c, vm/seg_u.c).

   One processor: the kernel is not preempted, so another process is dispatched only when
   the current one is in user mode, asleep or a zombie, or may sleep in kmem_zalloc. The
   clock interrupt and signal posting come at any point outside the splhi sections, which
   are single steps. A job-control stop is a process that is never dispatched; a signal
   promoted to p_cursig counts as pending in p_sig until psig takes it. -/
namespace Futex

def HZ : BitVec 32 := 100
def PZERO : Nat := 25
def PMASK : Nat := 0o177
def PCATCH : Nat := 0o400
def NSIG : Nat := 32
def SIGKILL : Nat := 9
def SIGSTOP : Nat := 23
def SIGTSTP : Nat := 24
def SIGCONT : Nat := 25
def SIGTTIN : Nat := 26
def SIGTTOU : Nat := 27
def stopdefault : Finset Nat := {SIGSTOP, SIGTSTP, SIGTTOU, SIGTTIN}

inductive Errno
  | EINTR | EAGAIN | EFAULT | EINVAL | ETIMEDOUT
deriving DecidableEq, Repr

/-- `serial` is not in the source: it numbers the waits, as an address is used again after
kmem_free. -/
structure FutexWaiter where
  as : Nat
  uaddr : Nat
  woken : Bool
  timed_out : Bool
  timeout_id : BitVec 32
  serial : Nat
deriving DecidableEq, Repr

structure Timestruc where
  tv_sec : BitVec 32
  tv_nsec : BitVec 32
deriving DecidableEq, Repr

/-- A callout entry; `c_arg` is the waiter of a futex_timeout, `none` for other functions. -/
structure Callo where
  c_time : BitVec 32
  c_arg : Option Nat
  c_id : BitVec 32
deriving DecidableEq, Repr

inductive Stat
  | SSLEEP | SRUN | SONPROC | SZOMB
deriving DecidableEq, Repr

inductive Chan
  | waiter (w : Nat)
  | proc (t : Nat)
deriving DecidableEq, Repr

inductive Pc
  | user
  | allocating (uaddr : Nat) (expected ticks : BitVec 32)
  | enqueuing (w : Nat) (expected ticks : BitVec 32)
  | testing (w : Nat)
  | calling (w : Nat)
  | sleeping (w : Nat)
  | finishing (w : Nat) (error : Option Errno)
  | freeing (w : Nat) (error : Option Errno)
  | exiting
  | exited
deriving DecidableEq, Repr

structure Proc where
  p_as : Nat
  p_parent : Nat
  p_child : List Nat
  sthread : Bool
  snwake : Bool
  p_stat : Stat
  p_wchan : Option Chan
  p_sig : Finset Nat
  p_hold : Finset Nat
  p_ignore : Finset Nat
  pc : Pc

/-- The last four fields are history: waits begun, waits that wakes counted, counts returned, and
what each wait returned. -/
structure Kernel where
  procs : Nat → Option Proc
  curproc : Nat
  waiters : Nat → Option FutexWaiter
  futex_waiters : List Nat
  callout : List Callo
  timeid : BitVec 32
  lbolt : BitVec 32
  serials : Nat
  counted : List Nat
  wakes : List Nat
  returned : List (Nat × Option Errno)

def Kernel.setProc (s : Kernel) (t : Nat) (p : Proc) : Kernel :=
  { s with procs := Function.update s.procs t (some p) }

def Kernel.setWaiter (s : Kernel) (w : Nat) (waiter : FutexWaiter) : Kernel :=
  { s with waiters := Function.update s.waiters w (some waiter) }

def Kernel.running (s : Kernel) : Option Proc :=
  (s.procs s.curproc).filter fun p => p.p_stat = .SONPROC

/-! Sleeping and waking -/

def interruptible (disp : Nat) : Bool := decide (disp &&& PMASK > PZERO)

/-- `issig`: a pending signal that is neither held nor ignored. -/
def issig (p : Proc) : Bool := decide (∃ sig ∈ p.p_sig, sig ∉ p.p_hold ∧ sig ∉ p.p_ignore)

/-- `sleep` up to its swtch, or up to its return with 1 when a signal is pending. -/
def sleep (p : Proc) (chan : Chan) (disp : Nat) (asleep caught : Pc) : Proc :=
  if interruptible disp then
    if issig p then { p with snwake := false, pc := caught }
    else { p with p_stat := .SSLEEP, p_wchan := some chan, snwake := false, pc := asleep }
  else { p with p_stat := .SSLEEP, p_wchan := some chan, snwake := true, pc := asleep }

/-- `sleep` after its swtch: where the caller goes on. -/
def awoken (p : Proc) (disp : Nat) (slept caught : Pc) : Proc :=
  { p with snwake := false, pc := if interruptible disp && issig p then caught else slept }

def futexDisp : Nat := PZERO ||| PCATCH

def awaken (chan : Chan) (p : Proc) : Proc :=
  if p.p_wchan = some chan then { p with p_wchan := none, p_stat := .SRUN } else p

def wakeprocs (s : Kernel) (chan : Chan) : Kernel :=
  { s with procs := fun t => (s.procs t).map (awaken chan) }

def setrun (p : Proc) : Proc :=
  if p.p_stat = .SSLEEP then { p with p_wchan := none, p_stat := .SRUN } else p

/-! Signals -/

/-- SIGCONT drops pending stop signals and a stop signal drops a pending SIGCONT. -/
def cancelled (p : Proc) (sig : Nat) : Finset Nat :=
  if sig = SIGCONT then p.p_sig \ stopdefault
  else if sig ∈ stopdefault then p.p_sig.erase SIGCONT else p.p_sig

def sigtoproc (p : Proc) (sig : Nat) : Proc :=
  if sig = 0 ∨ NSIG ≤ sig then p
  else if sig ∈ p.p_ignore then { p with p_sig := cancelled p sig }
  else
    let posted := { p with p_sig := insert sig (cancelled p sig) }
    if p.p_stat = .SSLEEP ∧ ¬ (p.snwake ∨ sig ∈ p.p_hold) then setrun posted else posted

def psignal (s : Kernel) (t sig : Nat) : Kernel :=
  match s.procs t with
  | none => s
  | some p => s.setProc t (sigtoproc p sig)

/-! The callout table, as a table without order; the entry timein takes is a due one of
least time, and which of several equal ones it is is left open. -/

/-- `timeout`: the new id is the table's `timeid` afterwards. -/
def timeout (s : Kernel) (arg : Option Nat) (tim : BitVec 32) : Kernel :=
  { s with callout := ⟨s.lbolt + tim, arg, s.timeid + 1⟩ :: s.callout, timeid := s.timeid + 1 }

/-- `untimeout` of an id: entry `k` is the one the search finds. -/
def untimeout (callout : List Callo) (id : BitVec 32) (k : Nat) : Option (List Callo) :=
  if ∃ e ∈ callout, e.c_id = id then
    if (callout[k]?.map Callo.c_id) = some id then some (callout.eraseIdx k) else none
  else some callout

/-- `futex_timeout`; it is fatal on a waiter that has been freed. -/
def futex_timeout (s : Kernel) (w : Nat) : Option Kernel :=
  (s.waiters w).map fun waiter =>
    if waiter.woken then s
    else wakeprocs (s.setWaiter w { waiter with timed_out := true }) (.waiter w)

/-- `timein` calls entry `k`, a due one of least time. -/
def timein (s : Kernel) (k : Nat) : Option Kernel :=
  match s.callout[k]? with
  | none => none
  | some e =>
    if e.c_time.sle s.lbolt ∧ ∀ e' ∈ s.callout, e.c_time.sle e'.c_time then
      match e.c_arg with
      | none => some { s with callout := s.callout.eraseIdx k }
      | some w => futex_timeout { s with callout := s.callout.eraseIdx k } w
    else none

/-! do_futex_wait -/

def nsec_per_tick : BitVec 32 := (1000000000 : BitVec 32).sdiv HZ

/-- The relative timespec in clock ticks, in 32-bit arithmetic. -/
def futex_ticks (timeout_value : Timestruc) : BitVec 32 :=
  timeout_value.tv_sec * HZ + (timeout_value.tv_nsec + nsec_per_tick - 1).sdiv nsec_per_tick

/-- The checks before the waiter is allocated. `timeoutp` is `none` for a null pointer, `some none`
where copyin fails; the result is in ticks, 0 for an untimed wait. -/
def check_wait (uaddr : Nat) (timeoutp : Option (Option Timestruc)) : Except Errno (BitVec 32) :=
  if uaddr = 0 then .error .EINVAL
  else match timeoutp with
    | none => .ok 0
    | some none => .error .EFAULT
    | some (some timeout_value) =>
        if timeout_value.tv_sec.slt 0 ∨ timeout_value.tv_nsec.slt 0
            ∨ (1000000000 : BitVec 32).sle timeout_value.tv_nsec then .error .EINVAL
        else if (futex_ticks timeout_value).sle 0 then .error .ETIMEDOUT
        else .ok (futex_ticks timeout_value)

def futex_wait (s : Kernel) (p : Proc) (uaddr : Nat) (expected : BitVec 32)
    (timeoutp : Option (Option Timestruc)) : Kernel :=
  match check_wait uaddr timeoutp with
  | .error e => { s with serials := s.serials + 1, returned := s.returned ++ [(s.serials, some e)] }
  | .ok ticks => s.setProc s.curproc { p with pc := .allocating uaddr expected ticks }

def zalloc (s : Kernel) (p : Proc) (uaddr : Nat) (expected ticks : BitVec 32) (w : Nat) :
    Option Kernel :=
  if (s.waiters w).isNone then
    some { (s.setWaiter w ⟨p.p_as, uaddr, false, false, 0, s.serials⟩).setProc s.curproc
      { p with pc := .enqueuing w expected ticks } with serials := s.serials + 1 }
  else none

/-- The splhi section that compares the user word and links the waiter; `value` is `none` if fuword
and fubyte fail. -/
def enqueue (s : Kernel) (p : Proc) (w : Nat) (expected ticks : BitVec 32)
    (value : Option (BitVec 32)) : Option Kernel :=
  match value with
  | none => some (s.setProc s.curproc { p with pc := .freeing w (some .EFAULT) })
  | some v =>
    if v ≠ expected then some (s.setProc s.curproc { p with pc := .freeing w (some .EAGAIN) })
    else
      let linked := { s.setProc s.curproc { p with pc := .testing w } with
        futex_waiters := w :: s.futex_waiters }
      if BitVec.slt 0 ticks then
        (s.waiters w).map fun waiter =>
          (timeout linked (some w) ticks).setWaiter w { waiter with timeout_id := s.timeid + 1 }
      else some linked

def test (s : Kernel) (p : Proc) (w : Nat) : Option Kernel :=
  (s.waiters w).map fun waiter =>
    s.setProc s.curproc
      { p with pc := if !waiter.woken && !waiter.timed_out then .calling w else .finishing w none }

def cancel_timeout (s : Kernel) (waiter : FutexWaiter) (k : Nat) : Option (List Callo) :=
  if waiter.timeout_id ≠ 0 ∧ waiter.timed_out = false then untimeout s.callout waiter.timeout_id k
  else some s.callout

/-- The splhi section that unlinks the waiter and decides the error. -/
def finish (s : Kernel) (p : Proc) (w : Nat) (error : Option Errno) (k : Nat) : Option Kernel :=
  (s.waiters w).bind fun waiter =>
    (cancel_timeout s waiter k).map fun callout =>
      { s.setProc s.curproc { p with
          pc := .freeing w (if error = none ∧ waiter.timed_out then some .ETIMEDOUT else error) } with
        callout := callout
        futex_waiters := s.futex_waiters.erase w }

def free (s : Kernel) (p : Proc) (w : Nat) (error : Option Errno) : Option Kernel :=
  (s.waiters w).map fun waiter =>
    { s.setProc s.curproc { p with pc := .user } with
      waiters := Function.update s.waiters w none
      returned := s.returned ++ [(waiter.serial, error)] }

/-! do_futex_wake -/

def wakes_up (as uaddr : Nat) (waiter : FutexWaiter) : Bool :=
  waiter.as = as && waiter.uaddr = uaddr && !waiter.woken

/-- One iteration's effect on a waiter that is woken. -/
def wake (s : Kernel) (w : Nat) (waiter : FutexWaiter) : Kernel :=
  { wakeprocs (s.setWaiter w { waiter with woken := true }) (.waiter w) with
    counted := s.counted ++ [waiter.serial] }

/-- The loop over the list; it is fatal on a waiter that has been freed. -/
def wake_loop (as uaddr : Nat) (all : Bool) : List Nat → Kernel → Nat → Option (Kernel × Nat)
  | [], s, count => some (s, count)
  | w :: rest, s, count =>
    match s.waiters w with
    | none => none
    | some waiter =>
      if wakes_up as uaddr waiter then
        if all then wake_loop as uaddr all rest (wake s w waiter) (count + 1)
        else some (wake s w waiter, count + 1)
      else wake_loop as uaddr all rest s count

def futex_wake (s : Kernel) (p : Proc) (uaddr : Nat) (all : Bool) : Option Kernel :=
  if uaddr = 0 then some s
  else (wake_loop p.p_as uaddr all s.futex_waiters s 0).map fun (s, count) =>
    { s with wakes := s.wakes ++ [count] }

/-! Creation and exit -/

/-- `newproc`: a thread shares the address space; `as` is fork's copy, or the parent's for vfork. -/
def newproc (s : Kernel) (p : Proc) (child : Nat) (thread : Bool) (as : Nat) : Option Kernel :=
  if (s.procs child).isNone ∧ child ≠ s.curproc then
    some ((s.setProc s.curproc { p with p_child := child :: p.p_child }).setProc child
      ⟨if thread then p.p_as else as, s.curproc, [], thread, false, .SRUN, none, ∅,
        p.p_hold, p.p_ignore, .user⟩)
  else none

def thread_exit_current (s : Kernel) (p : Proc) : Kernel :=
  s.setProc s.curproc { p with
    p_ignore := Finset.range NSIG, p_sig := ∅, p_stat := .SZOMB, pc := .exited }

/-- The threads `exit_threads` finds on the list of children. -/
def threads (s : Kernel) (p : Proc) : List Nat :=
  p.p_child.filter fun q => (s.procs q).any Proc.sthread

def proc_init : Nat := 1

def inherit (children : List Nat) (q : Nat) (c : Proc) : Proc :=
  if q ∈ children then { c with p_parent := proc_init }
  else if q = proc_init then { c with p_child := children ++ c.p_child } else c

def exit_rest (s : Kernel) (p : Proc) : Kernel :=
  { s with procs := fun q => (s.procs q).map (inherit p.p_child q) }.setProc s.curproc { p with
    p_child := [], p_ignore := Finset.range NSIG, p_sig := ∅, p_stat := .SZOMB, pc := .exited }

/-- One round of `exit_threads`, and the rest of exit when it finds no thread. -/
def exit_threads (s : Kernel) (p : Proc) : Kernel :=
  match threads s p with
  | [] => exit_rest s p
  | found =>
    let killed := found.foldl (fun s q => psignal s q SIGKILL) s
    killed.setProc s.curproc
      (sleep ((killed.procs s.curproc).getD p) (.proc s.curproc) PZERO .exiting .exiting)

def exit (s : Kernel) (p : Proc) : Kernel :=
  if p.sthread then thread_exit_current s p else exit_threads s p

def drop_child (parent child q : Nat) (c : Proc) : Proc :=
  if q = parent then { c with p_child := c.p_child.erase child } else c

def freeproc (s : Kernel) (t : Nat) (p : Proc) : Kernel :=
  let unlinked := fun q => (s.procs q).map (drop_child p.p_parent t q)
  { s with procs := Function.update unlinked t none }

/-- `segu_release`, run by the next process on the one that left through swtch. -/
def segu_release (s : Kernel) (t : Nat) (p : Proc) : Kernel :=
  if p.sthread then freeproc (wakeprocs s (.proc p.p_parent)) t p else s

def preemptible : Pc → Bool
  | .user | .allocating _ _ _ => true
  | _ => false

def dispatch (s : Kernel) (t : Nat) : Option Kernel :=
  match s.procs t, s.procs s.curproc with
  | some next, some old =>
    if next.p_stat = .SRUN then
      let switched := { s.setProc t { next with p_stat := .SONPROC } with curproc := t }
      match old.p_stat with
      | .SONPROC =>
          if preemptible old.pc then some (switched.setProc s.curproc { old with p_stat := .SRUN })
          else none
      | .SZOMB => some (segu_release switched s.curproc old)
      | _ => some switched
    else none
  | _, _ => none

/-! The machine -/

inductive Label
  | dispatch (t : Nat)
  | futex_wait (uaddr : Nat) (expected : BitVec 32) (timeoutp : Option (Option Timestruc))
  | zalloc (w : Nat)
  | enqueue (value : Option (BitVec 32))
  | test
  | sleep
  | resume
  | finish (k : Nat)
  | free
  | futex_wake (uaddr : Nat) (all : Bool)
  | newproc (child : Nat) (thread : Bool) (as : Nat)
  | exit
  | exit_threads
  | freeproc (t : Nat)
  | sigprocmask (hold : Finset Nat)
  | sigaction (ignore : Finset Nat)
  | psig (sig : Nat)
  | psignal (t sig : Nat)
  | clock
  | timein (k : Nat)
  | timeout (tim : BitVec 32)
  | untimeout (id : BitVec 32) (k : Nat)
deriving DecidableEq

def user_step (s : Kernel) (p : Proc) : Label → Option Kernel
  | .futex_wait uaddr expected timeoutp => some (futex_wait s p uaddr expected timeoutp)
  | .futex_wake uaddr all => futex_wake s p uaddr all
  | .newproc child thread as => newproc s p child thread as
  | .exit => some (exit s p)
  | .sigprocmask hold => some (s.setProc s.curproc { p with p_hold := hold \ {SIGKILL, SIGSTOP} })
  | .sigaction ignore => some (s.setProc s.curproc { p with
      p_ignore := ignore \ {SIGKILL, SIGSTOP}, p_sig := p.p_sig \ (ignore \ {SIGKILL, SIGSTOP}) })
  | .psig sig =>
      if sig ∈ p.p_sig ∧ sig ∉ p.p_hold ∧ sig ∉ p.p_ignore then
        some (s.setProc s.curproc { p with p_sig := p.p_sig.erase sig })
      else none
  | _ => none

/-- What the running process does at its place in the kernel. -/
def kernel_step (s : Kernel) (p : Proc) : Pc → Label → Option Kernel
  | .user, l => user_step s p l
  | .allocating uaddr expected ticks, .zalloc w => zalloc s p uaddr expected ticks w
  | .enqueuing w expected ticks, .enqueue value => enqueue s p w expected ticks value
  | .testing w, .test => test s p w
  | .calling w, .sleep => some (s.setProc s.curproc
      (sleep p (.waiter w) futexDisp (.sleeping w) (.finishing w (some .EINTR))))
  | .sleeping w, .resume => some (s.setProc s.curproc
      (awoken p futexDisp (.testing w) (.finishing w (some .EINTR))))
  | .finishing w error, .finish k => finish s p w error k
  | .freeing w error, .free => free s p w error
  | .exiting, .exit_threads =>
      some (exit_threads s { p with snwake := false })
  | _, _ => none

def step (s : Kernel) : Label → Option Kernel
  | .dispatch t => dispatch s t
  | .psignal t sig => some (psignal s t sig)
  | .clock => some { s with lbolt := s.lbolt + 1 }
  | .timein k => timein s k
  | .timeout tim => some (timeout s none tim)
  | .untimeout id k => (untimeout s.callout id k).map fun callout => { s with callout := callout }
  | .freeproc t =>
      (s.procs t).bind fun p =>
        if p.p_stat = .SZOMB ∧ p.sthread = false ∧ t ≠ s.curproc then some (freeproc s t p) else none
  | l => s.running.bind fun p => kernel_step s p p.pc l

def boot : Kernel where
  procs := Function.update (fun _ => none) 1 (some
    { p_as := 1, p_parent := 0, p_child := [], sthread := false, snwake := false
      p_stat := .SONPROC, p_wchan := none, p_sig := ∅, p_hold := ∅, p_ignore := ∅, pc := .user })
  curproc := 1
  waiters := fun _ => none
  futex_waiters := []
  callout := []
  timeid := 0
  lbolt := 0
  serials := 0
  counted := []
  wakes := []
  returned := []

end Futex
