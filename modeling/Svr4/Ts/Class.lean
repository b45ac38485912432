import Svr4.Runs

/- disp/ts.c: the time-sharing scheduling class. -/
namespace Ts
open Function

structure Dpent where
  ts_globpri : Int
  ts_quantum : Int
  ts_tqexp : Int
  ts_slpret : Int
  ts_maxwait : Int
  ts_lwait : Int

def no_entry : Dpent := ⟨0, 0, 0, 0, 0, 0⟩

inductive Errno
  | EPERM
  | EINVAL
  | ENOMEM
  deriving DecidableEq

/-- The checks of `ts_admin` on an entry of a table whose last entry is `ts_maxumdpri`. -/
def entry_ok (ts_maxumdpri : Int) (d : Dpent) : Bool :=
  !(decide (d.ts_quantum ≤ 0)) && !(decide (d.ts_tqexp > ts_maxumdpri ∨ d.ts_tqexp < 0)) &&
    !(decide (d.ts_slpret > ts_maxumdpri ∨ d.ts_slpret < 0)) && !(decide (d.ts_maxwait < 0)) &&
    !(decide (d.ts_lwait > ts_maxumdpri ∨ d.ts_lwait < 0))

/-- `ts_admin`, command TS_SETDPTBL: the new table. The global priorities are read-only. -/
def ts_admin (ts_dptbl : List Dpent) (suser : Bool) (tmpdpp : List Dpent) :
    Except Errno (List Dpent) :=
  if suser = false then .error .EPERM
  else if tmpdpp.length ≠ ts_dptbl.length then .error .EINVAL
  else if tmpdpp.all (entry_ok (ts_dptbl.length - 1)) = true then
    .ok (List.zipWith (fun old new => { new with ts_globpri := old.ts_globpri }) ts_dptbl tmpdpp)
  else .error .EINVAL

/-- A table that `ts_admin` accepts, and the range of user priorities. The last index and the range
are shorts. -/
structure Config where
  ts_dptbl : List Dpent
  ts_kmdpris : List Int
  ts_maxupri : Int
  accepted : ∃ old new, ts_admin old true new = .ok ts_dptbl
  entries : 0 < ts_dptbl.length ∧ ts_dptbl.length ≤ 32768
  range : 0 < ts_maxupri ∧ ts_maxupri ≤ 32767

def Config.ts_maxumdpri (c : Config) : Int := c.ts_dptbl.length - 1

def Config.dp (c : Config) (level : Int) : Dpent := c.ts_dptbl.getD level.toNat no_entry

def Config.tsmedumdpri (c : Config) : Int := c.ts_maxumdpri / 2

def to_short (x : Int) : Int := Int.bmod x 65536

def to_char (x : Int) : Int := Int.bmod x 256

def TS_NOCHANGE : Int := -32768

def NZERO : Int := 20

inductive Stat
  | SSLEEP
  | SRUN
  | SZOMB
  | SSTOP
  | SIDL
  | SONPROC
  | SXBRK
  deriving DecidableEq

/-- A tsproc, with TSKPRI, TSBACKQ and TSFORK, and what it reads of its process. `niced` is what
`ts_donice` was last asked for, if it set the nice value last. -/
structure Tsproc where
  ts_timeleft : Int
  ts_cpupri : Int
  ts_uprilim : Int
  ts_upri : Int
  ts_umdpri : Int
  ts_nice : Int
  tskpri : Bool
  tsbackq : Bool
  tsfork : Bool
  ts_dispwait : Int
  p_stat : Stat
  p_pri : Int
  sprocio : Bool
  niced : Option Int

structure Tsparms where
  ts_uprilim : Int
  ts_upri : Int

/-- The tsproc list in its order, and what the class shares with the dispatcher. -/
structure State where
  plist : List Nat
  tsprocs : Nat → Tsproc
  curproc : Nat
  curpri : Int
  maxrunpri : Int
  npwakecnt : Nat
  runrun : Nat

def State.set (s : State) (p : Nat) (t : Tsproc) : State :=
  { s with tsprocs := update s.tsprocs p t }

section
variable (c : Config) (s : State)

def new_umdpri (t : Tsproc) : Tsproc :=
  let umdpri := to_short (t.ts_cpupri + t.ts_upri)
  { t with
      ts_umdpri :=
        if umdpri > c.ts_maxumdpri then c.ts_maxumdpri else if umdpri < 0 then 0 else umdpri }

def full_quantum (t : Tsproc) : Tsproc :=
  { t with ts_timeleft := (c.dp t.ts_umdpri).ts_quantum }

def user_globpri (t : Tsproc) : Tsproc := { t with p_pri := (c.dp t.ts_umdpri).ts_globpri }

/-- The end of `ts_enterclass` and `ts_parmsset`: the process goes to its user mode priority.
`wasonq` is from `dispdeq`. -/
def reset_priority (p : Nat) (wasonq : Bool) : State :=
  let t := user_globpri c (s.tsprocs p)
  if p = s.curproc then
    let s := { s with curpri := t.p_pri }
    if t.p_pri > s.maxrunpri then s.set p (full_quantum c t)
    else { s.set p { t with tsbackq := true } with runrun := s.runrun + 1 }
  else if wasonq = true then
    { s.set p (full_quantum c t) with
        runrun := if t.p_pri > s.curpri then s.runrun + 1 else s.runrun }
  else s.set p { t with tsbackq := true }

/-- The upri limit that `ts_enterclass` is asked for. -/
def entry_uprilim (parms : Tsparms) : Int :=
  if parms.ts_uprilim = TS_NOCHANGE then 0 else parms.ts_uprilim

def entry_upri (parms : Tsparms) : Int :=
  if parms.ts_upri = TS_NOCHANGE then entry_uprilim parms
  else if parms.ts_upri > entry_uprilim parms then entry_uprilim parms
  else parms.ts_upri

/-- `memory` is what the memory found for the tsproc holds where `ts_timeleft` is, and
    `reqpcredp` whether the caller is super-user, where it passes credentials. -/
def ts_enterclass (p : Nat) (parms : Option Tsparms) (reqpcredp : Option Bool) (wasonq : Bool)
    (memory : Option Int) (p_stat : Stat) (sprocio : Bool) : Except Errno State :=
  match memory with
  | none => .error .ENOMEM
  | some garbage =>
    let t : Tsproc :=
      { ts_timeleft := garbage, ts_cpupri := c.tsmedumdpri, ts_uprilim := 0, ts_upri := 0
        ts_umdpri := c.tsmedumdpri, ts_nice := 20, tskpri := false, tsbackq := false
        tsfork := false, ts_dispwait := 0, p_stat := p_stat, p_pri := 0, sprocio := sprocio
        niced := none }
    match parms with
    | none => .ok (reset_priority c { s.set p t with plist := p :: s.plist } p wasonq)
    | some parms =>
      if reqpcredp = some false ∧ entry_uprilim parms > 0 then .error .EPERM
      else
        let t := new_umdpri c
          { t with
              ts_uprilim := entry_uprilim parms
              ts_upri := entry_upri parms
              ts_nice := to_char (20 - (20 * entry_upri parms).tdiv c.ts_maxupri) }
        .ok (reset_priority c { s.set p t with plist := p :: s.plist } p wasonq)

def ts_exitclass (p : Nat) : State := { s with plist := s.plist.erase p }

def ts_fork (pp cp : Nat) (p_stat : Stat) (p_pri : Int) (sprocio : Bool) : State :=
  let parent := s.tsprocs pp
  let t : Tsproc :=
    { parent with
        ts_timeleft := (c.dp parent.ts_umdpri).ts_quantum
        ts_dispwait := 0
        tsbackq := false
        p_stat := p_stat
        p_pri := p_pri
        sprocio := sprocio }
  { s.set cp t with plist := cp :: s.plist }

def ts_forkret (pp : Option Nat) : State :=
  match pp with
  | some pp =>
    { s.set pp { s.tsprocs pp with tsbackq := true, tsfork := true } with
        runrun := s.runrun + 1 }
  | none => s

/-- `targ` is the limit of the target, if it is in this class. -/
def ts_parmsin (parms : Tsparms) (reqpcredp : Option Bool) (targ : Option Int) :
    Except Errno Unit :=
  if (parms.ts_uprilim > c.ts_maxupri ∨ parms.ts_uprilim < -c.ts_maxupri) ∧
      parms.ts_uprilim ≠ TS_NOCHANGE then .error .EINVAL
  else if (parms.ts_upri > c.ts_maxupri ∨ parms.ts_upri < -c.ts_maxupri) ∧
      parms.ts_upri ≠ TS_NOCHANGE then .error .EINVAL
  else if reqpcredp = none ∨ parms.ts_uprilim = TS_NOCHANGE then .ok ()
  else
    match targ with
    | some ts_uprilim =>
      if parms.ts_uprilim > ts_uprilim ∧ reqpcredp = some false then .error .EPERM else .ok ()
    | none => if parms.ts_uprilim > 0 ∧ reqpcredp = some false then .error .EPERM else .ok ()

def granted_uprilim (parms : Tsparms) (t : Tsproc) : Int :=
  if parms.ts_uprilim = TS_NOCHANGE then t.ts_uprilim else parms.ts_uprilim

def granted_upri (parms : Tsparms) (t : Tsproc) : Int :=
  let reqtsupri := if parms.ts_upri = TS_NOCHANGE then t.ts_upri else parms.ts_upri
  if reqtsupri > granted_uprilim parms t then granted_uprilim parms t else reqtsupri

def nice_of (ts_upri : Int) : Int :=
  let nice := to_char (20 - (ts_upri * 20).tdiv c.ts_maxupri)
  if nice = 40 then 39 else nice

def ts_parmsset (p : Nat) (parms : Tsparms) (reqpcredp : Option Bool) (wasonq : Bool) :
    Except Errno State :=
  let t := s.tsprocs p
  if reqpcredp = some false ∧ granted_uprilim parms t > t.ts_uprilim then .error .EPERM
  else
    let t := new_umdpri c
      { t with ts_uprilim := granted_uprilim parms t, ts_upri := granted_upri parms t }
    let t : Tsproc := { t with ts_nice := nice_of c parms.ts_upri, niced := none }
    if t.tskpri = true then .ok (s.set p t)
    else .ok (reset_priority c (s.set p { t with ts_dispwait := 0 }) p wasonq)

def ts_preempt (p : Nat) : State :=
  let t := s.tsprocs p
  match t.tsbackq, t.tskpri, t.tsfork with
  | true, false, false =>
    s.set p { full_quantum c t with ts_dispwait := 0, tsbackq := false }
  | true, true, false => s.set p { t with tsbackq := false }
  | true, false, true => s.set p { t with ts_dispwait := 0, tsbackq := false, tsfork := false }
  | _, _, _ => s

def ts_setrun (p : Nat) : State :=
  let t := s.tsprocs p
  let t := if t.tskpri = false then { full_quantum c t with ts_dispwait := 0 } else t
  s.set p { t with tsbackq := false, tsfork := false }

/-- `disp` is masked with PMASK already. -/
def ts_sleep (p : Nat) (disp : Nat) : State :=
  s.set p { s.tsprocs p with
    tskpri := true, p_pri := c.ts_kmdpris.getD (c.ts_kmdpris.length - 1 - disp) 0 }

def ts_tick (p : Nat) (wasonq : Bool) : State :=
  let t := s.tsprocs p
  if t.tskpri = true then s
  else
    let t := { t with ts_timeleft := t.ts_timeleft - 1 }
    if t.ts_timeleft = 0 then
      let t := new_umdpri c { t with ts_cpupri := (c.dp t.ts_cpupri).ts_tqexp }
      let t := { user_globpri c t with ts_dispwait := 0 }
      let s := { s with curpri := t.p_pri, runrun := s.runrun + 1 }
      if wasonq = true then s.set p (full_quantum c t) else s.set p { t with tsbackq := true }
    else s.set p t

def ts_trapret (p : Nat) : State :=
  let t := s.tsprocs p
  if t.tskpri = false then s
  else
    let t := new_umdpri c { t with ts_cpupri := (c.dp t.ts_cpupri).ts_slpret }
    let t := full_quantum c (user_globpri c { t with tskpri := false })
    { s.set p { t with ts_dispwait := 0 } with
        curpri := t.p_pri
        runrun := if s.npwakecnt = 0 ∧ t.p_pri < s.maxrunpri then s.runrun + 1 else s.runrun }

def update_proc (wasonq : Nat → Bool) (s : State) (p : Nat) : State :=
  let t := s.tsprocs p
  if t.tskpri = true then s
  else if (t.p_stat ≠ .SRUN ∧ t.p_stat ≠ .SONPROC) ∨ t.sprocio = true then s
  else
    let t := { t with ts_dispwait := to_short (t.ts_dispwait + 1) }
    if t.ts_dispwait ≤ (c.dp t.ts_umdpri).ts_maxwait then s.set p t
    else
      let t := new_umdpri c { t with ts_cpupri := (c.dp t.ts_cpupri).ts_lwait }
      let t := user_globpri c { t with ts_dispwait := 0 }
      let s := { s with curpri := if p = s.curproc then t.p_pri else s.curpri }
      if wasonq p = true then s.set p (full_quantum c t) else s.set p { t with tsbackq := true }

def ts_update (wasonq : Nat → Bool) : State :=
  let s := s.plist.foldl (update_proc c wasonq) s
  { s with runrun := s.runrun + 1 }

def ts_wakeup (p : Nat) : State :=
  s.set p { s.tsprocs p with tsbackq := false, tsfork := false }

def newnice (t : Tsproc) (incr : Int) : Int :=
  let incr := if incr > 2 * NZERO - 1 then 2 * NZERO - 1 else incr
  if t.ts_nice + incr ≥ 2 * NZERO then 2 * NZERO - 1
  else if t.ts_nice + incr < 0 then 0
  else t.ts_nice + incr

def ts_donice (p : Nat) (incr : Int) (wasonq : Bool) : State :=
  let nice := newnice (s.tsprocs p) incr
  let limit := to_short ((-((nice - NZERO) * c.ts_maxupri)).tdiv NZERO)
  let s := match ts_parmsset c s p ⟨limit, limit⟩ none wasonq with
    | .ok s => s
    | .error _ => s
  s.set p { s.tsprocs p with ts_nice := to_char nice, niced := some nice }

/-- The caller of `ts_donice`. A process in virtual 8086 mode is not checked. -/
def donice (p : Nat) (incr : Int) (suser p_v86 : Bool) (wasonq : Bool) : Except Errno State :=
  if p_v86 = false ∧ (incr < 0 ∨ incr > 2 * NZERO) ∧ suser = false then .error .EPERM
  else .ok (ts_donice c s p incr wasonq)

end

/-- What the class is asked. `dispatch` and `status` are what dispatcher and process code do to what
it reads. -/
inductive Call
  | enterclass (p : Nat) (parms : Option Tsparms) (reqpcredp : Option Bool) (wasonq : Bool)
      (memory : Option Int) (p_stat : Stat) (sprocio : Bool)
  | exitclass (p : Nat)
  | fork (pp cp : Nat) (p_stat : Stat) (p_pri : Int) (sprocio : Bool)
  | forkret (pp : Option Nat)
  | parmsset (p : Nat) (parms : Tsparms) (reqpcredp : Option Bool) (wasonq : Bool)
  | donice (p : Nat) (incr : Int) (suser p_v86 wasonq : Bool)
  | preempt (p : Nat)
  | setrun (p : Nat)
  | sleep (p : Nat) (disp : Nat)
  | wakeup (p : Nat)
  | tick (p : Nat) (wasonq : Bool)
  | trapret (p : Nat)
  | update (wasonq : Nat → Bool)
  | dispatch (curproc : Nat) (curpri maxrunpri : Int) (npwakecnt : Nat)
  | status (p : Nat) (p_stat : Stat) (sprocio : Bool)

def valid (c : Config) (parms : Tsparms) : Bool :=
  match ts_parmsin c parms none none with
  | .ok _ => true
  | .error _ => false

def Call.Possible (c : Config) (s : State) : Call → Prop
  | .enterclass p parms _ _ _ _ _ => p ∉ s.plist ∧ ∀ q ∈ parms, valid c q = true
  | .exitclass p | .donice p _ _ _ _ | .preempt p | .setrun p | .sleep p _ | .wakeup p
  | .tick p _ | .trapret p | .status p _ _ =>
    p ∈ s.plist
  | .fork pp cp _ _ _ => pp ∈ s.plist ∧ cp ∉ s.plist
  | .forkret pp => ∀ q ∈ pp, q ∈ s.plist
  | .parmsset p parms _ _ => p ∈ s.plist ∧ valid c parms = true
  | .update _ | .dispatch .. => True

instance Call.decidable_possible (c : Config) (s : State) :
    (call : Call) → Decidable (call.Possible c s)
  | .enterclass _ _ _ _ _ _ _ => inferInstanceAs (Decidable (_ ∧ ∀ _ ∈ _, _))
  | .exitclass _ | .donice .. | .preempt _ | .setrun _ | .sleep .. | .wakeup _ | .tick ..
  | .trapret _ | .status .. =>
    inferInstanceAs (Decidable (_ ∈ _))
  | .fork .. | .parmsset .. => inferInstanceAs (Decidable (_ ∧ _))
  | .forkret _ => inferInstanceAs (Decidable (∀ _ ∈ _, _))
  | .update _ | .dispatch .. => inferInstanceAs (Decidable True)

def done (s : State) : Except Errno State → State
  | .ok t => t
  | .error _ => s

def perform (c : Config) (s : State) : Call → State
  | .enterclass p parms reqpcredp wasonq memory p_stat sprocio =>
    done s (ts_enterclass c s p parms reqpcredp wasonq memory p_stat sprocio)
  | .exitclass p => ts_exitclass s p
  | .fork pp cp p_stat p_pri sprocio => ts_fork c s pp cp p_stat p_pri sprocio
  | .forkret pp => ts_forkret s pp
  | .parmsset p parms reqpcredp wasonq => done s (ts_parmsset c s p parms reqpcredp wasonq)
  | .donice p incr suser p_v86 wasonq => done s (donice c s p incr suser p_v86 wasonq)
  | .preempt p => ts_preempt c s p
  | .setrun p => ts_setrun c s p
  | .sleep p disp => ts_sleep c s p disp
  | .wakeup p => ts_wakeup s p
  | .tick p wasonq => ts_tick c s p wasonq
  | .trapret p => ts_trapret c s p
  | .update wasonq => ts_update c s wasonq
  | .dispatch curproc curpri maxrunpri npwakecnt =>
    { s with curproc := curproc, curpri := curpri, maxrunpri := maxrunpri, npwakecnt := npwakecnt }
  | .status p p_stat sprocio =>
    s.set p { s.tsprocs p with p_stat := p_stat, sprocio := sprocio }

def step (c : Config) (s : State) (call : Call) : Option State :=
  if call.Possible c s then some (perform c s call) else none

/-- No process is in the class when the system is started. -/
def ts_init (tsprocs : Nat → Tsproc) (curproc : Nat) (curpri maxrunpri : Int) : State :=
  ⟨[], tsprocs, curproc, curpri, maxrunpri, 0, 0⟩

end Ts
