import Mathlib.Algebra.Group.Int.Defs
import Svr4.Chains
import Svr4.ResourceMap

/- System V message queues (os/msg.c): message headers on a free list and on the queues, text
   segments from a resource map, one lock for each queue.

   A process runs until it sleeps, waits for a lock or copies from or to user memory, where others
   may run. What only decides when a sleeper wakes up (MSG_RWAIT, MSG_WWAIT and the wake-ups) is
   left out, a sleeper may go on at any time; so are pids, times, permissions other than the answer
   of ipcaccess, and the bytes of the texts. -/
namespace MessageQueues
open Function NextChains ResourceMap

inductive Errno
  | EINVAL
  | EACCES
  | EPERM
  | EFAULT
  | EIDRM
  | EAGAIN
  | EINTR
  | E2BIG
  | ENOMSG
deriving DecidableEq, Repr

/-- `msginfo`, within what master.d/mtune and sys/msg.h admit. -/
structure MsgInfo where
  msgmap : Nat
  msgmax : Nat
  msgmnb : Nat
  msgmni : Nat
  msgssz : Nat
  msgtql : Nat
  msgseg : Nat
  map_ge : 10 ≤ msgmap
  max_le : msgmax ≤ 8192
  mni_pos : 0 < msgmni
  ssz_pos : 0 < msgssz
  tql_pos : 0 < msgtql
  seg_lt : msgseg < 32768

def INT16_MAX : Nat := 32767

def toUshort (x : Nat) : Nat := x % 65536
def toShort (x : Int) : Int := Int.bmod x 65536
def toLong (x : Int) : Int := Int.bmod x (2 ^ 32)

def btoq (info : MsgInfo) (x : Nat) : Nat := (x + info.msgssz - 1) / info.msgssz

/-- struct msqid_ds; `alloc` is the bit IPC_ALLOC of its mode. -/
structure MsqidDs where
  alloc : Bool
  seq : Nat
  msg_first : Option Nat
  msg_last : Option Nat
  msg_cbytes : Nat
  msg_qnum : Nat
  msg_qbytes : Nat

/-- The headers, named by their index in `msgh`, and what they are on. `serial` and `lost` are not
in the source: a message's number, and the segments rmfree lost. -/
structure Pool where
  msg_next : Nat → Option Nat
  msg_type : Nat → Int
  msg_ts : Nat → Nat
  msg_spot : Nat → Int
  msgfp : Option Nat
  msgmap : RMap
  msgque : Nat → MsqidDs
  serial : Nat → Nat
  lost : List (Nat × Nat)

/-! Headers and segments -/

def Pool.take (h : Pool) (mp : Nat) : Pool := { h with msgfp := h.msg_next mp }

def Pool.give (h : Pool) (mp : Nat) : Pool :=
  { h with msg_next := update h.msg_next mp h.msgfp, msgfp := some mp }

/-- rmalloc on msgmap. On a well-formed map it has a result. -/
def Pool.rmalloc (h : Pool) (size : Nat) : Nat × Pool :=
  match ResourceMap.rmalloc h.msgmap size with
  | some (spot, mp) => (spot, { h with msgmap := mp })
  | none => (0, h)

def Pool.rmfree (h : Pool) (size a : Nat) : Pool :=
  match ResourceMap.rmfree h.msgmap size a with
  | some out =>
      { h with msgmap := out.mp, lost := if out.overflow then (size, a) :: h.lost else h.lost }
  | none => h

def Pool.want (h : Pool) : Pool :=
  { h with msgmap := { h.msgmap with mapwant := h.msgmap.mapwant + 1 } }

def Pool.setQueue (h : Pool) (k : Nat) (qp : MsqidDs) : Pool :=
  { h with msgque := update h.msgque k qp }

def Pool.unlink (h : Pool) (k : Nat) (pmp : Option Nat) (mp : Nat) : Pool :=
  let qp := h.msgque k
  let last := if h.msg_next mp = none then pmp else qp.msg_last
  match pmp with
  | none => h.setQueue k { qp with
      msg_first := h.msg_next mp, msg_last := last, msg_qnum := qp.msg_qnum - 1 }
  | some p => { h.setQueue k { qp with msg_last := last, msg_qnum := qp.msg_qnum - 1 } with
      msg_next := update h.msg_next p (h.msg_next mp) }

/-- Free up space and message header, relink pointers on q. -/
def msgfree (info : MsgInfo) (h : Pool) (k : Nat) (pmp : Option Nat) (mp : Nat) : Pool :=
  let h := h.unlink k pmp mp
  let h := if h.msg_ts mp ≠ 0 then h.rmfree (btoq info (h.msg_ts mp)) (h.msg_spot mp + 1).toNat else h
  h.give mp

def Pool.link (h : Pool) (k mp : Nat) (type : Int) (cnt spot serial : Nat) : Pool :=
  let qp := h.msgque k
  let qp := { qp with msg_qnum := qp.msg_qnum + 1, msg_cbytes := qp.msg_cbytes + cnt }
  let h := { h with
    msg_next := update h.msg_next mp none
    msg_type := update h.msg_type mp type
    msg_ts := update h.msg_ts mp (toUshort cnt)
    msg_spot := update h.msg_spot mp (toShort (if cnt ≠ 0 then spot else -1))
    serial := update h.serial mp serial }
  match qp.msg_last with
  | none => h.setQueue k { qp with msg_first := some mp, msg_last := some mp }
  | some l => { h.setQueue k { qp with msg_last := some mp } with
      msg_next := update h.msg_next l (some mp) }

/-- The loop of msgrcv for a type other than 0: the message and its predecessor. -/
def findmsg (h : Pool) (msgtyp : Int) :
    Nat → Option Nat → Option Nat → Option (Option Nat × Nat) → Option (Option Nat × Nat)
  | fuel + 1, pmp, some mp, best =>
      if 0 < msgtyp then
        if msgtyp ≠ h.msg_type mp then findmsg h msgtyp fuel (some mp) (h.msg_next mp) best
        else some (pmp, mp)
      else if h.msg_type mp ≤ toLong (-msgtyp) then
        match best with
        | some (spmp, smp) =>
            if h.msg_type smp ≤ h.msg_type mp then
              findmsg h msgtyp fuel (some mp) (h.msg_next mp) (some (spmp, smp))
            else findmsg h msgtyp fuel (some mp) (h.msg_next mp) (some (pmp, mp))
        | none => findmsg h msgtyp fuel (some mp) (h.msg_next mp) (some (pmp, mp))
      else findmsg h msgtyp fuel (some mp) (h.msg_next mp) best
  | _, _, _, best => best

/-- A queue has at most msgtql messages. -/
def select (info : MsgInfo) (h : Pool) (k : Nat) (msgtyp : Int) : Option (Option Nat × Nat) :=
  if msgtyp = 0 then (h.msgque k).msg_first.map fun mp => (none, mp)
  else findmsg h msgtyp info.msgtql none (h.msgque k).msg_first none

/-! Processes -/

/-- The arguments of msgsnd and msgrcv; `access` is what ipcaccess says. -/
structure Snd where
  msqid : Int
  msgsz : Int
  nowait : Bool
  access : Bool

structure Rcv where
  msqid : Int
  msgsz : Int
  msgtyp : Int
  nowait : Bool
  noerror : Bool
  access : Bool
  long : -2 ^ 31 ≤ msgtyp ∧ msgtyp < 2 ^ 31 := by decide

inductive Stage
  | sndStart (a : Snd)
  | sndGet (a : Snd) (type : Int)
  | sndIntr (a : Snd)
  | rcvStart (a : Rcv)
  | rcvFind (a : Rcv)
  | rmid (msqid : Int) (access : Bool)

def Stage.msqid : Stage → Int
  | .sndStart a | .sndGet a _ | .sndIntr a => a.msqid
  | .rcvStart a | .rcvFind a => a.msqid
  | .rmid id _ => id

def Stage.refused : Stage → Errno
  | .sndGet .. | .rcvFind .. => .EIDRM
  | _ => .EINVAL

inductive Result
  | ok (value : Nat)
  | error (e : Errno)
deriving DecidableEq, Repr

/-- Outside of these calls, with the last result; waiting for a lock; copying, with the lock; or
asleep. -/
inductive Proc
  | user (r : Result)
  | lockWait (stage : Stage)
  | sndType (a : Snd)
  | sndWait (a : Snd) (type : Int)
  | sndText (a : Snd) (type : Int) (mp spot : Nat)
  | rcvType (a : Rcv) (pmp : Option Nat) (mp sz : Nat)
  | rcvText (a : Rcv) (pmp : Option Nat) (mp sz : Nat)
  | rcvWait (a : Rcv)

structure Message where
  queue : Nat
  type : Int
  size : Nat

/-- `sent`, `received` and `removed` are not in the source: all messages sent, who received which,
and which went with their queue. -/
structure State where
  pool : Pool
  msglock : Nat → Bool
  proc : Nat → Proc
  sent : List Message
  received : List (Nat × Nat)
  removed : List Nat

def State.setProc (s : State) (p : Nat) (pc : Proc) : State :=
  { s with proc := update s.proc p pc }

def State.setLock (s : State) (k : Nat) (held : Bool) : State :=
  { s with msglock := update s.msglock k held }

def State.out (s : State) (p k : Nat) (r : Result) : State :=
  (s.setLock k false).setProc p (.user r)

def key (info : MsgInfo) (id : Int) : Nat := (id % info.msgmni).toNat

def valid (info : MsgInfo) (h : Pool) (id : Int) : Bool :=
  let qp := h.msgque (key info id)
  qp.alloc && id / info.msgmni = qp.seq

/-- msgconv, and what follows it once the queue is locked. -/
def msgconv (info : MsgInfo) (s : State) (p : Nat) (stage : Stage) (found : State → State) : State :=
  if stage.msqid < 0 then s.setProc p (.user (.error stage.refused))
  else if s.msglock (key info stage.msqid) then s.setProc p (.lockWait stage)
  else if valid info s.pool stage.msqid then found (s.setLock (key info stage.msqid) true)
  else s.setProc p (.user (.error stage.refused))

/-! msgsnd -/

def snd_link (info : MsgInfo) (s : State) (p : Nat) (a : Snd) (type : Int) (mp spot : Nat) : State :=
  let k := key info a.msqid
  State.out { s with
    pool := s.pool.link k mp type a.msgsz.toNat spot s.sent.length
    sent := s.sent ++ [⟨k, type, a.msgsz.toNat⟩] } p k (.ok 0)

def snd_wait (s : State) (p k : Nat) (a : Snd) (type : Int) : State :=
  if a.nowait then s.out p k (.error .EAGAIN)
  else (s.setLock k false).setProc p (.sndWait a type)

/-- Allocate space on q, message header, & buffer space. -/
def snd_alloc (info : MsgInfo) (s : State) (p : Nat) (a : Snd) (type : Int) : State :=
  let k := key info a.msqid
  let cnt := a.msgsz.toNat
  if (s.pool.msgque k).msg_qbytes < cnt + (s.pool.msgque k).msg_cbytes then snd_wait s p k a type
  else
    match s.pool.msgfp with
    | none => snd_wait s p k a type
    | some mp =>
        let h := s.pool.take mp
        if cnt = 0 then snd_link info { s with pool := h } p a type mp 0
        else
          match h.rmalloc (btoq info cnt) with
          | (0, h) =>
              if a.nowait then State.out { s with pool := h.give mp } p k (.error .EAGAIN)
              else State.setProc { s.setLock k false with pool := h.want.give mp } p (.sndWait a type)
          | (spot + 1, h) => State.setProc { s with pool := h } p (.sndText a type mp spot)

def snd_get (info : MsgInfo) (s : State) (p : Nat) (a : Snd) (type : Int) : State :=
  msgconv info s p (.sndGet a type) fun s => snd_alloc info s p a type

def snd_start (info : MsgInfo) (s : State) (p : Nat) (a : Snd) : State :=
  msgconv info s p (.sndStart a) fun s =>
    let k := key info a.msqid
    if a.access = false then s.out p k (.error .EACCES)
    else if a.msgsz < 0 ∨ info.msgmax < a.msgsz then s.out p k (.error .EINVAL)
    else s.setProc p (.sndType a)

/-- The type has been copied in. -/
def snd_typed (info : MsgInfo) (s : State) (p : Nat) (a : Snd) (type : Int) : State :=
  let k := key info a.msqid
  if type < 1 then s.out p k (.error .EINVAL)
  else snd_get info (s.setLock k false) p a type

def snd_intr (info : MsgInfo) (s : State) (p : Nat) (a : Snd) : State :=
  msgconv info s p (.sndIntr a) fun s => s.out p (key info a.msqid) (.error .EINTR)

def snd_fault (info : MsgInfo) (s : State) (p : Nat) (a : Snd) (mp spot : Nat) : State :=
  State.out { s with
    pool := (s.pool.rmfree (btoq info a.msgsz.toNat) (spot + 1)).give mp } p (key info a.msqid)
    (.error .EFAULT)

/-! msgrcv -/

def rcv_find (info : MsgInfo) (s : State) (p : Nat) (a : Rcv) : State :=
  msgconv info s p (.rcvFind a) fun s =>
    let k := key info a.msqid
    match select info s.pool k a.msgtyp with
    | some (pmp, mp) =>
        if a.msgsz < s.pool.msg_ts mp then
          if a.noerror then s.setProc p (.rcvType a pmp mp a.msgsz.toNat)
          else s.out p k (.error .E2BIG)
        else s.setProc p (.rcvType a pmp mp (s.pool.msg_ts mp))
    | none =>
        if a.nowait then s.out p k (.error .ENOMSG)
        else (s.setLock k false).setProc p (.rcvWait a)

def rcv_start (info : MsgInfo) (s : State) (p : Nat) (a : Rcv) : State :=
  msgconv info s p (.rcvStart a) fun s =>
    let k := key info a.msqid
    if a.access = false then s.out p k (.error .EACCES)
    else if a.msgsz < 0 then s.out p k (.error .EINVAL)
    else rcv_find info (s.setLock k false) p a

def rcv_done (info : MsgInfo) (s : State) (p : Nat) (a : Rcv) (pmp : Option Nat) (mp sz : Nat) :
    State :=
  let k := key info a.msqid
  let qp := s.pool.msgque k
  let h := s.pool.setQueue k { qp with msg_cbytes := qp.msg_cbytes - s.pool.msg_ts mp }
  State.out { s with
    pool := msgfree info h k pmp mp
    received := s.received ++ [(s.pool.serial mp, p)] } p k (.ok sz)

/-! msgctl(IPC_RMID) -/

/-- Free all messages; there are at most msgtql. -/
def rmid_loop (info : MsgInfo) (k : Nat) : Nat → Pool × List Nat → Pool × List Nat
  | fuel + 1, (h, removed) =>
      match (h.msgque k).msg_first with
      | none => (h, removed)
      | some mp => rmid_loop info k fuel (msgfree info h k none mp, removed ++ [h.serial mp])
  | 0, r => r

def rmid (info : MsgInfo) (s : State) (p : Nat) (id : Int) (access : Bool) : State :=
  msgconv info s p (.rmid id access) fun s =>
    let k := key info id
    if access = false then s.out p k (.error .EPERM)
    else
      let (h, removed) := rmid_loop info k info.msgtql (s.pool, s.removed)
      let qp := h.msgque k
      let seq := if (INT16_MAX : Int) < id + info.msgmni then 0 else qp.seq + 1
      State.out { s with
        pool := h.setQueue k { qp with alloc := false, seq := seq, msg_cbytes := 0 }
        removed := removed } p k (.ok 0)

/-- A new queue in the free slot that ipcget has found. -/
def msgget (info : MsgInfo) (s : State) (k : Nat) : Option State :=
  if k < info.msgmni ∧ (s.pool.msgque k).alloc = false then
    let qp := s.pool.msgque k
    some { s with pool := s.pool.setQueue k { qp with
      alloc := true, msg_first := none, msg_last := none, msg_qnum := 0
      msg_qbytes := toUshort info.msgmnb } }
  else none

def msginit (info : MsgInfo) : Pool where
  msg_next := fun i => if i + 1 < info.msgtql then some (i + 1) else none
  msg_type := fun _ => 0
  msg_ts := fun _ => 0
  msg_spot := fun _ => 0
  msgfp := some 0
  msgmap := ((ResourceMap.rmfree (mapinit info.msgmap) info.msgseg 1).map FreeOut.mp).getD
    (mapinit info.msgmap)
  msgque := fun _ => ⟨false, 0, none, none, 0, 0, 0⟩
  serial := fun _ => 0
  lost := []

/-! The machine -/

inductive Label
  | msgget (k : Nat)
  | msgsnd (p : Nat) (a : Snd)
  | msgrcv (p : Nat) (a : Rcv)
  | rmid (p : Nat) (id : Int) (access : Bool)
  | retry (p : Nat)
  | typed (p : Nat) (type : Int)
  | copied (p : Nat)
  | fault (p : Nat)
  | wake (p : Nat)
  | intr (p : Nat)

def resume (info : MsgInfo) (s : State) (p : Nat) : Stage → State
  | .sndStart a => snd_start info s p a
  | .sndGet a type => snd_get info s p a type
  | .sndIntr a => snd_intr info s p a
  | .rcvStart a => rcv_start info s p a
  | .rcvFind a => rcv_find info s p a
  | .rmid id access => rmid info s p id access

/-- `retry` looks at a lock again, `typed`, `copied` and `fault` end a copyin or copyout, `wake`
and `intr` a sleep; a signal in the sleep on a lock ends the call. -/
def step (info : MsgInfo) (s : State) : Label → Option State
  | .msgget k => msgget info s k
  | .msgsnd p a =>
      match s.proc p with
      | .user _ => some (snd_start info s p a)
      | _ => none
  | .msgrcv p a =>
      match s.proc p with
      | .user _ => some (rcv_start info s p a)
      | _ => none
  | .rmid p id access =>
      match s.proc p with
      | .user _ => some (rmid info s p id access)
      | _ => none
  | .retry p =>
      match s.proc p with
      | .lockWait stage => some (resume info s p stage)
      | _ => none
  | .typed p type =>
      match s.proc p with
      | .sndType a => some (snd_typed info s p a type)
      | _ => none
  | .copied p =>
      match s.proc p with
      | .sndText a type mp spot => some (snd_link info s p a type mp spot)
      | .rcvType a pmp mp sz =>
          some (if sz = 0 then rcv_done info s p a pmp mp sz else s.setProc p (.rcvText a pmp mp sz))
      | .rcvText a pmp mp sz => some (rcv_done info s p a pmp mp sz)
      | _ => none
  | .fault p =>
      match s.proc p with
      | .sndType a => some (s.out p (key info a.msqid) (.error .EFAULT))
      | .sndText a _ mp spot => some (snd_fault info s p a mp spot)
      | .rcvType a .. | .rcvText a .. => some (s.out p (key info a.msqid) (.error .EFAULT))
      | _ => none
  | .wake p =>
      match s.proc p with
      | .sndWait a type => some (snd_get info s p a type)
      | .rcvWait a => some (rcv_find info s p a)
      | _ => none
  | .intr p =>
      match s.proc p with
      | .lockWait _ => some (s.setProc p (.user (.error .EINTR)))
      | .sndWait a _ => some (snd_intr info s p a)
      | .rcvWait _ => some (s.setProc p (.user (.error .EINTR)))
      | _ => none

def start (info : MsgInfo) : State where
  pool := msginit info
  msglock := fun _ => false
  proc := fun _ => .user (.ok 0)
  sent := []
  received := []
  removed := []

end MessageQueues
