import Mathlib.Algebra.Order.Group.Int
import Svr4.Chains

/- System V semaphores (os/sem.c): sets of semaphores, operations that are done all or none,
   and the adjustments that a process leaves for its exit.

   A process is named by its slot. What only decides when a sleeper wakes up (semncnt, semzcnt
   and the wake-ups) is left out, a sleeper may go on at any time; so are the pids, the times,
   the keys and the commands of semctl that only read or change permissions. -/
namespace Semaphores
open Function NextChains

inductive Errno
  | EINVAL
  | ERANGE
  | ENOSPC
  | EAGAIN
  | EFBIG
  | E2BIG
  | EIDRM
  | EACCES
deriving DecidableEq, Repr

/-- `seminfo`, within what master.d/mtune admits for SEMVMX and SEMAEM. -/
structure SemInfo where
  semmni : Nat
  semmns : Nat
  semmnu : Nat
  semmsl : Nat
  semopm : Nat
  semume : Nat
  semvmx : Nat
  semaem : Nat
  mni_pos : 0 < semmni
  mnu_pos : 0 < semmnu
  vmx_le : semvmx ≤ 32767
  aem_le : semaem ≤ 16384

def INT16_MAX : Nat := 32767

def toShort (x : Int) : Int := Int.bmod x 65536
def toUshort (x : Int) : Nat := (x % 65536).toNat

structure Undo where
  un_aoe : Int
  un_num : Nat
  un_id : Nat
deriving DecidableEq, Repr

/-- The sem_undo structures, named by their index in `semu`, and what points to them.
`un_ent` holds the first `un_cnt` entries. -/
structure Undos where
  un_np : Nat → Option Nat
  un_ent : Nat → List Undo
  semfup : Option Nat
  semunp : Option Nat
  sem_undo : Nat → Option Nat

/-! Adjust-on-exit entries -/

def Undo.before (id num : Nat) (e : Undo) : Bool :=
  e.un_id < id || (e.un_id = id && e.un_num < num)

/-- The entries before the place of (id, num), the entry there if there is one, and the rest. -/
def search (id num : Nat) (ents : List Undo) : List Undo × Option Undo × List Undo :=
  match ents.dropWhile (Undo.before id num) with
  | e :: hi =>
      if e.un_id = id ∧ e.un_num = num then (ents.takeWhile (Undo.before id num), some e, hi)
      else (ents.takeWhile (Undo.before id num), none, e :: hi)
  | [] => (ents, none, [])

def Undos.setEntries (u : Undos) (x : Nat) (ents : List Undo) : Undos :=
  { u with un_ent := update u.un_ent x ents }

/-- The undo structure of the process, or the first free one. -/
def attach (u : Undos) (slot : Nat) : Option (Nat × Undos) :=
  match u.sem_undo slot with
  | some x => some (x, u)
  | none =>
    match u.semfup with
    | none => none
    | some x => some (x, { u with
        semfup := u.un_np x
        un_np := update u.un_np x none
        sem_undo := update u.sem_undo slot (some x) })

def Undos.link (u : Undos) (x : Nat) : Undos :=
  { u with un_np := update u.un_np x u.semunp, semunp := some x }

def Undos.unlink (info : SemInfo) (u : Undos) (x : Nat) : Undos :=
  let (np, head) := NextChains.unlink u.un_np u.semunp x info.semmnu
  { u with un_np := np, semunp := head }

def Undos.outside (info : SemInfo) (aoe : Int) : Bool :=
  (info.semaem : Int) < aoe || aoe < -info.semaem

/-- Create or update an entry. -/
def semaoe (info : SemInfo) (u : Undos) (slot : Nat) (val : Int) (id num : Nat) :
    Option Errno × Undos :=
  let val := toShort val
  if val = 0 then (none, u)
  else if Undos.outside info val then (some .ERANGE, u)
  else
    match attach u slot with
    | none => (some .ENOSPC, u)
    | some (x, u) =>
      match search id num (u.un_ent x) with
      | (lo, none, hi) =>
          if info.semume ≤ (u.un_ent x).length then (some .EINVAL, u)
          else
            let u := if u.un_ent x = [] then u.link x else u
            (none, u.setEntries x (lo ++ ⟨toShort (-val), num, id⟩ :: hi))
      | (lo, some e, hi) =>
          let aoe := toShort (e.un_aoe - val)
          if Undos.outside info aoe then
            (some .ERANGE, u.setEntries x (lo ++ { e with un_aoe := toShort (aoe + val) } :: hi))
          else if aoe = 0 then
            let u := u.setEntries x (lo ++ hi)
            (none, if lo ++ hi = [] then { u.unlink info x with
              un_np := update (u.unlink info x).un_np x none } else u)
          else (none, u.setEntries x (lo ++ { e with un_aoe := aoe } :: hi))

def clear (id low high : Nat) : List Undo → List Undo
  | [] => []
  | e :: es =>
      if id < e.un_id then e :: es
      else if e.un_id < id ∨ e.un_num < low then e :: clear id low high es
      else if high < e.un_num then e :: es
      else clear id low high es

def semunrm_loop (id low high : Nat) (u : Undos) : Nat → Option Nat → Option Nat → Undos
  | fuel + 1, pp, some p =>
      let u := u.setEntries p (clear id low high (u.un_ent p))
      if u.un_ent p = [] then
        match pp with
        | none => semunrm_loop id low high
            { u with semunp := u.un_np p, un_np := update u.un_np p none } fuel none (u.un_np p)
        | some q => semunrm_loop id low high
            { u with un_np := update (update u.un_np q (u.un_np p)) p none }
            fuel (some q) (u.un_np p)
      else semunrm_loop id low high u fuel (some p) (u.un_np p)
  | _, _, _ => u

/-- Clear all entries of the semaphores low to high of a set. -/
def semunrm (info : SemInfo) (u : Undos) (id low high : Nat) : Undos :=
  semunrm_loop id low high u info.semmnu none u.semunp

/-- The free chain that seminit makes of all structures. -/
def seminit (info : SemInfo) : Undos where
  un_np := fun i => if i < info.semmnu - 1 then some (i + 1) else none
  un_ent := fun _ => []
  semfup := some 0
  semunp := none
  sem_undo := fun _ => none

/-! Semaphore sets -/

/-- struct sembuf; `undo` and `nowait` are the flags SEM_UNDO and IPC_NOWAIT. -/
structure Sembuf where
  sem_num : Nat
  sem_op : Int
  undo : Bool
  nowait : Bool
  short : -32768 ≤ sem_op ∧ sem_op ≤ 32767 := by decide

/-- struct semid_ds; `alloc` is the bit IPC_ALLOC of its mode. -/
structure SemidDs where
  alloc : Bool
  seq : Nat
  sem_base : Nat
  sem_nsems : Nat

/-- Where a call sleeps: semop in its first copyin, in `sleep`, or in the copyin after it;
semctl(SETALL) in copyin. -/
inductive Place
  | first
  | waits
  | again
  | setall
deriving DecidableEq

/-- A call that sleeps: the semid, its index in `sema`, and the number of operations. -/
structure Sleeper where
  semid : Nat
  sp : Nat
  nsops : Nat
  place : Place

/-- `net` and `skipped` are not in the source: for each semaphore the value set last plus the net of
the operations without SEM_UNDO since, and whether an adjustment was skipped. -/
structure Sem where
  sema : Nat → SemidDs
  semval : Nat → Nat
  undos : Undos
  asleep : Nat → Option Sleeper
  net : Nat → Int
  skipped : Nat → Bool

def semconv (info : SemInfo) (s : Sem) (id : Nat) : Option Nat :=
  let sp := s.sema (id % info.semmni)
  if sp.alloc = false ∨ id / info.semmni ≠ sp.seq then none else some (id % info.semmni)

/-! semop -/

def Sem.addVal (s : Sem) (semp : Nat) (op : Int) : Sem :=
  { s with semval := update s.semval semp (toUshort (s.semval semp + op)) }

def semundo (info : SemInfo) (slot id base : Nat) (s : Sem) : List Sembuf → Sem
  | [] => s
  | op :: ops =>
      let s := semundo info slot id base s ops
      if op.sem_op = 0 then s
      else
        let s := s.addVal (base + op.sem_num) (-op.sem_op)
        if op.undo then { s with undos := (semaoe info s.undos slot (-op.sem_op) id op.sem_num).2 }
        else s

inductive Outcome
  | done
  | error (e : Errno)
  | sleep
deriving DecidableEq, Repr

/-- One operation: done, or why not. The undo table may have a new structure attached either way. -/
def semop_one (info : SemInfo) (slot id base : Nat) (s : Sem) (op : Sembuf) : Outcome × Sem :=
  let semp := base + op.sem_num
  if 0 < op.sem_op then
    if (info.semvmx : Int) < op.sem_op + s.semval semp then (.error .ERANGE, s)
    else if op.undo then
      match semaoe info s.undos slot op.sem_op id op.sem_num with
      | (some e, u) => (.error e, { s with undos := u })
      | (none, u) => (.done, Sem.addVal { s with undos := u } semp op.sem_op)
    else (.done, s.addVal semp op.sem_op)
  else if op.sem_op < 0 then
    if -op.sem_op ≤ s.semval semp then
      if op.undo then
        match semaoe info s.undos slot op.sem_op id op.sem_num with
        | (some e, u) => (.error e, { s with undos := u })
        | (none, u) => (.done, Sem.addVal { s with undos := u } semp op.sem_op)
      else (.done, s.addVal semp op.sem_op)
    else (if op.nowait then .error .EAGAIN else .sleep, s)
  else if s.semval semp ≠ 0 then (if op.nowait then .error .EAGAIN else .sleep, s)
  else (.done, s)

/-- An operation's change of the value, and of the adjustment where it asks for one. -/
def semop_change (info : SemInfo) (slot id base : Nat) (s : Sem) (op : Sembuf) : Outcome × Sem :=
  if op.undo then
    match semaoe info s.undos slot op.sem_op id op.sem_num with
    | (some e, u) => (.error e, { s with undos := u })
    | (none, u) => (.done, Sem.addVal { s with undos := u } (base + op.sem_num) op.sem_op)
  else (.done, s.addVal (base + op.sem_num) op.sem_op)

theorem semop_one_eq (info : SemInfo) (slot id base : Nat) (s : Sem) (op : Sembuf) :
    semop_one info slot id base s op =
      if 0 < op.sem_op then
        if (info.semvmx : Int) < op.sem_op + s.semval (base + op.sem_num) then (.error .ERANGE, s)
        else semop_change info slot id base s op
      else if op.sem_op < 0 then
        if -op.sem_op ≤ s.semval (base + op.sem_num) then semop_change info slot id base s op
        else (if op.nowait then .error .EAGAIN else .sleep, s)
      else if s.semval (base + op.sem_num) ≠ 0 then
        (if op.nowait then .error .EAGAIN else .sleep, s)
      else (.done, s) := rfl

/-- The loop over the operations; those of `did` have been done. -/
def semop_loop (info : SemInfo) (slot id base : Nat) (s : Sem) (did : List Sembuf) :
    List Sembuf → Outcome × Sem
  | [] => (.done, s)
  | op :: ops =>
    match semop_one info slot id base s op with
    | (.done, s) => semop_loop info slot id base s (did ++ [op]) ops
    | (out, s) => (out, semundo info slot id base s did)

def semop_pass (info : SemInfo) (s : Sem) (slot id base : Nat) (ops : List Sembuf) : Outcome × Sem :=
  semop_loop info slot id base s [] ops

end Semaphores
