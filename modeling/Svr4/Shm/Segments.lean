import Mathlib.Algebra.BigOperators.Group.Finset.Basic
import Mathlib.Algebra.GroupWithZero.Nat
import Mathlib.Data.Fintype.Basic
import Mathlib.Data.List.Sort

/- os/shm.c, and what vm/vm_as.c, vm/seg_vn.c, os/fork.c and os/exit.c do to the anon maps of shared
   segments. A label is what one process does up to the next point where it may sleep. -/
namespace ShmSegments

abbrev SHMMNI : Nat := 100

scoped instance neZero_SHMMNI : NeZero SHMMNI := ⟨by decide⟩

structure Shminfo where
  shmmax : Nat
  shmseg : Nat

structure AnonMap where
  refcnt : Nat
  size : Nat
  deriving DecidableEq

structure Segacct where
  sa_addr : Nat
  sa_len : Nat
  sa_amp : Nat
  deriving DecidableEq

structure Seg where
  s_base : Nat
  s_size : Nat
  amp : Nat
  deriving DecidableEq

variable {nproc : Nat}

/-- `alloc` and `locked` are the bits of the mode; `locked` is kept with the process that has set
    it. -/
structure ShmidDs (nproc : Nat) where
  alloc : Bool
  seq : Nat
  locked : Option (Fin nproc)
  shm_amp : Option Nat
  deriving DecidableEq

/-- Where a process is: in `as_map` or `sa_add` for `shmat`, in `kmem_zalloc` for `shmget`, in
`as_unmap` and behind it for `kshmdt`, called by `shmexit` or not, in `as_dup` or `shmfork`, in the
loop of `shmexit`, or in `as_free` for its own address space or a child's that is not to be. -/
inductive Doing (nproc : Nat)
  | unused
  | embryo (parent : Fin nproc)
  | idle
  | creating (sp : Fin SHMMNI) (size : Nat)
  | mapping (sp : Fin SHMMNI) (addr size : Nat)
  | recording (sp : Fin SHMMNI) (addr size : Nat)
  | unmapping (addr : Nat) (exits : Bool)
  | unmapped (addr : Nat) (exits : Bool)
  | copying (cp : Fin nproc) (rest : List Seg)
  | accounting (cp : Fin nproc) (rest : List Segacct)
  | exiting
  | freeing (cp : Fin nproc)
  deriving DecidableEq

structure Proc (nproc : Nat) where
  p_segacct : List Segacct
  a_segs : List Seg
  u_nshmseg : Nat
  p_aiocount : Nat
  doing : Doing nproc
  deriving DecidableEq

structure Sys (nproc : Nat) where
  shmem : Fin SHMMNI → ShmidDs nproc
  amps : Nat → Option AnonMap
  procs : Fin nproc → Proc nproc

/-- What `as_map` comes to; pages that cannot be locked are unmapped again, if that works. -/
inductive Mapped
  | made
  | failed
  | not_locked (unmapped : Bool)
  deriving DecidableEq

/-- `granted` is what the checks of permissions say, and `reserved` what `anon_resv` says. -/
inductive Label (nproc : Nat)
  | shmget (p : Fin nproc) (sp : Fin SHMMNI) (size : Nat) (reserved : Bool)
  | created (p : Fin nproc) (amp : Nat)
  | shmat (p : Fin nproc) (shmid addr : Nat) (granted : Bool)
  | mapped (p : Fin nproc) (result : Mapped)
  | recorded (p : Fin nproc)
  | shmdt (p : Fin nproc) (addr : Nat)
  | unmapped (p : Fin nproc) (ok : Bool)
  | detached (p : Fin nproc)
  | rmid (p : Fin nproc) (shmid : Nat) (granted : Bool)
  | fork (p cp : Fin nproc)
  | copied (p : Fin nproc) (ok : Bool)
  | accounted (p : Fin nproc)
  | exit (p : Fin nproc)
  | shmexit (p : Fin nproc)
  | freed (p : Fin nproc)
  deriving DecidableEq

def pages (size : Nat) : Nat := (size + 4095) / 4096 * 4096

section
variable (amps : Nat → Option AnonMap) (amp : Nat)

def hold : Nat → Option AnonMap :=
  Function.update amps amp ((amps amp).map fun m => { m with refcnt := m.refcnt + 1 })

/-- The map is released when `last` is reached: 1 here, and 0 in the segment driver. -/
def unhold (last : Nat) : Nat → Option AnonMap :=
  Function.update amps amp ((amps amp).bind fun m =>
    if m.refcnt - 1 = last then none else some { m with refcnt := m.refcnt - 1 })

end

def sa_add (list : List Segacct) (sap : Segacct) : List Segacct :=
  list.orderedInsert (fun a b => a.sa_addr ≤ b.sa_addr) sap

def sa_del (list : List Segacct) (addr : Nat) : List Segacct :=
  list.eraseP fun sap => addr ≤ sap.sa_addr

def sa_find (list : List Segacct) (addr : Nat) : Option Segacct :=
  list.find? fun sap => sap.sa_addr = addr

def seg_alloc (segs : List Seg) (seg : Seg) : List Seg :=
  segs.orderedInsert (fun a b => a.s_base ≤ b.s_base) seg

def overlaps (addr len : Nat) (seg : Seg) : Bool :=
  addr < seg.s_base + seg.s_size ∧ seg.s_base < addr + len

def as_gap (segs : List Seg) (addr len : Nat) : Bool := segs.all fun seg => !overlaps addr len seg

def as_unmap (segs : List Seg) (addr len : Nat) : List Seg :=
  segs.filter fun seg => !overlaps addr len seg

def unmap_amps (amps : Nat → Option AnonMap) (segs : List Seg) (addr len : Nat) :
    Nat → Option AnonMap :=
  (segs.filter (overlaps addr len)).foldl (fun amps seg => unhold amps seg.amp 0) amps

namespace Sys
variable (s : Sys nproc) (p : Fin nproc)

def put (q : Proc nproc) : Sys nproc := { s with procs := Function.update s.procs p q }

def go (d : Doing nproc) : Sys nproc := s.put p { s.procs p with doing := d }

def putShm (sp : Fin SHMMNI) (h : ShmidDs nproc) : Sys nproc :=
  { s with shmem := Function.update s.shmem sp h }

def lock (sp : Fin SHMMNI) : Sys nproc := s.putShm sp { s.shmem sp with locked := some p }

def unlock (sp : Fin SHMMNI) : Sys nproc := s.putShm sp { s.shmem sp with locked := none }

end Sys

section
variable (info : Shminfo) (s : Sys nproc) (p : Fin nproc)

/-- An identifier that is in use is returned as it is. -/
def shmget (sp : Fin SHMMNI) (size : Nat) (reserved : Bool) : Option (Sys nproc) :=
  if (s.procs p).doing ≠ .idle then none
  else if (s.shmem sp).alloc = true then some s
  else if (s.shmem sp).locked ≠ none then none
  else if size < 1 ∨ info.shmmax < size ∨ reserved = false then some s
  else some ((s.putShm sp { s.shmem sp with alloc := true, locked := some p }).go p
    (.creating sp size))

def created (amp : Nat) : Option (Sys nproc) :=
  match (s.procs p).doing with
  | .creating sp size =>
      if s.amps amp ≠ none then none
      else some ({ s with amps := Function.update s.amps amp (some ⟨2, pages size⟩) }.putShm sp
        { s.shmem sp with shm_amp := some amp, locked := none } |>.go p .idle)
  | _ => none

def valid (sp : Fin SHMMNI) (shmid : Nat) : Bool :=
  (s.shmem sp).alloc = true ∧ shmid / SHMMNI = (s.shmem sp).seq

/-- The process waits for a header that is locked. -/
def shmat (shmid addr : Nat) (granted : Bool) : Option (Sys nproc) :=
  let sp := Fin.ofNat SHMMNI shmid
  if (s.procs p).doing ≠ .idle ∨ (s.shmem sp).locked ≠ none then none
  else if valid s sp shmid = false ∨ granted = false then some s
  else if info.shmseg ≤ (s.procs p).u_nshmseg then some s
  else
    match (s.shmem sp).shm_amp.bind s.amps with
    | none => none
    | some amp =>
        if as_gap (s.procs p).a_segs addr amp.size = false then some s
        else some ((s.lock p sp).go p (.mapping sp addr amp.size))

/-- `sp->shm_amp` is not null here, or the kernel faults. -/
def mapped (result : Mapped) : Option (Sys nproc) :=
  match (s.procs p).doing with
  | .mapping sp addr size =>
      match (s.shmem sp).shm_amp with
      | none => none
      | some amp =>
          let segs := seg_alloc (s.procs p).a_segs ⟨addr, size, amp⟩
          let amps := hold s.amps amp
          match result with
          | .made => some ({ s with amps := amps }.put p
              { s.procs p with a_segs := segs, doing := .recording sp addr size })
          | .failed => some ((s.unlock sp).go p .idle)
          | .not_locked true => some ({ s with amps := unmap_amps amps segs addr size }.unlock sp
              |>.put p { s.procs p with a_segs := as_unmap segs addr size, doing := .idle })
          | .not_locked false => some ({ s with amps := amps }.unlock sp
              |>.put p { s.procs p with a_segs := segs, doing := .idle })
  | _ => none

def recorded : Option (Sys nproc) :=
  match (s.procs p).doing with
  | .recording sp addr size =>
      match (s.shmem sp).shm_amp with
      | none => none
      | some amp => some ({ s with amps := hold s.amps amp }.unlock sp |>.put p
          { s.procs p with
            p_segacct := sa_add (s.procs p).p_segacct ⟨addr, size, amp⟩
            u_nshmseg := (s.procs p).u_nshmseg + 1
            doing := .idle })
  | _ => none

/-- The first half of `kshmdt`; `none` is EINVAL. -/
def kshmdt (addr : Nat) (exits : Bool) : Option (Sys nproc) :=
  if (s.procs p).p_aiocount ≠ 0 then none
  else (sa_find (s.procs p).p_segacct addr).map fun _ => s.go p (.unmapping addr exits)

def shmdt (addr : Nat) : Option (Sys nproc) :=
  if (s.procs p).doing ≠ .idle then none
  else some ((kshmdt s p addr false).getD s)

def unmapped (ok : Bool) : Option (Sys nproc) :=
  match (s.procs p).doing with
  | .unmapping addr exits =>
      (sa_find (s.procs p).p_segacct addr).map fun sap =>
        if ok = true then
          { s with amps := unmap_amps s.amps (s.procs p).a_segs addr sap.sa_len }.put p
            { s.procs p with
              a_segs := as_unmap (s.procs p).a_segs addr sap.sa_len
              doing := .unmapped addr exits }
        else s.go p (.unmapped addr exits)
  | _ => none

/-- The second half of `kshmdt`; the times that it sets in the header are left out. -/
def detached : Option (Sys nproc) :=
  match (s.procs p).doing with
  | .unmapped addr exits =>
      (sa_find (s.procs p).p_segacct addr).map fun sap =>
        { s with amps := unhold s.amps sap.sa_amp 1 }.put p
          { s.procs p with
            p_segacct := sa_del (s.procs p).p_segacct addr
            u_nshmseg := (s.procs p).u_nshmseg - 1
            doing := if exits = true then .exiting else .idle }
  | _ => none

def rmid (shmid : Nat) (granted : Bool) : Option (Sys nproc) :=
  let sp := Fin.ofNat SHMMNI shmid
  let seq := (s.shmem sp).seq + 1
  if (s.procs p).doing ≠ .idle ∨ (s.shmem sp).locked ≠ none then none
  else if valid s sp shmid = false ∨ granted = false then some s
  else (s.shmem sp).shm_amp.map fun amp =>
    { s with amps := unhold s.amps amp 1 }.putShm sp
      ⟨false, if 32767 < seq * SHMMNI + sp then 0 else seq, none, none⟩

/-- The child has no segments of its own yet. -/
def fork (cp : Fin nproc) : Option (Sys nproc) :=
  if (s.procs p).doing ≠ .idle ∨ (s.procs cp).doing ≠ .unused then none
  else some ((s.put cp ⟨[], [], 0, 0, .embryo p⟩).go p (.copying cp (s.procs p).a_segs))

/-- A round of `as_dup`, or a failure up to the last step that may fail; the child's u-block is a
copy. -/
def copied (ok : Bool) : Option (Sys nproc) :=
  match (s.procs p).doing with
  | .copying cp rest =>
      if ok = false then some (s.go p (.freeing cp))
      else
        match rest with
        | seg :: rest => some ({ s with amps := hold s.amps seg.amp }.put cp
            { s.procs cp with a_segs := seg_alloc (s.procs cp).a_segs seg }
            |>.go p (.copying cp rest))
        | [] => some ((s.put cp { s.procs cp with u_nshmseg := (s.procs p).u_nshmseg }).go p
            (.accounting cp (if (s.procs p).u_nshmseg = 0 then [] else (s.procs p).p_segacct)))
  | _ => none

def accounted : Option (Sys nproc) :=
  match (s.procs p).doing with
  | .accounting cp (sap :: rest) => some ({ s with amps := hold s.amps sap.sa_amp }.put cp
      { s.procs cp with p_segacct := sa_add (s.procs cp).p_segacct sap }
      |>.go p (.accounting cp rest))
  | .accounting cp [] => some ((s.go cp .idle).go p .idle)
  | _ => none

def exit : Option (Sys nproc) :=
  if (s.procs p).doing ≠ .idle then none
  else some (s.go p (if (s.procs p).u_nshmseg = 0 then .freeing p else .exiting))

def shmexit : Option (Sys nproc) :=
  if (s.procs p).doing ≠ .exiting then none
  else
    match (s.procs p).p_segacct with
    | [] => some (s.go p (.freeing p))
    | sap :: _ => some ((kshmdt s p sap.sa_addr true).getD (s.put p
        { s.procs p with p_segacct := sa_del (s.procs p).p_segacct sap.sa_addr }))

def freed : Option (Sys nproc) :=
  match (s.procs p).doing with
  | .freeing cp =>
      match (s.procs cp).a_segs with
      | seg :: segs => some ({ s with amps := unhold s.amps seg.amp 0 }.put cp
          { s.procs cp with a_segs := segs })
      | [] => some ((s.go p .idle).go cp .unused)
  | _ => none

def step : Label nproc → Option (Sys nproc)
  | .shmget p sp size reserved => shmget info s p sp size reserved
  | .created p amp => created s p amp
  | .shmat p shmid addr granted => shmat info s p shmid addr granted
  | .mapped p result => mapped s p result
  | .recorded p => recorded s p
  | .shmdt p addr => shmdt s p addr
  | .unmapped p ok => unmapped s p ok
  | .detached p => detached s p
  | .rmid p shmid granted => rmid s p shmid granted
  | .fork p cp => fork s p cp
  | .copied p ok => copied s p ok
  | .accounted p => accounted s p
  | .exit p => exit s p
  | .shmexit p => shmexit s p
  | .freed p => freed s p

def boot (started : Fin nproc → Bool) : Sys nproc where
  shmem _ := ⟨false, 0, none, none⟩
  amps _ := none
  procs p := ⟨[], [], 0, 0, if started p = true then .idle else .unused⟩

end

def Label.unmap_fails : Label nproc → Bool
  | .mapped _ (.not_locked false) => true
  | .unmapped _ false => true
  | _ => false

section
variable (s : Sys nproc) (amp : Nat)

def identifiers : Nat := ∑ sp, if (s.shmem sp).shm_amp = some amp then 1 else 0

def mappings : Nat := ∑ p, (s.procs p).a_segs.countP fun seg => seg.amp = amp

def records : Nat := ∑ p, (s.procs p).p_segacct.countP fun sap => sap.sa_amp = amp

end

end ShmSegments
