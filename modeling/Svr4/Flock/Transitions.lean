import Svr4.Flock.Outcome
import Svr4.Runs

/- reclock of os/flock.c and the threads that sleep in it. Between two sleeps a call
   runs without interruption, so a run is a sequence of calls and of ends of sleeps.
   None of the XENIX modes is on; VOP_RWLOCK around a sleep belongs to the file system. -/
namespace RecordLocks
open LinkedCells List Option

/-- The arguments of reclock; `lckdat` has l_len in lEnd, `attr` is the size VOP_GETATTR answers. -/
structure Req where
  vp : Nat
  lckdat : Flock
  setflck : Bool
  slpflck : Bool
  rcmdlck : Bool
  fread : Bool
  fwrite : Bool
  offset : Int
  attr : Except Errno Int

/-- A thread in SLEEP(found, ...), with its entry `sf` in sleeplcks. -/
structure Sleeper where
  sf : Nat
  req : Req
  ld : Flock
  found : Nat
  awake : Bool

structure Sys where
  locks : Nat → CellList Filock
  sleeplcks : CellList Filock
  info : Flckinfo
  sleepers : List Sleeper

inductive Reply where
  | asleep
  | returned (retval : Option Errno) (lckdat : Flock)

def boot : Sys := ⟨fun _ => empty, empty, ⟨0, 0, 0⟩, []⟩

def wrap32 (x : Int) : Int := (x + 2 ^ 31) % 2 ^ 32 - 2 ^ 31

def convoff (attr : Except Errno Int) (lckdat : Flock) (whence offset : Int) :
    Option Errno × Flock :=
  match attr with
  | .error e => (some e, lckdat)
  | .ok size =>
      let start : Option Int :=
        if lckdat.lWhence = 1 then some (wrap32 (lckdat.lStart + offset))
        else if lckdat.lWhence = 2 then some (wrap32 (lckdat.lStart + size))
        else if lckdat.lWhence ≠ 0 then none
        else some lckdat.lStart
      match start with
      | none => (some .EINVAL, lckdat)
      | some start =>
          if start < 0 then (some .EINVAL, { lckdat with lStart := start })
          else if whence = 1 then
            (none, { lckdat with lStart := wrap32 (start - offset), lWhence := whence })
          else if whence = 2 then
            (none, { lckdat with lStart := wrap32 (start - size), lWhence := whence })
          else if whence ≠ 0 then (some .EINVAL, { lckdat with lStart := start })
          else (none, { lckdat with lStart := start, lWhence := whence })

/-- The head of reclock: permissions, and l_start and l_end from the start of the file. -/
def normalise (r : Req) : Option Errno × Flock :=
  if r.setflck ∧ ((r.lckdat.lType = .rdlck ∧ r.fread = false) ∨
      (r.lckdat.lType = .wrlck ∧ r.fwrite = false)) then (some .EBADF, r.lckdat)
  else match convoff r.attr r.lckdat 0 r.offset with
    | (some e, ld) => (some e, ld)
    | (none, ld) =>
        if ld.lEnd < 0 then (some .EINVAL, ld)
        else
          let ld := { ld with
            lEnd := if ld.lEnd = 0 then MAXEND else wrap32 (ld.lEnd + (ld.lStart - 1)) }
          if ld.lStart > ld.lEnd then (some .EINVAL, ld) else (none, ld)

def restore (r : Req) (ld : Flock) : Flock :=
  let ld := { ld with
    lEnd := if ld.lEnd = MAXEND then 0 else wrap32 (ld.lEnd - (ld.lStart - 1)) }
  (convoff r.attr ld r.lckdat.lWhence r.offset).2

def vnodeTab (s : Sys) (vp : Nat) : Tab := ⟨s.locks vp, s.info, []⟩

/-- The lists after an operation on those of `vp`, with wakeprocs on the records in `woken`. -/
def putVnode (s : Sys) (vp : Nat) (t : Tab) : Sys :=
  { s with
    locks := fun v => if v = vp then t.list else s.locks v
    info := t.info
    sleepers := s.sleepers.map fun p =>
      if p.req.vp = vp ∧ p.found ∈ t.woken then { p with awake := true } else p }

def sleepTab (s : Sys) : Tab := ⟨s.sleeplcks, s.info, []⟩

/-- No thread sleeps on an entry of sleeplcks itself. -/
def putSleep (s : Sys) (t : Tab) : Sys := { s with sleeplcks := t.list, info := t.info }

/-- for (sf = sleeplcks; sf != NULL; sf = sf->next) if (p(sf)) break; -/
def findRecord (cell : Store Filock) (p : Filock → Bool) : Nat → Option Nat → Option (Option Nat)
  | _, none => some none
  | 0, some _ => none
  | fuel + 1, some sf => do
      let c ← cell sf
      if p c.val then return some sf else findRecord cell p fuel c.next

/-- An old request that a granted one makes obsolete. -/
def obsolete (lckdat : Flock) (sf : Filock) : Bool :=
  sf.set.lWhence = lckdat.lWhence ∧ lckdat.lStart ≤ sf.set.lStart ∧ sf.set.lEnd ≤ lckdat.lEnd ∧
    sf.set.lSysid = lckdat.lSysid ∧ sf.set.lPid = lckdat.lPid

def cleanslp (lckdat : Flock) : Nat → Tab → Option Tab
  | 0, _ => none
  | fuel + 1, t => do
      match ← findRecord t.list.cell (obsolete lckdat) (t.list.fresh + 1) t.list.head with
      | none => return t
      | some sf => cleanslp lckdat fuel (← delflck t sf)

def clean (s : Sys) (lckdat : Flock) : Option Sys :=
  (cleanslp lckdat (s.sleeplcks.fresh + 1) (sleepTab s)).map (putSleep s)

/-- deadflck from the blocking owner (sysid, pid); `none` if the loop goes beyond so many rounds. -/
def deadflck (l : CellList Filock) (lckdat : Flock) : Nat → Int × Int → Option Bool
  | 0, _ => none
  | rounds + 1, blck => do
      if blck.2 = lckdat.lPid ∧ blck.1 = lckdat.lSysid then return true
      else
        match ← findRecord l.cell (fun sf => blck.2 = sf.set.lPid ∧ blck.1 = sf.set.lSysid)
            (l.fresh + 1) l.head with
        | none => return false
        | some sf => do
            let c ← l.cell sf
            deadflck l lckdat rounds (c.val.stat.blkSysid, c.val.stat.pid)

def sameRequest (lckdat found : Flock) (sf : Filock) : Bool :=
  sf.set.lType = lckdat.lType ∧ sf.set.lWhence = lckdat.lWhence ∧ sf.set.lStart = lckdat.lStart ∧
    sf.set.lEnd = lckdat.lEnd ∧ sf.set.lSysid = lckdat.lSysid ∧ sf.set.lPid = lckdat.lPid ∧
    sf.stat.blkSysid = found.lSysid ∧ sf.stat.pid = found.lPid

def recordBlocker (env : Env) (s : Sys) (lckdat found : Flock) : Option (Option Nat × Sys) := do
  match ← insflck env (sleepTab s) lckdat none with
  | (none, t) => return (none, putSleep s t)
  | (some sf, t) => do
      let c ← t.list.cell sf
      let l ← setVal t.list sf { c.val with stat := ⟨found.lSysid, found.lPid⟩ }
      return (some sf, putSleep s { t with list := l })

def waitFor (env : Env) (s : Sys) (r : Req) (ld : Flock) (found : Nat) (blck : Flock) :
    Option (Sys × Reply) := do
  if ← deadflck s.sleeplcks ld (s.sleeplcks.fresh + 2) (blck.lSysid, blck.lPid) then
    return (s, .returned (some .EDEADLK) (restore r ld))
  else if r.rcmdlck then
    match ← findRecord s.sleeplcks.cell (sameRequest ld blck) (s.sleeplcks.fresh + 1)
        s.sleeplcks.head with
    | some _ => return (s, .returned (some .EINTR) (restore r ld))
    | none =>
        match ← recordBlocker env s ld blck with
        | (none, s) => return (s, .returned (some .ENOLCK) (restore r ld))
        | (some _, s) => return (s, .returned (some .EINTR) (restore r ld))
  else
    match ← recordBlocker env s ld blck with
    | (none, s) => return (s, .returned (some .ENOLCK) (restore r ld))
    | (some sf, s) => do
        let c ← (s.locks r.vp).cell found
        let l ← setVal (s.locks r.vp) found
          { c.val with stat := { c.val.stat with first := c.val.stat.first + 1 } }
        let s := putVnode s r.vp ⟨l, s.info, []⟩
        return ({ s with sleepers := ⟨sf, r, ld, found, false⟩ :: s.sleepers }, .asleep)

/-- flckadj with SETFLCK; a test leaves the lists and answers `free`. -/
def setOrTest (env : Env) (s : Sys) (r : Req) (insrt : Option Nat) (ld free : Flock) :
    Option (Sys × Option Errno × Flock) :=
  if r.setflck then
    (flckadj env (vnodeTab s r.vp) insrt ld).map fun out =>
      (putVnode s r.vp out.tab, out.retval, out.ld)
  else some (s, none, free)

def cleanIf (remote : Bool) (s : Sys) (lckdat : Flock) : Option Sys :=
  if remote then clean s lckdat else some s

def pass (env : Env) (s : Sys) (r : Req) (ld : Flock) : Option (Sys × Reply) := do
  if ld.lType = .rdlck ∨ ld.lType = .wrlck then
    let (found, insrt) ← blocked (s.locks r.vp) ld
    match found with
    | none => do
        let (s, retval, ld) ← setOrTest env s r insrt ld { ld with lType := .unlck }
        let s ← cleanIf (r.rcmdlck && r.slpflck) s ld
        return (s, .returned retval (restore r ld))
    | some found => do
        let c ← (s.locks r.vp).cell found
        if r.slpflck then waitFor env s r ld found c.val.set
        else if r.setflck then return (s, .returned (some .EAGAIN) (restore r ld))
        else return (s, .returned none (restore r c.val.set))
  else if ld.lType = .unlck then
    let (s, retval, ld) ← setOrTest env s r (s.locks r.vp).head ld ld
    let s ← cleanIf r.rcmdlck s ld
    return (s, .returned retval (restore r ld))
  else return (s, .returned (some .EINVAL) (restore r ld))

def reclock (env : Env) (s : Sys) (r : Req) : Option (Sys × Reply) :=
  match normalise r with
  | (some e, ld) => some (s, .returned (some e) ld)
  | (none, ld) => pass env s r ld

/-- A thread that has left SLEEP takes its entry off sleeplcks; it has no step if the entry has been
freed. -/
def leaveSleep (s : Sys) (p : Sleeper) : Option Sys := do
  let c ← s.sleeplcks.cell p.sf
  let l ← setVal s.sleeplcks p.sf { c.val with stat := ⟨0, 0⟩ }
  let t ← delflck { list := l, info := s.info, woken := [] } p.sf
  return { putSleep s t with sleepers := s.sleepers.filter fun q => q.sf ≠ p.sf }

inductive Label where
  | call (r : Req)
  | resume (sf : Nat)
  | interrupt (sf : Nat)

/-- The next step of a run and what the caller sees of it. A thread runs on when it was woken or a
signal comes. -/
def act (env : Env) (s : Sys) : Label → Option (Sys × Reply)
  | .call r => reclock env s r
  | .resume sf => do
      let p ← s.sleepers.find? fun p => p.sf = sf
      if p.awake then
        let s ← leaveSleep s p
        pass env s p.req p.ld
      else none
  | .interrupt sf => do
      let p ← s.sleepers.find? fun p => p.sf = sf
      let s ← leaveSleep s p
      return (s, .returned (some .EINTR) (restore p.req p.ld))

def step (env : Env) (s : Sys) (l : Label) : Option Sys := (act env s l).map Prod.fst

end RecordLocks

/- blocked: the record in the way of a request, and the place where flckadj may start. -/
namespace RecordLocks
open LinkedCells SpanMap List Option

def Conflict (ld f : Flock) : Prop :=
  ownerOf f ≠ ownerOf ld ∧ f.lStart ≤ ld.lEnd ∧ ld.lStart ≤ f.lEnd ∧
    (f.lType = .wrlck ∨ ld.lType = .wrlck)

theorem conflicts_iff {ld f : Flock} (good : Good f) :
    conflicts f ld = true ↔ f.lType = .wrlck ∨ ld.lType = .wrlck := by
  rcases good.type with type | type <;> simp [conflicts, type]

section Walks
variable {l : CellList Filock} {ld : Flock} {done rest : List (Nat × Filock)}

theorem blockedTail_spec (ld : Flock) (links : Links l (done ++ rest)) (records : RecordList (done ++ rest))
    (fuel : Nat) (enough : rest.length ≤ fuel) :
    ∃ r, blockedTail l.cell ld fuel (firstOf rest) = some r ∧
      (r = none → ∀ x ∈ rest, ¬ Conflict ld x.2.set) ∧
      ∀ a, r = some a → ∃ x ∈ rest, x.1 = a ∧ Conflict ld x.2.set := by
  induction rest generalizing done fuel with
  | nil => exact ⟨none, by cases fuel <;> rfl, by simp, by simp⟩
  | cons x rest ih =>
    obtain ⟨a, v⟩ := x
    cases fuel with
    | zero => simp at enough
    | succ fuel =>
      have good : Good v.set := records.good (a, v) (by simp)
      have behind := (pairwise_cons.mp (pairwise_append.mp records.ordered).2.1).1
      by_cases beyond : ld.lEnd < v.set.lStart
      · refine ⟨none, by simp [blockedTail, links.cell_eq, beyond], fun _ x mem => ?_, by simp⟩
        rintro ⟨-, start, -⟩
        rcases mem_cons.mp mem with rfl | mem
        · simp only at start
          omega
        · have := behind x mem
          simp only at this
          omega
      by_cases hit : ld.lStart ≤ v.set.lEnd ∧ ¬ SAMEOWNER v.set ld ∧ conflicts v.set ld = true
      · refine ⟨some a, by simp [blockedTail, links.cell_eq, beyond, hit], by simp, ?_⟩
        rintro b ⟨⟩
        exact ⟨(a, v), by simp, rfl, fun eq => hit.2.1 ((sameowner_iff _ _).mpr eq),
          not_lt.mp beyond, hit.1, (conflicts_iff good).mp hit.2.2⟩
      have shift : done ++ [(a, v)] ++ rest = done ++ (a, v) :: rest := by simp
      obtain ⟨r, run, none_hit, some_hit⟩ := @ih (done ++ [(a, v)])
        (by rwa [shift]) (by rwa [shift]) fuel (by simpa using enough)
      refine ⟨r, ?_, fun eq x mem => ?_, fun b eq => ?_⟩
      · simp only [blockedTail, firstOf_cons, links.cell_eq, bind_eq_bind,
          bind_some, if_neg beyond, if_neg hit]
        exact run
      · rcases mem_cons.mp mem with rfl | mem
        · exact fun ⟨other, _, reach, mode⟩ => hit ⟨reach,
            fun same => other ((sameowner_iff _ _).mp same), (conflicts_iff good).mpr mode⟩
        · exact none_hit eq x mem
      · obtain ⟨x, mem, found⟩ := some_hit b eq
        exact ⟨x, by simp [mem], found⟩

theorem entry_of_last (before : ∀ x ∈ done, x.2.set.lStart < ld.lStart)
    (apart : ∀ p ∈ spans (ownerOf ld) done, p.hi + 1 < ld.lStart)
    (behind : ∀ x ∈ rest, ld.lStart ≤ x.2.set.lStart) :
    Entry ld (done ++ rest) (lastOf done) := by
  rcases eq_nil_or_concat done with rfl | ⟨init, y, rfl⟩
  · exact ⟨⟨[], rest, rfl, by simp, by simp⟩, .inr (by simpa [lastOf] using behind)⟩
  · refine ⟨⟨init, y :: rest, by simp, by simp, fun p mem => apart p (by simp [mem])⟩, ?_⟩
    exact hint_of_last (fun x mem => le_of_lt (before x mem)) (by simp)

theorem blockedHead_spec (request : ld.lStart ≤ ld.lEnd) (links : Links l (done ++ rest))
    (records : RecordList (done ++ rest))
    (before : ∀ x ∈ done, x.2.set.lStart < ld.lStart ∧ ¬ Conflict ld x.2.set)
    (apart : ∀ p ∈ spans (ownerOf ld) done, p.hi + 1 < ld.lStart)
    (fuel : Nat) (enough : rest.length ≤ fuel) :
    ∃ r i, blockedHead l.cell ld fuel (lastOf done) (firstOf rest) = some (r, i) ∧
      (r = none → (∀ x ∈ done ++ rest, ¬ Conflict ld x.2.set) ∧ Entry ld (done ++ rest) i) ∧
      ∀ a, r = some a → ∃ x ∈ done ++ rest, x.1 = a ∧ Conflict ld x.2.set := by
  induction rest generalizing done fuel with
  | nil =>
    refine ⟨none, lastOf done, by cases fuel <;> rfl, fun _ => ⟨?_, ?_⟩, by simp⟩
    · intro x mem
      exact (before x (by simpa using mem)).2
    · exact entry_of_last (fun x mem => (before x mem).1) apart (by simp)
  | cons x rest ih =>
    obtain ⟨a, v⟩ := x
    cases fuel with
    | zero => simp at enough
    | succ fuel =>
      have good : Good v.set := records.good (a, v) (by simp)
      have behind := (pairwise_cons.mp (pairwise_append.mp records.ordered).2.1).1
      have shift : done ++ [(a, v)] ++ rest = done ++ (a, v) :: rest := by simp
      obtain ⟨r, tail, none_hit, some_hit⟩ := blockedTail_spec ld links records (fuel + 1) enough
      have none_at_all : r = none → ∀ x ∈ done ++ (a, v) :: rest, ¬ Conflict ld x.2.set := by
        intro eq x mem
        rcases mem_append.mp mem with mem | mem
        · exact (before x mem).2
        · exact none_hit eq x mem
      have some_found : ∀ b, r = some b →
          ∃ x ∈ done ++ (a, v) :: rest, x.1 = b ∧ Conflict ld x.2.set := fun b eq => by
        obtain ⟨x, mem, found⟩ := some_hit b eq
        exact ⟨x, mem_append.mpr (.inr mem), found⟩
      by_cases early : v.set.lStart < ld.lStart
      · by_cases own : SAMEOWNER v.set ld
        · by_cases near : ld.lStart - 1 ≤ v.set.lEnd
          · refine ⟨r, some a, ?_, fun eq => ⟨none_at_all eq, ?_⟩, some_found⟩
            · have near_next : ld.lStart ≤ v.set.lEnd + 1 := by omega
              simp only [firstOf_cons] at tail
              simp [blockedHead, links.cell_eq, early, own, near, near_next, tail]
            · exact ⟨⟨done, (a, v) :: rest, rfl, by simp, apart⟩,
                .inr ⟨(a, v), by simp, rfl, le_of_lt early⟩⟩
          obtain ⟨r, i, run, result⟩ := @ih (done ++ [(a, v)]) (by rwa [shift])
            (by rwa [shift]) (by
              intro x mem
              rcases mem_append.mp mem with mem | mem
              · exact before x mem
              · obtain rfl := mem_singleton.mp mem
                exact ⟨early, fun conflict => conflict.1 ((sameowner_iff _ _).mp own)⟩)
            (by
              rw [spans_append, spans_own (x := (a, v)) ((sameowner_iff _ _).mp own), spans_nil]
              intro p mem
              rcases mem_append.mp mem with mem | mem
              · exact apart p mem
              · obtain rfl := mem_singleton.mp mem
                simp only [spanOf_hi]
                omega) fuel (by simpa using enough)
          rw [shift] at result
          have far_next : ¬ld.lStart ≤ v.set.lEnd + 1 := by omega
          exact ⟨r, i, by simpa [blockedHead, links.cell_eq, early, own, near, far_next] using run,
            result⟩
        · have other : ownerOf v.set ≠ ownerOf ld := fun eq => own ((sameowner_iff _ _).mpr eq)
          by_cases hit : ld.lStart ≤ v.set.lEnd ∧ conflicts v.set ld = true
          · refine ⟨some a, some a, by simp [blockedHead, links.cell_eq, early, own, hit], by simp,
              ?_⟩
            rintro b ⟨⟩
            refine ⟨(a, v), by simp, rfl, other, ?_, hit.1, (conflicts_iff good).mp hit.2⟩
            simp only
            omega
          obtain ⟨r, i, run, result⟩ := @ih (done ++ [(a, v)]) (by rwa [shift])
            (by rwa [shift]) (by
              intro x mem
              rcases mem_append.mp mem with mem | mem
              · exact before x mem
              · obtain rfl := mem_singleton.mp mem
                exact ⟨early, fun ⟨_, _, reach, mode⟩ =>
                  hit ⟨reach, (conflicts_iff good).mpr mode⟩⟩)
            (by
              rw [spans_append, spans_other (x := (a, v)) other, spans_nil, append_nil]
              exact apart) fuel (by simpa using enough)
          rw [shift] at result
          rw [lastOf_append_one] at run
          refine ⟨r, i, ?_, result⟩
          simp only [blockedHead, firstOf_cons, links.cell_eq, bind_eq_bind,
            bind_some, if_pos early, if_neg own, if_neg hit]
          exact run
      · refine ⟨r, lastOf done, ?_, fun eq => ⟨none_at_all eq, ?_⟩, some_found⟩
        · simp only [firstOf_cons] at tail
          simp [blockedHead, links.cell_eq, early, tail]
        · refine entry_of_last (fun x mem => (before x mem).1) apart fun x mem => ?_
          rcases mem_cons.mp mem with rfl | mem
          · exact not_lt.mp early
          · exact le_trans (not_lt.mp early) (behind x mem)

end Walks

theorem blocked_spec {l : CellList Filock} {ld : Flock} {xs : List (Nat × Filock)}
    (request : ld.lStart ≤ ld.lEnd) (links : Links l xs) (records : RecordList xs) :
    ∃ r i, blocked l ld = some (r, i) ∧
      (r = none → (∀ x ∈ xs, ¬ Conflict ld x.2.set) ∧ Entry ld xs i) ∧
      ∀ a, r = some a → ∃ x ∈ xs, x.1 = a ∧ Conflict ld x.2.set := by
  have long := links.length_le
  have start : Links l ([] ++ xs) := links
  have run := blockedHead_spec request start records (by simp) (by simp) (l.fresh + 1) (by omega)
  rw [← links.head] at run
  exact run

theorem unlock_entry {ld : Flock} {xs : List (Nat × Filock)} (unlock : ld.lType = .unlck) :
    Entry ld xs (firstOf xs) :=
  ⟨⟨[], xs, rfl, by cases xs <;> simp, by simp⟩, .inl unlock⟩

end RecordLocks

/- What one pass of reclock can do to the lists, and what each routine does to sleeplcks. -/
namespace RecordLocks
open LinkedCells SpanMap List Option

section Routines
variable {xs ys : List (Nat × Filock)} {l : CellList Filock} {s : Sys}

theorem findRecord_walk (p : Filock → Bool) (links : Links l (xs ++ ys)) (fuel : Nat)
    (enough : ys.length ≤ fuel) :
    findRecord l.cell p fuel (firstOf ys) = some ((ys.find? fun x => p x.2).map Prod.fst) := by
  induction ys generalizing xs fuel with
  | nil => cases fuel <;> rfl
  | cons y ys ih =>
    cases fuel with
    | zero => simp at enough
    | succ fuel =>
      have next : Links l ((xs ++ [y]) ++ ys) := by simpa using links
      have rest := ih next fuel (by simpa using enough)
      simp only [firstOf_cons, findRecord, links.cell_eq, bind_eq_bind, bind_some]
      by_cases hit : p y.2 = true
      · simp [hit]
      · simpa [hit] using rest

theorem findRecord_eq (p : Filock → Bool) (links : Links l ys) :
    findRecord l.cell p (l.fresh + 1) l.head = some ((ys.find? fun x => p x.2).map Prod.fst) := by
  have start : Links l ([] ++ ys) := links
  have long := links.length_le
  rw [links.head]
  exact findRecord_walk p start (l.fresh + 1) (by omega)

theorem cleanslp_spec (lckdat : Flock) {t : Tab} (links : Links t.list ys) (fuel : Nat)
    (enough : ys.length < fuel) :
    ∃ t' ys', cleanslp lckdat fuel t = some t' ∧ Links t'.list ys' ∧ ys'.Sublist ys := by
  induction fuel generalizing t ys with
  | zero => omega
  | succ fuel ih =>
    have found := findRecord_eq (obsolete lckdat) links
    cases search : ys.find? (fun x => obsolete lckdat x.2) with
    | none =>
      refine ⟨t, ys, ?_, links, List.Sublist.refl ys⟩
      rw [search] at found
      simp [cleanslp, found]
    | some y =>
      rw [search] at found
      obtain ⟨us, vs, rfl⟩ := append_of_mem (mem_of_find?_eq_some search)
      obtain ⟨t₁, delete, links₁, -⟩ := delflck_spec links
      simp only [length_append, length_cons] at enough
      obtain ⟨t', ys', run, links', sub⟩ := ih links₁ (by simp; omega)
      refine ⟨t', ys', ?_, links', sub.trans (by simp)⟩
      simp only [cleanslp, found, map_some, bind_eq_bind, bind_some, delete]
      exact run

theorem clean_spec (lckdat : Flock) (links : Links s.sleeplcks ys) :
    ∃ t ys', clean s lckdat = some t ∧ t.locks = s.locks ∧ t.sleepers = s.sleepers ∧
      Links t.sleeplcks ys' ∧ ys'.Sublist ys := by
  have long := links.length_le
  obtain ⟨t, ys', run, links', sub⟩ := cleanslp_spec lckdat (t := sleepTab s) links
    (s.sleeplcks.fresh + 1) (by omega)
  exact ⟨putSleep s t, ys', by simp [clean, run], rfl, rfl, links', sub⟩

theorem recordBlocker_spec (env : Env) (lckdat found : Flock) (links : Links s.sleeplcks ys) :
    (∃ t, recordBlocker env s lckdat found = some (none, t) ∧ t.locks = s.locks ∧
      t.sleepers = s.sleepers ∧ t.sleeplcks = s.sleeplcks) ∨
    ∃ t sf, recordBlocker env s lckdat found = some (some sf, t) ∧ t.locks = s.locks ∧
      t.sleepers = s.sleepers ∧
      Links t.sleeplcks ((sf, ⟨lckdat, ⟨found.lSysid, found.lPid⟩⟩) :: ys) := by
  have start : Links (sleepTab s).list ([] ++ ys) := links
  rcases insflck_spec env lckdat start with ⟨-, t, run, list⟩ | ⟨-, t, sf, run, links', -⟩
  · refine .inl ⟨putSleep s t, ?_, rfl, rfl, list⟩
    simp only [lastOf_nil] at run
    simp [recordBlocker, run]
  · have here : Links t.list ([] ++ (sf, ⟨lckdat, ⟨0, 0⟩⟩) :: ys) := links'
    obtain ⟨l, mark, links''⟩ := here.setVal ⟨lckdat, ⟨found.lSysid, found.lPid⟩⟩
    refine .inr ⟨putSleep s { t with list := l }, sf, ?_, rfl, rfl, links''⟩
    simp only [lastOf_nil] at run
    simp [recordBlocker, run, here.cell_eq, mark]

end Routines

inductive Passed (env : Env) (s : Sys) (r : Req) (ld : Flock) : Sys → Reply → Prop
  | adjusted (insrt : Option Nat) (out : AdjOut) (t : Sys) (set : r.setflck = true)
      (free : blocked (s.locks r.vp) ld = some (none, insrt) ∧
          (ld.lType = .rdlck ∨ ld.lType = .wrlck) ∨
        insrt = (s.locks r.vp).head ∧ ld.lType = .unlck)
      (run : flckadj env (vnodeTab s r.vp) insrt ld = some out)
      (cleaned : t = putVnode s r.vp out.tab ∨ clean (putVnode s r.vp out.tab) out.ld = some t) :
      Passed env s r ld t (.returned out.retval (restore r out.ld))
  | tested (ld' : Flock) (t : Sys) (set : r.setflck = false)
      (cleaned : t = s ∨ clean s ld' = some t) :
      Passed env s r ld t (.returned none (restore r ld'))
  | refused (retval : Option Errno) (lckdat : Flock) (refusal : r.setflck = true → retval ≠ none) :
      Passed env s r ld s (.returned retval lckdat)
  | recorded (insrt sf : Option Nat) (found : Nat) (c : Cell Filock) (t : Sys) (e : Errno)
      (lckdat : Flock) (slp : r.slpflck = true)
      (stopped : blocked (s.locks r.vp) ld = some (some found, insrt))
      (type : ld.lType = .rdlck ∨ ld.lType = .wrlck)
      (here : (s.locks r.vp).cell found = some c)
      (safe : deadflck s.sleeplcks ld (s.sleeplcks.fresh + 2) (ownerOf c.val.set) = some false)
      (run : recordBlocker env s ld c.val.set = some (sf, t)) :
      Passed env s r ld t (.returned (some e) lckdat)
  | slept (insrt : Option Nat) (sf found : Nat) (c c' : Cell Filock) (l : CellList Filock)
      (t : Sys) (slp : r.slpflck = true)
      (stopped : blocked (s.locks r.vp) ld = some (some found, insrt))
      (type : ld.lType = .rdlck ∨ ld.lType = .wrlck)
      (here : (s.locks r.vp).cell found = some c)
      (safe : deadflck s.sleeplcks ld (s.sleeplcks.fresh + 2) (ownerOf c.val.set) = some false)
      (run : recordBlocker env s ld c.val.set = some (some sf, t))
      (again : (t.locks r.vp).cell found = some c')
      (mark : setVal (t.locks r.vp) found
        { c'.val with stat := { c'.val.stat with first := c'.val.stat.first + 1 } } = some l) :
      Passed env s r ld
        { putVnode t r.vp ⟨l, t.info, []⟩ with
          sleepers := ⟨sf, r, ld, found, false⟩ :: (putVnode t r.vp ⟨l, t.info, []⟩).sleepers }
        .asleep

section Inversion
variable {env : Env} {s t : Sys} {r : Req} {ld : Flock} {reply : Reply} {insrt : Option Nat}
  {remote : Bool}

theorem waitFor_cases {found : Nat} {c : Cell Filock} (slp : r.slpflck = true)
    (stopped : blocked (s.locks r.vp) ld = some (some found, insrt))
    (type : ld.lType = .rdlck ∨ ld.lType = .wrlck) (here : (s.locks r.vp).cell found = some c)
    (run : waitFor env s r ld found c.val.set = some (t, reply)) : Passed env s r ld t reply := by
  simp only [waitFor, bind_eq_bind, bind_eq_some_iff] at run
  obtain ⟨dead, check, run⟩ := run
  cases dead with
  | true =>
    obtain ⟨rfl, rfl⟩ := run
    exact .refused _ _ (by simp)
  | false =>
    simp only [Bool.false_eq_true, if_false] at run
    split at run
    · obtain ⟨old, search, run⟩ := bind_eq_some_iff.mp run
      cases old with
      | some _ =>
        obtain ⟨rfl, rfl⟩ := run
        exact .refused _ _ (by simp)
      | none =>
        obtain ⟨⟨sf, u⟩, record, run⟩ := bind_eq_some_iff.mp run
        cases sf with
        | none =>
          obtain ⟨rfl, rfl⟩ := run
          exact .recorded insrt none found c _ _ _ slp stopped type here check record
        | some sf =>
          obtain ⟨rfl, rfl⟩ := run
          exact .recorded insrt (some sf) found c _ _ _ slp stopped type here check record
    · obtain ⟨⟨sf, u⟩, record, run⟩ := bind_eq_some_iff.mp run
      cases sf with
      | none =>
        obtain ⟨rfl, rfl⟩ := run
        exact .recorded insrt none found c _ _ _ slp stopped type here check record
      | some sf =>
        obtain ⟨c', again, run⟩ := bind_eq_some_iff.mp run
        obtain ⟨l, mark, run⟩ := bind_eq_some_iff.mp run
        obtain ⟨rfl, rfl⟩ := run
        exact .slept insrt sf found c c' l u slp stopped type here check record again mark

theorem cleanIf_cases {lckdat : Flock} (run : cleanIf remote s lckdat = some t) :
    t = s ∨ clean s lckdat = some t := by
  cases remote with
  | true => exact .inr run
  | false => exact .inl (some.inj run).symm

theorem setOrTest_cases {free : Flock}
    (entry : blocked (s.locks r.vp) ld = some (none, insrt) ∧ (ld.lType = .rdlck ∨ ld.lType =
      .wrlck) ∨ insrt = (s.locks r.vp).head ∧ ld.lType = .unlck)
    (run : ((setOrTest env s r insrt ld free).bind fun x => (cleanIf remote x.1 x.2.2).bind fun w
      => some (w, Reply.returned x.2.1 (restore r x.2.2))) = some (t, reply)) :
    Passed env s r ld t reply := by
  obtain ⟨⟨u, retval, ld'⟩, first, run⟩ := bind_eq_some_iff.mp run
  obtain ⟨w, second, run⟩ := bind_eq_some_iff.mp run
  simp only [some.injEq, Prod.mk.injEq] at run
  obtain ⟨rfl, rfl⟩ := run
  have cleaned := cleanIf_cases second
  cases set : r.setflck with
  | true =>
    simp only [setOrTest, set, if_true, map_eq_some_iff, Prod.mk.injEq] at first
    obtain ⟨out, adjust, rfl, rfl, rfl⟩ := first
    exact .adjusted insrt out w set entry adjust cleaned
  | false =>
    simp only [setOrTest, set, Bool.false_eq_true, if_false, some.injEq, Prod.mk.injEq] at first
    obtain ⟨rfl, rfl, rfl⟩ := first
    exact .tested _ w set cleaned

theorem pass_cases (run : pass env s r ld = some (t, reply)) : Passed env s r ld t reply := by
  simp only [pass] at run
  split at run
  case isTrue lock =>
    obtain ⟨⟨found, insrt⟩, scan, run⟩ := bind_eq_some_iff.mp run
    cases found with
    | none => exact setOrTest_cases (.inl ⟨scan, lock⟩) run
    | some found =>
      obtain ⟨c, here, run⟩ := bind_eq_some_iff.mp run
      by_cases slp : r.slpflck = true
      · rw [if_pos slp] at run
        exact waitFor_cases slp scan lock here run
      · rw [if_neg slp] at run
        split at run
        · obtain ⟨rfl, rfl⟩ := run
          exact .refused _ _ (by simp)
        · obtain ⟨rfl, rfl⟩ := run
          exact .refused _ _ (by simp_all)
  case isFalse =>
    split at run
    case isTrue unlock => exact setOrTest_cases (.inr ⟨rfl, unlock⟩) run
    case isFalse =>
      obtain ⟨rfl, rfl⟩ := run
      exact .refused _ _ (by simp)

end Inversion

end RecordLocks
