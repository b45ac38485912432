import Svr4.LinkedCells
import Svr4.SpanMap

/- Record locks of os/flock.c: one list of records for each vnode, ordered by the
   first byte. The field l_len holds the last byte (l_end) of a record while it
   is in the kernel. `none` is a read through a null or stale pointer. -/
namespace RecordLocks
open LinkedCells SpanMap List

def MAXEND : Int := 0x7fffffff

inductive LockType where
  | rdlck
  | wrlck
  | unlck
  | other (code : Nat)
  deriving DecidableEq, Repr

inductive Errno where
  | EBADF
  | EINVAL
  | EAGAIN
  | ENOLCK
  | EDEADLK
  | EINTR
  | other (code : Nat)
  deriving DecidableEq, Repr

structure Flock where
  lType : LockType
  lWhence : Int
  lStart : Int
  lEnd : Int
  lSysid : Int
  lPid : Int
  deriving DecidableEq, Repr

/-- The union `stat`: its first word is wakeflg in a vnode's list, blk.sysid among the sleeping
locks. -/
structure Stat where
  first : Int
  pid : Int
  deriving DecidableEq, Repr

def Stat.wakeflg (s : Stat) : Int := s.first
def Stat.blkSysid (s : Stat) : Int := s.first

structure Filock where
  set : Flock
  stat : Stat
  deriving DecidableEq, Repr

/-- tune.t_flckrec, and whether the n-th kmem_zalloc since boot finds memory. -/
structure Env where
  tFlckrec : Int
  kmem : Nat → Bool

structure Flckinfo where
  reccnt : Int
  rectot : Int
  zallocs : Nat
  deriving DecidableEq, Repr

/-- One list with the counters all lists share. `woken` has the records given to wakeprocs. -/
structure Tab where
  list : CellList Filock
  info : Flckinfo
  woken : List Nat

def SAMEOWNER (a b : Flock) : Prop := a.lPid = b.lPid ∧ a.lSysid = b.lSysid

instance (a b : Flock) : Decidable (SAMEOWNER a b) := inferInstanceAs (Decidable (_ ∧ _))

/-- Null is `some (none, _)`, a new record `some (some a, _)`. -/
def insflck (env : Env) (t : Tab) (lckdat : Flock) (fl : Option Nat) :
    Option (Option Nat × Tab) :=
  if env.tFlckrec ≤ t.info.reccnt then some (none, t)
  else
    let info := { t.info with zallocs := t.info.zallocs + 1 }
    if env.kmem t.info.zallocs = false then some (none, { t with info := info })
    else (insertAfter t.list ⟨lckdat, ⟨0, 0⟩⟩ fl).map fun l =>
      (some t.list.fresh,
        { t with list := l, info := { info with reccnt := info.reccnt + 1,
                                                rectot := info.rectot + 1 } })

def wakeup (t : Tab) (fl : Nat) : Option Tab := do
  let c ← t.list.cell fl
  if c.val.stat.wakeflg ≠ 0 then
    let l ← setVal t.list fl { c.val with stat := { c.val.stat with first := 0 } }
    return { t with list := l, woken := fl :: t.woken }
  else return t

def delflck (t : Tab) (fl : Nat) : Option Tab := do
  let c ← t.list.cell fl
  let l ← unlink t.list fl
  return { list := l, info := { t.info with reccnt := t.info.reccnt - 1 },
           woken := if c.val.stat.wakeflg ≠ 0 then fl :: t.woken else t.woken }

def setEnd (t : Tab) (fl : Nat) (e : Int) : Option Tab := do
  let c ← t.list.cell fl
  let l ← setVal t.list fl { c.val with set := { c.val.set with lEnd := e } }
  return { t with list := l }

inductive SRegn where
  | sBefore | sStart | sMiddle | sEnd | sAfter
  deriving DecidableEq, Repr

inductive ERegn where
  | eBefore | eStart | eMiddle | eEnd | eAfter
  deriving DecidableEq, Repr

def regflck (ld flp : Flock) : SRegn × ERegn :=
  let tail (s : SRegn) : SRegn × ERegn :=
    if ld.lEnd < flp.lEnd then
      if ld.lEnd = flp.lStart - 1 then (s, .eStart)
      else if ld.lEnd < flp.lStart then (s, .eBefore)
      else (s, .eMiddle)
    else if ld.lEnd = flp.lEnd then (s, .eEnd)
    else (s, .eAfter)
  if ld.lStart > flp.lStart then
    if ld.lStart - 1 = flp.lEnd then (.sEnd, .eAfter)
    else if ld.lStart > flp.lEnd then (.sAfter, .eAfter)
    else tail .sMiddle
  else if ld.lStart = flp.lStart then tail .sStart
  else tail .sBefore

/-- The registers of flckadj. `retval` is set when the routine returns. -/
structure Scan where
  tab : Tab
  insrtp : Option Nat
  ld : Flock
  nflp : Option Nat
  retval : Option (Option Errno)

/-- do { if (tdp->set.l_start < start) tdi = tdp; else break; } while (tdp = tdp->next) -/
def seekStart (cell : Store Filock) (start : Int) : Nat → Nat → Nat → Option Nat
  | 0, _, _ => none
  | fuel + 1, tdi, tdp => do
      let c ← cell tdp
      if c.val.set.lStart < start then
        match c.next with
        | none => return tdp
        | some n => seekStart cell start fuel tdp n
      else return tdi

/-- Set up the piece of `flp` behind the (un)lock. -/
def insertPiece (env : Env) (t : Tab) (ld : Flock) (flp : Nat) (set : Flock) :
    Option (Option Nat × Tab) := do
  let td := { set with lStart := ld.lEnd + 1 }
  let tdi ← seekStart t.list.cell td.lStart (t.list.fresh + 1) flp flp
  insflck env t td (some tdi)

/-- S_START|E_MIDDLE, S_MIDDLE|E_MIDDLE and S_BEFORE|E_MIDDLE from the test of S_BEFORE|E_MIDDLE on;
`middle` is the second. -/
def splitMiddle (env : Env) (s : Scan) (flp : Nat) (set : Flock) (middle : Bool) :
    Option Scan := do
  let cut (s : Scan) : Option Scan := do
    if middle then
      let t ← setEnd s.tab flp (s.ld.lStart - 1)
      let t ← wakeup t flp
      return { s with tab := t, insrtp := some flp, nflp := none }
    else
      let t ← delflck s.tab flp
      return { s with tab := t, nflp := none }
  if s.ld.lType = set.lType then cut { s with ld := { s.ld with lEnd := set.lEnd } }
  else
    match ← insertPiece env s.tab s.ld flp set with
    | (none, t) => return { s with tab := t, retval := some (some .ENOLCK) }
    | (some _, t) => cut { s with tab := t }

/-- flp->set.l_end = ld->l_start - 1; WAKEUP(flp); insrtp = flp -/
def trimEnd (s : Scan) (flp : Nat) : Option Scan := do
  let t ← setEnd s.tab flp (s.ld.lStart - 1)
  let t ← wakeup t flp
  return { s with tab := t, insrtp := some flp }

def joinLeft (s : Scan) (flp : Nat) (set : Flock) (prev : Option Nat) : Option Scan := do
  let t ← delflck s.tab flp
  return { s with tab := t, insrtp := prev, ld := { s.ld with lStart := set.lStart } }

def unlinkRecord (s : Scan) (flp : Nat) : Option Scan := do
  let t ← delflck s.tab flp
  return { s with tab := t }

/-- The switch of flckadj on a record of the same owner; `s.nflp` is flp->next. -/
def adjustOne (env : Env) (s : Scan) (flp : Nat) (set : Flock) (prev : Option Nat) :
    Option Scan :=
  let same : Bool := s.ld.lType = set.lType
  match regflck s.ld set with
  | (.sBefore, .eBefore) => some { s with nflp := none }
  | (.sBefore, .eStart) =>
      if same then
        unlinkRecord { s with ld := { s.ld with lEnd := set.lEnd }, nflp := none } flp
      else some { s with nflp := none }
  | (.sStart, .eEnd) =>
      if same then some { s with retval := some none }
      else unlinkRecord { s with insrtp := prev } flp
  | (.sStart, .eAfter) => unlinkRecord { s with insrtp := prev } flp
  | (.sBefore, .eEnd) =>
      unlinkRecord (if same then { s with nflp := none } else s) flp
  | (.sBefore, .eAfter) => unlinkRecord s flp
  | (.sStart, .eMiddle) =>
      if same then some { s with insrtp := prev, retval := some none }
      else splitMiddle env { s with insrtp := prev } flp set false
  | (.sMiddle, .eMiddle) =>
      if same then some { s with retval := some none }
      else splitMiddle env s flp set true
  | (.sBefore, .eMiddle) => splitMiddle env s flp set false
  | (.sMiddle, .eEnd) =>
      if same then some { s with retval := some none } else trimEnd s flp
  | (.sMiddle, .eAfter) => if same then joinLeft s flp set prev else trimEnd s flp
  | (.sEnd, .eAfter) => if same then joinLeft s flp set prev else some s
  | (.sAfter, .eAfter) => some { s with insrtp := some flp }
  | _ => some s

def lockPlace (s : Scan) : Option (Option Nat) :=
  match s.insrtp with
  | none => some none
  | some a => (seekStart s.tab.list.cell s.ld.lStart (s.tab.list.fresh + 1) a a).map some

def insertLock (env : Env) (s : Scan) : Option Scan := do
  if s.ld.lType = .unlck then return { s with retval := some none }
  else
    match ← insflck env s.tab s.ld (← lockPlace s) with
    | (none, t) => return { s with tab := t, retval := some (some .ENOLCK) }
    | (some _, t) => return { s with tab := t, retval := some none }

/-- while (flp = nflp) { ... }. The list is finite, so the fuel never runs out. -/
def adjustLoop (env : Env) : Nat → Scan → Option Scan
  | 0, _ => none
  | fuel + 1, s =>
      match s.nflp with
      | none => insertLock env s
      | some flp => do
          let c ← s.tab.list.cell flp
          let s := { s with nflp := c.next }
          if SAMEOWNER c.val.set s.ld then
            let s ← adjustOne env s flp c.val.set c.prev
            if s.retval.isSome then return s else adjustLoop env fuel s
          else adjustLoop env fuel s

structure AdjOut where
  retval : Option Errno
  tab : Tab
  ld : Flock

def flckadj (env : Env) (t : Tab) (insrtp : Option Nat) (ld : Flock) : Option AdjOut := do
  let nflp := if insrtp.isNone then t.list.head else insrtp
  let s ← adjustLoop env (t.list.fresh + 1) ⟨t, insrtp, ld, nflp, none⟩
  let r ← s.retval
  return ⟨r, s.tab, s.ld⟩

def conflicts (f lckdat : Flock) : Bool :=
  f.lType = .wrlck || (f.lType = .rdlck && lckdat.lType = .wrlck)

/-- The second loop of blocked, from `f` on. -/
def blockedTail (cell : Store Filock) (lckdat : Flock) : Nat → Option Nat → Option (Option Nat)
  | _, none => some none
  | 0, some _ => none
  | fuel + 1, some f => do
      let c ← cell f
      if lckdat.lEnd < c.val.set.lStart then return none
      else if lckdat.lStart ≤ c.val.set.lEnd ∧ ¬ SAMEOWNER c.val.set lckdat ∧
          conflicts c.val.set lckdat = true then return some f
      else blockedTail cell lckdat fuel c.next

def blockedHead (cell : Store Filock) (lckdat : Flock) :
    Nat → Option Nat → Option Nat → Option (Option Nat × Option Nat)
  | _, insrt, none => some (none, insrt)
  | 0, _, some _ => none
  | fuel + 1, insrt, some f => do
      let c ← cell f
      if c.val.set.lStart < lckdat.lStart then
        if SAMEOWNER c.val.set lckdat then
          if lckdat.lStart - 1 ≤ c.val.set.lEnd then
            return (← blockedTail cell lckdat (fuel + 1) (some f), some f)
          else blockedHead cell lckdat fuel (some f) c.next
        else if lckdat.lStart ≤ c.val.set.lEnd ∧ conflicts c.val.set lckdat = true then
          return (some f, some f)
        else blockedHead cell lckdat fuel (some f) c.next
      else return (← blockedTail cell lckdat (fuel + 1) (some f), insrt)

def blocked (l : CellList Filock) (lckdat : Flock) : Option (Option Nat × Option Nat) :=
  blockedHead l.cell lckdat (l.fresh + 1) none l.head

end RecordLocks

/- A lock list read as one span map for each owner, and what the list routines of
   os/flock.c do to it. -/
namespace RecordLocks
open LinkedCells SpanMap List

def ownerOf (f : Flock) : Int × Int := (f.lSysid, f.lPid)

def spanOf (f : Flock) : Span LockType := ⟨f.lStart, f.lEnd, f.lType⟩

def spans (o : Int × Int) (xs : List (Nat × Filock)) : List (Span LockType) :=
  (xs.filter fun x => ownerOf x.2.set = o).map fun x => spanOf x.2.set

structure Good (f : Flock) : Prop where
  low : 0 ≤ f.lStart
  proper : f.lStart ≤ f.lEnd
  high : f.lEnd ≤ MAXEND
  type : f.lType = .rdlck ∨ f.lType = .wrlck

/-- Ordered on starting position; the locks of one owner neither overlap nor, of one type, touch. -/
structure RecordList (xs : List (Nat × Filock)) : Prop where
  ordered : xs.Pairwise fun x y => x.2.set.lStart ≤ y.2.set.lStart
  good : ∀ x ∈ xs, Good x.2.set
  separated : ∀ o, Separated (spans o xs)

theorem sameowner_iff (a b : Flock) : SAMEOWNER a b ↔ ownerOf a = ownerOf b := by
  simp only [SAMEOWNER, ownerOf, Prod.mk.injEq]
  exact and_comm

variable {o : Int × Int} (f : Flock) {us zs : List (Nat × Filock)} {l : CellList Filock}
  {x : Nat × Filock}

@[simp] theorem spanOf_lo : (spanOf f).lo = f.lStart := rfl
@[simp] theorem spanOf_hi : (spanOf f).hi = f.lEnd := rfl
@[simp] theorem spanOf_kind : (spanOf f).kind = f.lType := rfl

@[simp] theorem spans_nil (o : Int × Int) : spans o [] = [] := rfl

@[simp] theorem spans_append (o : Int × Int) (xs ys : List (Nat × Filock)) :
    spans o (xs ++ ys) = spans o xs ++ spans o ys := by
  simp [spans]

theorem spans_own (own : ownerOf x.2.set = o) (xs : List (Nat × Filock)) :
    spans o (x :: xs) = spanOf x.2.set :: spans o xs := by
  simp [spans, own]

theorem spans_other (other : ownerOf x.2.set ≠ o) (xs : List (Nat × Filock)) :
    spans o (x :: xs) = spans o xs := by
  simp [spans, other]

theorem mem_spans {xs : List (Nat × Filock)} {p : Span LockType} :
    p ∈ spans o xs ↔ ∃ x ∈ xs, ownerOf x.2.set = o ∧ spanOf x.2.set = p := by
  simp only [spans, mem_map, mem_filter, decide_eq_true_eq, and_assoc]

theorem recordList_nil : RecordList [] := ⟨List.Pairwise.nil, by simp, fun _ => List.Pairwise.nil⟩

section Lists
variable {xs ys : List (Nat × Filock)} {x : Nat × Filock} {a : Nat} {v : Filock}

theorem RecordList.remove (h : RecordList (xs ++ x :: ys)) : RecordList (xs ++ ys) := by
  have sub : (xs ++ ys).Sublist (xs ++ x :: ys) := by simp
  exact ⟨h.ordered.sublist sub, fun y mem => h.good y (sub.subset mem),
    fun o => (h.separated o).sublist ((sub.filter _).map _)⟩

theorem RecordList.trim (h : RecordList (xs ++ (a, v) :: ys)) (e : Int) (st : Stat)
    (low : v.set.lStart ≤ e) (high : e ≤ v.set.lEnd) :
    RecordList (xs ++ (a, ⟨{ v.set with lEnd := e }, st⟩) :: ys) := by
  constructor
  · have ordered := h.ordered
    simp only [pairwise_append, pairwise_cons, mem_cons] at ordered ⊢
    refine ⟨ordered.1, ⟨ordered.2.1.1, ordered.2.1.2⟩, ?_⟩
    rintro x hx y (rfl | hy)
    · exact ordered.2.2 x hx (a, v) (.inl rfl)
    · exact ordered.2.2 x hx y (.inr hy)
  · intro x mem
    have whole := h.good (a, v) (by simp)
    simp only [mem_append, mem_cons] at mem
    rcases mem with left | rfl | right
    · exact h.good x (by simp [left])
    · exact ⟨whole.low, low, le_trans high whole.high, whole.type⟩
    · exact h.good x (by simp [right])
  · intro o
    have apart := h.separated o
    by_cases own : ownerOf v.set = o
    · have own' : ownerOf { v.set with lEnd := e } = o := own
      rw [spans_append, spans_own own, separated_append, separated_cons] at apart
      rw [spans_append, spans_own own', separated_append, separated_cons]
      obtain ⟨first, ⟨ahead, rest⟩, cross⟩ := apart
      refine ⟨first, ⟨?_, rest⟩, ?_⟩
      · intro q hq
        have gap := ahead q hq
        simp only [Before, spanOf_hi, spanOf_kind] at gap ⊢
        exact ⟨by omega, fun same => by have := gap.2 same; omega⟩
      · intro p hp q hq
        rcases mem_cons.mp hq with rfl | hq
        · exact cross p hp (spanOf v.set) (by simp)
        · exact cross p hp q (by simp [hq])
    · have own' : ownerOf { v.set with lEnd := e } ≠ o := own
      rw [spans_append, spans_other own] at apart
      rwa [spans_append, spans_other own']

theorem RecordList.insert {f : Flock} {st : Stat} (h : RecordList (xs ++ ys)) (good : Good f)
    (left : ∀ x ∈ xs, x.2.set.lStart ≤ f.lStart) (right : ∀ y ∈ ys, f.lStart ≤ y.2.set.lStart)
    (before : ∀ p ∈ spans (ownerOf f) xs, Before p (spanOf f))
    (behind : ∀ q ∈ spans (ownerOf f) ys, Before (spanOf f) q) :
    RecordList (xs ++ (a, ⟨f, st⟩) :: ys) := by
  constructor
  · obtain ⟨first, second, cross⟩ := pairwise_append.mp h.ordered
    refine pairwise_append.mpr ⟨first, pairwise_cons.mpr ⟨right, second⟩, ?_⟩
    intro x hx y hy
    rcases mem_cons.mp hy with rfl | hy
    · exact left x hx
    · exact cross x hx y hy
  · intro x mem
    simp only [mem_append, mem_cons] at mem
    rcases mem with hx | rfl | hy
    · exact h.good x (by simp [hx])
    · exact good
    · exact h.good x (by simp [hy])
  · intro o
    have apart := h.separated o
    rw [spans_append] at apart
    by_cases own : ownerOf f = o
    · subst own
      rw [spans_append, spans_own (x := (a, ⟨f, st⟩)) rfl]
      exact apart.insert before behind
    · rw [spans_append, spans_other own]
      exact apart

end Lists

def Room (env : Env) (info : Flckinfo) : Prop :=
  info.reccnt < env.tFlckrec ∧ env.kmem info.zallocs = true

instance (env : Env) (info : Flckinfo) : Decidable (Room env info) :=
  inferInstanceAs (Decidable (_ ∧ _))

section Routines
variable {t : Tab} {xs ys : List (Nat × Filock)} {a : Nat} {v : Filock}

section
variable (links : Links t.list (xs ++ (a, v) :: ys))
include links

theorem delflck_spec : ∃ t', delflck t a = some t' ∧ Links t'.list (xs ++ ys) ∧
      t'.info = { t.info with reccnt := t.info.reccnt - 1 } := by
  obtain ⟨l, run, after⟩ := links.unlink
  have step : delflck t a = some ⟨l, { t.info with reccnt := t.info.reccnt - 1 },
      if v.stat.wakeflg ≠ 0 then a :: t.woken else t.woken⟩ := by
    simp [delflck, links.cell_eq, run]
  exact ⟨_, step, after, rfl⟩

theorem setEnd_spec (e : Int) : ∃ t', setEnd t a e = some t' ∧
      Links t'.list (xs ++ (a, { v with set := { v.set with lEnd := e } }) :: ys) ∧
      t'.info = t.info := by
  obtain ⟨l, run, after⟩ := links.setVal { v with set := { v.set with lEnd := e } }
  have step : setEnd t a e = some { t with list := l } := by
    simp [setEnd, links.cell_eq, run]
  exact ⟨_, step, after, rfl⟩

theorem wakeup_spec : ∃ t' st, wakeup t a = some t' ∧ Links t'.list (xs ++ (a, ⟨v.set, st⟩) :: ys) ∧
      t'.info = t.info := by
  by_cases waiting : v.stat.wakeflg = 0
  · exact ⟨t, v.stat, by simp [wakeup, links.cell_eq, waiting], links, rfl⟩
  · obtain ⟨l, run, after⟩ := links.setVal { v with stat := { v.stat with first := 0 } }
    have step : wakeup t a = some { t with list := l, woken := a :: t.woken } := by
      simp [wakeup, links.cell_eq, waiting, run]
    exact ⟨_, _, step, after, rfl⟩

end

theorem insflck_spec (env : Env) (f : Flock) (links : Links t.list (xs ++ ys)) :
    (¬ Room env t.info ∧ ∃ t', insflck env t f (lastOf xs) = some (none, t') ∧ t'.list = t.list) ∨
    (Room env t.info ∧ ∃ t' n, insflck env t f (lastOf xs) = some (some n, t') ∧
      Links t'.list (xs ++ (n, ⟨f, ⟨0, 0⟩⟩) :: ys) ∧
      t'.info = ⟨t.info.reccnt + 1, t.info.rectot + 1, t.info.zallocs + 1⟩) := by
  by_cases full : env.tFlckrec ≤ t.info.reccnt
  · exact .inl ⟨fun room => by have := room.1; omega, t, by simp [insflck, full], rfl⟩
  cases memory : env.kmem t.info.zallocs with
  | false =>
    have step : insflck env t f (lastOf xs) =
        some (none, { t with info := { t.info with zallocs := t.info.zallocs + 1 } }) := by
      simp [insflck, full, memory]
    exact .inl ⟨fun room => by simp [room.2] at memory, _, step, rfl⟩
  | true =>
    have inserted : ∃ l, insertAfter t.list ⟨f, ⟨0, 0⟩⟩ (lastOf xs) = some l ∧
        Links l (xs ++ (t.list.fresh, ⟨f, ⟨0, 0⟩⟩) :: ys) := by
      rcases eq_nil_or_concat xs with rfl | ⟨init, ⟨p, w⟩, rfl⟩
      · exact links.insertFront ⟨f, ⟨0, 0⟩⟩
      · have here : Links t.list (init ++ (p, w) :: ys) := by simpa using links
        obtain ⟨l, run, after⟩ := here.insertAfter ⟨f, ⟨0, 0⟩⟩
        exact ⟨l, by simpa using run, by simpa using after⟩
    obtain ⟨l, run, after⟩ := inserted
    have step : insflck env t f (lastOf xs) = some (some t.list.fresh,
        ⟨l, ⟨t.info.reccnt + 1, t.info.rectot + 1, t.info.zallocs + 1⟩, t.woken⟩) := by
      simp [insflck, full, memory, run]
    exact .inr ⟨⟨by omega, memory⟩, _, _, step, after, rfl⟩

theorem seekStart_walk (start : Int) {x z : Nat × Filock} (fuel : Nat)
    (links : Links l (us ++ x :: z :: zs)) (enough : zs.length < fuel) :
    ∃ mid rest b, z :: zs = mid ++ rest ∧ seekStart l.cell start fuel x.1 z.1 = some b ∧
      lastOf (us ++ x :: mid) = some b ∧ (∀ y ∈ mid, y.2.set.lStart < start) ∧
      (∀ y ∈ rest.head?, start ≤ y.2.set.lStart) := by
  induction zs generalizing us x z fuel with
  | nil =>
    obtain ⟨c, w⟩ := z
    cases fuel with
    | zero => omega
    | succ fuel =>
      have found : l.cell c = some ⟨w, lastOf (us ++ [x]), none⟩ := by
        have : Links l ((us ++ [x]) ++ (c, w) :: []) := by simpa using links
        simpa using this.cell_eq
      by_cases early : w.set.lStart < start
      · exact ⟨[(c, w)], [], c, by simp, by simp [seekStart, found, early],
          by simp [lastOf], by simp [early], by simp⟩
      · exact ⟨[], [(c, w)], x.1, by simp, by simp [seekStart, found, early],
          by simp [lastOf], by simp, by simpa using early⟩
  | cons y zs ih =>
    obtain ⟨c, w⟩ := z
    cases fuel with
    | zero => omega
    | succ fuel =>
      have next : Links l ((us ++ [x]) ++ (c, w) :: y :: zs) := by simpa using links
      have found : l.cell c = some ⟨w, lastOf (us ++ [x]), some y.1⟩ := by
        simpa using next.cell_eq
      by_cases early : w.set.lStart < start
      · obtain ⟨mid, rest, b, split, run, last, before, behind⟩ :=
          ih fuel next (by simpa using enough)
        refine ⟨(c, w) :: mid, rest, b, by simp [split], ?_, by simpa using last, ?_, behind⟩
        · simpa [seekStart, found, early] using run
        · intro z mem
          rcases mem_cons.mp mem with rfl | mem
          · exact early
          · exact before z mem
      · exact ⟨[], (c, w) :: y :: zs, x.1, by simp, by simp [seekStart, found, early],
          by simp [lastOf], by simp, by simpa using early⟩

theorem seekStart_spec (start : Int) (links : Links l (us ++ (a, v) :: zs))
    (records : RecordList (us ++ (a, v) :: zs)) :
    ∃ mid rest b, zs = mid ++ rest ∧ seekStart l.cell start (l.fresh + 1) a a = some b ∧
      lastOf (us ++ (a, v) :: mid) = some b ∧ (∀ y ∈ mid, y.2.set.lStart < start) ∧
      (∀ y ∈ rest, start ≤ y.2.set.lStart) := by
  obtain ⟨-, ordered, -⟩ := pairwise_append.mp records.ordered
  obtain ⟨ahead, ordered⟩ := pairwise_cons.mp ordered
  by_cases early : v.set.lStart < start
  · cases zs with
    | nil =>
      exact ⟨[], [], a, rfl, by simp [seekStart, links.cell_eq, early], by simp [lastOf], by simp,
        by simp⟩
    | cons z zs =>
      have long := links.length_le
      simp only [length_append, length_cons] at long
      obtain ⟨mid, rest, b, split, run, last, before, behind⟩ :=
        seekStart_walk start l.fresh links (by omega)
      refine ⟨mid, rest, b, split, ?_, last, before, ?_⟩
      · simpa [seekStart, links.cell_eq, early] using run
      · cases rest with
        | nil => simp
        | cons y rest =>
          rw [split] at ordered
          have tail := (pairwise_append.mp ordered).2.1
          intro w mem
          have first : start ≤ y.2.set.lStart := behind y (by simp)
          rcases mem_cons.mp mem with rfl | mem
          · exact first
          · exact le_trans first ((pairwise_cons.mp tail).1 w mem)
  · refine ⟨[], zs, a, rfl, by simp [seekStart, links.cell_eq, early], by simp [lastOf], by simp, ?_⟩
    intro y mem
    have := ahead y mem
    simp only at this
    omega

end Routines

end RecordLocks
