import Mathlib.Data.BitVec
import Svr4.Counting
import Svr4.Runs

/- vm/vm_page.c: the locks on pages, and the memory that is accounted for them. Beside the counts of
   the code every page has the numbers of locks that its holders have not given back. -/
namespace PageLocks
open Function Counting LabelledRuns Option BitVec

def PAGE_LOCK_MAXIMUM : BitVec 16 := 0xffff

structure Page where
  p_lckcnt : BitVec 16
  p_cowcnt : BitVec 16
  deriving DecidableEq

structure Memory (ι : Type) where
  page : ι → Page
  availrmem : BitVec 32
  pages_pp_locked : BitVec 32
  pages_pp_kernel : BitVec 32

section Source
variable {ι : Type} [DecidableEq ι] (pages_pp_maximum : BitVec 32) (s : Memory ι)

/-- The comparison is one of unsigned numbers, as `pages_pp_maximum` is. -/
def room : Bool := pages_pp_maximum ≤ s.availrmem - 1

/-- A count is not raised beyond the greatest; the warning at the greatest is left out. -/
def raised (count : BitVec 16) : BitVec 16 :=
  if count < PAGE_LOCK_MAXIMUM then count + 1 else count

def Memory.setPage (pp : ι) (p : Page) : Memory ι := { s with page := update s.page pp p }

@[simp] theorem setPage_availrmem (pp : ι) (p : Page) :
    (s.setPage pp p).availrmem = s.availrmem := rfl
@[simp] theorem setPage_locked (pp : ι) (p : Page) :
    (s.setPage pp p).pages_pp_locked = s.pages_pp_locked := rfl
@[simp] theorem setPage_kernel (pp : ι) (p : Page) :
    (s.setPage pp p).pages_pp_kernel = s.pages_pp_kernel := rfl

def page_pp_lock (pp : ι) (cow kernel : Bool) : Memory ι × Bool :=
  let p := s.page pp
  if cow then
    if room pages_pp_maximum s then
      ({ s.setPage pp { p with p_cowcnt := raised p.p_cowcnt } with
        availrmem := s.availrmem - 1
        pages_pp_locked := s.pages_pp_locked + 1 }, true)
    else (s, false)
  else if p.p_lckcnt ≠ 0 then
    (s.setPage pp { p with p_lckcnt := raised p.p_lckcnt }, true)
  else if kernel then
    ({ s.setPage pp { p with p_lckcnt := p.p_lckcnt + 1 } with
      pages_pp_kernel := s.pages_pp_kernel + 1 }, true)
  else if room pages_pp_maximum s then
    ({ s.setPage pp { p with p_lckcnt := p.p_lckcnt + 1 } with
      availrmem := s.availrmem - 1
      pages_pp_locked := s.pages_pp_locked + 1 }, true)
  else (s, false)

def page_pp_unlock (pp : ι) (cow kernel : Bool) : Memory ι :=
  let p := s.page pp
  if cow then
    { s.setPage pp { p with p_cowcnt := p.p_cowcnt - 1 } with
      availrmem := s.availrmem + 1
      pages_pp_locked := s.pages_pp_locked - 1 }
  else
    let s := s.setPage pp { p with p_lckcnt := p.p_lckcnt - 1 }
    if p.p_lckcnt - 1 = 0 then
      if kernel then { s with pages_pp_kernel := s.pages_pp_kernel - 1 }
      else { s with
        availrmem := s.availrmem + 1
        pages_pp_locked := s.pages_pp_locked - 1 }
    else s

def page_pp_useclaim (opp npp : ι) : Memory ι :=
  let s := s.setPage opp { s.page opp with p_cowcnt := (s.page opp).p_cowcnt - 1 }
  s.setPage npp { s.page npp with p_cowcnt := (s.page npp).p_cowcnt + 1 }

def page_addclaim (pp : ι) : Memory ι × Bool :=
  let p := { s.page pp with p_lckcnt := (s.page pp).p_lckcnt - 1 }
  if p.p_lckcnt = 0 then (s.setPage pp { p with p_cowcnt := p.p_cowcnt + 1 }, true)
  else if room pages_pp_maximum s then
    ({ s.setPage pp { p with p_cowcnt := raised p.p_cowcnt } with
      availrmem := s.availrmem - 1
      pages_pp_locked := s.pages_pp_locked + 1 }, true)
  else (s.setPage pp { p with p_lckcnt := p.p_lckcnt + 1 }, false)

def page_subclaim (pp : ι) : Memory ι :=
  let p := { s.page pp with p_cowcnt := (s.page pp).p_cowcnt - 1 }
  let t := s.setPage pp { p with p_lckcnt := p.p_lckcnt + 1 }
  if p.p_lckcnt ≠ 0 then
    { t with
      availrmem := s.availrmem + 1
      pages_pp_locked := s.pages_pp_locked - 1 }
  else t

/-- What `page_abort` does to the locks of a page; `busy` tells that the page is kept or in transit,
    so that it is left to a later call. -/
def page_abort (pp : ι) (busy : Bool) : Memory ι :=
  if busy then s
  else
    let p := s.page pp
    let s := if p.p_lckcnt ≠ 0 then
        { s.setPage pp { p with p_lckcnt := 0 } with
          pages_pp_locked := s.pages_pp_locked - 1
          availrmem := s.availrmem + 1 }
      else s
    if p.p_cowcnt ≠ 0 then
      { s.setPage pp { s.page pp with p_cowcnt := 0 } with
        pages_pp_locked := s.pages_pp_locked - p.p_cowcnt.setWidth 32
        availrmem := s.availrmem + p.p_cowcnt.setWidth 32 }
    else s

end Source

/-- The locks and claims on a page that are not given back. -/
structure Held where
  ordinary : Nat
  kernel : Nat
  claims : Nat
  deriving DecidableEq

/-- The units of memory that the locks on a page take. -/
@[simp] def Held.taken (h : Held) : Nat := h.claims + one (0 < h.ordinary)

@[simp] def Held.pinned (h : Held) : Nat := one (0 < h.kernel)

structure Sys (ι : Type) where
  mem : Memory ι
  held : ι → Held

inductive Call (ι : Type)
  | lock (pp : ι) (cow kernel : Bool)
  | unlock (pp : ι) (cow kernel : Bool)
  | useclaim (opp npp : ι)
  | addclaim (pp : ι)
  | subclaim (pp : ι)
  | abort (pp : ι) (busy : Bool)

section System
variable {ι : Type} [DecidableEq ι] (pages_pp_maximum : BitVec 32) {p : Page} {h : Held}

def Sys.set (s : Sys ι) (mem : Memory ι) (pp : ι) (h : Held) : Sys ι :=
  ⟨mem, update s.held pp h⟩

/-- A call that may fail. -/
def Sys.answer (s : Sys ι) (r : Memory ι × Bool) (pp : ι) (h : Held) : Sys ι :=
  if r.2 then s.set r.1 pp h else ⟨r.1, s.held⟩

@[simp] def Held.more (h : Held) (cow kernel : Bool) : Held :=
  if cow then { h with claims := h.claims + 1 }
  else if kernel then { h with kernel := h.kernel + 1 }
  else { h with ordinary := h.ordinary + 1 }

@[simp] def Held.less (h : Held) (cow kernel : Bool) : Held :=
  if cow then { h with claims := h.claims - 1 }
  else if kernel then { h with kernel := h.kernel - 1 }
  else { h with ordinary := h.ordinary - 1 }

def Held.has (h : Held) (cow kernel : Bool) : Prop :=
  0 < if cow then h.claims else if kernel then h.kernel else h.ordinary

instance (h : Held) (cow kernel : Bool) : Decidable (h.has cow kernel) := by
  unfold Held.has
  exact inferInstance

/-- A call; every lock or claim that is given up or converted was taken before. -/
def step (s : Sys ι) : Call ι → Option (Sys ι)
  | .lock pp cow kernel =>
    some (s.answer (page_pp_lock pages_pp_maximum s.mem pp cow kernel) pp
      ((s.held pp).more cow kernel))
  | .unlock pp cow kernel =>
    if (s.held pp).has cow kernel then
      some (s.set (page_pp_unlock s.mem pp cow kernel) pp ((s.held pp).less cow kernel))
    else none
  | .useclaim opp npp =>
    if 0 < (s.held opp).claims then
      let held := update s.held opp ((s.held opp).less true false)
      some ⟨page_pp_useclaim s.mem opp npp, update held npp ((held npp).more true false)⟩
    else none
  | .addclaim pp =>
    if 0 < (s.held pp).ordinary then
      some (s.answer (page_addclaim pages_pp_maximum s.mem pp) pp
        (((s.held pp).less false false).more true false))
    else none
  | .subclaim pp =>
    if 0 < (s.held pp).claims then
      some (s.set (page_subclaim s.mem pp) pp (((s.held pp).less true false).more false false))
    else none
  | .abort pp busy =>
    some (if busy then ⟨page_abort s.mem pp busy, s.held⟩
      else s.set (page_abort s.mem pp busy) pp ⟨0, 0, 0⟩)

/-- No call mixes kernel locks with ordinary ones on a page, aborts a page with a kernel lock, or
    is to raise a count that is at its greatest. -/
def Clean (s : Sys ι) : Call ι → Prop
  | .lock pp true _ =>
    room pages_pp_maximum s.mem = true → (s.mem.page pp).p_cowcnt < PAGE_LOCK_MAXIMUM
  | .lock pp false true =>
    (s.mem.page pp).p_lckcnt < PAGE_LOCK_MAXIMUM ∧ (s.held pp).ordinary = 0
  | .lock pp false false =>
    (s.mem.page pp).p_lckcnt < PAGE_LOCK_MAXIMUM ∧ (s.held pp).kernel = 0
  | .useclaim opp npp => opp ≠ npp → (s.mem.page npp).p_cowcnt < PAGE_LOCK_MAXIMUM
  | .addclaim pp => (s.mem.page pp).p_lckcnt = 1 ∨ room pages_pp_maximum s.mem = true →
    (s.mem.page pp).p_cowcnt < PAGE_LOCK_MAXIMUM
  | .subclaim pp => (s.mem.page pp).p_lckcnt < PAGE_LOCK_MAXIMUM ∧ (s.held pp).kernel = 0
  | .abort pp busy => busy = false → (s.held pp).kernel = 0
  | .unlock _ _ _ => True

/-- The counts of a page are those of its locks, which are of one kind. -/
structure PageOk (p : Page) (h : Held) : Prop where
  claims : p.p_cowcnt.toNat = h.claims
  locks : p.p_lckcnt.toNat = h.ordinary + h.kernel
  single : h.ordinary = 0 ∨ h.kernel = 0

theorem page_pp_lock_failed (s : Memory ι) (pp : ι) (cow kernel : Bool)
    (failed : (page_pp_lock pages_pp_maximum s pp cow kernel).2 = false) :
    (page_pp_lock pages_pp_maximum s pp cow kernel).1 = s := by
  unfold page_pp_lock at failed ⊢
  dsimp only at failed ⊢
  split_ifs at failed ⊢ <;> rfl

theorem page_addclaim_failed (s : Memory ι) (pp : ι)
    (failed : (page_addclaim pages_pp_maximum s pp).2 = false) :
    (page_addclaim pages_pp_maximum s pp).1 = s := by
  unfold page_addclaim at failed ⊢
  dsimp only at failed ⊢
  split_ifs at failed ⊢
  unfold Memory.setPage
  rw [sub_add_cancel, update_eq_self]

variable [Fintype ι]

/-- What is asked of every state of a run that began with `total` pages available and no locks. -/
structure Conserved (total : BitVec 32) (s : Sys ι) : Prop where
  sum : s.mem.availrmem + s.mem.pages_pp_locked = total
  locked : s.mem.pages_pp_locked = BitVec.ofNat 32 (∑ pp, (s.held pp).taken)
  kernel : s.mem.pages_pp_kernel = BitVec.ofNat 32 (∑ pp, (s.held pp).pinned)
  released : (∀ pp, s.held pp = ⟨0, 0, 0⟩) → s.mem = ⟨fun _ => ⟨0, 0⟩, total, 0, 0⟩

structure Books (total : BitVec 32) (s : Sys ι) : Prop where
  sum : s.mem.availrmem + s.mem.pages_pp_locked = total
  locked : s.mem.pages_pp_locked = BitVec.ofNat 32 (∑ pp, (s.held pp).taken)
  kernel : s.mem.pages_pp_kernel = BitVec.ofNat 32 (∑ pp, (s.held pp).pinned)
  pages : ∀ pp, PageOk (s.mem.page pp) (s.held pp)

variable {pages_pp_maximum : BitVec 32} {total : BitVec 32} {s : Sys ι} {pp : ι}

theorem count_touch {c c' : BitVec 32} {f : Held → Nat} {held : ι → Held} {h' : Held}
    (exact : c = BitVec.ofNat 32 (∑ i, f (held i)))
    (change : c' + BitVec.ofNat 32 (f (held pp)) = c + BitVec.ofNat 32 (f h')) :
    c' = BitVec.ofNat 32 (∑ i, f (update held pp h' i)) := by
  have sums : ∑ i, f (update held pp h' i) + f (held pp) = ∑ i, f (held i) + f h' := by
    have moved := sum_change (f := fun i => f (update held pp h' i)) (g := fun i => f (held i))
      (Finset.mem_univ pp) fun i _ other => by simp only [update_of_ne other]
    rwa [update_self] at moved
  have both := congrArg (BitVec.ofNat 32) sums
  rw [ofNat_add, ofNat_add, ← exact, ← change] at both
  exact ((BitVec.add_left_inj _).mp both).symm

theorem Books.touch (books : Books total s) {mem : Memory ι}
    (page : mem.page = update s.mem.page pp p) (ok : PageOk p h)
    (sum : mem.availrmem + mem.pages_pp_locked = s.mem.availrmem + s.mem.pages_pp_locked)
    (locked : mem.pages_pp_locked + BitVec.ofNat 32 (s.held pp).taken = s.mem.pages_pp_locked +
      BitVec.ofNat 32 h.taken)
    (kernel : mem.pages_pp_kernel + BitVec.ofNat 32 (s.held pp).pinned = s.mem.pages_pp_kernel +
      BitVec.ofNat 32 h.pinned) : Books total (s.set mem pp h) where
  sum := sum.trans books.sum
  locked := count_touch (f := Held.taken) books.locked locked
  kernel := count_touch (f := Held.pinned) books.kernel kernel
  pages q := by
    unfold Sys.set
    dsimp only
    rw [page]
    rw [update_apply, update_apply]
    split
    · exact ok
    · exact books.pages q

variable {count : BitVec 16}

theorem toNat_lt_max (low : count < PAGE_LOCK_MAXIMUM) : (count + 1).toNat = count.toNat + 1 := by
  have below : count.toNat < 0xffff := low
  rw [toNat_add]
  exact Nat.mod_eq_of_lt (by simp; omega)

theorem toNat_pred {n : Nat} (some_left : count.toNat = n) (positive : 0 < n) :
    (count - 1).toNat = n - 1 := by
  rw [toNat_sub, some_left]
  show (2 ^ 16 - 1 + n) % 2 ^ 16 = n - 1
  omega

theorem raised_eq (low : count < PAGE_LOCK_MAXIMUM) : raised count = count + 1 := if_pos low

theorem zero_iff : count = 0 ↔ count.toNat = 0 :=
  ⟨fun zero => by rw [zero]; rfl, fun zero => eq_of_toNat_eq zero⟩

theorem PageOk.none_iff (ok : PageOk p h) : p.p_lckcnt = 0 ↔ h.ordinary = 0 ∧ h.kernel = 0 := by
  have locks := ok.locks
  rw [zero_iff]
  omega

section
variable (books : Books total s)
include books

theorem Books.lock (pp : ι) (cow kernel : Bool)
    (clean : Clean pages_pp_maximum s (.lock pp cow kernel)) :
    Books total (s.answer (page_pp_lock pages_pp_maximum s.mem pp cow kernel) pp
      ((s.held pp).more cow kernel)) := by
  obtain ⟨claims, locks, single⟩ := books.pages pp
  have none_iff := (books.pages pp).none_iff
  unfold page_pp_lock Sys.answer
  cases cow with
  | true =>
    by_cases enough : room pages_pp_maximum s.mem = true
    · have low := clean enough
      simp only [enough, if_true, raised_eq low]
      refine books.touch rfl ⟨?_, locks, single⟩ ?_ ?_ rfl
      · exact (toNat_lt_max low).trans (congrArg (· + 1) claims)
      · simp
      · simp [ofNat_add]
        bv_omega
    · simp only [enough, if_true, if_false, Bool.false_eq_true]
      exact books
  | false =>
    have low : (s.mem.page pp).p_lckcnt < PAGE_LOCK_MAXIMUM := by
      cases kernel <;> exact clean.1
    have more := toNat_lt_max low
    by_cases first : (s.mem.page pp).p_lckcnt = 0
    · have none_held := none_iff.mp first
      cases kernel with
      | true =>
        simp only [first, Bool.false_eq_true, if_false, if_true, ne_eq, not_true]
        refine books.touch rfl ⟨claims, ?_, .inl clean.2⟩ rfl rfl ?_ <;> simp [none_held]
      | false =>
        by_cases enough : room pages_pp_maximum s.mem = true
        · simp only [first, enough, Bool.false_eq_true, if_false, if_true, ne_eq, not_true]
          refine books.touch rfl ⟨claims, ?_, .inr clean.2⟩ ?_ ?_ rfl <;>
            simp [none_held, ofNat_add] <;> bv_omega
        · simp only [first, enough, Bool.false_eq_true, if_false, ne_eq, not_true]
          exact books
    · have some_held := mt none_iff.mpr first
      simp only [first, Bool.false_eq_true, if_false, if_true, ne_eq, not_false_eq_true,
        raised_eq low]
      cases kernel with
      | true =>
        have none_other : (s.held pp).ordinary = 0 := clean.2
        have positive : 0 < (s.held pp).kernel := by omega
        refine books.touch rfl ⟨claims, more.trans ?_, .inl none_other⟩ rfl rfl ?_ <;>
          simp [positive, locks, none_other]
      | false =>
        have none_other : (s.held pp).kernel = 0 := clean.2
        have positive : 0 < (s.held pp).ordinary := by omega
        refine books.touch rfl ⟨claims, more.trans ?_, .inr none_other⟩ rfl ?_ rfl <;>
          simp [positive, locks, none_other]

theorem Books.unlock (pp : ι) (cow kernel : Bool) (had : (s.held pp).has cow kernel) :
    Books total (s.set (page_pp_unlock s.mem pp cow kernel) pp ((s.held pp).less cow kernel)) := by
  obtain ⟨claims, locks, single⟩ := books.pages pp
  unfold page_pp_unlock
  cases cow with
  | true =>
    have some_left : 0 < (s.held pp).claims := had
    have fewer : (s.held pp).claims = (s.held pp).claims - 1 + 1 := by omega
    simp only [if_true]
    refine books.touch rfl ⟨toNat_pred claims some_left, locks, single⟩ ?_ ?_ rfl
    · bv_omega
    · simp only [Held.taken, Held.less, if_true]
      nth_rewrite 1 [fewer]
      bv_omega
  | false =>
    have some_left : 0 < (s.held pp).ordinary + (s.held pp).kernel := by
      cases kernel
      · exact Nat.add_pos_left had _
      · exact Nat.add_pos_right _ had
    have less := toNat_pred locks some_left
    have last : (s.mem.page pp).p_lckcnt - 1 = 0 ↔
        (s.held pp).ordinary + (s.held pp).kernel = 1 := by
      rw [zero_iff, less]
      omega
    cases kernel with
    | true =>
      have some_kernel : 0 < (s.held pp).kernel := had
      have none_other : (s.held pp).ordinary = 0 := by omega
      by_cases final : (s.held pp).kernel = 1
      · simp only [last.mpr (by omega), Bool.false_eq_true, if_false, if_true]
        refine books.touch rfl ⟨claims, ?_, .inl none_other⟩ rfl rfl ?_
        · simp [none_other, final]
        · simp [none_other, final]
      · have some_behind : 0 < (s.held pp).kernel - 1 := by omega
        simp only [mt last.mp (by omega), Bool.false_eq_true, if_false]
        refine books.touch rfl ⟨claims, less.trans ?_, .inl none_other⟩ rfl rfl ?_ <;>
          simp [none_other, some_kernel, some_behind]
    | false =>
      have some_ordinary : 0 < (s.held pp).ordinary := had
      have none_other : (s.held pp).kernel = 0 := by omega
      by_cases final : (s.held pp).ordinary = 1
      · simp only [last.mpr (by omega), Bool.false_eq_true, if_false, if_true]
        refine books.touch rfl ⟨claims, ?_, .inr none_other⟩ ?_ ?_ rfl <;>
          simp [none_other, final, ofNat_add]
      · have some_behind : 0 < (s.held pp).ordinary - 1 := by omega
        simp only [mt last.mp (by omega), Bool.false_eq_true, if_false]
        refine books.touch rfl ⟨claims, less.trans ?_, .inr none_other⟩ rfl ?_ rfl <;>
          simp [none_other, some_ordinary, some_behind]

theorem Books.useclaim (opp npp : ι) (had : 0 < (s.held opp).claims)
    (low : opp ≠ npp → (s.mem.page npp).p_cowcnt < PAGE_LOCK_MAXIMUM) :
    Books total ⟨page_pp_useclaim s.mem opp npp,
      update (update s.held opp ((s.held opp).less true false)) npp
        ((update s.held opp ((s.held opp).less true false) npp).more true false)⟩ := by
  -- The claim is given back and taken again.
  have back := books.unlock opp true false had
  have ok := back.pages npp
  have there : ((page_pp_unlock s.mem opp true false).page npp).p_cowcnt < PAGE_LOCK_MAXIMUM := by
    by_cases here : npp = opp
    · subst here
      have less := toNat_pred (books.pages npp).claims had
      have bound := (s.mem.page npp).p_cowcnt.isLt
      rw [(books.pages npp).claims] at bound
      simp only [page_pp_unlock, Memory.setPage, if_true, update_self]
      rw [lt_def, less]
      show _ < 0xffff
      omega
    · simp only [page_pp_unlock, Memory.setPage, if_true, update_of_ne here]
      exact low (Ne.symm here)
  have moved : page_pp_useclaim s.mem opp npp = { (page_pp_unlock s.mem opp true false).setPage npp
          { (page_pp_unlock s.mem opp true false).page npp with
            p_cowcnt := ((page_pp_unlock s.mem opp true false).page npp).p_cowcnt + 1 } with
        availrmem := (page_pp_unlock s.mem opp true false).availrmem - 1
        pages_pp_locked := (page_pp_unlock s.mem opp true false).pages_pp_locked + 1 } := by
    simp [page_pp_useclaim, page_pp_unlock, Memory.setPage, add_sub_cancel,
      sub_add_cancel]
  rw [moved]
  refine back.touch rfl ⟨?_, ok.locks, ok.single⟩ ?_ ?_ rfl
  · exact (toNat_lt_max there).trans (congrArg (· + 1) ok.claims)
  · simp [Sys.set]
  · simp [Sys.set, ofNat_add]
    bv_omega

theorem Books.addclaim (pp : ι) (had : 0 < (s.held pp).ordinary)
    (clean : Clean pages_pp_maximum s (.addclaim pp)) :
    Books total (s.answer (page_addclaim pages_pp_maximum s.mem pp) pp
      (((s.held pp).less false false).more true false)) := by
  obtain ⟨claims, locks, single⟩ := books.pages pp
  have none_other : (s.held pp).kernel = 0 := single.resolve_left (by omega)
  have less := toNat_pred locks (by omega)
  have last : (s.mem.page pp).p_lckcnt - 1 = 0 ↔ (s.held pp).ordinary = 1 := by
    rw [zero_iff, less]
    omega
  unfold page_addclaim Sys.answer
  by_cases final : (s.held pp).ordinary = 1
  · have low := clean (.inl (eq_of_toNat_eq (by rw [locks, final, none_other]; rfl)))
    simp only [last.mpr final, if_true]
    refine books.touch rfl ⟨?_, ?_, .inr none_other⟩ rfl ?_ rfl
    · exact (toNat_lt_max low).trans (congrArg (· + 1) claims)
    all_goals simp [none_other, final]
  simp only [mt last.mp final, if_false]
  by_cases enough : room pages_pp_maximum s.mem = true
  · have low := clean (.inr enough)
    have some_behind : 0 < (s.held pp).ordinary - 1 := by omega
    simp only [enough, if_true, raised_eq low]
    refine books.touch rfl ⟨?_, less.trans ?_, .inr none_other⟩ ?_ ?_ rfl
    · exact (toNat_lt_max low).trans (congrArg (· + 1) claims)
    all_goals simp [none_other, had, some_behind, ofNat_add] <;> bv_omega
  · have same : s.mem.setPage pp { s.mem.page pp with
        p_lckcnt := (s.mem.page pp).p_lckcnt - 1 + 1 } = s.mem := by
      unfold Memory.setPage
      rw [sub_add_cancel, update_eq_self]
    simp only [enough, if_false, Bool.false_eq_true]
    show Books total ⟨s.mem.setPage pp { s.mem.page pp with
        p_lckcnt := (s.mem.page pp).p_lckcnt - 1 + 1 }, s.held⟩
    rw [same]
    exact books

theorem Books.subclaim (pp : ι) (had : 0 < (s.held pp).claims)
    (low : (s.mem.page pp).p_lckcnt < PAGE_LOCK_MAXIMUM) (none_other : (s.held pp).kernel = 0) :
    Books total (s.set (page_subclaim s.mem pp) pp
      (((s.held pp).less true false).more false false)) := by
  obtain ⟨claims, locks, single⟩ := books.pages pp
  have none_iff := (books.pages pp).none_iff
  have more := toNat_lt_max low
  have less := toNat_pred claims had
  obtain ⟨n, fewer⟩ := Nat.exists_eq_add_one.mpr had
  unfold page_subclaim
  by_cases first : (s.mem.page pp).p_lckcnt = 0
  · have none_held := none_iff.mp first
    simp only [first, ne_eq, not_true, if_false]
    refine books.touch rfl ⟨less, ?_, .inr none_other⟩ rfl ?_ rfl <;> simp [none_held, fewer]
  · have some_held : 0 < (s.held pp).ordinary := by
      have positive := mt none_iff.mpr first
      omega
    simp only [first, ne_eq, not_false_eq_true, if_true]
    refine books.touch rfl ⟨less, more.trans ?_, .inr none_other⟩ ?_ ?_ rfl <;>
      simp [some_held, fewer, ofNat_add] <;> bv_omega

theorem Books.abort (pp : ι) (none_other : (s.held pp).kernel = 0) :
    Books total (s.set (page_abort s.mem pp false) pp ⟨0, 0, 0⟩) := by
  obtain ⟨claims, locks, single⟩ := books.pages pp
  have width : setWidth 32 (s.mem.page pp).p_cowcnt =
      BitVec.ofNat 32 (s.held pp).claims := by
    rw [← claims, ← ofNat_toNat]
  have unlocked : (s.mem.page pp).p_lckcnt = 0 ↔ (s.held pp).ordinary = 0 := by
    rw [zero_iff, locks, none_other]
    rfl
  have unclaimed : (s.mem.page pp).p_cowcnt = 0 ↔ (s.held pp).claims = 0 := by
    rw [zero_iff, claims]
  have empty : PageOk ⟨0, 0⟩ ⟨0, 0, 0⟩ := ⟨rfl, rfl, .inl rfl⟩
  have same : update s.mem.page pp ⟨(s.mem.page pp).p_lckcnt, (s.mem.page pp).p_cowcnt⟩ =
    s.mem.page := update_eq_self pp s.mem.page
  unfold page_abort
  by_cases first : (s.held pp).ordinary = 0 <;> by_cases second : (s.held pp).claims = 0
  · rw [unlocked.mpr first, unclaimed.mpr second] at same
    simp only [unlocked.mpr first, unclaimed.mpr second, ne_eq, not_true, if_false]
    refine books.touch same.symm empty rfl ?_ ?_ <;> simp [none_other, first, second]
  · simp only [unlocked.mpr first, mt unclaimed.mp second, ne_eq, not_true, if_false,
      not_false_eq_true, if_true]
    refine books.touch (p := ⟨0, 0⟩) ?_ empty ?_ ?_ ?_ <;>
      simp [Memory.setPage, none_other, first, width]
  · simp only [mt unlocked.mp first, unclaimed.mpr second, ne_eq, not_true, if_false,
      not_false_eq_true, if_true]
    have positive : 0 < (s.held pp).ordinary := by omega
    refine books.touch (p := ⟨0, 0⟩) ?_ empty ?_ ?_ ?_ <;>
      simp [Memory.setPage, none_other, second, positive]
  · simp only [mt unlocked.mp first, mt unclaimed.mp second, ne_eq, not_false_eq_true, if_true]
    have positive : 0 < (s.held pp).ordinary := by omega
    refine books.touch (p := ⟨0, 0⟩) ?_ empty ?_ ?_ ?_ <;>
      simp [Memory.setPage, none_other, positive, width, ofNat_add] <;> bv_omega

theorem Books.step {c : Call ι} (clean : Clean pages_pp_maximum s c) {t : Sys ι}
    (taken : step pages_pp_maximum s c = some t) : Books total t := by
  unfold PageLocks.step at taken
  cases c with
  | lock pp cow kernel =>
    cases taken
    exact books.lock pp cow kernel clean
  | unlock pp cow kernel =>
    obtain ⟨had, ⟨⟩⟩ := ite_none_right_eq_some.mp taken
    exact books.unlock pp cow kernel had
  | useclaim opp npp =>
    obtain ⟨had, ⟨⟩⟩ := ite_none_right_eq_some.mp taken
    exact books.useclaim opp npp had clean
  | addclaim pp =>
    obtain ⟨had, ⟨⟩⟩ := ite_none_right_eq_some.mp taken
    exact books.addclaim pp had clean
  | subclaim pp =>
    obtain ⟨had, ⟨⟩⟩ := ite_none_right_eq_some.mp taken
    exact books.subclaim pp had clean.1 clean.2
  | abort pp busy =>
    cases taken
    cases busy with
    | true => exact books
    | false => exact books.abort pp (clean rfl)

omit [DecidableEq ι] in
theorem Books.conserved : Conserved total s where
  sum := books.sum
  locked := books.locked
  kernel := books.kernel
  released none_held := by
    have locked := books.locked
    have kernel := books.kernel
    have sum := books.sum
    simp only [none_held, Held.taken, Held.pinned, Counting.one, Nat.lt_irrefl, if_false,
      Finset.sum_const_zero, Nat.add_zero] at locked kernel
    rw [locked] at sum
    have pages : s.mem.page = fun _ => ⟨0, 0⟩ := by
      funext pp
      have ok := books.pages pp
      have locks := ok.locks
      have claims := ok.claims
      rw [none_held] at locks claims
      cases page : s.mem.page pp with
      | mk lckcnt cowcnt =>
        rw [page] at locks claims
        obtain rfl : lckcnt = 0 := zero_iff.mpr locks
        obtain rfl : cowcnt = 0 := zero_iff.mpr claims
        rfl
    cases mem : s.mem with
    | mk page availrmem pages_pp_locked pages_pp_kernel =>
      rw [mem] at locked kernel sum pages
      dsimp only at locked kernel sum pages
      rw [pages, locked, kernel, ← sum]
      simp

end

/-- No locks, and `total` pages available. -/
def unlocked (total : BitVec 32) : Sys ι := ⟨⟨fun _ => ⟨0, 0⟩, total, 0, 0⟩, fun _ => ⟨0, 0, 0⟩⟩

omit [DecidableEq ι] in
theorem unlocked_books (total : BitVec 32) : Books total (unlocked total : Sys ι) where
  sum := BitVec.add_zero total
  locked := by simp [unlocked, Held.taken, one]
  kernel := by simp [unlocked, Held.pinned, one]
  pages _ := ⟨rfl, rfl, .inl rfl⟩

/-- In a run whose calls are all clean the accounts are right in every state; and a lock or claim
    that fails changes nothing, in any state. -/
theorem locked_memory_conserved (pages_pp_maximum total : BitVec 32) (calls : List (Call ι))
    (clean : Guarded (step pages_pp_maximum) (Clean pages_pp_maximum) (unlocked total) calls) :
    Throughout (step pages_pp_maximum) (Conserved total) (unlocked total) calls ∧
      ∀ (s : Memory ι) (pp : ι),
        (∀ cow kernel, (page_pp_lock pages_pp_maximum s pp cow kernel).2 = false →
          (page_pp_lock pages_pp_maximum s pp cow kernel).1 = s) ∧
        ((page_addclaim pages_pp_maximum s pp).2 = false →
          (page_addclaim pages_pp_maximum s pp).1 = s) :=
  ⟨throughout_of_guarded (Books total) (fun _ books => books.conserved)
    (fun _ _ _ books clean taken => books.step clean taken) (unlocked_books total) clean,
    fun s pp => ⟨page_pp_lock_failed _ s pp, page_addclaim_failed _ s pp⟩⟩

end System

theorem locked_memory_conserved_lock :
    Throughout (step 1) (Conserved 9) (unlocked 9 : Sys Unit)
      [.lock () false false, .unlock () false false] :=
  (locked_memory_conserved 1 9 [.lock () false false, .unlock () false false]
    (by simp [Guarded, Clean, unlocked, PAGE_LOCK_MAXIMUM])).1

/-- A kernel lock behind an ordinary one is not counted. -/
theorem kernel_lock_uncounted : ¬Throughout (step 1) (Conserved 9) (unlocked 9 : Sys Unit)
    [.lock () false false, .lock () false true] := by
  intro through
  have last := (through.2 _ rfl).2 _ rfl
  have kernel := last.kernel
  revert kernel
  decide

end PageLocks
