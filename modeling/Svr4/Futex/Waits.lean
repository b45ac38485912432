import Svr4.Futex.Scheduling

/- What the steps of a wait and of a wake do, one lemma a step, and that every step keeps
   the processes placed. -/
namespace Futex
open Option

-- the equations of the step functions are derived here once, for all the step lemmas below
section
attribute [local simp] Futex.kernel_step Futex.user_step Futex.step
end

variable {s t : Kernel} {l : Label} {p : Proc} {q w k uaddr : Nat} {value : Option (BitVec 32)}
  {all : Bool}

theorem wait_of_step {expected : BitVec 32} {timeoutp : Option (Option Timestruc)}
    (taken : step s (.futex_wait uaddr expected timeoutp) = some t) :
    ∃ p, s.running = some p ∧ p.pc = .user ∧ t = futex_wait s p uaddr expected timeoutp := by
  obtain ⟨p, run, user, taken⟩ := user_of_step rfl taken
  exact ⟨p, run, user, (some.inj taken).symm⟩

theorem zalloc_of_step (taken : step s (.zalloc w) = some t) :
    ∃ p uaddr expected ticks, s.running = some p ∧ p.pc = .allocating uaddr expected ticks ∧
      s.waiters w = none ∧
      t = { (s.setWaiter w ⟨p.p_as, uaddr, false, false, 0, s.serials⟩).setProc s.curproc
        { p with pc := .enqueuing w expected ticks } with serials := s.serials + 1 } := by
  obtain ⟨p, run, taken⟩ := bind_eq_some_iff.mp taken
  cases pc : p.pc <;> simp [pc, kernel_step, user_step, zalloc] at taken
  exact ⟨p, _, _, _, run, pc, taken.1, taken.2.symm⟩

theorem enqueue_of_step (taken : step s (.enqueue value) = some t) :
    ∃ p w expected ticks, s.running = some p ∧ p.pc = .enqueuing w expected ticks ∧
      enqueue s p w expected ticks value = some t := by
  obtain ⟨p, run, taken⟩ := bind_eq_some_iff.mp taken
  cases pc : p.pc <;> simp [pc, kernel_step, user_step] at taken
  exact ⟨p, _, _, _, run, pc, taken⟩

theorem test_of_step (taken : step s .test = some t) :
    ∃ p w waiter, s.running = some p ∧ p.pc = .testing w ∧ s.waiters w = some waiter ∧
      t = s.setProc s.curproc { p with
        pc := if !waiter.woken && !waiter.timed_out then .calling w else .finishing w none } := by
  obtain ⟨p, run, taken⟩ := bind_eq_some_iff.mp taken
  cases pc : p.pc <;> simp only [pc, kernel_step, user_step, reduceCtorEq] at taken
  obtain ⟨waiter, held, rfl⟩ := map_eq_some_iff.mp taken
  exact ⟨p, _, waiter, run, pc, held, rfl⟩

theorem sleep_of_step (taken : step s .sleep = some t) :
    ∃ p w, s.running = some p ∧ p.pc = .calling w ∧ t = s.setProc s.curproc { p with
        p_stat := .SSLEEP, p_wchan := some (.waiter w), snwake := true, pc := .sleeping w } := by
  obtain ⟨p, run, taken⟩ := bind_eq_some_iff.mp taken
  cases pc : p.pc <;> simp only [pc, kernel_step, user_step, reduceCtorEq] at taken
  cases taken
  exact ⟨p, _, run, pc, by simp [sleep, futex_sleep_uninterruptible]⟩

theorem resume_of_step (taken : step s .resume = some t) :
    ∃ p w, s.running = some p ∧ p.pc = .sleeping w ∧
      t = s.setProc s.curproc { p with snwake := false, pc := .testing w } := by
  obtain ⟨p, run, taken⟩ := bind_eq_some_iff.mp taken
  cases pc : p.pc <;> simp only [pc, kernel_step, user_step, reduceCtorEq] at taken
  cases taken
  exact ⟨p, _, run, pc, by simp [awoken, futex_sleep_uninterruptible]⟩

theorem finish_of_step (taken : step s (.finish k) = some t) :
    ∃ p w error waiter callout, s.running = some p ∧ p.pc = .finishing w error ∧
      s.waiters w = some waiter ∧ cancel_timeout s waiter k = some callout ∧
      t = { s.setProc s.curproc { p with
          pc := .freeing w (if error = none ∧ waiter.timed_out then some .ETIMEDOUT else error) } with
        callout := callout
        futex_waiters := s.futex_waiters.erase w } := by
  obtain ⟨p, run, taken⟩ := bind_eq_some_iff.mp taken
  cases pc : p.pc <;> simp only [pc, kernel_step, user_step, reduceCtorEq] at taken
  obtain ⟨waiter, held, taken⟩ := bind_eq_some_iff.mp taken
  obtain ⟨callout, cancelled, rfl⟩ := map_eq_some_iff.mp taken
  exact ⟨p, _, _, waiter, callout, run, pc, held, cancelled, rfl⟩

theorem free_of_step (taken : step s .free = some t) :
    ∃ p w error waiter, s.running = some p ∧ p.pc = .freeing w error ∧
      s.waiters w = some waiter ∧
      t = { s.setProc s.curproc { p with pc := .user } with
        waiters := Function.update s.waiters w none
        returned := s.returned ++ [(waiter.serial, error)] } := by
  obtain ⟨p, run, taken⟩ := bind_eq_some_iff.mp taken
  cases pc : p.pc <;> simp only [pc, kernel_step, user_step, reduceCtorEq] at taken
  obtain ⟨waiter, held, rfl⟩ := map_eq_some_iff.mp taken
  exact ⟨p, _, _, waiter, run, pc, held, rfl⟩

theorem wake_of_step (taken : step s (.futex_wake uaddr all) = some t) :
    ∃ p, s.running = some p ∧ p.pc = .user ∧ futex_wake s p uaddr all = some t := by
  obtain ⟨p, run, user, taken⟩ := user_of_step rfl taken
  exact ⟨p, run, user, taken⟩

theorem timein_of_step (taken : step s (.timein k) = some t) :
    ∃ e, s.callout[k]? = some e ∧ e.c_time.sle s.lbolt = true ∧
      (e.c_arg = none ∧ t = { s with callout := s.callout.eraseIdx k } ∨
      ∃ w waiter, e.c_arg = some w ∧ s.waiters w = some waiter ∧
        t = if waiter.woken then { s with callout := s.callout.eraseIdx k }
          else wakeprocs ({ s with callout := s.callout.eraseIdx k }.setWaiter w
            { waiter with timed_out := true }) (.waiter w)) := by
  simp only [step, timein] at taken
  split at taken
  case h_1 => simp at taken
  case h_2 e found =>
    split at taken
    case isFalse => simp at taken
    case isTrue due =>
      refine ⟨e, found, due.1, ?_⟩
      split at taken
      case h_1 other => exact .inl ⟨other, (some.inj taken).symm⟩
      case h_2 w arg =>
        obtain ⟨waiter, held, rfl⟩ := map_eq_some_iff.mp taken
        exact .inr ⟨w, waiter, arg, held, rfl⟩

/-! The processes stay placed. -/

theorem Scheduled.of_eq (placed : Scheduled s) (procs : t.procs = s.procs)
    (curproc : t.curproc = s.curproc) : Scheduled t := by
  intro q p found
  rw [curproc]
  exact placed q p (procs ▸ found)

theorem running_moves (run : s.running = some p) (placed : Scheduled s) (pc : Pc) (flag : Bool) :
    Placed s.curproc s.curproc { p with snwake := flag, pc := pc } := by
  have awake := running_awake run placed
  have stat := (procs_of_running run).2
  constructor <;> simp [awake, stat]

theorem Scheduled.moves (placed : Scheduled s) (run : s.running = some p) (pc : Pc) :
    Scheduled (s.setProc s.curproc { p with pc := pc }) :=
  placed.setProc (running_moves run placed pc p.snwake)

theorem Scheduled.wakes (placed : Scheduled s) {u : Kernel} (procs : u.procs = s.procs)
    (curproc : u.curproc = s.curproc) (chan : Chan) : Scheduled (wakeprocs u chan) :=
  (calm_wakeprocs chan (placed.of_eq procs curproc)).1

theorem wake_loop_keeps {P : Kernel → Prop} {as uaddr : Nat} {all : Bool} {queue : List Nat}
    {count : Nat} {u : Kernel × Nat} (each : ∀ s w waiter, P s → P (wake s w waiter)) (start : P s)
    (woke : wake_loop as uaddr all queue s count = some u) : P u.1 := by
  induction queue generalizing s count with
  | nil =>
    cases woke
    exact start
  | cons w rest ih =>
    unfold wake_loop at woke
    split at woke
    case h_1 => simp at woke
    case h_2 waiter _ =>
      have woken := each s w waiter start
      split at woke
      case isTrue =>
        split at woke
        case isTrue => exact ih woken woke
        case isFalse =>
          cases woke
          exact woken
      case isFalse => exact ih start woke

theorem Scheduled.woken (w : Nat) (waiter : FutexWaiter) (placed : Scheduled s) :
    Scheduled (wake s w waiter) :=
  (placed.wakes (u := s.setWaiter w { waiter with woken := true }) rfl rfl (.waiter w)).of_eq rfl
    rfl

theorem enqueue_procs {expected ticks : BitVec 32}
    (taken : enqueue s p w expected ticks value = some t) :
    ∃ pc, t.procs = (s.setProc s.curproc { p with pc := pc }).procs ∧ t.curproc = s.curproc := by
  unfold enqueue at taken
  split at taken
  case h_1 =>
    cases taken
    exact ⟨_, rfl, rfl⟩
  case h_2 v =>
    split at taken
    case isTrue =>
      cases taken
      exact ⟨_, rfl, rfl⟩
    case isFalse =>
      split at taken
      · obtain ⟨waiter, _, rfl⟩ := map_eq_some_iff.mp taken
        exact ⟨.testing w, rfl, rfl⟩
      · cases taken
        exact ⟨.testing w, rfl, rfl⟩

theorem step_scheduled (placed : Scheduled s) (taken : step s l = some t) : Scheduled t := by
  cases quiet : l.quiet with
  | true => exact (calm_step quiet taken placed).1
  | false =>
    cases l with
    | futex_wait uaddr expected timeoutp =>
      obtain ⟨p, run, -, rfl⟩ := wait_of_step taken
      unfold futex_wait
      split
      · exact placed.of_eq rfl rfl
      · exact placed.moves run _
    | zalloc w =>
      obtain ⟨p, uaddr, expected, ticks, run, -, -, rfl⟩ := zalloc_of_step taken
      exact (placed.moves run (.enqueuing w expected ticks)).of_eq rfl rfl
    | enqueue value =>
      obtain ⟨p, w, expected, ticks, run, -, taken⟩ := enqueue_of_step taken
      obtain ⟨pc, procs, curproc⟩ := enqueue_procs taken
      exact (placed.moves run pc).of_eq procs curproc
    | test =>
      obtain ⟨p, w, waiter, run, -, -, rfl⟩ := test_of_step taken
      exact placed.moves run _
    | sleep =>
      obtain ⟨p, w, run, -, rfl⟩ := sleep_of_step taken
      apply placed.setProc
      constructor <;> simp [Pc.busy]
    | resume =>
      obtain ⟨p, w, run, -, rfl⟩ := resume_of_step taken
      exact placed.setProc (running_moves run placed _ _)
    | finish k =>
      obtain ⟨p, w, error, waiter, callout, run, -, -, -, rfl⟩ := finish_of_step taken
      exact (placed.moves run (.freeing w _)).of_eq rfl rfl
    | free =>
      obtain ⟨p, w, error, waiter, run, -, -, rfl⟩ := free_of_step taken
      exact (placed.moves run .user).of_eq rfl rfl
    | futex_wake uaddr all =>
      obtain ⟨p, run, -, taken⟩ := wake_of_step taken
      unfold futex_wake at taken
      split at taken
      · cases taken
        exact placed
      · obtain ⟨u, woke, rfl⟩ := map_eq_some_iff.mp taken
        exact (wake_loop_keeps (fun _ => Scheduled.woken) placed woke).of_eq rfl rfl
    | timein k =>
      obtain ⟨e, -, -, ⟨-, rfl⟩ | ⟨w, waiter, -, -, rfl⟩⟩ := timein_of_step taken
      · exact placed.of_eq rfl rfl
      · split
        · exact placed.of_eq rfl rfl
        · exact placed.wakes rfl rfl _
    | timeout tim =>
      cases taken
      exact placed.of_eq rfl rfl
    | untimeout id k =>
      obtain ⟨callout, -, rfl⟩ := map_eq_some_iff.mp taken
      exact placed.of_eq rfl rfl
    | _ => simp [Label.quiet] at quiet

theorem boot_scheduled : Scheduled boot := by
  intro q p found
  by_cases one : q = 1
  · subst one
    obtain rfl := by simpa [boot] using found
    constructor <;> simp [boot, Pc.busy]
  · simp [boot, one] at found

end Futex

/- The waits in progress: each has one waiter of its own, and the list holds exactly the
   waiters of those that are linked; pending callouts refer to linked waiters. -/
namespace Futex
variable {s t : Kernel} {l : Label} {p r : Proc} {q q' v w k : Nat}

def Kernel.owns (s : Kernel) (q w : Nat) : Prop := ∃ p, s.procs q = some p ∧ p.pc.waiter = some w

def Kernel.waits (s : Kernel) (q w : Nat) : Prop := ∃ p, s.procs q = some p ∧ p.pc.queued = some w

structure Listed (s : Kernel) : Prop where
  held : ∀ q w, s.owns q w → ∃ waiter, s.waiters w = some waiter
  owned : ∀ w waiter, s.waiters w = some waiter → ∃ q, s.owns q w
  single : ∀ q q' w, s.owns q w → s.owns q' w → q = q'
  nodup : s.futex_waiters.Nodup
  listed : ∀ w, w ∈ s.futex_waiters ↔ ∃ q, s.waits q w

theorem Kernel.waits.owns (waits : s.waits q w) : s.owns q w := by
  obtain ⟨p, found, queued⟩ := waits
  exact ⟨p, found, waiter_of_queued queued⟩

theorem owns_setProc : (s.setProc q p).owns q' w ↔
    if q' = q then p.pc.waiter = some w else s.owns q' w := by
  unfold Kernel.owns
  by_cases same : q' = q
  · subst same
    simp
  · simp [same]

theorem waits_setProc : (s.setProc q p).waits q' w ↔
    if q' = q then p.pc.queued = some w else s.waits q' w := by
  unfold Kernel.waits
  by_cases same : q' = q
  · subst same
    simp
  · simp [same]

theorem owns_of_procs (procs : t.procs = s.procs) : t.owns = s.owns := by
  unfold Kernel.owns
  rw [procs]

theorem waits_of_procs (procs : t.procs = s.procs) : t.waits = s.waits := by
  unfold Kernel.waits
  rw [procs]

theorem owns_here (found : s.procs q = some p) : s.owns q w ↔ p.pc.waiter = some w := by
  simp [Kernel.owns, found]

theorem waits_here (found : s.procs q = some p) : s.waits q w ↔ p.pc.queued = some w := by
  simp [Kernel.waits, found]

theorem owns_iff_at : s.owns q w ↔ ∃ pc, s.at q pc ∧ pc.waiter = some w := by
  constructor
  · intro ⟨p, found, own⟩
    exact ⟨p.pc, ⟨p, found, rfl⟩, own⟩
  · intro ⟨pc, ⟨p, found, here⟩, own⟩
    exact ⟨p, found, here ▸ own⟩

theorem waits_iff_at : s.waits q w ↔ ∃ pc, s.at q pc ∧ pc.queued = some w := by
  constructor
  · intro ⟨p, found, queued⟩
    exact ⟨p.pc, ⟨p, found, rfl⟩, queued⟩
  · intro ⟨pc, ⟨p, found, here⟩, queued⟩
    exact ⟨p, found, here ▸ queued⟩

theorem Same.owns (same : Same s t) : t.owns q w ↔ s.owns q w := by
  rw [owns_iff_at, owns_iff_at]
  exact exists_congr fun pc => and_congr_left fun own => same.at_waiter q pc w own

theorem Same.waits (same : Same s t) : t.waits q w ↔ s.waits q w := by
  rw [waits_iff_at, waits_iff_at]
  exact exists_congr fun pc => and_congr_left fun queued =>
    same.at_waiter q pc w (waiter_of_queued queued)

theorem Listed.congr (listed : Listed s)
    (waiters : ∀ w, (t.waiters w).isSome = (s.waiters w).isSome)
    (queue : t.futex_waiters = s.futex_waiters)
    (owns : ∀ q w, t.owns q w ↔ s.owns q w) (waits : ∀ q w, t.waits q w ↔ s.waits q w) :
    Listed t := by
  constructor
  · intro q w own
    rw [← Option.isSome_iff_exists, waiters, Option.isSome_iff_exists]
    exact listed.held q w ((owns q w).mp own)
  · intro w waiter found
    have some_there : (s.waiters w).isSome = true := by rw [← waiters, found]; rfl
    obtain ⟨old, found'⟩ := Option.isSome_iff_exists.mp some_there
    obtain ⟨q, own⟩ := listed.owned w old found'
    exact ⟨q, (owns q w).mpr own⟩
  · intro q q' w own own'
    exact listed.single q q' w ((owns q w).mp own) ((owns q' w).mp own')
  · rw [queue]
    exact listed.nodup
  · intro w
    rw [queue, listed.listed]
    exact exists_congr fun q => (waits q w).symm

theorem Listed.move (listed : Listed s) (run : s.running = some p)
    (waiter : r.pc.waiter = p.pc.waiter) (queued : r.pc.queued = p.pc.queued) :
    Listed (s.setProc s.curproc r) := by
  have found := (procs_of_running run).1
  refine listed.congr (fun _ => rfl) rfl ?_ ?_
  · intro q w
    rw [owns_setProc]
    split
    case isTrue same => rw [waiter, same, owns_here found]
    case isFalse => rfl
  · intro q w
    rw [waits_setProc]
    split
    case isTrue same => rw [queued, same, waits_here found]
    case isFalse => rfl

theorem isSome_update {f : Nat → Option FutexWaiter} {waiter new : FutexWaiter}
    (found : f w = some waiter) (v : Nat) :
    (Function.update f w (some new) v).isSome = (f v).isSome := by
  by_cases same : v = w
  · subst same
    simp [found]
  · simp [same]

section
variable (listed : Listed s) (run : s.running = some p)
include listed run

theorem Listed.zalloc {waiter : FutexWaiter} (idle : p.pc.waiter = none)
    (unqueued : r.pc.queued = none) (own : r.pc.waiter = some w) (fresh : s.waiters w = none)
    (waiters : t.waiters = Function.update s.waiters w (some waiter))
    (procs : t.procs = (s.setProc s.curproc r).procs) (queue : t.futex_waiters = s.futex_waiters) :
    Listed t := by
  have found := (procs_of_running run).1
  have owns : ∀ q v, t.owns q v ↔ if q = s.curproc then w = v else s.owns q v := by
    intro q v
    rw [owns_of_procs procs, owns_setProc, own, Option.some.injEq]
  have unowned : ∀ q, ¬ s.owns q w := by
    intro q own
    obtain ⟨waiter, there⟩ := listed.held q w own
    simp [fresh] at there
  have nothing : ∀ v, ¬ s.owns s.curproc v := by
    intro v
    simp [owns_here found, idle]
  constructor
  · intro q v own
    rw [waiters]
    by_cases same : v = w
    · subst same
      simp
    · rw [owns] at own
      split at own
      · exact absurd own.symm same
      · simpa [same] using listed.held q v own
  · intro v old there
    rw [waiters] at there
    by_cases same : v = w
    · exact ⟨s.curproc, by simp [owns, same]⟩
    · obtain ⟨q, own⟩ := listed.owned v old (by simpa [same] using there)
      refine ⟨q, (owns q v).mpr ?_⟩
      split
      case isTrue here => exact absurd (here ▸ own) (nothing v)
      case isFalse => exact own
  · intro q q' v own own'
    rw [owns] at own own'
    split at own <;> split at own'
    case isTrue.isTrue h h' => rw [h, h']
    case isTrue.isFalse => exact absurd (own ▸ own') (unowned q')
    case isFalse.isTrue => exact absurd (own' ▸ own) (unowned q)
    case isFalse.isFalse => exact listed.single q q' v own own'
  · rw [queue]
    exact listed.nodup
  · intro v
    rw [queue, listed.listed]
    apply exists_congr
    intro q
    rw [waits_of_procs procs, waits_setProc]
    split
    case isTrue same =>
      rw [same, waits_here found]
      refine iff_of_false (fun queued => ?_) (by simp [unqueued])
      simp [waiter_of_queued queued] at idle
    case isFalse => rfl

theorem Listed.link (own : p.pc.waiter = some w) (unqueued : p.pc.queued = none)
    (own' : r.pc.waiter = some w) (queued : r.pc.queued = some w)
    (waiters : ∀ v, (t.waiters v).isSome = (s.waiters v).isSome)
    (procs : t.procs = (s.setProc s.curproc r).procs)
    (queue : t.futex_waiters = w :: s.futex_waiters) : Listed t := by
  have found := (procs_of_running run).1
  have here : s.owns s.curproc w := (owns_here found).mpr own
  have before := listed.congr (t := { t with futex_waiters := s.futex_waiters, procs := s.procs })
    waiters rfl (fun _ _ => Iff.rfl) (fun _ _ => Iff.rfl)
  have owns : ∀ q v, t.owns q v ↔ s.owns q v := by
    intro q v
    rw [owns_of_procs procs, owns_setProc]
    split
    case isTrue same => rw [same, owns_here found, own, own']
    case isFalse => rfl
  have waits : ∀ q v, t.waits q v ↔ if q = s.curproc then w = v else s.waits q v := by
    intro q v
    rw [waits_of_procs procs, waits_setProc, queued, Option.some.injEq]
  have unlisted : w ∉ s.futex_waiters := by
    intro listed'
    obtain ⟨q, waits⟩ := (listed.listed w).mp listed'
    obtain rfl := listed.single q s.curproc w waits.owns here
    simp [waits_here found, unqueued] at waits
  constructor
  · intro q v own
    exact before.held q v ((owns q v).mp own)
  · intro v waiter there
    obtain ⟨q, own⟩ := before.owned v waiter there
    exact ⟨q, (owns q v).mpr own⟩
  · intro q q' v own own'
    exact listed.single q q' v ((owns q v).mp own) ((owns q' v).mp own')
  · rw [queue]
    exact List.nodup_cons.mpr ⟨unlisted, listed.nodup⟩
  · intro v
    rw [queue, List.mem_cons, listed.listed]
    constructor
    · rintro (rfl | ⟨q, old⟩)
      · exact ⟨s.curproc, by simp [waits]⟩
      · refine ⟨q, (waits q v).mpr ?_⟩
        split
        case isTrue same =>
          rw [same, waits_here found, unqueued] at old
          simp at old
        case isFalse => exact old
    · intro ⟨q, new⟩
      rw [waits] at new
      split at new
      · exact .inl new.symm
      · exact .inr ⟨q, new⟩

theorem Listed.unlink (queued : p.pc.queued = some w) (own : r.pc.waiter = some w)
    (unqueued : r.pc.queued = none) (waiters : t.waiters = s.waiters)
    (procs : t.procs = (s.setProc s.curproc r).procs)
    (queue : t.futex_waiters = s.futex_waiters.erase w) : Listed t := by
  have found := (procs_of_running run).1
  have owns : ∀ q v, t.owns q v ↔ s.owns q v := by
    intro q v
    rw [owns_of_procs procs, owns_setProc]
    split
    case isTrue same => rw [same, owns_here found, own, waiter_of_queued queued]
    case isFalse => rfl
  have waits : ∀ q v, t.waits q v ↔ q ≠ s.curproc ∧ s.waits q v := by
    intro q v
    rw [waits_of_procs procs, waits_setProc, unqueued]
    split
    case isTrue same => simp [same]
    case isFalse other => simp [other]
  constructor
  · intro q v own
    rw [waiters]
    exact listed.held q v ((owns q v).mp own)
  · intro v waiter there
    rw [waiters] at there
    obtain ⟨q, own⟩ := listed.owned v waiter there
    exact ⟨q, (owns q v).mpr own⟩
  · intro q q' v own own'
    exact listed.single q q' v ((owns q v).mp own) ((owns q' v).mp own')
  · rw [queue]
    exact listed.nodup.erase w
  · intro v
    rw [queue, listed.nodup.mem_erase_iff, listed.listed]
    constructor
    · intro ⟨other, q, old⟩
      refine ⟨q, (waits q v).mpr ⟨?_, old⟩⟩
      rintro rfl
      rw [waits_here found, queued] at old
      exact other (Option.some.inj old).symm
    · intro ⟨q, new⟩
      obtain ⟨other, old⟩ := (waits q v).mp new
      refine ⟨?_, q, old⟩
      rintro rfl
      have here : s.waits s.curproc v := (waits_here found).mpr queued
      exact other (listed.single q s.curproc v old.owns here.owns)

theorem Listed.free (own : p.pc.waiter = some w) (unqueued : p.pc.queued = none)
    (gone : r.pc.waiter = none) (waiters : t.waiters = Function.update s.waiters w none)
    (procs : t.procs = (s.setProc s.curproc r).procs) (queue : t.futex_waiters = s.futex_waiters) :
    Listed t := by
  have found := (procs_of_running run).1
  have here : s.owns s.curproc w := (owns_here found).mpr own
  have owns : ∀ q v, t.owns q v ↔ q ≠ s.curproc ∧ s.owns q v := by
    intro q v
    rw [owns_of_procs procs, owns_setProc, gone]
    split
    case isTrue same => simp [same]
    case isFalse other => simp [other]
  have waits : ∀ q v, t.waits q v ↔ s.waits q v := by
    intro q v
    rw [waits_of_procs procs, waits_setProc]
    split
    case isTrue same =>
      rw [same, waits_here found, unqueued]
      refine iff_of_false (fun queued => ?_) (by simp)
      simp [waiter_of_queued queued] at gone
    case isFalse => rfl
  constructor
  · intro q v own
    obtain ⟨other, old⟩ := (owns q v).mp own
    have apart : v ≠ w := by
      rintro rfl
      exact other (listed.single q s.curproc v old here)
    simpa [waiters, apart] using listed.held q v old
  · intro v waiter there
    rw [waiters] at there
    have apart : v ≠ w := by
      rintro rfl
      simp at there
    obtain ⟨q, old⟩ := listed.owned v waiter (by simpa [apart] using there)
    refine ⟨q, (owns q v).mpr ⟨?_, old⟩⟩
    rintro rfl
    rw [owns_here found, own] at old
    exact apart (Option.some.inj old).symm
  · intro q q' v own own'
    exact listed.single q q' v ((owns q v).mp own).2 ((owns q' v).mp own').2
  · rw [queue]
    exact listed.nodup
  · intro v
    rw [queue, listed.listed]
    exact exists_congr fun q => (waits q v).symm

end

end Futex
