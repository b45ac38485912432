import Mathlib.Algebra.GroupWithZero.Nat
import Svr4.Futex.Reasons
import Svr4.Runs

/- Every wait ends for one reason, as long as no timeout expires between the loop's test
   and the sleep, and no wake takes a waiter whose timeout has expired. -/
namespace Futex
open Function LabelledRuns List Option Bool
variable {s t : Kernel} {l : Label} {p r : Proc} {q q' v w k as : Nat} {waiter new : FutexWaiter}
  {all : Bool} {e : Callo}

structure Sound (s : Kernel) : Prop where
  placed : Scheduled s
  listed : Listed s
  armed : Armed s
  flags : Flags s
  ledger : Ledger s

def candidates (s : Kernel) (as uaddr : Nat) (queue : List Nat) : List Nat :=
  queue.filter fun w => (s.waiters w).any (wakes_up as uaddr)

def taken_by (s : Kernel) (as uaddr : Nat) (all : Bool) (queue : List Nat) : List Nat :=
  if all then candidates s as uaddr queue else (candidates s as uaddr queue).take 1

/-- Steps with which waits end for one reason: no timeout expires between the test of its waiter and
the sleep, no wake comes to a waiter whose timeout has expired, and an untimeout finds the waiter's
own callout, which the id names alone. -/
def Timely (s : Kernel) : Label → Prop
  | .timein k => ∀ e ∈ s.callout[k]?, ∀ w ∈ e.c_arg, ∀ p ∈ s.running, p.pc ≠ .calling w
  | .futex_wake uaddr all => ∀ p ∈ s.running,
      ∀ w ∈ taken_by s p.p_as uaddr all s.futex_waiters, ∀ waiter ∈ s.waiters w,
        waiter.timed_out = false
  | .finish _ => ∀ p ∈ s.running, ∀ w ∈ p.pc.queued, ∀ waiter ∈ s.waiters w,
      (∃ e ∈ s.callout, e.c_arg = some w) →
        waiter.timeout_id ≠ 0 ∧ ∀ e ∈ s.callout, e.c_id = waiter.timeout_id → e.c_arg = some w
  | _ => True

instance (s : Kernel) (l : Label) : Decidable (Timely s l) := by
  cases l <;> simp only [Timely] <;> infer_instance

theorem Sound.same (sound : Sound s) (placed : Scheduled t) (same : Same s t) : Sound t := by
  obtain ⟨serials, counted, wakes, returned⟩ := same.history
  refine ⟨placed, ?_, ?_, sound.flags.of_same same, ?_⟩
  · exact sound.listed.congr (fun w => by rw [same.waiters]) same.futex_waiters
      (fun q w => same.owns) (fun q w => same.waits)
  · exact sound.armed.sub (by rw [same.callout]) same.futex_waiters same.waiters
  · exact sound.ledger.of_eq same.waiters ⟨serials, counted, returned⟩

/-! The waits' own steps -/

theorem Flags.own (flags : Flags s) (ok : PlaceOk s.waiters r.pc)
    (slept : ∀ w waiter, r.p_wchan = some (.waiter w) → s.waiters w = some waiter →
      waiter.pending) : Flags (s.setProc q r) := by
  constructor
  · intro q' c found
    by_cases same : q' = q
    · subst same
      obtain rfl : r = c := by simpa using found
      exact ok
    · rw [setProc_other same] at found
      exact flags.places q' c found
  · intro q' w waiter asleep found
    rw [asleep_setProc] at asleep
    split at asleep
    · exact slept w waiter asleep found
    · exact flags.asleep q' w waiter asleep found
  · exact flags.one

theorem Sound.own_flags (sound : Sound s) (run : s.running = some p) (wchan : r.p_wchan = p.p_wchan)
    (ok : PlaceOk s.waiters r.pc) : Flags (s.setProc s.curproc r) := by
  apply sound.flags.own ok
  intro w waiter slept
  rw [wchan, running_awake run sound.placed] at slept
  simp at slept

theorem Sound.move (sound : Sound s) (run : s.running = some p)
    (waiter : r.pc.waiter = p.pc.waiter) (queued : r.pc.queued = p.pc.queued)
    (wchan : r.p_wchan = p.p_wchan) (ok : PlaceOk s.waiters r.pc)
    (placed : Scheduled (s.setProc s.curproc r)) : Sound (s.setProc s.curproc r) :=
  ⟨placed, sound.listed.move run waiter queued, sound.armed.sub (Sublist.refl _) rfl rfl,
    sound.own_flags run wchan ok, { sound.ledger with }⟩

variable {callout : List Callo} {uaddr : Nat} {queue : List Nat}

theorem sound_wait {expected : BitVec 32} {timeoutp : Option (Option Timestruc)} (sound : Sound s)
    (taken : step s (.futex_wait uaddr expected timeoutp) = some t) : Sound t := by
  have placed := step_scheduled sound.placed taken
  obtain ⟨p, run, user, rfl⟩ := wait_of_step taken
  unfold futex_wait at placed ⊢
  split at placed
  case h_1 e _ =>
    refine ⟨placed, ?_, ?_, ?_, ?_⟩
    · exact { sound.listed with }
    · exact sound.armed.sub (Sublist.refl _) rfl rfl
    · exact ⟨sound.flags.places, sound.flags.asleep, sound.flags.one⟩
    · exact sound.ledger.refuse e rfl rfl rfl rfl
  case h_2 ticks _ =>
    exact sound.move run (by rw [user]; rfl) (by rw [user]; rfl) rfl trivial placed

theorem Listed.unowned (listed : Listed s) (fresh : s.waiters w = none) : ¬ s.owns q w := by
  intro own
  obtain ⟨waiter, there⟩ := listed.held q w own
  simp [fresh] at there

theorem Listed.of_mem (listed : Listed s) (linked : w ∈ s.futex_waiters) :
    ∃ waiter, s.waiters w = some waiter := by
  obtain ⟨q, waits⟩ := (listed.listed w).mp linked
  exact listed.held q w waits.owns

theorem asleep_owns (placed : Scheduled s) (slept : s.asleep q w) : s.owns q w := by
  obtain ⟨p, found, wchan⟩ := slept
  have here := ((placed q p found).asleep w wchan).1
  exact ⟨p, found, by rw [here]; rfl⟩

theorem sound_zalloc (sound : Sound s) (taken : step s (.zalloc w) = some t) : Sound t := by
  have placed := step_scheduled sound.placed taken
  obtain ⟨p, uaddr, expected, ticks, run, here, fresh, rfl⟩ := zalloc_of_step taken
  have unlinked : w ∉ s.futex_waiters := by
    intro linked
    obtain ⟨waiter, there⟩ := sound.listed.of_mem linked
    simp [fresh] at there
  refine ⟨placed, ?_, ?_, ?_, ?_⟩
  · exact sound.listed.zalloc run (r := { p with pc := .enqueuing w expected ticks })
      (by rw [here]; rfl) rfl rfl fresh rfl rfl rfl
  · constructor
    · exact sound.armed.linked
    · intro e pending v waiter arg found
      have other : v ≠ w := fun same => unlinked (same ▸ sound.armed.linked e pending v arg)
      exact sound.armed.own e pending v waiter arg
        (by simpa [Kernel.setProc, Kernel.setWaiter, other] using found)
    · exact sound.armed.once
  · constructor
    · intro q c found
      by_cases same : q = s.curproc
      · subst same
        have mine : c = { p with pc := .enqueuing w expected ticks } := by
          simpa [Kernel.setProc] using found.symm
        rw [mine]
        intro waiter there
        have made : waiter = ⟨p.p_as, uaddr, false, false, 0, s.serials⟩ := by
          simpa [Kernel.setProc, Kernel.setWaiter] using there.symm
        rw [made]
        exact ⟨rfl, rfl⟩
      · have before : s.procs q = some c := by
          simpa [Kernel.setProc, Kernel.setWaiter, same] using found
        apply (sound.flags.places q c before).congr
        intro v own a there
        have other : v ≠ w := by
          rintro rfl
          exact sound.listed.unowned fresh (q := q) ⟨c, before, own⟩
        exact ⟨a, by simpa [Kernel.setProc, Kernel.setWaiter, other] using there, rfl, rfl⟩
    · intro q v waiter slept there
      have slept : s.asleep q v := by
        change (s.setProc s.curproc { p with pc := .enqueuing w expected ticks }).asleep q v at slept
        rw [asleep_setProc] at slept
        split at slept
        · simp [running_awake run sound.placed] at slept
        · exact slept
      have other : v ≠ w := fun same =>
        sound.listed.unowned fresh (same ▸ asleep_owns sound.placed slept)
      exact sound.flags.asleep q v waiter slept
        (by simpa [Kernel.setProc, Kernel.setWaiter, other] using there)
    · intro v waiter there woken
      by_cases same : v = w
      · subst same
        have made : waiter = ⟨p.p_as, uaddr, false, false, 0, s.serials⟩ := by
          simpa [Kernel.setProc, Kernel.setWaiter] using there.symm
        rw [made]
      · exact sound.flags.one v waiter
          (by simpa [Kernel.setProc, Kernel.setWaiter, same] using there) woken
  · exact sound.ledger.zalloc fresh rfl rfl rfl rfl rfl rfl

theorem Flags.change (flags : Flags s) (procs : t.procs = s.procs)
    (same : ∀ v a, t.waiters v = some a →
      ∃ b, s.waiters v = some b ∧ a.woken = b.woken ∧ a.timed_out = b.timed_out) : Flags t := by
  constructor
  · intro q p found
    exact (flags.places q p (procs ▸ found)).congr fun v _ a there => same v a there
  · intro q w waiter ⟨p, found, slept⟩ there
    obtain ⟨b, old, woken, timed_out⟩ := same w waiter there
    obtain ⟨h1, h2⟩ := flags.asleep q w b ⟨p, procs ▸ found, slept⟩ old
    exact ⟨woken.trans h1, timed_out.trans h2⟩
  · intro w waiter there set
    obtain ⟨b, old, woken, timed_out⟩ := same w waiter there
    rw [timed_out]
    exact flags.one w b old (woken ▸ set)

theorem same_flags_update {f : Nat → Option FutexWaiter} (found : f w = some waiter)
    (woken : new.woken = waiter.woken) (timed_out : new.timed_out = waiter.timed_out) (v : Nat)
    (a : FutexWaiter) (there : update f w (some new) v = some a) :
    ∃ b, f v = some b ∧ a.woken = b.woken ∧ a.timed_out = b.timed_out := by
  by_cases same : v = w
  · subst same
    rw [update_self] at there
    cases there
    exact ⟨waiter, found, woken, timed_out⟩
  · rw [update_of_ne same] at there
    exact ⟨a, there, rfl, rfl⟩

theorem Listed.unlinked (listed : Listed s) (run : s.running = some p)
    (own : p.pc.waiter = some w) (unqueued : p.pc.queued = none) : w ∉ s.futex_waiters := by
  intro linked
  have found := (procs_of_running run).1
  obtain ⟨q, waits⟩ := (listed.listed w).mp linked
  obtain rfl := listed.single q s.curproc w waits.owns ((owns_here found).mpr own)
  simp [waits_here found, unqueued] at waits

theorem Armed.arm (armed : Armed s) (tim id : BitVec 32) (new : FutexWaiter)
    (unlinked : w ∉ s.futex_waiters) (number : new.timeout_id = id) (flag : new.timed_out = false)
    (waiters : t.waiters = update s.waiters w (some new))
    (queue : t.futex_waiters = w :: s.futex_waiters)
    (callout : t.callout = ⟨tim, some w, id⟩ :: s.callout) : Armed t := by
  have apart : ∀ e ∈ s.callout, e.c_arg ≠ some w :=
    fun e pending arg => unlinked (armed.linked e pending w arg)
  constructor
  · intro e pending v arg
    rw [callout, mem_cons] at pending
    rw [queue, mem_cons]
    rcases pending with rfl | old
    · exact .inl (some.inj arg).symm
    · exact .inr (armed.linked e old v arg)
  · intro e pending v waiter arg found
    rw [callout, mem_cons] at pending
    rw [waiters] at found
    rcases pending with rfl | old
    · cases arg
      rw [update_self] at found
      cases found
      exact ⟨number.symm, flag⟩
    · have other : v ≠ w := fun same => apart e old (same ▸ arg)
      rw [update_of_ne other] at found
      exact armed.own e old v waiter arg found
  · have first : Callo.c_arg ⟨tim, some w, id⟩ = some w := rfl
    rw [callout, filterMap_cons_some first, nodup_cons]
    refine ⟨?_, armed.once⟩
    intro listed
    obtain ⟨e, old, arg⟩ := mem_filterMap.mp listed
    exact apart e old arg

theorem Armed.link (armed : Armed s) (waiters : t.waiters = s.waiters)
    (queue : t.futex_waiters = w :: s.futex_waiters) (callout : t.callout = s.callout) :
    Armed t := by
  constructor
  · intro e pending v arg
    rw [queue]
    exact mem_cons_of_mem w (armed.linked e (callout ▸ pending) v arg)
  · intro e pending v waiter arg found
    exact armed.own e (callout ▸ pending) v waiter arg (waiters ▸ found)
  · rw [callout]
    exact armed.once

theorem sound_enqueue {value : Option (BitVec 32)} (sound : Sound s)
    (taken : step s (.enqueue value) = some t) : Sound t := by
  have placed := step_scheduled sound.placed taken
  obtain ⟨p, w, expected, ticks, run, here, taken⟩ := enqueue_of_step taken
  have found := (procs_of_running run).1
  have own : p.pc.waiter = some w := by rw [here]; rfl
  have unqueued : p.pc.queued = none := by rw [here]; rfl
  have fresh : ∀ waiter, s.waiters w = some waiter → waiter.pending := by
    have ok := sound.flags.places s.curproc p found
    rwa [here] at ok
  have refused : ∀ e : Errno, PlaceOk s.waiters (.freeing w (some e)) := by
    intro e waiter there
    simp [(fresh waiter there).1]
  have linked : ∀ pc, PlaceOk s.waiters pc →
      Flags (s.setProc s.curproc { p with pc := pc }) := fun pc ok => sound.own_flags run rfl ok
  have unlinked := sound.listed.unlinked run own unqueued
  unfold enqueue at taken
  split at taken
  case h_1 =>
    cases taken
    exact sound.move run own.symm unqueued.symm rfl (refused _) placed
  case h_2 v =>
    split at taken
    case isTrue =>
      cases taken
      exact sound.move run own.symm unqueued.symm rfl (refused _) placed
    case isFalse =>
      split at taken
      case isTrue timed =>
        obtain ⟨waiter, held, rfl⟩ := map_eq_some_iff.mp taken
        refine ⟨placed, ?_, ?_, ?_, ?_⟩
        · exact sound.listed.link run (r := { p with pc := .testing w }) own unqueued rfl rfl
            (isSome_update held) rfl rfl
        · exact sound.armed.arm (s.lbolt + ticks) (s.timeid + 1)
            { waiter with timeout_id := s.timeid + 1 } unlinked rfl (fresh waiter held).2 rfl rfl rfl
        · exact (linked (.testing w) trivial).change rfl (same_flags_update held rfl rfl)
        · exact sound.ledger.mark { waiter with timeout_id := s.timeid + 1 } held rfl rfl rfl ⟨rfl, rfl, rfl⟩
      case isFalse =>
        cases taken
        refine ⟨placed, ?_, ?_, ?_, ?_⟩
        · exact sound.listed.link run (r := { p with pc := .testing w }) own unqueued rfl rfl
            (fun _ => rfl) rfl rfl
        · exact sound.armed.link rfl rfl rfl
        · exact (linked (.testing w) trivial).change rfl fun _ a there => ⟨a, there, rfl, rfl⟩
        · exact { sound.ledger with }

theorem sound_test (sound : Sound s) (taken : step s .test = some t) : Sound t := by
  have placed := step_scheduled sound.placed taken
  obtain ⟨p, w, waiter, run, here, held, rfl⟩ := test_of_step taken
  cases free : (!waiter.woken && !waiter.timed_out) with
  | true =>
    simp only [free, if_true] at placed ⊢
    refine sound.move run (by rw [here]; rfl) (by rw [here]; rfl) rfl ?_ placed
    intro other there
    obtain rfl := some.inj (held.symm.trans there)
    simpa [FutexWaiter.pending] using free
  | false =>
    simp only [free, false_eq_true, if_false] at placed ⊢
    refine sound.move run (by rw [here]; rfl) (by rw [here]; rfl) rfl ?_ placed
    intro other there
    obtain rfl := some.inj (held.symm.trans there)
    refine ⟨rfl, ?_⟩
    intro ⟨unwoken, untimed⟩
    simp [unwoken, untimed] at free

theorem sound_sleep (sound : Sound s) (taken : step s .sleep = some t) : Sound t := by
  have placed := step_scheduled sound.placed taken
  obtain ⟨p, w, run, here, rfl⟩ := sleep_of_step taken
  have pending : ∀ waiter, s.waiters w = some waiter → waiter.pending := by
    have ok := sound.flags.places s.curproc p (procs_of_running run).1
    rwa [here] at ok
  refine ⟨placed, ?_, ?_, ?_, ?_⟩
  · exact sound.listed.move run (by rw [here]; rfl) (by rw [here]; rfl)
  · exact sound.armed.sub (Sublist.refl _) rfl rfl
  · apply Flags.own sound.flags
    · trivial
    · intro v waiter chan there
      obtain rfl : w = v := by simpa using chan
      exact pending waiter there
  · exact { sound.ledger with }

theorem sound_resume (sound : Sound s) (taken : step s .resume = some t) : Sound t := by
  have placed := step_scheduled sound.placed taken
  obtain ⟨p, w, run, here, rfl⟩ := resume_of_step taken
  exact sound.move run (by rw [here]; rfl) (by rw [here]; rfl) rfl trivial placed

theorem erase_only (once : (callout.filterMap Callo.c_arg).Nodup) (found : callout[k]? = some e)
    (arg : e.c_arg = some w) :
    ∀ e' ∈ callout.eraseIdx k, e'.c_arg ≠ some w := by
  obtain ⟨bound, here⟩ := List.getElem?_eq_some_iff.mp found
  have parts : callout = callout.take k ++ e :: callout.drop (k + 1) := by
    rw [← here, ← drop_eq_getElem_cons bound, take_append_drop]
  rw [parts, filterMap_append, filterMap_cons_some arg, nodup_middle,
    nodup_cons, ← filterMap_append, ← eraseIdx_eq_take_drop_succ] at once
  intro e' left arg'
  exact once.1 (mem_filterMap.mpr ⟨e', left, arg'⟩)

theorem cancel_sublist (taken : cancel_timeout s waiter k = some callout) :
    callout.Sublist s.callout := by
  unfold cancel_timeout untimeout at taken
  split at taken
  · split at taken
    · split at taken
      · cases taken
        exact eraseIdx_sublist _ _
      · simp at taken
    · cases taken
      exact Sublist.refl _
  · cases taken
    exact Sublist.refl _

theorem cancel_clears (armed : Armed s) (held : s.waiters w = some waiter)
    (taken : cancel_timeout s waiter k = some callout)
    (timely : (∃ e ∈ s.callout, e.c_arg = some w) →
      waiter.timeout_id ≠ 0 ∧ ∀ e ∈ s.callout, e.c_id = waiter.timeout_id → e.c_arg = some w) :
    ∀ e ∈ callout, e.c_arg ≠ some w := by
  by_cases pending : ∃ e ∈ s.callout, e.c_arg = some w
  · obtain ⟨nonzero, alone⟩ := timely pending
    obtain ⟨e, listed, arg⟩ := pending
    obtain ⟨number, flag⟩ := armed.own e listed w waiter arg held
    unfold cancel_timeout at taken
    rw [if_pos ⟨nonzero, flag⟩] at taken
    unfold untimeout at taken
    rw [if_pos ⟨e, listed, number⟩] at taken
    split at taken
    case isFalse => simp at taken
    case isTrue hit =>
      cases taken
      obtain ⟨e', found, number'⟩ := map_eq_some_iff.mp hit
      exact erase_only armed.once found (alone e' (mem_of_getElem? found) number')
  · intro e left arg
    exact pending ⟨e, (cancel_sublist taken).subset left, arg⟩

theorem sound_finish (sound : Sound s) (timely : Timely s (.finish k))
    (taken : step s (.finish k) = some t) : Sound t := by
  have placed := step_scheduled sound.placed taken
  obtain ⟨p, w, error, waiter, callout, run, here, held, cancelled, rfl⟩ := finish_of_step taken
  have ok : error = none ∧ ¬ waiter.pending := by
    have ok := sound.flags.places s.curproc p (procs_of_running run).1
    rw [here] at ok
    exact ok waiter held
  have cleared := cancel_clears sound.armed held cancelled (timely p run w (by rw [here]; rfl) waiter held)
  have sub := cancel_sublist cancelled
  have decided : PlaceOk s.waiters
      (.freeing w (if error = none ∧ waiter.timed_out then some .ETIMEDOUT else error)) := by
    intro other there
    have one := sound.flags.one w waiter held
    have ended := ok.2
    unfold FutexWaiter.pending at ended
    rw [ok.1]
    cases woken : waiter.woken <;> cases timed_out : waiter.timed_out <;> simp_all
  refine ⟨placed, ?_, ?_, ?_, ?_⟩
  · exact sound.listed.unlink run (by rw [here]; rfl) (r := { p with pc := .freeing w _ }) rfl rfl
      rfl rfl rfl
  · constructor
    · intro e left v arg
      have other : v ≠ w := fun same => cleared e left (same ▸ arg)
      exact (mem_erase_of_ne other).mpr (sound.armed.linked e (sub.subset left) v arg)
    · intro e left
      exact sound.armed.own e (sub.subset left)
    · exact sound.armed.once.sublist (sub.filterMap _)
  · have moved : Flags (s.setProc s.curproc { p with pc := .freeing w _ }) :=
      sound.own_flags run rfl decided
    exact moved.change rfl fun _ a there => ⟨a, there, rfl, rfl⟩
  · exact { sound.ledger with }

theorem sound_free (sound : Sound s) (taken : step s .free = some t) : Sound t := by
  have placed := step_scheduled sound.placed taken
  obtain ⟨p, w, error, waiter, run, here, held, rfl⟩ := free_of_step taken
  have own : p.pc.waiter = some w := by rw [here]; rfl
  have unqueued : p.pc.queued = none := by rw [here]; rfl
  have decided : error = none ↔ waiter.woken = true := by
    have ok := sound.flags.places s.curproc p (procs_of_running run).1
    rw [here] at ok
    exact ok waiter held
  have old : ∀ v a, update s.waiters w none v = some a → v ≠ w ∧ s.waiters v = some a := by
    intro v a there
    by_cases same : v = w
    · simp [same] at there
    · exact ⟨same, by simpa [same] using there⟩
  refine ⟨placed, ?_, ?_, ?_, ?_⟩
  · exact sound.listed.free run own unqueued (r := { p with pc := .user }) rfl rfl rfl rfl
  · constructor
    · exact sound.armed.linked
    · intro e left v a arg there
      exact sound.armed.own e left v a arg (old v a there).2
    · exact sound.armed.once
  · have moved : Flags (s.setProc s.curproc { p with pc := .user }) :=
      sound.own_flags run rfl trivial
    exact moved.change rfl fun v a there => ⟨a, (old v a there).2, rfl, rfl⟩
  · exact sound.ledger.free held decided rfl rfl rfl rfl

/-! Flags set from outside the wait -/

theorem awaken_pc (chan : Chan) (p : Proc) : (awaken chan p).pc = p.pc := by
  unfold awaken
  split <;> rfl

theorem wakeprocs_waiter (placed : Scheduled s) (u : Kernel) (procs : u.procs = s.procs)
    (curproc : u.curproc = s.curproc) (w : Nat) :
    Same u (wakeprocs u (.waiter w)) ∧
      ∀ q v, (wakeprocs u (.waiter w)).asleep q v → v ≠ w ∧ s.asleep q v := by
  have same := (calm_wakeprocs (.waiter w) (placed.of_eq procs curproc)).2
  refine ⟨same, ?_⟩
  intro q v slept
  obtain ⟨c, found, chan⟩ := same.asleep q v slept
  refine ⟨?_, c, procs ▸ found, chan⟩
  rintro rfl
  obtain ⟨c', found', chan'⟩ := slept
  have awake : c' = { c with p_wchan := none, p_stat := .SRUN } := by
    simpa [wakeprocs, found, awaken, chan] using found'.symm
  simp [awake] at chan'

theorem Listed.flagged (listed : Listed s) (placed : Scheduled s) {u : Kernel}
    (held : s.waiters w = some waiter) (procs : u.procs = s.procs) (curproc : u.curproc = s.curproc)
    (waiters : u.waiters = update s.waiters w (some new))
    (queue : u.futex_waiters = s.futex_waiters) : Listed (wakeprocs u (.waiter w)) := by
  obtain ⟨same, -⟩ := wakeprocs_waiter placed u procs curproc w
  refine listed.congr ?_ queue ?_ ?_
  · intro v
    rw [same.waiters, waiters]
    exact isSome_update held v
  · intro q v
    rw [same.owns, owns_of_procs procs]
  · intro q v
    rw [same.waits, waits_of_procs procs]

theorem sound_wake (sound : Sound s) (idle : ∀ q p, s.procs q = some p → p.pc.busy = false)
    (held : s.waiters w = some waiter) (unwoken : waiter.woken = false)
    (timely : waiter.timed_out = false) : Sound (wake s w waiter) := by
  have placed := sound.placed
  let u := s.setWaiter w { waiter with woken := true }
  obtain ⟨same, asleep⟩ := wakeprocs_waiter placed u rfl rfl w
  have waiters : (wake s w waiter).waiters =
      update s.waiters w (some { waiter with woken := true }) := rfl
  refine ⟨?_, ?_, ?_, ?_, ?_⟩
  · exact (placed.wakes (u := u) rfl rfl (.waiter w)).of_eq rfl rfl
  · exact (sound.listed.flagged placed (u := u) held rfl rfl rfl rfl).congr (fun _ => rfl) rfl
      (fun _ _ => Iff.rfl) (fun _ _ => Iff.rfl)
  · constructor
    · exact sound.armed.linked
    · intro e pending v a arg there
      rw [waiters] at there
      by_cases mine : v = w
      · subst mine
        rw [update_self] at there
        cases there
        exact sound.armed.own e pending v waiter arg held
      · rw [update_of_ne mine] at there
        exact sound.armed.own e pending v a arg there
    · exact sound.armed.once
  · constructor
    · intro q c found
      obtain ⟨p, there, rfl⟩ := map_eq_some_iff.mp found
      rw [awaken_pc]
      exact placeOk_of_idle _ (idle q p there)
    · intro q v a slept there
      obtain ⟨other, slept⟩ := asleep q v slept
      rw [waiters, update_of_ne other] at there
      exact sound.flags.asleep q v a slept there
    · intro v a there woken
      rw [waiters] at there
      rw [update_apply] at there
      split at there
      · cases there
        exact timely
      · exact sound.flags.one v a there woken
  · exact sound.ledger.count held unwoken waiters rfl rfl rfl

theorem idle_wake (idle : ∀ q p, s.procs q = some p → p.pc.busy = false) (waiter : FutexWaiter) :
    ∀ q p, (wake s w waiter).procs q = some p → p.pc.busy = false := by
  intro q c found
  obtain ⟨p, there, rfl⟩ := map_eq_some_iff.mp found
  rw [awaken_pc]
  exact idle q p there

theorem candidates_wake (absent : w ∉ queue) (waiter : FutexWaiter) :
    candidates (wake s w waiter) as uaddr queue = candidates s as uaddr queue := by
  apply filter_congr
  intro v listed
  have other : v ≠ w := fun same => absent (same ▸ listed)
  have same : (wake s w waiter).waiters v = s.waiters v := by
    simp [wake, wakeprocs, Kernel.setWaiter, other]
  rw [same]

theorem candidates_cons (as uaddr : Nat) (queue : List Nat) (held : s.waiters w = some waiter) :
    candidates s as uaddr (w :: queue) =
      if wakes_up as uaddr waiter then w :: candidates s as uaddr queue
      else candidates s as uaddr queue := by
  simp [candidates, filter_cons, held]

theorem wake_loop_takes {count n : Nat} (sound : Sound s)
    (idle : ∀ q p, s.procs q = some p → p.pc.busy = false) (nodup : queue.Nodup)
    (timely : ∀ w ∈ taken_by s as uaddr all queue, ∀ waiter, s.waiters w = some waiter →
      waiter.timed_out = false) (woke : wake_loop as uaddr all queue s count = some (t, n)) :
    Sound t ∧ t.wakes = s.wakes ∧ n = count + (taken_by s as uaddr all queue).length ∧
      t.counted.length = s.counted.length + (taken_by s as uaddr all queue).length := by
  induction queue generalizing s count with
  | nil =>
    obtain ⟨rfl, rfl⟩ := Prod.mk.inj (some.inj woke)
    simp [taken_by, candidates, sound]
  | cons w rest ih =>
    obtain ⟨absent, nodup⟩ := nodup_cons.mp nodup
    unfold wake_loop at woke
    split at woke
    case h_1 => simp at woke
    case h_2 waiter held =>
      have first := candidates_cons as uaddr rest held
      split at woke
      case isTrue matched =>
        rw [if_pos matched] at first
        have unwoken : waiter.woken = false := by
          simp only [wakes_up, and_eq_true, not_eq_true'] at matched
          exact matched.2
        have here : w ∈ taken_by s as uaddr all (w :: rest) := by
          unfold taken_by
          rw [first]
          split <;> simp
        have sound' := sound_wake sound idle held unwoken (timely w here waiter held)
        split at woke
        case isTrue every =>
          subst every
          have left : taken_by (wake s w waiter) as uaddr true rest = candidates s as uaddr rest :=
            candidates_wake absent waiter
          have both : taken_by s as uaddr true (w :: rest) = w :: candidates s as uaddr rest := first
          have timely' : ∀ v ∈ taken_by (wake s w waiter) as uaddr true rest, ∀ a,
              (wake s w waiter).waiters v = some a → a.timed_out = false := by
            intro v listed a there
            rw [left] at listed
            have other : v ≠ w := fun same => absent (same ▸ (mem_filter.mp listed).1)
            refine timely v (both ▸ mem_cons_of_mem w listed) a ?_
            simpa [wake, wakeprocs, Kernel.setWaiter, other] using there
          obtain ⟨done, wakes, total, counted⟩ := ih sound' (idle_wake idle waiter) nodup timely' woke
          rw [left] at total counted
          refine ⟨done, wakes, ?_, ?_⟩
          · rw [both, length_cons]
            omega
          · have grown : (wake s w waiter).counted.length = s.counted.length + 1 := by simp [wake]
            rw [both, length_cons]
            omega
        case isFalse one =>
          obtain ⟨rfl, rfl⟩ := Prod.mk.inj (some.inj woke)
          simp only [not_eq_true] at one
          subst one
          have single : taken_by s as uaddr false (w :: rest) = [w] := by
            simp [taken_by, first]
          rw [single]
          exact ⟨sound', rfl, rfl, by simp [wake]⟩
      case isFalse unmatched =>
        rw [if_neg unmatched] at first
        have same : taken_by s as uaddr all (w :: rest) = taken_by s as uaddr all rest := by
          simp only [taken_by, first]
        rw [same] at timely ⊢
        exact ih sound idle nodup timely woke

theorem wake_loop_total (as uaddr : Nat) (all : Bool) (count : Nat)
    (held : ∀ w ∈ queue, ∃ waiter, s.waiters w = some waiter) :
    ∃ u, wake_loop as uaddr all queue s count = some u := by
  induction queue generalizing s count with
  | nil => exact ⟨_, rfl⟩
  | cons w rest ih =>
    obtain ⟨waiter, here⟩ := held w (by simp)
    unfold wake_loop
    simp only [here]
    split
    · split
      · apply ih
        intro v listed
        rw [← isSome_iff_exists]
        change (update s.waiters w (some { waiter with woken := true }) v).isSome = true
        rw [isSome_update here, isSome_iff_exists]
        exact held v (mem_cons_of_mem w listed)
      · exact ⟨_, rfl⟩
    · exact ih _ fun v listed => held v (mem_cons_of_mem w listed)

theorem running_of_onproc (placed : Scheduled s) (found : s.procs q = some p)
    (stat : p.p_stat = .SONPROC) : s.running = some p := by
  obtain rfl := (placed q p found).onproc stat
  rw [Kernel.running, found, filter_some, if_pos (by simp [stat])]

theorem idle_of_user (placed : Scheduled s) (run : s.running = some p) (user : p.pc.busy = false) :
    ∀ q c, s.procs q = some c → c.pc.busy = false := by
  intro q c found
  by_contra busy
  rw [not_eq_false] at busy
  have here := running_of_onproc placed found ((placed q c found).busy busy)
  obtain rfl := some.inj (run.symm.trans here)
  simp [user] at busy

theorem sound_futex_wake (sound : Sound s) (timely : Timely s (.futex_wake uaddr all))
    (taken : step s (.futex_wake uaddr all) = some t) :
    Sound t ∧ (s.wakes.sum = s.counted.length → t.wakes.sum = t.counted.length) := by
  obtain ⟨p, run, user, taken⟩ := wake_of_step taken
  unfold futex_wake at taken
  split at taken
  · cases taken
    exact ⟨sound, id⟩
  obtain ⟨⟨u, n⟩, woke, rfl⟩ := map_eq_some_iff.mp taken
  have idle := idle_of_user sound.placed run (by rw [user]; rfl)
  obtain ⟨done, wakes, total, counted⟩ :=
    wake_loop_takes sound idle sound.listed.nodup (timely p run) woke
  refine ⟨⟨done.placed.of_eq rfl rfl, ?_, ?_, ?_, ?_⟩, ?_⟩
  · exact { done.listed with }
  · exact done.armed.sub (Sublist.refl _) rfl rfl
  · exact done.flags.change rfl fun _ a there => ⟨a, there, rfl, rfl⟩
  · exact { done.ledger with }
  · intro balanced
    simp only [wakes, sum_append, sum_singleton, counted]
    omega

theorem Sound.callouts (sound : Sound s) (procs : t.procs = s.procs) (curproc : t.curproc = s.curproc)
    (waiters : t.waiters = s.waiters) (queue : t.futex_waiters = s.futex_waiters)
    (history : t.serials = s.serials ∧ t.counted = s.counted ∧ t.returned = s.returned)
    (armed : Armed t) : Sound t := by
  refine ⟨sound.placed.of_eq procs curproc, ?_, armed, ?_, sound.ledger.of_eq waiters history⟩
  · exact sound.listed.congr (fun w => by rw [waiters]) queue
      (fun q w => by rw [owns_of_procs procs]) (fun q w => by rw [waits_of_procs procs])
  · exact sound.flags.change procs fun v a there => ⟨a, waiters ▸ there, rfl, rfl⟩

theorem Listed.queued_of_linked (listed : Listed s) (linked : w ∈ s.futex_waiters)
    (found : s.procs q = some p) (own : p.pc.waiter = some w) : p.pc.queued = some w := by
  obtain ⟨q', waits⟩ := (listed.listed w).mp linked
  obtain rfl := listed.single q' q w waits.owns ((owns_here found).mpr own)
  exact (waits_here found).mp waits

theorem sound_expire (sound : Sound s) (found : s.callout[k]? = some e) (arg : e.c_arg = some w)
    (held : s.waiters w = some waiter) (unwoken : waiter.woken = false)
    (timely : ∀ p ∈ s.running, p.pc ≠ .calling w) :
    Sound (wakeprocs ({ s with callout := s.callout.eraseIdx k }.setWaiter w
      { waiter with timed_out := true }) (.waiter w)) := by
  let u := { s with callout := s.callout.eraseIdx k }.setWaiter w { waiter with timed_out := true }
  have placed := sound.placed
  have linked := sound.armed.linked e (mem_of_getElem? found) w arg
  have cleared := erase_only sound.armed.once found arg
  have sub : (s.callout.eraseIdx k).Sublist s.callout := eraseIdx_sublist _ _
  obtain ⟨same, asleep⟩ := wakeprocs_waiter placed u rfl rfl w
  have waiters : (wakeprocs u (.waiter w)).waiters =
      update s.waiters w (some { waiter with timed_out := true }) := rfl
  refine ⟨placed.wakes rfl rfl _, sound.listed.flagged placed held rfl rfl rfl rfl, ?_, ?_, ?_⟩
  · constructor
    · intro e left v arg
      exact sound.armed.linked e (sub.subset left) v arg
    · intro e left v a arg there
      have other : v ≠ w := fun same => cleared e left (same ▸ arg)
      rw [waiters, update_of_ne other] at there
      exact sound.armed.own e (sub.subset left) v a arg there
    · exact sound.armed.once.sublist (sub.filterMap _)
  · constructor
    · intro q c there
      obtain ⟨p, before, rfl⟩ := map_eq_some_iff.mp there
      rw [awaken_pc, waiters]
      have ok := sound.flags.places q p before
      by_cases mine : p.pc.waiter = some w
      · have queued := sound.listed.queued_of_linked linked before mine
        cases pc : p.pc with
        | calling v =>
          obtain rfl : v = w := by simpa [pc, Pc.queued] using queued
          have stat := (placed q p before).busy (by rw [pc]; rfl)
          exact absurd pc (timely p (running_of_onproc placed before stat))
        | finishing v error =>
          obtain rfl : v = w := by simpa [pc, Pc.queued] using queued
          rw [pc] at ok
          intro a set
          rw [update_self] at set
          cases set
          exact ⟨(ok waiter held).1, fun pending => absurd pending.2 (by simp)⟩
        | testing v | sleeping v => trivial
        | _ => simp [pc, Pc.queued] at queued
      · apply ok.congr
        intro v own a set
        have other : v ≠ w := fun same => mine (same ▸ own)
        rw [update_of_ne other] at set
        exact ⟨a, set, rfl, rfl⟩
    · intro q v a slept there
      obtain ⟨other, slept⟩ := asleep q v slept
      rw [waiters, update_of_ne other] at there
      exact sound.flags.asleep q v a slept there
    · intro v a there woken
      rw [waiters] at there
      rw [update_apply] at there
      split at there
      · cases there
        simp [unwoken] at woken
      · exact sound.flags.one v a there woken
  · exact sound.ledger.mark { waiter with timed_out := true } held rfl rfl waiters ⟨rfl, rfl, rfl⟩

theorem sound_timein (sound : Sound s) (timely : Timely s (.timein k))
    (taken : step s (.timein k) = some t) : Sound t := by
  obtain ⟨e, found, -, cases_of⟩ := timein_of_step taken
  have erased : Sound { s with callout := s.callout.eraseIdx k } :=
    sound.callouts rfl rfl rfl rfl ⟨rfl, rfl, rfl⟩ (sound.armed.sub (eraseIdx_sublist _ _) rfl rfl)
  rcases cases_of with ⟨-, rfl⟩ | ⟨w, waiter, arg, held, rfl⟩
  · exact erased
  · split
    case isTrue => exact erased
    case isFalse unwoken =>
      rw [not_eq_true] at unwoken
      exact sound_expire sound found arg held unwoken (timely e found w arg)

end Futex
