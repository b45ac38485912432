import Svr4.Futex.OneReason

/- The result of every wait and the count of every wake, over all runs. -/
namespace Futex
open LabelledRuns List
variable {s t : Kernel} {l : Label} {p : Proc} {q v w k uaddr : Nat} {waiter : FutexWaiter}

theorem sound_step (sound : Sound s) (timely : Timely s l) (taken : step s l = some t) : Sound t := by
  cases quiet : l.quiet with
  | true =>
    obtain ⟨placed, same⟩ := calm_step quiet taken sound.placed
    exact sound.same placed same
  | false =>
    cases l with
    | futex_wait uaddr expected timeoutp => exact sound_wait sound taken
    | zalloc w => exact sound_zalloc sound taken
    | enqueue value => exact sound_enqueue sound taken
    | test => exact sound_test sound taken
    | sleep => exact sound_sleep sound taken
    | resume => exact sound_resume sound taken
    | finish k => exact sound_finish sound timely taken
    | free => exact sound_free sound taken
    | futex_wake uaddr all => exact (sound_futex_wake sound timely taken).1
    | timein k => exact sound_timein sound timely taken
    | timeout tim =>
      cases taken
      refine sound.callouts rfl rfl rfl rfl ⟨rfl, rfl, rfl⟩ ⟨?_, ?_, sound.armed.once⟩
      · intro e pending w arg
        rcases mem_cons.mp pending with rfl | old
        · simp at arg
        · exact sound.armed.linked e old w arg
      · intro e pending w waiter arg found
        rcases mem_cons.mp pending with rfl | old
        · simp at arg
        · exact sound.armed.own e old w waiter arg found
    | untimeout id k =>
      obtain ⟨callout, left, rfl⟩ := Option.map_eq_some_iff.mp taken
      have sub : callout.Sublist s.callout := by
        unfold untimeout at left
        split at left
        · split at left
          · cases left
            exact eraseIdx_sublist _ _
          · simp at left
        · cases left
          exact List.Sublist.refl _
      exact sound.callouts rfl rfl rfl rfl ⟨rfl, rfl, rfl⟩ (sound.armed.sub sub rfl rfl)
    | _ => simp [Label.quiet] at quiet

theorem history_enqueue {expected ticks : BitVec 32} {value : Option (BitVec 32)}
    (taken : enqueue s p w expected ticks value = some t) :
    t.wakes = s.wakes ∧ t.counted = s.counted := by
  unfold enqueue at taken
  split at taken
  · cases taken
    exact ⟨rfl, rfl⟩
  split at taken
  · cases taken
    exact ⟨rfl, rfl⟩
  · split at taken
    · obtain ⟨waiter, _, rfl⟩ := Option.map_eq_some_iff.mp taken
      exact ⟨rfl, rfl⟩
    · cases taken
      exact ⟨rfl, rfl⟩

theorem history_kept (sound : Sound s) (other : ∀ uaddr all, l ≠ .futex_wake uaddr all)
    (taken : step s l = some t) : t.wakes = s.wakes ∧ t.counted = s.counted := by
  cases quiet : l.quiet with
  | true =>
    obtain ⟨-, counted, wakes, -⟩ := (calm_step quiet taken sound.placed).2.history
    exact ⟨wakes, counted⟩
  | false =>
    cases l with
    | futex_wait uaddr expected timeoutp =>
      obtain ⟨p, -, -, rfl⟩ := wait_of_step taken
      unfold futex_wait
      split <;> exact ⟨rfl, rfl⟩
    | zalloc w =>
      obtain ⟨_, _, _, _, -, -, -, rfl⟩ := zalloc_of_step taken
      exact ⟨rfl, rfl⟩
    | enqueue value =>
      obtain ⟨_, _, _, _, -, -, taken⟩ := enqueue_of_step taken
      exact history_enqueue taken
    | test =>
      obtain ⟨_, _, _, -, -, -, rfl⟩ := test_of_step taken
      exact ⟨rfl, rfl⟩
    | sleep =>
      obtain ⟨_, _, -, -, rfl⟩ := sleep_of_step taken
      exact ⟨rfl, rfl⟩
    | resume =>
      obtain ⟨_, _, -, -, rfl⟩ := resume_of_step taken
      exact ⟨rfl, rfl⟩
    | finish k =>
      obtain ⟨_, _, _, _, _, -, -, -, -, rfl⟩ := finish_of_step taken
      exact ⟨rfl, rfl⟩
    | free =>
      obtain ⟨_, _, _, _, -, -, -, rfl⟩ := free_of_step taken
      exact ⟨rfl, rfl⟩
    | futex_wake uaddr all => exact absurd rfl (other uaddr all)
    | timein k =>
      obtain ⟨_, -, -, ⟨-, rfl⟩ | ⟨_, _, -, -, rfl⟩⟩ := timein_of_step taken
      · exact ⟨rfl, rfl⟩
      · split <;> exact ⟨rfl, rfl⟩
    | timeout tim =>
      cases taken
      exact ⟨rfl, rfl⟩
    | untimeout id k =>
      obtain ⟨_, -, rfl⟩ := Option.map_eq_some_iff.mp taken
      exact ⟨rfl, rfl⟩
    | _ => simp [Label.quiet] at quiet

theorem balanced_step (sound : Sound s) (timely : Timely s l) (taken : step s l = some t)
    (balanced : s.wakes.sum = s.counted.length) : t.wakes.sum = t.counted.length := by
  by_cases wake : ∃ uaddr all, l = .futex_wake uaddr all
  · obtain ⟨uaddr, all, rfl⟩ := wake
    exact (sound_futex_wake sound timely taken).2 balanced
  · obtain ⟨wakes, counted⟩ := history_kept sound (fun uaddr all same => wake ⟨uaddr, all, same⟩) taken
    rw [wakes, counted]
    exact balanced

theorem boot_sound : Sound boot := by
  have user : ∀ q p, boot.procs q = some p → p.pc = .user ∧ p.p_wchan = none := by
    intro q p found
    by_cases one : q = 1
    · subst one
      obtain rfl := by simpa [boot] using found
      exact ⟨rfl, rfl⟩
    · simp [boot, one] at found
  have none_own : ∀ q w, ¬ boot.owns q w := by
    rintro q w ⟨p, found, own⟩
    simp [(user q p found).1, Pc.waiter] at own
  refine ⟨boot_scheduled, ⟨?_, ?_, ?_, ?_, ?_⟩, ⟨?_, ?_, ?_⟩, ⟨?_, ?_, ?_⟩, ?_⟩
  · exact fun q w own => absurd own (none_own q w)
  · simp [boot]
  · exact fun q _ w own => absurd own (none_own q w)
  · simp [boot]
  · intro w
    refine iff_of_false (by simp [boot]) ?_
    rintro ⟨q, waits⟩
    exact none_own q w waits.owns
  · simp [boot]
  · simp [boot]
  · simp [boot]
  · intro q p found
    rw [(user q p found).1]
    trivial
  · rintro q w waiter ⟨p, found, slept⟩
    simp [(user q p found).2] at slept
  · simp [boot]
  · constructor <;> simp [boot]

/-! The claims a caller can rely on -/

/-- The waits whose result the callers have not seen yet. -/
def owed (s : Kernel) : List Nat := s.counted.filter fun n => n ∉ s.returned.map Prod.fst

def Eligible (s : Kernel) (p : Proc) (uaddr : Nat) : Prop :=
  ∃ w ∈ s.futex_waiters, ∃ waiter, s.waiters w = some waiter ∧ waiter.as = p.p_as ∧
    waiter.uaddr = uaddr ∧ waiter.woken = false ∧ waiter.timed_out = false

structure Honest (s : Kernel) : Prop where
  queued_once : s.futex_waiters.Nodup
  queued_iff : ∀ w, w ∈ s.futex_waiters ↔ ∃ q, s.waits q w
  own_waiter : ∀ q q' w, s.waits q w → s.waits q' w → q = q'
  zero_iff_counted : ∀ n e, (n, e) ∈ s.returned → (e = none ↔ n ∈ s.counted)
  timed_out_uncounted : ∀ n, (n, some .ETIMEDOUT) ∈ s.returned → n ∉ s.counted
  sum : s.wakes.sum = (s.returned.filter fun r => r.2 = none).length + (owed s).length
  owed_unfinished : ∀ n ∈ owed s, ∃ q w waiter, s.owns q w ∧ s.waiters w = some waiter ∧
    waiter.serial = n ∧ waiter.woken = true
  awake : ∀ q w waiter, s.asleep q w → s.waiters w = some waiter →
    waiter.woken = false ∧ waiter.timed_out = false
  allocated : ∀ w ∈ s.futex_waiters, ∃ waiter, s.waiters w = some waiter
  callouts_allocated : ∀ e ∈ s.callout, ∀ w, e.c_arg = some w → ∃ waiter, s.waiters w = some waiter
  wake_one : ∀ p uaddr, s.running = some p → p.pc = .user → uaddr ≠ 0 →
    Timely s (.futex_wake uaddr false) → ∃ t, step s (.futex_wake uaddr false) = some t ∧
      (Eligible s p uaddr → t.wakes = s.wakes ++ [1]) ∧
      (¬ Eligible s p uaddr → t.wakes = s.wakes ++ [0])

theorem released_length (ledger : Ledger s) :
    s.counted.length = (s.returned.filter fun r => r.2 = none).length + (owed s).length := by
  have split : s.counted.length =
      (s.counted.filter fun n => n ∈ s.returned.map Prod.fst).length + (owed s).length := by
    simpa [owed] using length_eq_length_filter_add (l := s.counted)
      fun n => decide (n ∈ s.returned.map Prod.fst)
  have perm : (s.counted.filter fun n => n ∈ s.returned.map Prod.fst).Perm
      ((s.returned.filter fun r => r.2 = none).map Prod.fst) := by
    rw [perm_ext_iff_of_nodup (ledger.counted_once.filter _)
      (ledger.returned_once.sublist ((filter_sublist).map _))]
    intro n
    simp only [mem_filter, mem_map, decide_eq_true_eq]
    constructor
    · intro ⟨counted, ⟨m, e⟩, listed, same⟩
      obtain rfl : m = n := same
      exact ⟨(m, e), ⟨listed, (ledger.returned m e listed).2.1.mpr counted⟩, rfl⟩
    · intro ⟨⟨m, e⟩, ⟨listed, zero⟩, same⟩
      obtain rfl : m = n := same
      exact ⟨(ledger.returned m e listed).2.1.mp zero, (m, e), listed, rfl⟩
  rw [split, perm.length_eq, length_map]

theorem eligible_iff
    (timely : ∀ w ∈ taken_by s p.p_as uaddr false s.futex_waiters, ∀ waiter ∈ s.waiters w,
      waiter.timed_out = false) :
    Eligible s p uaddr ↔ (taken_by s p.p_as uaddr false s.futex_waiters).length = 1 := by
  have matched : ∀ w, w ∈ candidates s p.p_as uaddr s.futex_waiters ↔ w ∈ s.futex_waiters ∧
      ∃ waiter, s.waiters w = some waiter ∧ waiter.as = p.p_as ∧ waiter.uaddr = uaddr ∧
        waiter.woken = false := by
    intro w
    cases held : s.waiters w <;> simp [candidates, wakes_up, held, and_assoc]
  unfold taken_by at timely ⊢
  cases list : candidates s p.p_as uaddr s.futex_waiters with
  | nil =>
    refine iff_of_false ?_ (by simp)
    rintro ⟨w, linked, waiter, held, as, address, unwoken, -⟩
    have listed := (matched w).mpr ⟨linked, waiter, held, as, address, unwoken⟩
    simp [list] at listed
  | cons w rest =>
    refine iff_of_true ?_ (by simp)
    obtain ⟨linked, waiter, held, as, address, unwoken⟩ := (matched w).mp (by simp [list])
    exact ⟨w, linked, waiter, held, as, address, unwoken, timely w (by simp [list]) waiter held⟩

theorem wake_one_counts (sound : Sound s) (run : s.running = some p) (user : p.pc = .user)
    (address : uaddr ≠ 0) (timely : Timely s (.futex_wake uaddr false)) :
    ∃ t, step s (.futex_wake uaddr false) = some t ∧
      (Eligible s p uaddr → t.wakes = s.wakes ++ [1]) ∧
      (¬ Eligible s p uaddr → t.wakes = s.wakes ++ [0]) := by
  obtain ⟨⟨u, n⟩, woke⟩ := wake_loop_total p.p_as uaddr false 0
    fun w linked => sound.listed.of_mem linked
  have idle := idle_of_user sound.placed run (by rw [user]; rfl)
  obtain ⟨-, wakes, total, -⟩ := wake_loop_takes sound idle sound.listed.nodup (timely p run) woke
  have taken : step s (.futex_wake uaddr false) = some { u with wakes := u.wakes ++ [n] } := by
    simp [step, run, kernel_step, user, user_step, futex_wake, address, woke]
  refine ⟨_, taken, ?_, ?_⟩
  · intro eligible
    rw [(eligible_iff (timely p run)).mp eligible] at total
    simp [wakes, total]
  · intro barren
    have short : (taken_by s p.p_as uaddr false s.futex_waiters).length ≤ 1 := by
      simp [taken_by]
    rw [eligible_iff (timely p run)] at barren
    have nothing : n = 0 := by omega
    simp [wakes, nothing]

theorem honest_of_sound (sound : Sound s) (balanced : s.wakes.sum = s.counted.length) : Honest s where
  queued_once := sound.listed.nodup
  queued_iff := sound.listed.listed
  own_waiter q q' w waits waits' := sound.listed.single q q' w waits.owns waits'.owns
  zero_iff_counted n e listed := (sound.ledger.returned n e listed).2.1
  timed_out_uncounted n listed counted := by
    have zero := (sound.ledger.returned n _ listed).2.1.mpr counted
    simp at zero
  sum := by rw [balanced, released_length sound.ledger]
  owed_unfinished := by
    intro n listed
    obtain ⟨counted, open_wait⟩ := mem_filter.mp listed
    rcases sound.ledger.accounted n counted with ⟨e, done⟩ | ⟨w, waiter, held, number⟩
    · exact absurd (mem_map.mpr ⟨(n, e), done, rfl⟩) (of_decide_eq_true open_wait)
    · obtain ⟨q, own⟩ := sound.listed.owned w waiter held
      exact ⟨q, w, waiter, own, held, number, (sound.ledger.woken w waiter held).mp (number ▸ counted)⟩
  awake := sound.flags.asleep
  allocated w linked := sound.listed.of_mem linked
  callouts_allocated e pending w arg := sound.listed.of_mem (sound.armed.linked e pending w arg)
  wake_one p uaddr run user address timely := wake_one_counts sound run user address timely

/-- In every run whose steps are timely, waits end for one reason and no wake-up is lost. -/
theorem waits_end_for_one_reason {run : List Label} {s : Kernel}
    (timely : Guarded step Timely boot run) (ran : exec step boot run = some s) : Honest s := by
  have kept := exec_invariant (fun s => Sound s ∧ s.wakes.sum = s.counted.length)
    (fun s l t ⟨sound, balanced⟩ timely taken =>
      ⟨sound_step sound timely taken, balanced_step sound timely taken balanced⟩)
    ⟨boot_sound, rfl⟩ timely ran
  exact honest_of_sound kept.1 kept.2

def wake_and_timeout : List Label :=
  [.newproc 2 true 0, .dispatch 2, .futex_wait 100 0 none, .zalloc 7, .enqueue (some 0), .test,
    .sleep, .dispatch 1, .futex_wake 100 false, .futex_wait 200 0 (some (some ⟨0, 1⟩)), .zalloc 8,
    .enqueue (some 0), .test, .sleep, .clock, .timein 0, .dispatch 2, .resume, .test, .finish 0,
    .free, .dispatch 1, .resume, .test, .finish 0, .free, .futex_wake 100 true]

theorem waits_end_for_one_reason_mixed :
    ∃ s, exec step boot wake_and_timeout = some s ∧ Honest s := by
  obtain ⟨s, ran⟩ := Option.isSome_iff_exists.mp
    (show (exec step boot wake_and_timeout).isSome = true by decide)
  exact ⟨s, ran, waits_end_for_one_reason (show Guarded step Timely boot wake_and_timeout by decide) ran⟩

def timeout_before_sleep : List Label :=
  [.futex_wait 100 0 (some (some ⟨0, 1⟩)), .zalloc 7, .enqueue (some 0), .test, .clock, .timein 0,
    .sleep]

def wake_after_timeout : List Label :=
  [.newproc 2 true 0, .dispatch 2, .futex_wait 100 0 (some (some ⟨0, 1⟩)), .zalloc 7,
    .enqueue (some 0), .test, .sleep, .dispatch 1, .clock, .timein 0, .futex_wake 100 false,
    .dispatch 2, .resume, .test, .finish 0, .free]

/-- The first run leaves a timed-out thread asleep; in the second the wait that the wake counted
returns ETIMEDOUT. -/
theorem timeouts_race_with_sleep_and_wake :
    (∃ s, exec step boot timeout_before_sleep = some s ∧
      ∃ w waiter, s.asleep 1 w ∧ s.waiters w = some waiter ∧ waiter.timed_out = true) ∧
    ∃ s, exec step boot wake_after_timeout = some s ∧
      s.wakes = [1] ∧ s.counted = [0] ∧ s.returned = [(0, some .ETIMEDOUT)] := by
  constructor
  · obtain ⟨s, ran⟩ := Option.isSome_iff_exists.mp
      (show (exec step boot timeout_before_sleep).isSome = true by decide)
    have seen : (exec step boot timeout_before_sleep).map (fun s =>
        ((s.procs 1).map Proc.p_wchan, (s.waiters 7).map FutexWaiter.timed_out)) =
        some (some (some (.waiter 7)), some true) := by decide
    rw [ran] at seen
    simp only [Option.map_some, Option.some.injEq, Prod.mk.injEq, Option.map_eq_some_iff] at seen
    obtain ⟨⟨p, found, slept⟩, waiter, held, timed_out⟩ := seen
    exact ⟨s, ran, 7, waiter, ⟨p, found, slept⟩, held, timed_out⟩
  · obtain ⟨s, ran⟩ := Option.isSome_iff_exists.mp
      (show (exec step boot wake_after_timeout).isSome = true by decide)
    have seen : (exec step boot wake_after_timeout).map (fun s => (s.wakes, s.counted, s.returned)) =
        some ([1], [0], [(0, some .ETIMEDOUT)]) := by decide
    rw [ran] at seen
    simp only [Option.map_some, Option.some.injEq, Prod.mk.injEq] at seen
    exact ⟨s, ran, seen.1, seen.2.1, seen.2.2⟩

section Wakes
variable {queue : List Nat} {as : Nat} {all : Bool}

/-- The loop counts and marks the waiters that it takes. -/
theorem wake_loop_marks {count n : Nat} (nodup : queue.Nodup)
    (woke : wake_loop as uaddr all queue s count = some (t, n)) :
    t.wakes = s.wakes ∧ n = count + (taken_by s as uaddr all queue).length ∧
      ∀ v, t.waiters v = if v ∈ taken_by s as uaddr all queue then
        (s.waiters v).map fun a => { a with woken := true } else s.waiters v := by
  induction queue generalizing s count with
  | nil =>
    obtain ⟨rfl, rfl⟩ := Prod.mk.inj (Option.some.inj woke)
    simp [taken_by, candidates]
  | cons w rest ih =>
    obtain ⟨absent, nodup⟩ := nodup_cons.mp nodup
    unfold wake_loop at woke
    split at woke
    case h_1 => cases woke
    case h_2 waiter held =>
      have first := candidates_cons as uaddr rest held
      have marked : ∀ v, (wake s w waiter).waiters v =
          if v = w then (s.waiters v).map fun a => { a with woken := true } else s.waiters v := by
        intro v
        by_cases same : v = w
        · subst same
          simp [wake, wakeprocs, Kernel.setWaiter, held]
        · simp [wake, wakeprocs, Kernel.setWaiter, same]
      split at woke
      case isTrue matched =>
        rw [if_pos matched] at first
        cases all with
        | true =>
          obtain ⟨wakes, total, left⟩ := ih nodup woke
          have same : taken_by (wake s w waiter) as uaddr true rest =
              taken_by s as uaddr true rest := candidates_wake absent waiter
          have both : taken_by s as uaddr true (w :: rest) = w :: taken_by s as uaddr true rest :=
            first
          rw [same] at total left
          refine ⟨wakes, by rw [both, length_cons]; omega, fun v => ?_⟩
          rw [left, marked, both]
          by_cases here : v = w
          · have outside : v ∉ taken_by s as uaddr true rest := fun listed =>
              absent (here ▸ (mem_filter.mp listed).1)
            simp only [here, mem_cons, true_or, if_true]
            rw [← here, if_neg outside]
          · simp only [here, mem_cons, false_or, if_false]
        | false =>
          obtain ⟨rfl, rfl⟩ := Prod.mk.inj (Option.some.inj woke)
          have single : taken_by s as uaddr false (w :: rest) = [w] := by
            simp [taken_by, first]
          refine ⟨rfl, by rw [single]; rfl, fun v => ?_⟩
          simp only [marked, single, mem_singleton]
      case isFalse unmatched =>
        rw [if_neg unmatched] at first
        have same : taken_by s as uaddr all (w :: rest) = taken_by s as uaddr all rest := by
          simp only [taken_by, first]
        rw [same]
        exact ih nodup woke

/-- A wake-up marks all unmarked waiters of its address and address space, or the first in line,
returns their number, and leaves the others. -/
theorem wakes_exactly {run : List Label} (timely : Guarded step Timely boot run)
    (ran : exec step boot run = some s) (running : s.running = some p) (user : p.pc = .user)
    (address : uaddr ≠ 0) (all : Bool) : ∃ t, step s (.futex_wake uaddr all) = some t ∧
      t.wakes = s.wakes ++ [(taken_by s p.p_as uaddr all s.futex_waiters).length] ∧
      ∀ w, t.waiters w = if w ∈ taken_by s p.p_as uaddr all s.futex_waiters then
        (s.waiters w).map fun a => { a with woken := true } else s.waiters w := by
  have sound : Sound s := exec_invariant Sound (fun _ _ _ sound timely taken =>
    sound_step sound timely taken) boot_sound timely ran
  obtain ⟨⟨u, n⟩, woke⟩ := wake_loop_total p.p_as uaddr all 0
    fun w linked => sound.listed.of_mem linked
  obtain ⟨wakes, total, marks⟩ := wake_loop_marks sound.listed.nodup woke
  refine ⟨{ u with wakes := u.wakes ++ [n] }, ?_, ?_, marks⟩
  · simp [step, running, kernel_step, user, user_step, futex_wake, address, woke]
  · rw [total, wakes, Nat.zero_add]

theorem wakes_exactly_mixed : ∃ s, exec step boot (wake_and_timeout.take 8) = some s ∧
    ∃ p, s.running = some p ∧ ∃ t, step s (.futex_wake 100 true) = some t ∧ t.wakes =
      s.wakes ++ [(taken_by s p.p_as 100 true s.futex_waiters).length] := by
  obtain ⟨s, ran⟩ := Option.isSome_iff_exists.mp
    (show (exec step boot (wake_and_timeout.take 8)).isSome = true by decide)
  have seen : (exec step boot (wake_and_timeout.take 8)).map
      (fun s => s.running.map Proc.pc) = some (some .user) := by decide
  rw [ran] at seen
  obtain ⟨p, running, user⟩ := Option.map_eq_some_iff.mp (Option.some.inj seen)
  obtain ⟨t, taken, wakes, -⟩ := wakes_exactly (by decide) ran running user (show 100 ≠ 0 by decide) true
  exact ⟨s, ran, p, running, t, taken, wakes⟩

end Wakes

end Futex
