import Svr4.Futex.Waits
import Svr4.Runs

/- Tearing down a process whose threads wait on futexes: exit_threads sends SIGKILL and
   sleeps until the threads are gone, but the sleep in do_futex_wait has SNWAKE set. -/
namespace Futex
open LabelledRuns Option Finset
variable {s t : Kernel} {l : Label} {p r : Proc} {q w sig : Nat} {targets : List Nat}

def Delivers (p : Proc) (sig : Nat) : Prop :=
  0 < sig ∧ sig < NSIG ∧ sig ∉ p.p_ignore ∧ sig ∉ p.p_hold

def Prompt (p : Proc) : Prop := ∀ w, p.p_wchan = some (.waiter w) → issig p = false

def AllPrompt (s : Kernel) : Prop := ∀ q p, s.procs q = some p → Prompt p

/-- A process waits in exit_threads for a thread that sleeps untimed in do_futex_wait with a signal
pending. -/
def Deadlocked (s : Kernel) : Prop :=
  ∃ t p q c w, s.procs t = some p ∧ p.pc = .exiting ∧ p.p_stat = .SSLEEP ∧
    q ∈ threads s p ∧ s.procs q = some c ∧ c.p_wchan = some (.waiter w) ∧ issig c = true ∧
    ∀ e ∈ s.callout, e.c_arg ≠ some w

structure Responsive (s : Kernel) : Prop where
  prompt : AllPrompt s
  teardown : ¬ Deadlocked s

def Spared (s : Kernel) (targets : List Nat) : Prop :=
  ∀ q ∈ targets, ∀ c w, s.procs q = some c → c.p_wchan = some (.waiter w) → ¬ Delivers c SIGKILL

/-- No signal is posted to a thread asleep in do_futex_wait, or pending when a thread goes to sleep
there. -/
def Undisturbed (s : Kernel) : Label → Prop
  | .sleep => ∀ p, s.running = some p → issig p = false
  | .psignal q sig => ∀ p w, s.procs q = some p → p.p_wchan = some (.waiter w) → ¬ Delivers p sig
  | .exit => ∀ p, s.running = some p → p.sthread = false → Spared s (threads s p)
  | .exit_threads => ∀ p, s.running = some p → Spared s (threads s p)
  | _ => True

theorem AllPrompt.responsive (prompt : AllPrompt s) : Responsive s := by
  refine ⟨prompt, ?_⟩
  intro ⟨_, _, q, c, w, _, _, _, _, found, slept, pending, _⟩
  simp [prompt q c found w slept] at pending

/-! What keeps the sleepers prompt -/

theorem prompt_of_awake (awake : ∀ w, p.p_wchan ≠ some (.waiter w)) : Prompt p :=
  fun w slept => absurd slept (awake w)

theorem Prompt.of_eq {new : Proc} (prompt : Prompt p) (wchan : new.p_wchan = p.p_wchan)
    (sigs : new.p_sig = p.p_sig ∧ new.p_hold = p.p_hold ∧ new.p_ignore = p.p_ignore) :
    Prompt new := by
  intro w slept
  have quiet := prompt w (wchan ▸ slept)
  unfold issig at *
  rwa [sigs.1, sigs.2.1, sigs.2.2]

theorem AllPrompt.setProc (prompt : AllPrompt s) (new : Prompt p) : AllPrompt (s.setProc q p) := by
  intro r c found
  by_cases same : r = q
  · subst same
    obtain rfl : p = c := by simpa using found
    exact new
  · rw [setProc_other same] at found
    exact prompt r c found

theorem AllPrompt.of_procs (prompt : AllPrompt s) (procs : t.procs = s.procs) : AllPrompt t := by
  intro q p found
  exact prompt q p (procs ▸ found)

theorem AllPrompt.map {f : Nat → Proc → Proc} (prompt : AllPrompt s)
    (keeps : ∀ q p, Prompt p → Prompt (f q p)) :
    AllPrompt { s with procs := fun q => (s.procs q).map (f q) } := by
  intro q p found
  obtain ⟨c, there, rfl⟩ := map_eq_some_iff.mp found
  exact keeps q c (prompt q c there)

theorem prompt_awaken (chan : Chan) (prompt : Prompt p) : Prompt (awaken chan p) := by
  unfold awaken
  split
  · exact prompt_of_awake (by simp)
  · exact prompt

theorem prompt_inherit (children : List Nat) (q : Nat) (p : Proc) (prompt : Prompt p) :
    Prompt (inherit children q p) := by
  unfold inherit
  split
  · exact prompt.of_eq rfl ⟨rfl, rfl, rfl⟩
  · split <;> exact prompt.of_eq rfl ⟨rfl, rfl, rfl⟩

theorem AllPrompt.wakeprocs (prompt : AllPrompt s) (chan : Chan) :
    AllPrompt (Futex.wakeprocs s chan) :=
  prompt.map (f := fun _ => awaken chan) fun _ _ => prompt_awaken chan

theorem issig_iff : issig p = true ↔ ∃ sig ∈ p.p_sig, sig ∉ p.p_hold ∧ sig ∉ p.p_ignore := by
  simp [issig]

theorem cancelled_subset (p : Proc) (sig : Nat) : cancelled p sig ⊆ p.p_sig := by
  unfold cancelled
  split
  · exact sdiff_subset
  · split
    · exact erase_subset _ _
    · exact Subset.refl _

theorem prompt_sigtoproc (prompt : Prompt p)
    (spared : ∀ w, p.p_wchan = some (.waiter w) → ¬ Delivers p sig) : Prompt (sigtoproc p sig) := by
  intro w slept
  have moved := follows_sigtoproc p sig
  have asleep := moved.wchan slept
  have quiet := prompt w asleep
  by_contra pending
  rw [Bool.not_eq_false, issig_iff] at pending
  rw [Bool.eq_false_iff, Ne, issig_iff] at quiet
  obtain ⟨x, posted, unheld, unignored⟩ := pending
  have sets : (sigtoproc p sig).p_hold = p.p_hold ∧ (sigtoproc p sig).p_ignore = p.p_ignore := by
    unfold sigtoproc setrun
    grind
  have known : x ∈ p.p_sig ∨ x = sig ∧ 0 < sig ∧ sig < NSIG ∧ sig ∉ p.p_ignore := by
    have sub := cancelled_subset p sig
    unfold sigtoproc setrun at posted
    grind
  rw [sets.1] at unheld
  rw [sets.2] at unignored
  rcases known with old | ⟨rfl, valid, bound, _⟩
  · exact quiet ⟨x, old, unheld, unignored⟩
  · exact spared w asleep ⟨valid, bound, unignored, unheld⟩

theorem sigtoproc_sleeper (asleep : p.p_stat = .SSLEEP) (flag : p.snwake = true)
    (delivers : Delivers p sig) :
    (sigtoproc p sig).p_wchan = p.p_wchan ∧ issig (sigtoproc p sig) = true := by
  obtain ⟨positive, bound, unignored, unheld⟩ := delivers
  have posted : sigtoproc p sig = { p with p_sig := insert sig (cancelled p sig) } := by
    unfold sigtoproc
    rw [if_neg (by omega), if_neg unignored]
    simp [asleep, flag]
  rw [posted]
  exact ⟨rfl, issig_iff.mpr ⟨sig, mem_insert_self _ _, unheld, unignored⟩⟩

/-! exit_threads -/

theorem sigtoproc_masks (p : Proc) (sig : Nat) :
    (sigtoproc p sig).p_hold = p.p_hold ∧ (sigtoproc p sig).p_ignore = p.p_ignore := by
  unfold sigtoproc setrun
  grind

theorem psignal_procs (found : s.procs q = some p) :
    psignal s q sig = s.setProc q (sigtoproc p sig) := by
  unfold psignal
  rw [found]

theorem AllPrompt.psignal (prompt : AllPrompt s)
    (spared : ∀ p w, s.procs q = some p → p.p_wchan = some (.waiter w) → ¬ Delivers p sig) :
    AllPrompt (Futex.psignal s q sig) := by
  cases found : s.procs q with
  | none =>
    simp only [Futex.psignal, found]
    exact prompt
  | some p =>
    rw [psignal_procs found]
    exact prompt.setProc (prompt_sigtoproc (prompt q p found) fun w => spared p w found)

theorem AllPrompt.psignals (prompt : AllPrompt s)
    (spared : ∀ q ∈ targets, ∀ p w, s.procs q = some p → p.p_wchan = some (.waiter w) → ¬ Delivers
      p sig) :
    AllPrompt (targets.foldl (fun s q => Futex.psignal s q sig) s) := by
  induction targets generalizing s with
  | nil => exact prompt
  | cons r rest ih =>
    apply ih (prompt.psignal (spared r (by simp)))
    intro q listed p w found slept
    by_cases same : q = r
    · subst same
      cases there : s.procs q with
      | none => simp [Futex.psignal, there] at found
      | some c =>
        rw [psignal_procs there, setProc_self] at found
        cases found
        obtain ⟨hold, ignore⟩ := sigtoproc_masks c sig
        have awake := spared q (by simp) c w there ((follows_sigtoproc c sig).wchan slept)
        unfold Delivers at *
        rwa [hold, ignore]
    · have old : s.procs q = some p := by
        unfold Futex.psignal at found
        split at found
        · exact found
        · rwa [setProc_other same] at found
      exact spared q (by simp [listed]) p w old slept

def Sleeps (w : Nat) (p : Proc) : Prop :=
  p.p_stat = .SSLEEP ∧ p.snwake = true ∧ p.p_wchan = some (.waiter w)

theorem Scheduled.sleeps (placed : Scheduled s) (found : s.procs q = some p)
    (slept : p.p_wchan = some (.waiter w)) : Sleeps w p :=
  ⟨(placed q p found).waits (by simp [slept]), ((placed q p found).asleep w slept).2, slept⟩

theorem kill_sleeper (sleeps : Sleeps w p) : Sleeps w (sigtoproc p SIGKILL) ∧
      (issig p = true ∨ Delivers p SIGKILL → issig (sigtoproc p SIGKILL) = true) := by
  obtain ⟨stat, flag, slept⟩ := sleeps
  have valid : ¬ (SIGKILL = 0 ∨ NSIG ≤ SIGKILL) := by decide
  have kept : cancelled p SIGKILL = p.p_sig := by
    unfold cancelled
    rw [if_neg (by decide), if_neg (by decide)]
  unfold sigtoproc
  rw [if_neg valid, kept]
  split
  case isTrue ignored =>
    refine ⟨⟨stat, flag, slept⟩, ?_⟩
    rintro (pending | delivers)
    · exact pending
    · exact absurd ignored delivers.2.2.1
  case isFalse =>
    simp only [flag, true_or, not_true, and_false, if_false]
    refine ⟨⟨stat, rfl, slept⟩, ?_⟩
    intro cause
    rw [issig_iff]
    rcases cause with pending | delivers
    · obtain ⟨x, posted, free⟩ := issig_iff.mp pending
      exact ⟨x, mem_insert_of_mem posted, free⟩
    · exact ⟨SIGKILL, mem_insert_self _ _, delivers.2.2.2, delivers.2.2.1⟩

theorem kills_sleeper (found : s.procs q = some p) (sleeps : Sleeps w p)
    (cause : issig p = true ∨ q ∈ targets ∧ Delivers p SIGKILL) :
    ∃ c, (targets.foldl (fun s q => psignal s q SIGKILL) s).procs q = some c ∧ Sleeps w c ∧
      issig c = true := by
  induction targets generalizing s p with
  | nil =>
    rcases cause with pending | ⟨listed, _⟩
    · exact ⟨p, found, sleeps, pending⟩
    · simp at listed
  | cons r rest ih =>
    rw [List.foldl_cons]
    by_cases same : q = r
    · subst same
      obtain ⟨still, posted⟩ := kill_sleeper sleeps
      have there : (psignal s q SIGKILL).procs q = some (sigtoproc p SIGKILL) := by
        rw [psignal_procs found, setProc_self]
      exact ih there still (.inl (posted (cause.imp_right And.right)))
    have there : (psignal s r SIGKILL).procs q = some p := by
      unfold psignal
      split
      · exact found
      · rwa [setProc_other same]
    have cause : issig p = true ∨ q ∈ rest ∧ Delivers p SIGKILL := by
      simpa [same] using cause
    exact ih there sleeps cause

theorem AllPrompt.exit_threads (prompt : AllPrompt s) (awake : p.p_wchan = none)
    (spared : Spared s (threads s p)) : AllPrompt (Futex.exit_threads s p) := by
  unfold Futex.exit_threads
  split
  case h_1 =>
    apply AllPrompt.setProc (prompt.map (f := inherit p.p_child) (prompt_inherit p.p_child))
    exact prompt_of_awake (by simp [awake])
  case h_2 =>
    apply AllPrompt.setProc (prompt.psignals spared)
    rw [exit_sleep]
    exact prompt_of_awake (by simp)

theorem spared_of_prompt (placed : Scheduled s) (run : s.running = some r)
    (prompt : AllPrompt (exit_threads s p)) : Spared s (threads s p) := by
  intro q listed c w found slept delivers
  have other : q ≠ s.curproc := by
    rintro rfl
    obtain rfl := some.inj ((procs_of_running run).1.symm.trans found)
    simp [running_awake run placed] at slept
  obtain ⟨c', there, ⟨_, _, asleep⟩, pending⟩ :=
    kills_sleeper found (placed.sleeps found slept) (.inr ⟨listed, delivers⟩)
  unfold exit_threads at prompt
  split at prompt
  case h_1 none => simp [none] at listed
  case h_2 =>
    have here := prompt q c' (by rw [setProc_other other]; exact there) w asleep
    simp [pending] at here

theorem AllPrompt.remove (prompt : AllPrompt s) (q : Nat) :
    AllPrompt { s with procs := Function.update s.procs q none } := by
  intro r c found
  by_cases same : r = q
  · simp [same] at found
  · exact prompt r c (by simpa [same] using found)

theorem prompt_drop_child (parent child q : Nat) (p : Proc) (prompt : Prompt p) :
    Prompt (drop_child parent child q p) := by
  unfold drop_child
  split <;> exact prompt.of_eq rfl ⟨rfl, rfl, rfl⟩

section
variable (prompt : AllPrompt s)
include prompt

theorem AllPrompt.freeproc (q : Nat) (p : Proc) : AllPrompt (Futex.freeproc s q p) :=
  (prompt.map (prompt_drop_child p.p_parent q)).remove q

theorem AllPrompt.segu_release (q : Nat) (p : Proc) : AllPrompt (Futex.segu_release s q p) := by
  unfold Futex.segu_release
  split
  · exact (prompt.wakeprocs _).freeproc q p
  · exact prompt

theorem AllPrompt.dispatch (taken : Futex.dispatch s q = some t) : AllPrompt t := by
  unfold Futex.dispatch at taken
  split at taken
  case h_2 => simp at taken
  case h_1 next old hnext hold =>
    have first : AllPrompt { s.setProc q { next with p_stat := .SONPROC } with curproc := q } :=
      (prompt.setProc (q := q) (p := { next with p_stat := .SONPROC })
        ((prompt q next hnext).of_eq rfl ⟨rfl, rfl, rfl⟩)).of_procs rfl
    split at taken
    case isFalse => simp at taken
    case isTrue =>
      split at taken
      · split at taken
        · cases taken
          exact first.setProc ((prompt _ old hold).of_eq rfl ⟨rfl, rfl, rfl⟩)
        · simp at taken
      · cases taken
        exact first.segu_release _ _
      · cases taken
        exact first

theorem AllPrompt.woken (w : Nat) (waiter : FutexWaiter) : AllPrompt (wake s w waiter) :=
  ((prompt.of_procs (t := s.setWaiter w { waiter with woken := true }) rfl).wakeprocs
    (.waiter w)).of_procs rfl

theorem AllPrompt.own (placed : Scheduled s) (run : s.running = some p)
    (wchan : r.p_wchan = p.p_wchan) : AllPrompt (s.setProc s.curproc r) :=
  prompt.setProc (prompt_of_awake (by simp [wchan, running_awake run placed]))

theorem AllPrompt.step (placed : Scheduled s) (ok : Undisturbed s l)
    (taken : Futex.step s l = some t) : AllPrompt t := by
  cases l with
  | dispatch q => exact prompt.dispatch taken
  | futex_wait uaddr expected timeoutp =>
    obtain ⟨p, run, -, rfl⟩ := wait_of_step taken
    unfold futex_wait
    split
    · exact prompt.of_procs rfl
    · exact prompt.own placed run rfl
  | zalloc w =>
    obtain ⟨p, uaddr, expected, ticks, run, -, -, rfl⟩ := zalloc_of_step taken
    exact (prompt.own placed run (r := { p with pc := .enqueuing w expected ticks }) rfl).of_procs rfl
  | enqueue value =>
    obtain ⟨p, w, expected, ticks, run, -, taken⟩ := enqueue_of_step taken
    obtain ⟨pc, procs, -⟩ := enqueue_procs taken
    exact (prompt.own placed run (r := { p with pc := pc }) rfl).of_procs procs
  | test =>
    obtain ⟨p, w, waiter, run, -, -, rfl⟩ := test_of_step taken
    exact prompt.own placed run rfl
  | sleep =>
    obtain ⟨p, w, run, -, rfl⟩ := sleep_of_step taken
    exact prompt.setProc fun _ _ => ok p run
  | resume =>
    obtain ⟨p, w, run, -, rfl⟩ := resume_of_step taken
    exact prompt.own placed run rfl
  | finish k =>
    obtain ⟨p, w, error, waiter, callout, run, -, -, -, rfl⟩ := finish_of_step taken
    exact (prompt.own placed run (r := { p with pc := .freeing w _ }) rfl).of_procs rfl
  | free =>
    obtain ⟨p, w, error, waiter, run, -, -, rfl⟩ := free_of_step taken
    exact (prompt.own placed run (r := { p with pc := .user }) rfl).of_procs rfl
  | futex_wake uaddr all =>
    obtain ⟨p, run, -, taken⟩ := wake_of_step taken
    unfold futex_wake at taken
    split at taken
    · cases taken
      exact prompt
    · obtain ⟨u, woke, rfl⟩ := map_eq_some_iff.mp taken
      have each := fun s w waiter (prompt : AllPrompt s) => prompt.woken w waiter
      exact (wake_loop_keeps each prompt woke).of_procs rfl
  | newproc child thread as =>
    obtain ⟨p, run, -, taken⟩ := user_of_step rfl taken
    simp only [user_step, newproc] at taken
    split at taken
    · cases taken
      apply AllPrompt.setProc
      · exact prompt.own placed run rfl
      · exact prompt_of_awake (by simp)
    · simp at taken
  | exit =>
    obtain ⟨p, run, -, taken⟩ := user_of_step rfl taken
    cases taken
    unfold exit
    cases thread : p.sthread with
    | true =>
      rw [if_pos rfl]
      exact prompt.own placed run rfl
    | false =>
      rw [if_neg (by simp)]
      exact prompt.exit_threads (running_awake run placed) (ok p run thread)
  | exit_threads =>
    obtain ⟨p, run, -, rfl⟩ := exit_threads_of_step taken
    exact prompt.exit_threads (p := { p with snwake := false })
      (running_awake (p := p) run placed) (ok p run)
  | freeproc q =>
    obtain ⟨p, found, taken⟩ := bind_eq_some_iff.mp taken
    split at taken
    · cases taken
      exact prompt.freeproc q p
    · simp at taken
  | sigprocmask hold | sigaction ignore =>
    obtain ⟨p, run, -, taken⟩ := user_of_step rfl taken
    cases taken
    exact prompt.own placed run rfl
  | psig sig =>
    obtain ⟨p, run, -, taken⟩ := user_of_step rfl taken
    simp only [user_step] at taken
    split at taken
    · cases taken
      exact prompt.own placed run rfl
    · simp at taken
  | psignal q sig =>
    cases taken
    exact prompt.psignal ok
  | clock | timeout tim =>
    cases taken
    exact prompt.of_procs rfl
  | timein k =>
    obtain ⟨e, -, -, ⟨-, rfl⟩ | ⟨w, waiter, -, -, rfl⟩⟩ := timein_of_step taken
    · exact prompt.of_procs rfl
    · split
      · exact prompt.of_procs rfl
      · exact (prompt.of_procs rfl).wakeprocs _
  | untimeout id k =>
    obtain ⟨callout, -, rfl⟩ := map_eq_some_iff.mp taken
    exact prompt.of_procs rfl

end

theorem undisturbed_of_prompt (placed : Scheduled s) (taken : step s l = some t)
    (prompt : AllPrompt t) : Undisturbed s l := by
  cases l with
  | sleep =>
    obtain ⟨p, w, run, -, rfl⟩ := sleep_of_step taken
    intro c run'
    obtain rfl := some.inj (run.symm.trans run')
    have here := prompt s.curproc { p with
      p_stat := .SSLEEP, p_wchan := some (.waiter w), snwake := true, pc := .sleeping w }
    exact here setProc_self w rfl
  | psignal q sig =>
    cases taken
    intro p w found slept delivers
    obtain ⟨stat, flag, -⟩ := placed.sleeps found slept
    obtain ⟨wchan, pending⟩ := sigtoproc_sleeper stat flag delivers
    have there : (psignal s q sig).procs q = some (sigtoproc p sig) := by
      rw [psignal_procs found, setProc_self]
    have quiet := prompt q _ there w (wchan.trans slept)
    simp [pending] at quiet
  | exit =>
    obtain ⟨p, run, -, taken⟩ := user_of_step rfl taken
    cases taken
    intro c run' process
    obtain rfl := some.inj (run.symm.trans run')
    simp only [exit, process, Bool.false_eq_true, if_false] at prompt
    exact spared_of_prompt placed run prompt
  | exit_threads =>
    obtain ⟨p, run, -, rfl⟩ := exit_threads_of_step taken
    intro c run'
    obtain rfl := some.inj (run.symm.trans run')
    exact spared_of_prompt (p := { p with snwake := false }) placed run prompt
  | _ => trivial

theorem boot_prompt : AllPrompt boot := by
  intro q p found
  by_cases one : q = 1
  · subst one
    obtain rfl := by simpa [boot] using found
    exact prompt_of_awake (by simp)
  · simp [boot, one] at found

/-- A run keeps every thread in do_futex_wait within reach of signals, and exit_threads from waiting
for one out of reach, exactly if no signal meets such a sleep. -/
theorem teardown_iff_undisturbed {run : List Label} {s : Kernel} (ran : exec step boot run = some s) :
    (Throughout step Responsive boot run ↔ Guarded step Undisturbed boot run) := by
  constructor
  · intro through
    refine guarded_of_throughout Scheduled (fun _ _ _ => step_scheduled) ?_ boot_scheduled through ran
    intro s l t placed taken responsive
    exact undisturbed_of_prompt placed taken responsive.prompt
  · intro guarded
    refine throughout_of_guarded (fun s => Scheduled s ∧ AllPrompt s)
      (fun s kept => kept.2.responsive) ?_ ⟨boot_scheduled, boot_prompt⟩ guarded
    intro s l t ⟨placed, prompt⟩ ok taken
    exact ⟨step_scheduled placed taken, prompt.step placed ok taken⟩

def orderly_teardown : List Label :=
  [.newproc 2 false 5, .dispatch 2, .newproc 3 true 0, .dispatch 3, .futex_wait 100 0 none,
    .zalloc 7, .enqueue (some 0), .test, .sleep, .dispatch 2, .futex_wake 100 false, .dispatch 3,
    .resume, .test, .finish 0, .free, .exit, .dispatch 2, .exit]

theorem teardown_iff_undisturbed_orderly : ∃ s, exec step boot orderly_teardown = some s ∧
    (Throughout step Responsive boot orderly_teardown ↔
      Guarded step Undisturbed boot orderly_teardown) := by
  obtain ⟨s, ran⟩ := isSome_iff_exists.mp
    (show (exec step boot orderly_teardown).isSome = true by decide)
  exact ⟨s, ran, teardown_iff_undisturbed ran⟩

def exit_during_wait : List Label :=
  [.newproc 2 false 5, .dispatch 2, .newproc 3 true 0, .dispatch 3, .futex_wait 100 0 none,
    .zalloc 7, .enqueue (some 0), .test, .sleep, .dispatch 2, .exit]

theorem deadlocked_of_parts {t q w : Nat} {p c : Proc} (hp : s.procs t = some p)
    (hc : s.procs q = some c) (facts : p.pc = .exiting ∧ p.p_stat = .SSLEEP ∧ p.p_child = [q] ∧
      c.sthread = true ∧ c.p_wchan = some (.waiter w) ∧ issig c = true)
    (untimed : s.callout = []) : Deadlocked s := by
  obtain ⟨pc, stat, children, thread, slept, pending⟩ := facts
  refine ⟨t, p, q, c, w, hp, pc, stat, ?_, hc, slept, pending, by simp [untimed]⟩
  simp [threads, children, hc, thread]

theorem exit_during_wait_deadlocks :
    ∃ s, exec step boot exit_during_wait = some s ∧ Deadlocked s := by
  obtain ⟨s, ran⟩ := isSome_iff_exists.mp
    (show (exec step boot exit_during_wait).isSome = true by decide)
  have seen : (exec step boot exit_during_wait).map (fun s =>
      ((s.procs 2).map fun p => (p.pc, p.p_stat, p.p_child))) =
      some (some (.exiting, .SSLEEP, [3])) := by decide
  have seen' : (exec step boot exit_during_wait).map (fun s =>
      ((s.procs 3).map fun c => (c.sthread, c.p_wchan, issig c), s.callout)) =
      some (some (true, some (.waiter 7), true), []) := by decide
  rw [ran] at seen seen'
  simp only [map_some, some.injEq, Prod.mk.injEq, map_eq_some_iff] at seen seen'
  obtain ⟨p, hp, pc, stat, children⟩ := seen
  obtain ⟨⟨c, hc, thread, slept, pending⟩, untimed⟩ := seen'
  exact ⟨s, ran, deadlocked_of_parts hp hc ⟨pc, stat, children, thread, slept, pending⟩ untimed⟩

end Futex
