import Svr4.Futex.Machine

/- Where the processes are: one is on the processor, those inside the unpreempted parts of
   do_futex_wait are that one, and those asleep there have SNWAKE set. -/
namespace Futex
open Option
variable {s t u : Kernel} {l : Label} {p new old p' : Proc} {q w cur r : Nat} {pc : Pc}

def Pc.waiter : Pc → Option Nat
  | .enqueuing w _ _ | .testing w | .calling w | .sleeping w | .finishing w _ | .freeing w _ =>
      some w
  | _ => none

def Pc.queued : Pc → Option Nat
  | .testing w | .calling w | .sleeping w | .finishing w _ => some w
  | _ => none

def Pc.busy : Pc → Bool
  | .enqueuing _ _ _ | .testing _ | .calling _ | .finishing _ _ | .freeing _ _ => true
  | _ => false

theorem waiter_of_queued (queued : pc.queued = some w) : pc.waiter = some w := by
  cases pc <;> simp_all [Pc.queued, Pc.waiter]

def Kernel.at (s : Kernel) (q : Nat) (pc : Pc) : Prop := ∃ p, s.procs q = some p ∧ p.pc = pc

def Kernel.asleep (s : Kernel) (q w : Nat) : Prop :=
  ∃ p, s.procs q = some p ∧ p.p_wchan = some (.waiter w)

structure Placed (cur q : Nat) (p : Proc) : Prop where
  onproc : p.p_stat = .SONPROC → q = cur
  busy : p.pc.busy = true → p.p_stat = .SONPROC
  waits : p.p_wchan ≠ none → p.p_stat = .SSLEEP
  asleep : ∀ w, p.p_wchan = some (.waiter w) → p.pc = .sleeping w ∧ p.snwake = true
  zombie : p.p_stat = .SZOMB → p.pc = .exited

def Scheduled (s : Kernel) : Prop := ∀ q p, s.procs q = some p → Placed s.curproc q p

theorem futex_sleep_uninterruptible : interruptible futexDisp = false := by decide

theorem exit_sleep_uninterruptible : interruptible PZERO = false := by decide

@[simp] theorem setProc_self : (s.setProc q p).procs q = some p := by simp [Kernel.setProc]
@[simp] theorem setProc_other (other : r ≠ q) : (s.setProc q p).procs r = s.procs r := by
  simp [Kernel.setProc, other]

theorem procs_of_running (run : s.running = some p) :
    s.procs s.curproc = some p ∧ p.p_stat = .SONPROC := by
  simpa [Kernel.running, filter_eq_some_iff] using run

structure Follows (old new : Proc) : Prop where
  pc : new.pc = old.pc
  stays : new.p_stat = old.p_stat ∧ new.p_wchan = old.p_wchan ∧ new.snwake = old.snwake
    ∨ old.p_stat = .SSLEEP ∧ new.p_stat = .SRUN ∧ new.p_wchan = none

theorem Follows.refl (p : Proc) : Follows p p := ⟨rfl, .inl ⟨rfl, rfl, rfl⟩⟩

theorem Placed.follow (placed : Placed cur q p) (moved : Follows p new) : Placed cur q new := by
  obtain ⟨pc, ⟨stat, wchan, snwake⟩ | ⟨slept, stat, wchan⟩⟩ := moved
  · constructor
    · rw [stat]
      exact placed.onproc
    · rw [pc, stat]
      exact placed.busy
    · rw [wchan, stat]
      exact placed.waits
    · rw [pc, wchan, snwake]
      exact placed.asleep
    · rw [pc, stat]
      exact placed.zombie
  · constructor
    · simp [stat]
    · intro busy
      rw [pc] at busy
      exact absurd (placed.busy busy) (by simp [slept])
    · simp [wchan]
    · simp [wchan]
    · simp [stat]

theorem follows_awaken (placed : Placed cur q p) (chan : Chan) : Follows p (awaken chan p) := by
  unfold awaken
  split
  case isTrue waits => exact ⟨rfl, .inr ⟨placed.waits (by simp [waits]), rfl, rfl⟩⟩
  case isFalse => exact Follows.refl p

theorem follows_sigtoproc (p : Proc) (sig : Nat) : Follows p (sigtoproc p sig) := by
  unfold sigtoproc setrun
  split
  · exact Follows.refl p
  · split
    · exact ⟨rfl, .inl ⟨rfl, rfl, rfl⟩⟩
    · split
      case isTrue slept => simp only [slept, if_true]; exact ⟨rfl, .inr ⟨slept.1, rfl, rfl⟩⟩
      case isFalse => exact ⟨rfl, .inl ⟨rfl, rfl, rfl⟩⟩

theorem follows_inherit (children : List Nat) (q : Nat) (p : Proc) :
    Follows p (inherit children q p) := by
  unfold inherit
  split
  · exact ⟨rfl, .inl ⟨rfl, rfl, rfl⟩⟩
  · split <;> exact ⟨rfl, .inl ⟨rfl, rfl, rfl⟩⟩

theorem follows_drop_child (parent child q : Nat) (p : Proc) :
    Follows p (drop_child parent child q p) := by
  unfold drop_child
  split <;> exact ⟨rfl, .inl ⟨rfl, rfl, rfl⟩⟩

/-- The rest of the state, and where processes are, is left alone, but for sleepers that become
runnable. -/
structure Same (s t : Kernel) : Prop where
  waiters : t.waiters = s.waiters
  futex_waiters : t.futex_waiters = s.futex_waiters
  callout : t.callout = s.callout
  history : t.serials = s.serials ∧ t.counted = s.counted ∧ t.wakes = s.wakes
    ∧ t.returned = s.returned
  at_waiter : ∀ q pc w, pc.waiter = some w → (t.at q pc ↔ s.at q pc)
  asleep : ∀ q w, t.asleep q w → s.asleep q w

theorem Same.refl (s : Kernel) : Same s s :=
  ⟨rfl, rfl, rfl, ⟨rfl, rfl, rfl, rfl⟩, fun _ _ _ _ => Iff.rfl, fun _ _ h => h⟩

theorem Same.trans (first : Same s t) (second : Same t u) : Same s u := by
  obtain ⟨h1, h2, h3, h4⟩ := first.history
  obtain ⟨k1, k2, k3, k4⟩ := second.history
  exact ⟨second.waiters.trans first.waiters, second.futex_waiters.trans first.futex_waiters,
    second.callout.trans first.callout,
    ⟨k1.trans h1, k2.trans h2, k3.trans h3, k4.trans h4⟩,
    fun q pc w h => (second.at_waiter q pc w h).trans (first.at_waiter q pc w h),
    fun q w h => first.asleep q w (second.asleep q w h)⟩

def Calm (s t : Kernel) : Prop := Scheduled s → Scheduled t ∧ Same s t

theorem Calm.refl (s : Kernel) : Calm s s := fun placed => ⟨placed, Same.refl s⟩

theorem Calm.trans (first : Calm s t) (second : Calm t u) : Calm s u := by
  intro placed
  obtain ⟨placed, same⟩ := first placed
  obtain ⟨placed, same'⟩ := second placed
  exact ⟨placed, same.trans same'⟩

theorem Scheduled.setProc (placed : Scheduled s) (new : Placed s.curproc q p) :
    Scheduled (s.setProc q p) := by
  intro r c found
  by_cases same : r = q
  · subst same
    obtain rfl : p = c := by simpa using found
    exact new
  · rw [setProc_other same] at found
    exact placed r c found

theorem at_setProc : (s.setProc q p).at r pc ↔ if r = q then p.pc = pc else s.at r pc := by
  unfold Kernel.at
  by_cases same : r = q
  · subst same
    simp
  · simp [same]

theorem asleep_setProc :
    (s.setProc q p).asleep r w ↔ if r = q then p.p_wchan = some (.waiter w) else s.asleep r w := by
  unfold Kernel.asleep
  by_cases same : r = q
  · subst same
    simp
  · simp [same]

theorem calm_setProc (found : s.procs q = some old) (new : Placed s.curproc q p)
    (pc : p.pc = old.pc ∨ old.pc.waiter = none ∧ p.pc.waiter = none)
    (wchan : ∀ w, p.p_wchan = some (.waiter w) → old.p_wchan = some (.waiter w)) :
    Calm s (s.setProc q p) := by
  intro placed
  have ats : ∀ r pc w, pc.waiter = some w → ((s.setProc q p).at r pc ↔ s.at r pc) := by
    intro r place w held
    rw [at_setProc]
    by_cases same : r = q
    · subst same
      have here : s.at r place ↔ old.pc = place := by simp [Kernel.at, found]
      rw [if_pos rfl, here]
      rcases pc with pc | ⟨free, free'⟩
      · rw [pc]
      · exact iff_of_false (fun h => by simp [h, held] at free') (fun h => by simp [h, held] at free)
    · rw [if_neg same]
  refine ⟨placed.setProc new, rfl, rfl, rfl, ⟨rfl, rfl, rfl, rfl⟩, ats, ?_⟩
  intro r w slept
  rw [asleep_setProc] at slept
  by_cases same : r = q
  · subst same
    rw [if_pos rfl] at slept
    exact ⟨old, found, wchan w slept⟩
  · rwa [if_neg same] at slept

theorem Follows.wchan (moved : Follows p new) (slept : new.p_wchan = some (.waiter w)) :
    p.p_wchan = some (.waiter w) := by
  obtain ⟨-, ⟨-, wchan, -⟩ | ⟨-, -, wchan⟩⟩ := moved
  · rwa [← wchan]
  · simp [wchan] at slept

theorem calm_map {f : Nat → Proc → Proc}
    (follows : Scheduled s → ∀ q p, s.procs q = some p → Follows p (f q p)) :
    Calm s { s with procs := fun q => (s.procs q).map (f q) } := by
  intro placed
  have moved := follows placed
  refine ⟨?_, rfl, rfl, rfl, ⟨rfl, rfl, rfl, rfl⟩, ?_, ?_⟩
  · intro q p found
    obtain ⟨old, there, rfl⟩ := map_eq_some_iff.mp found
    exact (placed q old there).follow (moved q old there)
  · intro q pc w _
    constructor
    · intro ⟨p, found, here⟩
      obtain ⟨old, there, rfl⟩ := map_eq_some_iff.mp found
      exact ⟨old, there, (moved q old there).pc ▸ here⟩
    · intro ⟨p, found, here⟩
      exact ⟨f q p, by simp [found], (moved q p found).pc.trans here⟩
  · intro q w ⟨p, found, slept⟩
    obtain ⟨old, there, rfl⟩ := map_eq_some_iff.mp found
    exact ⟨old, there, (moved q old there).wchan slept⟩

theorem calm_wakeprocs (chan : Chan) : Calm s (wakeprocs s chan) :=
  calm_map (f := fun _ => awaken chan) fun placed q p found => follows_awaken (placed q p found) chan

theorem calm_psignal (sig : Nat) : Calm s (psignal s q sig) := by
  unfold psignal
  split
  case h_1 => exact Calm.refl s
  case h_2 p found =>
    intro placed
    have moved := follows_sigtoproc p sig
    exact calm_setProc found ((placed q p found).follow moved) (.inl moved.pc)
      (fun w => moved.wchan) placed

theorem calm_psignals (sig : Nat) (targets : List Nat) :
    Calm s (targets.foldl (fun s q => psignal s q sig) s) := by
  induction targets generalizing s with
  | nil => exact Calm.refl s
  | cons q rest ih => exact (calm_psignal sig).trans ih

theorem calm_create (fresh : s.procs q = none) (new : Placed s.curproc q p)
    (free : p.pc.waiter = none) (awake : p.p_wchan = none) : Calm s (s.setProc q p) := by
  intro placed
  refine ⟨placed.setProc new, rfl, rfl, rfl, ⟨rfl, rfl, rfl, rfl⟩, ?_, ?_⟩
  · intro r pc w held
    rw [at_setProc]
    by_cases same : r = q
    · subst same
      rw [if_pos rfl]
      exact iff_of_false (fun h => by simp [h, held] at free) (by simp [Kernel.at, fresh])
    · rw [if_neg same]
  · intro r w slept
    rw [asleep_setProc] at slept
    split at slept
    · simp [awake] at slept
    · exact slept

theorem calm_remove (gone : ∀ pc, s.at q pc → pc.waiter = none) :
    Calm s { s with procs := Function.update s.procs q none } := by
  intro placed
  have others : ∀ r c, Function.update s.procs q none r = some c → r ≠ q ∧ s.procs r = some c := by
    intro r c found
    by_cases same : r = q
    · simp [same] at found
    · exact ⟨same, by simpa [same] using found⟩
  refine ⟨fun r c found => placed r c (others r c found).2, rfl, rfl, rfl, ⟨rfl, rfl, rfl, rfl⟩, ?_, ?_⟩
  · intro r pc w held
    constructor
    · intro ⟨c, found, here⟩
      exact ⟨c, (others r c found).2, here⟩
    · intro ⟨c, found, here⟩
      have other : r ≠ q := by
        intro same
        subst same
        simp [gone pc ⟨c, found, here⟩] at held
      exact ⟨c, by simpa [other] using found, here⟩
  · intro r w ⟨c, found, slept⟩
    exact ⟨c, (others r c found).2, slept⟩

theorem calm_freeproc (found : s.procs q = some p) (dead : p.p_stat = .SZOMB) :
    Calm s (freeproc s q p) := by
  intro placed
  have unlink := calm_map (s := s) (f := drop_child p.p_parent q)
    fun _ r c _ => follows_drop_child p.p_parent q r c
  refine Calm.trans unlink (calm_remove ?_) placed
  intro pc ⟨c, there, here⟩
  have same : c = drop_child p.p_parent q q p := by simpa [found] using there.symm
  rw [← here, same, (follows_drop_child _ _ _ _).pc, (placed q p found).zombie dead]
  rfl

theorem psignals_found (sig : Nat) (targets : List Nat) (found : s.procs q = some p) :
    ∃ c, (targets.foldl (fun s q => psignal s q sig) s).procs q = some c ∧ c.pc = p.pc := by
  induction targets generalizing s p with
  | nil => exact ⟨p, found, rfl⟩
  | cons r rest ih =>
    have one : ∃ c, (psignal s r sig).procs q = some c ∧ c.pc = p.pc := by
      unfold psignal
      split
      case h_1 => exact ⟨p, found, rfl⟩
      case h_2 c there =>
        by_cases same : q = r
        · subst same
          obtain rfl : p = c := by simpa [found] using there
          exact ⟨_, setProc_self, (follows_sigtoproc p sig).pc⟩
        · exact ⟨p, by rw [setProc_other same]; exact found, rfl⟩
    obtain ⟨c, there, here⟩ := one
    obtain ⟨c', there', here'⟩ := ih there
    exact ⟨c', there', here'.trans here⟩

/-! The running process -/

section Running
variable (run : s.running = some p) (placed : Scheduled s)
include run placed

theorem running_placed : Placed s.curproc s.curproc p := placed _ _ (procs_of_running run).1

theorem running_awake : p.p_wchan = none := by
  by_contra waits
  have slept := (running_placed run placed).waits waits
  simp [(procs_of_running run).2] at slept

end Running

theorem calm_own (new : Proc) (run : s.running = some p) (pc : new.pc = p.pc)
    (stat : new.p_stat = p.p_stat) (wchan : new.p_wchan = p.p_wchan) (flag : new.snwake = p.snwake) :
    Calm s (s.setProc s.curproc new) := by
  intro placed
  have moved : Follows p new := ⟨pc, .inl ⟨stat, wchan, flag⟩⟩
  exact calm_setProc (procs_of_running run).1 ((running_placed run placed).follow moved)
    (.inl pc) (fun w => moved.wchan) placed

theorem placed_exited (pc : new.pc = .exited) (stat : new.p_stat = .SZOMB)
    (awake : new.p_wchan = none) : Placed cur q new := by
  constructor <;> simp [pc, stat, awake, Pc.busy]

theorem calm_newproc {child as : Nat} {thread : Bool} (run : s.running = some p)
    (taken : newproc s p child thread as = some t) : Calm s t := by
  unfold newproc at taken
  split at taken
  case isFalse => simp at taken
  case isTrue fresh =>
    rw [isNone_iff_eq_none] at fresh
    cases taken
    have linked := calm_own { p with p_child := child :: p.p_child } run rfl rfl rfl rfl
    refine linked.trans (calm_create ?_ ?_ rfl rfl)
    · rw [setProc_other fresh.2]
      exact fresh.1
    · constructor <;> simp [Pc.busy]

theorem calm_thread_exit_current (run : s.running = some p) (free : p.pc.waiter = none) :
    Calm s (thread_exit_current s p) := by
  intro placed
  have awake := running_awake run placed
  refine calm_setProc (procs_of_running run).1 (placed_exited rfl rfl awake)
    (.inr ⟨free, rfl⟩) ?_ placed
  intro w slept
  exact slept

theorem calm_exit_rest (run : s.running = some p) (free : p.pc.waiter = none)
    (wchan : p'.p_wchan = p.p_wchan) : Calm s (exit_rest s p') := by
  intro placed
  have awake : p'.p_wchan = none := wchan.trans (running_awake run placed)
  have handed := calm_map (s := s) (f := inherit p'.p_child)
    fun _ q c _ => follows_inherit p'.p_child q c
  have found : ((s.procs s.curproc).map (inherit p'.p_child s.curproc))
      = some (inherit p'.p_child s.curproc p) := by rw [(procs_of_running run).1]; rfl
  refine Calm.trans handed (calm_setProc found (placed_exited rfl rfl awake) (.inr ⟨?_, rfl⟩) ?_)
    placed
  · rw [(follows_inherit _ _ _).pc]
    exact free
  · intro w slept
    simp [awake] at slept

theorem exit_sleep (p : Proc) (chan : Chan) : sleep p chan PZERO .exiting .exiting
    = { p with p_stat := .SSLEEP, p_wchan := some chan, snwake := true, pc := .exiting } := by
  simp [sleep, exit_sleep_uninterruptible]

theorem calm_exit_threads (run : s.running = some p) (free : p.pc.waiter = none)
    (wchan : p'.p_wchan = p.p_wchan) : Calm s (exit_threads s p') := by
  unfold exit_threads
  split
  case h_1 => exact calm_exit_rest run free wchan
  case h_2 =>
    obtain ⟨c, there, here⟩ := psignals_found SIGKILL (threads s p') (procs_of_running run).1
    refine Calm.trans (calm_psignals SIGKILL (threads s p')) ?_
    simp only [there, getD_some, exit_sleep]
    refine calm_setProc there ?_ (.inr ⟨here ▸ free, rfl⟩) (by simp)
    constructor <;> simp [Pc.busy]

theorem calm_exit (run : s.running = some p) (user : p.pc = .user) : Calm s (exit s p) := by
  have free : p.pc.waiter = none := by rw [user]; rfl
  unfold exit
  split
  · exact calm_thread_exit_current run free
  · exact calm_exit_threads run free rfl

theorem idle_of_off (placed : Scheduled s) (found : s.procs s.curproc = some old)
    (off : old.p_stat ≠ .SONPROC) (r : Nat) (c : Proc) (there : s.procs r = some c) :
    c.p_stat ≠ .SONPROC := by
  intro running
  obtain rfl := (placed r c there).onproc running
  obtain rfl := some.inj (found.symm.trans there)
  exact off running

theorem calm_switch {next : Proc} (found : s.procs q = some next) (runnable : next.p_stat = .SRUN)
    (idle : ∀ r c, s.procs r = some c → c.p_stat ≠ .SONPROC) :
    Calm s { s.setProc q { next with p_stat := .SONPROC } with curproc := q } := by
  intro placed
  have awake : next.p_wchan = none := by
    by_contra waits
    simp [(placed q next found).waits waits] at runnable
  have new : Placed q q { next with p_stat := .SONPROC } := by
    constructor <;> simp [awake]
  refine ⟨?_, rfl, rfl, rfl, ⟨rfl, rfl, rfl, rfl⟩, ?_, ?_⟩
  · intro r c there
    by_cases same : r = q
    · subst same
      obtain rfl : { next with p_stat := .SONPROC } = c := by simpa using there
      exact new
    · have there : s.procs r = some c := by simpa [same] using there
      have old := placed r c there
      exact { old with onproc := fun stat => absurd stat (idle r c there) }
  · intro r pc w _
    change (s.setProc q { next with p_stat := .SONPROC }).at r pc ↔ s.at r pc
    rw [at_setProc]
    split
    case isTrue same => simp [same, Kernel.at, found]
    case isFalse => rfl
  · intro r w slept
    change (s.setProc q { next with p_stat := .SONPROC }).asleep r w at slept
    rw [asleep_setProc] at slept
    split at slept
    · simp [awake] at slept
    · exact slept

theorem calm_segu_release (found : s.procs q = some p) (dead : p.p_stat = .SZOMB) :
    Calm s (segu_release s q p) := by
  unfold segu_release
  split
  case isFalse => exact Calm.refl s
  case isTrue =>
    intro placed
    have still : awaken (.proc p.p_parent) p = p := by
      unfold awaken
      split
      case isFalse => rfl
      case isTrue waits => simp [(placed q p found).waits (by simp [waits])] at dead
    have there : (wakeprocs s (.proc p.p_parent)).procs q = some p := by
      simp [wakeprocs, found, still]
    exact (calm_wakeprocs _).trans (calm_freeproc there dead) placed

theorem calm_yield {old next : Proc} (hold : s.procs s.curproc = some old)
    (hnext : s.procs q = some next) (runnable : next.p_stat = .SRUN) (stat : old.p_stat = .SONPROC)
    (user : preemptible old.pc = true) :
    Calm s ({ s.setProc q { next with p_stat := .SONPROC } with curproc := q }.setProc s.curproc
      { old with p_stat := .SRUN }) := by
  intro placed
  have other : q ≠ s.curproc := by
    rintro rfl
    obtain rfl := some.inj (hold.symm.trans hnext)
    simp [stat] at runnable
  have calm : old.pc.busy = false := by
    cases here : old.pc <;> simp_all [preemptible, Pc.busy]
  have awake : old.p_wchan = none := by
    by_contra waits
    simp [(placed _ old hold).waits waits] at stat
  have yielded := calm_setProc (p := { old with p_stat := .SRUN }) hold
    (by constructor <;> simp [awake, calm]) (.inl rfl) (fun w slept => slept)
  have hnext' : (s.setProc s.curproc { old with p_stat := .SRUN }).procs q = some next := by
    rw [setProc_other other]
    exact hnext
  have idle := idle_of_off (yielded placed).1 setProc_self (by simp)
  have moved := yielded.trans (calm_switch hnext' runnable idle) placed
  simpa [Kernel.setProc, Function.update_comm other] using moved

theorem calm_dispatch (taken : dispatch s q = some t) : Calm s t := by
  intro placed
  unfold dispatch at taken
  split at taken
  case h_2 => simp at taken
  case h_1 next old hnext hold =>
    split at taken
    case isFalse => simp at taken
    case isTrue runnable =>
      cases stat : old.p_stat with
      | SONPROC =>
        simp only [stat] at taken
        split at taken
        case isFalse => simp at taken
        case isTrue user =>
          cases taken
          exact calm_yield hold hnext runnable stat user placed
      | SZOMB =>
        simp only [stat] at taken
        cases taken
        have other : s.curproc ≠ q := by
          rintro rfl
          obtain rfl := some.inj (hold.symm.trans hnext)
          simp [stat] at runnable
        have idle := idle_of_off placed hold (by simp [stat])
        refine Calm.trans (calm_switch hnext runnable idle) (calm_segu_release ?_ stat) placed
        simpa [other] using hold
      | SSLEEP | SRUN =>
        simp only [stat] at taken
        cases taken
        exact calm_switch hnext runnable (idle_of_off placed hold (by simp [stat])) placed

/-! Steps -/

def Label.quiet : Label → Bool
  | .dispatch _ | .newproc _ _ _ | .exit | .exit_threads | .freeproc _ | .sigprocmask _
  | .sigaction _ | .psig _ | .psignal _ _ | .clock => true
  | _ => false

def Label.from_user : Label → Bool
  | .futex_wait _ _ _ | .futex_wake _ _ | .newproc _ _ _ | .exit | .sigprocmask _ | .sigaction _
  | .psig _ => true
  | _ => false

theorem user_of_kernel_step (system : l.from_user = true) (taken : kernel_step s p pc l = some t) :
    pc = .user ∧ user_step s p l = some t := by
  cases pc <;> cases l <;> simp_all [kernel_step, Label.from_user]

theorem user_of_step (system : l.from_user = true) (taken : step s l = some t) :
    ∃ p, s.running = some p ∧ p.pc = .user ∧ user_step s p l = some t := by
  have by_running : s.running.bind (fun p => kernel_step s p p.pc l) = some t := by
    cases l <;> simp_all [step, Label.from_user]
  obtain ⟨p, run, taken⟩ := bind_eq_some_iff.mp by_running
  exact ⟨p, run, user_of_kernel_step system taken⟩

theorem exit_threads_of_step (taken : step s .exit_threads = some t) :
    ∃ p, s.running = some p ∧ p.pc = .exiting ∧ t = exit_threads s { p with snwake := false } := by
  obtain ⟨p, run, taken⟩ := bind_eq_some_iff.mp taken
  cases pc : p.pc <;> simp [pc, kernel_step, user_step] at taken
  exact ⟨p, run, pc, by rw [← taken, pc]⟩

theorem calm_step (quiet : l.quiet = true) (taken : step s l = some t) : Calm s t := by
  cases l with
  | dispatch q => exact calm_dispatch taken
  | newproc child thread as =>
    obtain ⟨p, run, user, taken⟩ := user_of_step rfl taken
    exact calm_newproc run taken
  | exit =>
    obtain ⟨p, run, user, taken⟩ := user_of_step rfl taken
    cases taken
    exact calm_exit run user
  | exit_threads =>
    obtain ⟨p, run, here, rfl⟩ := exit_threads_of_step taken
    exact calm_exit_threads run (by rw [here]; rfl) rfl
  | freeproc q =>
    obtain ⟨p, found, taken⟩ := bind_eq_some_iff.mp taken
    split at taken
    case isFalse => simp at taken
    case isTrue dead =>
      cases taken
      exact calm_freeproc found dead.1
  | sigprocmask hold | sigaction ignore =>
    obtain ⟨p, run, user, taken⟩ := user_of_step rfl taken
    cases taken
    exact calm_own _ run rfl rfl rfl rfl
  | psig sig =>
    obtain ⟨p, run, user, taken⟩ := user_of_step rfl taken
    simp only [user_step] at taken
    split at taken
    case isFalse => simp at taken
    case isTrue =>
      cases taken
      exact calm_own _ run rfl rfl rfl rfl
  | psignal q sig =>
    cases taken
    exact calm_psignal sig
  | clock =>
    cases taken
    intro placed
    exact ⟨placed, rfl, rfl, rfl, ⟨rfl, rfl, rfl, rfl⟩, fun _ _ _ _ => Iff.rfl, fun _ _ h => h⟩
  | _ => simp [Label.quiet] at quiet

end Futex
