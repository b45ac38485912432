import Mathlib.Logic.Function.Iterate
import Svr4.Ts.Slices

/- Every time slice at a user mode priority expires. -/
namespace Ts
open Function LabelledRuns

variable {c : Config} {s s' : State} {t u : Tsproc} {p : Nat} {reqpcredp : Option Bool}
  {wasonq : Bool} {call : Call}

def Moved (c : Config) (s s' : State) (p : Nat) : Prop :=
  s'.plist = s.plist ∧ ∃ u, s'.tsprocs = update s.tsprocs p u ∧ Sound c u

theorem AllSound.moved (sound : AllSound c s) (moved : Moved c s s' p) : AllSound c s' := by
  obtain ⟨plist, u, procs, new⟩ := moved
  exact sound.update new (fun q hq => .inr (plist ▸ hq)) procs

/-- A process on the dispatch queue goes to its back with a full quantum. Another is marked for it.
-/
theorem requeue_spec (s : State) (procs : Nat → Tsproc) (wasonq : Bool) (ranked : Ranked c t)
    (same : s.tsprocs = procs) :
    ((if wasonq = true then s.set p (full_quantum c t)
        else s.set p { t with tsbackq := true }).plist = s.plist) ∧
      ∃ u, (if wasonq = true then s.set p (full_quantum c t)
        else s.set p { t with tsbackq := true }).tsprocs = update procs p u ∧ Sound c u := by
  subst same
  split
  · exact ⟨rfl, _, rfl, ranked.full_quantum⟩
  · exact ⟨rfl, _, rfl, ranked.back_of_queue⟩

theorem tick_spec (sound : Sound c (s.tsprocs p)) (wasonq : Bool) :
    Moved c s (ts_tick c s p wasonq) p := by
  have kept : Moved c s s p := ⟨rfl, s.tsprocs p, (update_eq_self p s.tsprocs).symm, sound⟩
  unfold ts_tick
  dsimp only
  split
  · exact kept
  split
  · have ranked : Ranked c { s.tsprocs p with ts_timeleft := (s.tsprocs p).ts_timeleft - 1 } :=
      { sound with }
    have level := (c.entry sound.entry).2.1
    exact requeue_spec _ _ _ { ranked.new_level level.1 level.2 with } rfl
  · refine ⟨rfl, _, rfl, { sound with }, fun user back => ?_⟩
    obtain ⟨left, d, listed, most⟩ := sound.slice user back
    exact ⟨show 1 ≤ (s.tsprocs p).ts_timeleft - 1 by omega, d, listed,
      show (s.tsprocs p).ts_timeleft - 1 ≤ _ by omega⟩

theorem update_proc_spec (wasonq : Nat → Bool) (sound : Sound c (s.tsprocs p)) :
    Moved c s (update_proc c wasonq s p) p := by
  have kept : Moved c s s p := ⟨rfl, s.tsprocs p, (update_eq_self p s.tsprocs).symm, sound⟩
  unfold update_proc
  dsimp only
  split
  · exact kept
  · split
    · exact kept
    · split
      · exact ⟨rfl, _, rfl, { sound with }, sound.slice⟩
      · have level := (c.entry sound.entry).2.2.2
        exact requeue_spec _ _ _ { sound.toRanked.new_level level.1 level.2 with } rfl

theorem update_procs_spec (wasonq : Nat → Bool) {ps : List Nat} (listed : ∀ p ∈ ps, p ∈ s.plist)
    (sound : AllSound c s) : AllSound c (ps.foldl (update_proc c wasonq) s) := by
  induction ps generalizing s with
  | nil => exact sound
  | cons p ps ih =>
    have moved := update_proc_spec wasonq (sound p (listed p (by simp)))
    refine ih (fun q hq => ?_) (sound.moved moved)
    rw [moved.1]
    exact listed q (by simp [hq])

theorem trapret_spec (sound : Sound c (s.tsprocs p)) : Moved c s (ts_trapret c s p) p := by
  unfold ts_trapret
  dsimp only
  split
  · exact ⟨rfl, s.tsprocs p, (update_eq_self p s.tsprocs).symm, sound⟩
  · have level := (c.entry sound.entry).2.2.1
    have awake : Ranked c (user_globpri c { new_umdpri c { s.tsprocs p with
        ts_cpupri := (c.dp (s.tsprocs p).ts_cpupri).ts_slpret } with tskpri := false }) :=
      { sound.toRanked.new_level level.1 level.2 with }
    exact ⟨rfl, _, rfl, { awake with }, awake.full_quantum.slice⟩

theorem setrun_spec (sound : Sound c (s.tsprocs p)) : Moved c s (ts_setrun c s p) p := by
  unfold ts_setrun
  dsimp only
  split
  · exact ⟨rfl, _, rfl, { sound with }, fun _ _ =>
      ⟨(c.entry (c.dp_mem sound.umdpri.2)).1, _, c.dp_mem sound.umdpri.2, Int.le_refl _⟩⟩
  · rename_i kernel
    exact ⟨rfl, _, rfl, { sound with }, fun user _ => absurd user kernel⟩

/-- A preempted process goes to the back with a full quantum, unless it has just forked. -/
theorem preempt_spec (sound : Sound c (s.tsprocs p))
    (careful : ((s.tsprocs p).tsbackq = true → (s.tsprocs p).tskpri = false →
      (s.tsprocs p).tsfork = true → SliceLeft c (s.tsprocs p))) :
    Moved c s (ts_preempt c s p) p := by
  unfold ts_preempt
  dsimp only
  split
  · exact ⟨rfl, _, rfl, { sound with }, fun _ _ =>
      ⟨(c.entry (c.dp_mem sound.umdpri.2)).1, _, c.dp_mem sound.umdpri.2, Int.le_refl _⟩⟩
  · rename_i kernel _
    exact ⟨rfl, _, rfl, { sound with }, fun user _ =>
      absurd (user.symm.trans kernel) (by simp)⟩
  · rename_i back user fork
    exact ⟨rfl, _, rfl, { sound with }, fun _ _ => careful back user fork⟩
  · exact ⟨rfl, s.tsprocs p, (update_eq_self p s.tsprocs).symm, sound⟩

theorem fork_spec {pp : Nat} (cp : Nat) (sound : Sound c (s.tsprocs pp)) (p_stat : Stat) (p_pri : Int)
    (sprocio : Bool) :
    (ts_fork c s pp cp p_stat p_pri sprocio).plist = cp :: s.plist ∧
      ∃ u, (ts_fork c s pp cp p_stat p_pri sprocio).tsprocs = update s.tsprocs cp u ∧ Sound c u :=
  ⟨rfl, _, rfl, { sound with }, fun _ _ =>
    ⟨(c.entry (c.dp_mem sound.umdpri.2)).1, _, c.dp_mem sound.umdpri.2, Int.le_refl _⟩⟩

def Call.Unprivileged : Call → Prop
  | .enterclass _ _ reqpcredp _ _ _ _ => reqpcredp = some false
  | .parmsset _ _ reqpcredp _ => reqpcredp = some false
  | .donice _ _ suser p_v86 _ => suser = false ∧ p_v86 = false
  | _ => False

def LimitsKept (s : State) (call : Call) (s' : State) : Prop :=
  call.Unprivileged → ∀ q ∈ s'.plist,
    (s'.tsprocs q).ts_uprilim ≤ if q ∈ s.plist then (s.tsprocs q).ts_uprilim else 0

theorem limits_of_same (s : State) (call : Call) : LimitsKept s call s := by
  intro _ q hq
  exact Int.le_of_eq (if_pos hq).symm

instance (c : Config) (t : Tsproc) : Decidable (SliceLeft c t) :=
  inferInstanceAs (Decidable (_ ∧ ∃ d ∈ c.ts_dptbl, _))

/-- A process does not enter with the lowest priority of all. A priority is requested outright, and
not above the limit. A nice value counts for no less than a negative limit. Who is preempted after a
fork, or woken at a user mode priority, has some of its time slice left if it was to get a new one.
-/
def Careful (c : Config) (s : State) : Call → Prop
  | .enterclass _ (some parms) reqpcredp _ memory _ _ =>
    memory = none ∨ (reqpcredp = some false ∧ entry_uprilim parms > 0) ∨
      entry_upri parms ≠ -c.ts_maxupri
  | .parmsset p parms reqpcredp _ =>
    (reqpcredp = some false ∧ granted_uprilim parms (s.tsprocs p) > (s.tsprocs p).ts_uprilim) ∨
      (parms.ts_upri ≠ TS_NOCHANGE ∧ parms.ts_upri ≤ granted_uprilim parms (s.tsprocs p))
  | .donice p incr suser p_v86 _ =>
    suser = true ∨ p_v86 = true ∨ (incr < 0 ∨ incr > 2 * NZERO) ∨ 0 ≤ (s.tsprocs p).ts_uprilim ∨
      -((s.tsprocs p).ts_uprilim * NZERO) ≤
        (min (2 * NZERO - 1) ((s.tsprocs p).ts_nice + incr) - NZERO) * c.ts_maxupri
  | .preempt p =>
    (s.tsprocs p).tsbackq = true → (s.tsprocs p).tskpri = false → (s.tsprocs p).tsfork = true →
      SliceLeft c (s.tsprocs p)
  | .wakeup p =>
    (s.tsprocs p).tsbackq = true → (s.tsprocs p).tskpri = false → SliceLeft c (s.tsprocs p)
  | _ => True

instance Careful.decidable (c : Config) (s : State) : (call : Call) → Decidable (Careful c s call)
  | .enterclass _ (some _) _ _ _ _ _ => inferInstanceAs (Decidable (_ ∨ _ ∨ _))
  | .enterclass _ none _ _ _ _ _ | .exitclass _ | .fork .. | .forkret _ | .setrun _ | .sleep ..
  | .tick .. | .trapret _ | .update _ | .dispatch .. | .status .. =>
    inferInstanceAs (Decidable True)
  | .parmsset .. | .donice .. => inferInstanceAs (Decidable (_ ∨ _))
  | .preempt _ => inferInstanceAs (Decidable (_ → _ → _ → _))
  | .wakeup _ => inferInstanceAs (Decidable (_ → _ → _))

theorem enterclass_kept {parms : Option Tsparms} {memory : Option Int} {p_stat : Stat}
    {sprocio : Bool} (sound : AllSound c s)
    (possible : (Call.enterclass p parms reqpcredp wasonq memory p_stat sprocio).Possible c s)
    (careful : Careful c s (.enterclass p parms reqpcredp wasonq memory p_stat sprocio)) :
    AllSound c (done s (ts_enterclass c s p parms reqpcredp wasonq memory p_stat sprocio)) ∧
      LimitsKept s (.enterclass p parms reqpcredp wasonq memory p_stat sprocio)
        (done s (ts_enterclass c s p parms reqpcredp wasonq memory p_stat sprocio)) := by
  cases ok : ts_enterclass c s p parms reqpcredp wasonq memory p_stat sprocio with
  | error e => exact ⟨sound, limits_of_same s _⟩
  | ok s' =>
    have above : ∀ q ∈ parms, entry_upri q ≠ -c.ts_maxupri := by
      rintro q rfl
      rcases careful with none | refused | above
      · subst none
        cases ok
      · unfold ts_enterclass at ok
        split at ok
        · cases ok
        · dsimp only at ok
          rw [if_pos refused] at ok
          cases ok
      · exact above
    obtain ⟨plist, u, procs, new, limit⟩ := enterclass_spec ok possible.2 above
    have listed : ∀ q ∈ s'.plist, q = p ∨ q ∈ s.plist := by
      intro q hq
      rw [plist] at hq
      exact List.mem_cons.mp hq
    refine ⟨sound.update new listed procs, fun unprivileged q hq => ?_⟩
    change (s'.tsprocs q).ts_uprilim ≤ _
    rw [procs]
    by_cases here : q = p
    · subst here
      rw [if_neg possible.1, update_self]
      exact limit unprivileged
    · have old : q ∈ s.plist := (listed q hq).resolve_left here
      exact Int.le_of_eq (by rw [update_of_ne here, if_pos old])

theorem limits_of_moved (plist : s'.plist = s.plist) (procs : s'.tsprocs = update s.tsprocs p u)
    (limit : call.Unprivileged → u.ts_uprilim ≤ (s.tsprocs p).ts_uprilim) :
    LimitsKept s call s' := by
  intro unprivileged q hq
  rw [plist] at hq
  rw [if_pos hq, procs]
  by_cases here : q = p
  · subst here
    rw [update_self]
    exact limit unprivileged
  · exact Int.le_of_eq (by rw [update_of_ne here])

theorem parmsset_kept {parms : Tsparms} (sound : AllSound c s)
    (possible : (Call.parmsset p parms reqpcredp wasonq).Possible c s)
    (careful : Careful c s (.parmsset p parms reqpcredp wasonq)) :
    AllSound c (done s (ts_parmsset c s p parms reqpcredp wasonq)) ∧
      LimitsKept s (.parmsset p parms reqpcredp wasonq)
        (done s (ts_parmsset c s p parms reqpcredp wasonq)) := by
  cases ok : ts_parmsset c s p parms reqpcredp wasonq with
  | error e => exact ⟨sound, limits_of_same s _⟩
  | ok s' =>
    have outright : granted_upri parms (s.tsprocs p) = parms.ts_upri := by
      rcases careful with refused | ⟨change, limited⟩
      · unfold ts_parmsset at ok
        rw [if_pos refused] at ok
        cases ok
      · unfold granted_upri
        rw [if_neg change, if_neg (by omega)]
    obtain ⟨plist, u, procs, new, -, limit⟩ :=
      parmsset_spec ok possible.2 (sound p possible.1).toRanked (by rw [outright])
    exact ⟨sound.moved ⟨plist, u, procs, new⟩, limits_of_moved plist procs limit⟩

theorem donice_kept {incr : Int} {suser p_v86 wasonq : Bool} (sound : AllSound c s)
    (possible : (Call.donice p incr suser p_v86 wasonq).Possible c s)
    (careful : Careful c s (.donice p incr suser p_v86 wasonq)) :
    AllSound c (done s (donice c s p incr suser p_v86 wasonq)) ∧
      LimitsKept s (.donice p incr suser p_v86 wasonq)
        (done s (donice c s p incr suser p_v86 wasonq)) := by
  unfold donice
  split
  · exact ⟨sound, limits_of_same s _⟩
  rename_i permitted
  have ranked := (sound p possible).toRanked
  obtain ⟨plist, u, procs, new, limit⟩ := donice_spec incr wasonq ranked
  refine ⟨sound.moved ⟨plist, u, procs, new⟩, limits_of_moved plist procs ?_⟩
  rintro ⟨rfl, rfl⟩
  rw [limit]
  have nice := ranked.nice
  have small : 0 ≤ incr ∧ incr ≤ 2 * NZERO := by
    by_contra large
    exact permitted ⟨rfl, by omega, rfl⟩
  have new_nice : newnice (s.tsprocs p) incr =
      min (2 * NZERO - 1) ((s.tsprocs p).ts_nice + incr) := by
    unfold newnice NZERO at *
    dsimp only
    split <;> split <;> (try split) <;> omega
  rw [new_nice]
  have careful : 0 ≤ (s.tsprocs p).ts_uprilim ∨ -((s.tsprocs p).ts_uprilim * NZERO) ≤
      (min (2 * NZERO - 1) ((s.tsprocs p).ts_nice + incr) - NZERO) * c.ts_maxupri := by
    rcases careful with root | v86 | refused | kept
    · cases root
    · cases v86
    · omega
    · exact kept
  exact limit_kept ranked (by omega) (by omega) careful

theorem forkret_spec (sound : AllSound c s) (pp : Option Nat) : AllSound c (ts_forkret s pp) := by
  cases pp with
  | none => exact sound
  | some pp =>
    intro q hq
    change Sound c (update s.tsprocs pp { s.tsprocs pp with tsbackq := true, tsfork := true } q)
    by_cases here : q = pp
    · subst here
      rw [update_self]
      exact ⟨{ sound q hq with }, fun _ back => by cases back⟩
    · rw [update_of_ne here]
      exact sound q hq

theorem step_kept (sound : AllSound c s) (careful : Careful c s call)
    (taken : step c s call = some s') : AllSound c s' ∧ LimitsKept s call s' := by
  unfold step at taken
  split at taken
  · rename_i possible
    obtain rfl := Option.some.inj taken
    cases call with
    | enterclass p parms reqpcredp wasonq memory p_stat sprocio =>
      exact enterclass_kept sound possible careful
    | parmsset p parms reqpcredp wasonq => exact parmsset_kept sound possible careful
    | donice p incr suser p_v86 wasonq => exact donice_kept sound possible careful
    | exitclass p => exact ⟨fun q hq => sound q (List.mem_of_mem_erase hq), nofun⟩
    | fork pp cp p_stat p_pri sprocio =>
      obtain ⟨plist, u, procs, new⟩ := fork_spec cp (sound pp possible.1) p_stat p_pri sprocio
      exact ⟨sound.update new (fun q hq => List.mem_cons.mp (plist ▸ hq)) procs, nofun⟩
    | forkret pp => exact ⟨forkret_spec sound pp, nofun⟩
    | preempt p => exact ⟨sound.moved (preempt_spec (sound p possible) careful), nofun⟩
    | setrun p => exact ⟨sound.moved (setrun_spec (sound p possible)), nofun⟩
    | sleep p disp =>
      exact ⟨sound.moved ⟨rfl, _, rfl, { sound p possible with }, fun user => by cases user⟩, nofun⟩
    | wakeup p =>
      refine ⟨sound.moved ⟨rfl, _, rfl, { sound p possible with }, fun user _ => ?_⟩, nofun⟩
      cases back : (s.tsprocs p).tsbackq with
      | true => exact careful back user
      | false => exact (sound p possible).slice user back
    | tick p wasonq => exact ⟨sound.moved (tick_spec (sound p possible) wasonq), nofun⟩
    | trapret p => exact ⟨sound.moved (trapret_spec (sound p possible)), nofun⟩
    | update wasonq =>
      exact ⟨update_procs_spec wasonq (fun _ hp => hp) sound, nofun⟩
    | dispatch curproc curpri maxrunpri npwakecnt => exact ⟨sound, nofun⟩
    | status p p_stat sprocio =>
      exact ⟨sound.moved ⟨rfl, _, rfl, { sound p possible with }, (sound p possible).slice⟩, nofun⟩
  · cases taken

def Expiring (s : State) (p : Nat) : Prop :=
  (s.tsprocs p).tskpri = false ∧ (s.tsprocs p).ts_timeleft - 1 = 0

theorem slice_expires (c : Config) (wasonq : Bool) {s : State} {p : Nat}
    (user : (s.tsprocs p).tskpri = false) (left : 1 ≤ (s.tsprocs p).ts_timeleft) :
    Expiring ((fun s => ts_tick c s p wasonq)^[((s.tsprocs p).ts_timeleft - 1).toNat] s) p := by
  obtain ⟨n, hn⟩ : ∃ n, n = ((s.tsprocs p).ts_timeleft - 1).toNat := ⟨_, rfl⟩
  rw [← hn]
  induction n generalizing s with
  | zero => exact ⟨user, show (s.tsprocs p).ts_timeleft - 1 = 0 by omega⟩
  | succ n ih =>
    rw [iterate_succ_apply]
    have running : ts_tick c s p wasonq =
        s.set p { s.tsprocs p with ts_timeleft := (s.tsprocs p).ts_timeleft - 1 } := by
      unfold ts_tick
      dsimp only
      rw [if_neg (by simp [user]), if_neg (by omega)]
    rw [running]
    exact ih (by simpa using user) (by simp; omega) (by simp; omega)

/-- What the class keeps in every state: ranks, and time slices that expire. -/
structure Fair (c : Config) (s : State) : Prop where
  sound : AllSound c s
  expires : ∀ p ∈ s.plist, (s.tsprocs p).tskpri = false → (s.tsprocs p).tsbackq = false →
    ∀ wasonq, ∃ n, Expiring ((fun s => ts_tick c s p wasonq)^[n] s) p

theorem AllSound.fair (sound : AllSound c s) : Fair c s := ⟨sound, fun p hp user back wasonq =>
    ⟨_, slice_expires c wasonq user ((sound p hp).slice user back).1⟩⟩

/-- In a run of careful calls all processes keep their ranks, time slices expire, and limits are not
raised by unprivileged requests. -/
theorem slices_kept {tsprocs : Nat → Tsproc} {curproc : Nat} {curpri maxrunpri : Int}
    {calls : List Call} {s : State}
    (careful : Guarded (step c) (Careful c) (ts_init tsprocs curproc curpri maxrunpri) calls)
    (run : exec (step c) (ts_init tsprocs curproc curpri maxrunpri) calls = some s) :
    Fair c s ∧ ∀ call s', Careful c s call → step c s call = some s' → LimitsKept s call s' := by
  have sound : AllSound c s := exec_invariant (AllSound c)
    (fun _ _ _ hs guarded taken => (step_kept hs guarded taken).1)
    (fun _ hq => absurd hq List.not_mem_nil) careful run
  exact ⟨sound.fair, fun call s' ok taken => (step_kept sound ok taken).2⟩

def two_levels : Config where
  ts_dptbl := [⟨10, 2, 0, 1, 5, 1⟩, ⟨20, 1, 0, 1, 5, 1⟩]
  ts_kmdpris := [60, 61]
  ts_maxupri := 20
  accepted := ⟨[⟨10, 2, 0, 1, 5, 1⟩, ⟨20, 1, 0, 1, 5, 1⟩],
    [⟨10, 2, 0, 1, 5, 1⟩, ⟨20, 1, 0, 1, 5, 1⟩], rfl⟩
  entries := by decide
  range := by decide

def idle : State :=
  ts_init (fun _ => ⟨0, 0, 0, 0, 0, 0, false, false, false, 0, .SIDL, 0, false, none⟩) 0 0 0

def careful_calls : List Call :=
  [.enterclass 1 none none false (some 0) .SRUN false, .setrun 1, .dispatch 1 10 0 0, .sleep 1 0,
    .wakeup 1, .trapret 1, .parmsset 1 ⟨0, 0⟩ (some false) false, .preempt 1,
    .donice 1 4 false false false, .preempt 1, .fork 1 2 .SRUN 10 false, .forkret (some 1),
    .preempt 1, .update (fun _ => true), .tick 1 false]

theorem slices_kept_of_calls :
    ∃ s, exec (step two_levels) idle careful_calls = some s ∧ Fair two_levels s ∧
      ∀ call s', Careful two_levels s call → step two_levels s call = some s' →
        LimitsKept s call s' := by
  obtain ⟨s, run⟩ := Option.isSome_iff_exists.mp
    (show (exec (step two_levels) idle careful_calls).isSome = true by decide +kernel)
  exact ⟨s, run, slices_kept (by decide +kernel) run⟩

/-- A process that forks in the tick that ends its slice is preempted without a new one, and its
time never comes to zero again. -/
def late_fork : List Call :=
  [.enterclass 1 none none true (some 0) .SRUN false, .dispatch 1 10 0 0, .tick 1 false,
    .tick 1 false, .fork 1 2 .SRUN 10 false, .forkret (some 1), .preempt 1]

theorem slice_lost_in_fork :
    ∃ s, exec (step two_levels) idle late_fork = some s ∧ ¬ Fair two_levels s := by
  obtain ⟨s, run⟩ := Option.isSome_iff_exists.mp
    (show (exec (step two_levels) idle late_fork).isSome = true by decide +kernel)
  have state : (exec (step two_levels) idle late_fork).map (fun s => decide
      (1 ∈ s.plist ∧ (s.tsprocs 1).tskpri = false ∧ (s.tsprocs 1).tsbackq = false ∧
        (s.tsprocs 1).ts_timeleft = 0)) = some true := by decide +kernel
  rw [run] at state
  obtain ⟨listed, user, back, out⟩ : _ ∧ _ ∧ _ ∧ _ := by simpa using state
  refine ⟨s, run, fun fair => ?_⟩
  have left := ((fair.sound 1 listed).slice user back).1
  omega

end Ts
