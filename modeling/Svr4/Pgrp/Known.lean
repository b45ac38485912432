import Svr4.Pgrp.Orphans

/- The exit of a process: the groups of its children are marked, and told. -/
namespace Pgrp
open Function List

variable {s t u : State} {p q g h pp : Nat}

/-- A member that neither is `pp` nor hangs on `pp` is linked. -/
def outside (s : State) (pp m : Nat) : Bool :=
  decide (m ≠ pp ∧ (s.procs m).p_parent ≠ some pp ∧ pglinked s.procs m = true)

def job_stopped (s : State) (m : Nat) : Bool :=
  decide ((s.procs m).p_stat = .SSTOP ∧ (s.procs m).p_whystop = .PR_JOBCONTROL)

theorem stopped_members_eq (s : State) (pp n : Nat) (l : List Nat) : stopped_members s pp n l =
      if l.any (outside s pp) = true then none else some (n + l.countP (job_stopped s)) := by
  induction l generalizing n with
  | nil => simp [stopped_members]
  | cons m l ih =>
    unfold stopped_members
    by_cases linked : m ≠ pp ∧ (s.procs m).p_parent ≠ some pp ∧ pglinked s.procs m = true
    · simp [linked, outside]
    · have not_outside : outside s pp m = false := by simpa [outside] using linked
      rw [if_neg linked, any_cons, not_outside, Bool.false_or, ih, ih, countP_cons]
      by_cases stopped : (s.procs m).p_stat = .SSTOP ∧ (s.procs m).p_whystop = .PR_JOBCONTROL
      · have counted : job_stopped s m = true := by simpa [job_stopped] using stopped
        simp [stopped, counted, Nat.add_assoc, Nat.add_comm 1]
      · have counted : job_stopped s m = false := by simpa [job_stopped] using stopped
        simp [stopped, counted]

theorem Marked.outside (marked : Marked s t) (pp : Nat) : outside t pp = outside s pp := by
  funext m
  unfold Pgrp.outside
  rw [marked.procs m, marked.linked]

theorem Marked.job_stopped (marked : Marked s t) : job_stopped t = job_stopped s := by
  funext m
  unfold Pgrp.job_stopped
  rw [marked.procs m]

theorem signals_posted (s : State) {l : List Nat} (once : l.Nodup) (sig : Signal) (m : Nat) :
    ((l.foldl (fun s p => psignal s p sig) s).procs m).posted =
      (s.procs m).posted ++ if m ∈ l then [sig] else [] := by
  induction l generalizing s with
  | nil => simp
  | cons p l ih =>
    obtain ⟨absent, once⟩ := nodup_cons.mp once
    rw [foldl_cons, ih (psignal s p sig) once]
    by_cases here : m = p
    · subst here
      simp [psignal, absent]
    · simp [psignal, here]

theorem signals_orphaned (s : State) (l : List Nat) (sig : Signal) :
    (l.foldl (fun s p => psignal s p sig) s).pids = s.pids := by
  induction l generalizing s with
  | nil => rfl
  | cons p l ih => exact ih (psignal s p sig)

theorem detach_group_spec (s : State) (pp g : Nat) (once : (s.pids g).pid_pglink.Nodup) :
    (∀ h, ((detach_group s pp g).pids h).pid_pgorphaned = ((s.pids h).pid_pgorphaned ||
        (decide (h = g) && !(s.pids g).pid_pglink.any (outside s pp)))) ∧
    ∀ m, ((detach_group s pp g).procs m).posted = (s.procs m).posted ++
      if m ∈ (s.pids g).pid_pglink ∧ (s.pids g).pid_pgorphaned = false ∧
          (s.pids g).pid_pglink.any (outside s pp) = false ∧
          (∃ q ∈ (s.pids g).pid_pglink, job_stopped s q = true)
        then [.SIGHUP, .SIGCONT] else [] := by
  unfold detach_group
  cases bit : (s.pids g).pid_pgorphaned with
  | true =>
    refine ⟨fun h => ?_, fun m => by simp⟩
    by_cases here : h = g <;> simp [here, bit]
  | false =>
    rw [stopped_members_eq]
    cases link : (s.pids g).pid_pglink.any (outside s pp) with
    | true => simp
    | false =>
      obtain ⟨a, ha⟩ : ∃ a, a = setPid s g { s.pids g with pid_pgorphaned := true } := ⟨_, rfl⟩
      have pglink : (a.pids g).pid_pglink = (s.pids g).pid_pglink := by simp [ha]
      have posted : ∀ m, (a.procs m).posted = (s.procs m).posted := by simp [ha]
      have orphaned : ∀ h, (a.pids h).pid_pgorphaned =
          ((s.pids h).pid_pgorphaned || (decide (h = g) && !false)) := by
        intro h
        by_cases here : h = g <;> simp [ha, here]
      simp only [Bool.false_eq_true, if_false, Nat.zero_add, ← ha]
      by_cases stopped : (s.pids g).pid_pglink.countP (job_stopped s) = 0
      · have none_stopped : ¬ ∃ q ∈ (s.pids g).pid_pglink, job_stopped s q = true := by
          rintro ⟨q, hq, is⟩
          exact countP_eq_zero.mp stopped q hq is
        simp only [stopped, ne_eq, not_true_eq_false, if_false]
        exact ⟨orphaned, fun m => by simp [posted, none_stopped]⟩
      have some_stopped : ∃ q ∈ (s.pids g).pid_pglink, job_stopped s q = true :=
        countP_pos_iff.mp (Nat.pos_of_ne_zero stopped)
      have first_pids : (pgsignal a g .SIGHUP).pids = a.pids := signals_orphaned ..
      have both_pids : (pgsignal (pgsignal a g .SIGHUP) g .SIGCONT).pids = a.pids :=
        (signals_orphaned ..).trans first_pids
      simp only [stopped, ne_eq, not_false_eq_true, if_true, both_pids]
      refine ⟨orphaned, fun m => ?_⟩
      have second := signals_posted (pgsignal a g .SIGHUP)
        (l := ((pgsignal a g .SIGHUP).pids g).pid_pglink)
        (by rw [first_pids, pglink]; exact once) .SIGCONT m
      have first := signals_posted a (l := (a.pids g).pid_pglink) (by rw [pglink]; exact once)
        .SIGHUP m
      unfold pgsignal at *
      rw [second, first, posted, first_pids, pglink]
      by_cases hm : m ∈ (s.pids g).pid_pglink <;> simp [hm, some_stopped]

theorem detach_groups_orphaned (once : ∀ g, (s.pids g).pid_pglink.Nodup) (pp : Nat) (l : List Nat)
    (marked : Marked s u) (h : Nat) :
    ((detach_groups pp u l).pids h).pid_pgorphaned =
      ((u.pids h).pid_pgorphaned || (decide (∃ c ∈ l, (s.procs c).p_pgidp = some h) &&
        !(s.pids h).pid_pglink.any (outside s pp))) := by
  induction l generalizing u with
  | nil => simp [detach_groups]
  | cons c l ih =>
    unfold detach_groups
    rw [marked.procs c]
    cases group : (s.procs c).p_pgidp with
    | none =>
      rw [ih marked]
      simp [group]
    | some g =>
      obtain ⟨bits, -⟩ := detach_group_spec u pp g (by rw [marked.pglink]; exact once g)
      rw [ih (marked.trans (detach_group_marked u pp g)), bits h, marked.pglink, marked.outside]
      by_cases here : h = g
      · subst here
        cases (u.pids h).pid_pgorphaned <;>
          cases (s.pids h).pid_pglink.any (outside s pp) <;> simp [group]
      · simp [group, here, Ne.symm here]

theorem detach_groups_posted (grouping : Grouping s) (pp : Nat) (l : List Nat)
    (marked : Marked s u) {m : Nat} (hm : m ∈ (s.pids h).pid_pglink) :
    ((detach_groups pp u l).procs m).posted = (u.procs m).posted ++
      if (u.pids h).pid_pgorphaned = false ∧ (∃ c ∈ l, (s.procs c).p_pgidp = some h) ∧
          (s.pids h).pid_pglink.any (outside s pp) = false ∧
          (∃ q ∈ (s.pids h).pid_pglink, job_stopped s q = true)
        then [.SIGHUP, .SIGCONT] else [] := by
  induction l generalizing u with
  | nil => simp [detach_groups]
  | cons c l ih =>
    unfold detach_groups
    rw [marked.procs c]
    cases group : (s.procs c).p_pgidp with
    | none =>
      rw [ih marked]
      simp [group]
    | some g =>
      obtain ⟨bits, posted⟩ := detach_group_spec u pp g
        (by rw [marked.pglink]; exact grouping.once g)
      rw [ih (marked.trans (detach_group_marked u pp g)), bits h, posted m, marked.pglink,
        marked.outside, marked.job_stopped]
      by_cases here : h = g
      · subst here
        cases (u.pids h).pid_pgorphaned <;>
          cases (s.pids h).pid_pglink.any (outside s pp) <;> simp [group, hm]
      · have elsewhere : m ∉ (s.pids g).pid_pglink := by
          intro hg
          exact here (Option.some.inj ((grouping.group hm).symm.trans (grouping.group hg)))
        simp [group, here, Ne.symm here, elsewhere]

theorem Exited.linked (exited : Exited s t p) (m : Nat) : pglinked t.procs m =
      if m ∈ (s.procs p).p_child then
        decide ((s.procs proc_init).p_pgidp ≠ (s.procs m).p_pgidp ∧
          (s.procs proc_init).p_sessp = (s.procs m).p_sessp)
      else pglinked s.procs m := by
  unfold pglinked
  rw [exited.parent m]
  by_cases child : m ∈ (s.procs p).p_child
  · simp [child, exited.pgidp, exited.sessp]
  · simp only [child, if_false, exited.pgidp, exited.sessp]

theorem Exited.live (exited : Exited s t p) (m : Nat) : Live t m ↔ m ≠ p ∧ Live s m := by
  unfold Live
  rw [exited.stat m]
  by_cases here : m = p <;> simp [here]

/-- After a careful exit a group has a live link if and only if it has one that `p` is not
    part of. -/
theorem Exited.live_link (exited : Exited s t p) (wf : Consistent s) (hp : p ∈ s.practive)
    (careful : CarefulExit s p) (h : Nat) : LiveLink t h ↔ Independent s p h := by
  have marked : Marked s (pgdetach s p) := detach_groups_marked p s _
  unfold LiveLink
  rw [exited.pids, marked.pglink]
  constructor
  · rintro ⟨m, hm, alive, link⟩
    obtain ⟨apart, alive⟩ := (exited.live m).mp alive
    obtain ⟨active, group⟩ := (wf.grouping.members h m).mp hm
    rw [exited.linked m] at link
    by_cases child : m ∈ (s.procs p).p_child
    · rw [if_pos child, group, decide_eq_true_eq] at link
      exact (careful.2.2 m child h group).2 alive link.1 link.2
    · rw [if_neg child] at link
      exact ⟨m, hm, apart, fun parent => child ((wf.tree.child p hp m).mpr ⟨active, parent⟩),
        alive, link⟩
  · rintro ⟨m, hm, apart, parent, alive, link⟩
    have child : m ∉ (s.procs p).p_child := fun mine =>
      parent ((wf.tree.child p hp m).mp mine).2
    refine ⟨m, hm, (exited.live m).mpr ⟨apart, alive⟩, ?_⟩
    rw [exited.linked m, if_neg child, link]

theorem outside_found (h : Nat) :
    (s.pids h).pid_pglink.any (outside s p) = true ↔ Independent s p h ∨ ZombieLink s p h := by
  rw [any_eq_true]
  unfold outside
  constructor
  · rintro ⟨m, hm, is⟩
    obtain ⟨apart, parent, link⟩ := decide_eq_true_eq.mp is
    by_cases alive : Live s m
    · exact .inl ⟨m, hm, apart, parent, alive, link⟩
    · exact .inr ⟨m, hm, apart, parent, alive, link⟩
  · rintro (⟨m, hm, apart, parent, -, link⟩ | ⟨m, hm, apart, parent, -, link⟩) <;>
      exact ⟨m, hm, by simp [apart, parent, link]⟩

theorem Right.kept_by_exit (right : Right s) (wf : Consistent s) (hp : p ∈ s.practive)
    (careful : CarefulExit s p) : Right (exit s p) := by
  have exited := exit_spec s careful.1.1
  have marked : Marked s (pgdetach s p) := detach_groups_marked p s _
  intro h some
  rw [exited.pids, marked.pglink] at some
  have before := right h some
  rw [exited.live_link wf hp careful, exited.pids]
  unfold pgdetach
  rw [detach_groups_orphaned wf.grouping.once p _ (Marked.refl s) h]
  cases bit : (s.pids h).pid_pgorphaned with
  | true =>
    rw [bit] at before
    simpa using fun independent => before.mp rfl independent.link
  | false =>
    rw [bit] at before
    by_cases seen : ∃ c ∈ (s.procs p).p_child, (s.procs c).p_pgidp = .some h
    · obtain ⟨c, child, group⟩ := seen
      have found : (s.pids h).pid_pglink.any (outside s p) = true ↔ Independent s p h :=
        (outside_found h).trans
          ⟨fun either => either.elim id ((careful.2.2 c child h group).1 bit), .inl⟩
      rw [← found]
      simp only [Bool.false_or, Bool.and_eq_true, decide_eq_true_eq, Bool.not_eq_true',
        Bool.not_eq_true]
      exact and_iff_right ⟨c, child, group⟩
    · obtain ⟨m, hm, alive, link⟩ : LiveLink s h := by simpa using before
      obtain ⟨active, group⟩ := (wf.grouping.members h m).mp hm
      have independent : Independent s p h := by
        by_cases here : m = p
        · subst here
          exact careful.2.1 h group link fun c child same => seen ⟨c, child, same⟩
        · refine ⟨m, hm, here, fun parent => ?_, alive, link⟩
          exact seen ⟨m, (wf.tree.child p hp m).mpr ⟨active, parent⟩, group⟩
      simp [seen, independent]

def JobStopped (s : State) (m : Nat) : Prop :=
  (s.procs m).p_stat = .SSTOP ∧ (s.procs m).p_whystop = .PR_JOBCONTROL

/-- Where the step orphaned a group with a stopped member, all its members have been sent both
signals. -/
def Told (s t : State) : Prop :=
  ∀ g, LiveLink s g → ¬ LiveLink t g → (∃ m ∈ (s.pids g).pid_pglink, JobStopped s m) →
    ∀ m ∈ (s.pids g).pid_pglink, ∃ more,
      (t.procs m).posted = (s.procs m).posted ++ [.SIGHUP, .SIGCONT] ++ more

theorem told_by_exit (right : Right s) (wf : Consistent s) (hp : p ∈ s.practive)
    (careful : CarefulExit s p) : Told s (exit s p) := by
  have exited := exit_spec s careful.1.1
  intro g linked gone stopped m hm
  rw [exited.live_link wf hp careful] at gone
  obtain ⟨k, hk, alive, link⟩ := linked
  have unmarked : (s.pids g).pid_pgorphaned = false := by
    have before := right g (ne_nil_of_mem hk)
    by_contra bit
    exact before.mp (by simpa using bit) ⟨k, hk, alive, link⟩
  have seen : ∃ c ∈ (s.procs p).p_child, (s.procs c).p_pgidp = some g := by
    by_contra unseen
    obtain ⟨active, group⟩ := (wf.grouping.members g k).mp hk
    by_cases here : k = p
    · subst here
      exact gone (careful.2.1 g group link fun c child same => unseen ⟨c, child, same⟩)
    · refine gone ⟨k, hk, here, fun parent => ?_, alive, link⟩
      exact unseen ⟨k, (wf.tree.child p hp k).mpr ⟨active, parent⟩, group⟩
  have nobody : (s.pids g).pid_pglink.any (outside s p) = false := by
    obtain ⟨c, child, group⟩ := seen
    rw [Bool.eq_false_iff, ne_eq, outside_found]
    exact fun either => gone (either.elim id ((careful.2.2 c child g group).1 unmarked))
  obtain ⟨q, hq, stop, why⟩ := stopped
  have posted := detach_groups_posted wf.grouping p (s.procs p).p_child (Marked.refl s) hm
  rw [if_pos ⟨unmarked, seen, nobody, q, hq, by simp [job_stopped, stop, why]⟩] at posted
  obtain ⟨more, extended⟩ := exited.posted m
  refine ⟨more, ?_⟩
  rw [extended]
  unfold pgdetach
  rw [posted]

end Pgrp

/- Process groups over whole runs: who is a member, who holds the pid, and who is orphaned. -/
namespace Pgrp
open LabelledRuns List

variable {s t : State} {p : Nat}

def Careful (s : State) : Call → Prop
  | .newproc _ _ => True
  | .failed p => CarefulFailure s p
  | .setpgrp p _ =>
    (s.sess (s.procs p).p_sessp).s_sidp ≠ p ∧ pgmembers s p = false → CarefulSession s p
  | .setsid p _ =>
    ¬ ((s.procs p).p_pgidp = some p ∨ pgmembers s p = true) → CarefulSession s p
  | .setpgid u_procp pid pgid =>
    match setpgid_target s u_procp pid with
    | .ok p => Moves s p pgid → CarefulMove s p (destination p pgid)
    | .error _ => True
  | .exit p => CarefulExit s p
  | .freeproc _ | .set .. | .hold _ | .rele _ => True

instance decidable_careful (s : State) : (c : Call) → Decidable (Careful s c)
  | .newproc _ _ => inferInstanceAs (Decidable True)
  | .failed p => inferInstanceAs (Decidable (CarefulFailure s p))
  | .setpgrp .. | .setsid .. => inferInstanceAs (Decidable (_ → _))
  | .setpgid u_procp pid pgid =>
    match h : setpgid_target s u_procp pid with
    | .ok p =>
      decidable_of_iff (Moves s p pgid → CarefulMove s p (destination p pgid))
        (by simp only [Careful, h])
    | .error _ => isTrue (by simp only [Careful, h])
  | .exit p => inferInstanceAs (Decidable (CarefulExit s p))
  | .freeproc _ | .set .. | .hold _ | .rele _ => inferInstanceAs (Decidable True)

/-- Groups list their members, hold their pids while they have any, and are marked iff orphaned. -/
structure Known (s : State) : Prop where
  members : ∀ g p, p ∈ (s.pids g).pid_pglink ↔ p ∈ s.practive ∧ (s.procs p).p_pgidp = some g
  once : ∀ g, (s.pids g).pid_pglink.Nodup
  held : ∀ g, (s.pids g).pid_ref =
    (if g ∈ s.practive then 1 else 0) + (if (s.pids g).pid_pglink = [] then 0 else 1) +
      s.sessions.countP (fun sp => decide ((s.sess sp).s_sidp = g)) + s.streams g
  marked : Right s

theorem Right.kept (right : Right s) (wf : Consistent s) (c : Call) (careful : Careful s c)
    (taken : step s c = some t) : Right t := by
  obtain ⟨possible, made⟩ : c.Possible s ∧ perform s c = t := by
    unfold step at taken
    split at taken
    · exact ⟨‹_›, Option.some.inj taken⟩
    · cases taken
  have running : ∀ p, Running s p → Live s p := fun p running => by simp [Live, running.2]
  rw [← made]
  cases c with
  | newproc pp cp => exact right.kept_by_newproc wf possible.1 possible.2.1 possible.2.2
  | failed cp => exact right.kept_by_freeproc wf possible.1 (.inr possible.2) careful
  | setpgrp p sp =>
    change Right (setpgrp s p sp)
    unfold setpgrp
    split
    · rename_i new
      exact right.kept_by_sess_create wf possible.1.1 (running p possible.1) possible.2 new.2
        (careful new)
    · exact right
  | setsid p sp =>
    change Right (done s (setsid s p sp))
    unfold setsid
    split
    · exact right
    · rename_i new
      exact right.kept_by_sess_create wf possible.1.1 (running p possible.1) possible.2
        (by simpa using (not_or.mp new).2) (careful new)
  | setpgid p pid pgid =>
    change Right (done s (setpgid s p pid pgid))
    cases result : setpgid s p pid pgid with
    | error e => exact right
    | ok u =>
      rcases setpgid_moves wf possible.1 result with same | ⟨q, hq, target, moves, moved⟩
      · exact same ▸ right
      · simp only [Careful, target] at careful
        exact moved ▸ right.kept_by_move wf hq moves.2.1 (careful moves)
  | exit p => exact right.kept_by_exit wf possible.1 careful
  | freeproc p =>
    exact right.kept_by_freeproc wf possible.1 (.inl possible.2)
      (careful_of_zombie right wf possible.1 possible.2)
  | set p p_stat p_whystop sexeced strc =>
    refine right.congr (fun _ => ⟨rfl, rfl⟩) ?_ ?_
    · intro m
      by_cases here : m = p
      · subst here
        simp [Live, perform, possible.2.1, possible.2.2.1]
      · simp [Live, perform, here]
    · funext m
      have same : ∀ q, ((perform s (.set p p_stat p_whystop sexeced strc)).procs q).p_parent =
            (s.procs q).p_parent ∧
          ((perform s (.set p p_stat p_whystop sexeced strc)).procs q).p_pgidp =
            (s.procs q).p_pgidp ∧
          ((perform s (.set p p_stat p_whystop sexeced strc)).procs q).p_sessp =
            (s.procs q).p_sessp := by
        intro q
        by_cases here : q = p
        · subst here
          simp [perform]
        · simp [perform, here]
      unfold pglinked
      simp only [(same _).1, (same _).2.1, (same _).2.2]
  | hold g =>
    refine right.congr (fun h => ?_) (fun _ => Iff.rfl) rfl
    by_cases here : h = g <;> simp [perform, PID_HOLD, here]
  | rele g =>
    refine right.congr (fun h => ?_) (fun _ => Iff.rfl) rfl
    by_cases here : h = g <;> simp [perform, PID_RELE, here]

theorem boot_right : Right boot := by
  intro g some
  have unlinked : ¬ LiveLink boot g := by
    rintro ⟨m, -, -, link⟩
    exact Bool.false_ne_true link
  by_cases here : g = proc_sched
  · subst here
    exact iff_of_true rfl unlinked
  · simp [boot, here] at some

theorem adoptable_of_careful {c : Call} (careful : Careful s c) :
    ∀ p, c = .exit p → Adoptable s p := by
  rintro p rfl
  exact careful.1

/-- In every state of a careful run the groups are known, and a careful exit tells those that it
orphans. -/
theorem groups_known {calls : List Call} (careful : Guarded step Careful boot calls)
    (run : exec step boot calls = some s) :
    Known s ∧ ∀ p t, Careful s (.exit p) → step s (.exit p) = some t → Told s t := by
  obtain ⟨wf, right⟩ : Consistent s ∧ Right s :=
    exec_invariant (fun s => Consistent s ∧ Right s)
      (fun s c t kept careful taken => ⟨kept.1.kept c (adoptable_of_careful careful) taken,
        kept.2.kept kept.1 c careful taken⟩) ⟨boot_consistent, boot_right⟩ careful run
  refine ⟨⟨wf.grouping.members, wf.grouping.once, wf.holding.pid_ref, right⟩, ?_⟩
  intro p t careful taken
  obtain ⟨possible, made⟩ : Running s p ∧ exit s p = t := by
    unfold step at taken
    split at taken
    · exact ⟨‹_›, Option.some.inj taken⟩
    · cases taken
  exact made ▸ told_by_exit right wf possible.1 careful

def switch (p q : Nat) : List Call :=
  [.set p .SSLEEP .PR_REQUESTED false false, .set q .SONPROC .PR_REQUESTED false false]

def shell : List Call :=
  [.newproc 0 1] ++ switch 0 1 ++ [.newproc 1 2] ++ switch 1 2 ++ [.setsid 2 1, .newproc 2 3] ++
    switch 2 3 ++ [.setpgid 3 0 0, .newproc 3 4] ++ switch 3 4

/-- The child exits when it has a child, which then is init's; the job collects it, and its
grandchild is stopped. -/
def job : List Call :=
  shell ++ [.newproc 4 5, .exit 4] ++
    [.set 3 .SONPROC .PR_REQUESTED false false, .freeproc 4] ++ switch 3 5 ++
    [.set 5 .SSTOP .PR_JOBCONTROL false false, .set 3 .SONPROC .PR_REQUESTED false false]

def stopped_job : List Call :=
  shell ++ [.set 4 .SSTOP .PR_JOBCONTROL false false, .set 3 .SSTOP .PR_JOBCONTROL false false,
    .set 2 .SONPROC .PR_REQUESTED false false]

/-- The shell exits, which orphans its job, and the job is told. -/
theorem groups_known_of_shell :
    ∃ s t, exec step boot stopped_job = some s ∧ step s (.exit 2) = some t ∧ Known s ∧
      Told s t := by
  obtain ⟨s, run⟩ := Option.isSome_iff_exists.mp
    (show (exec step boot stopped_job).isSome = true by decide +kernel)
  have next : ((exec step boot stopped_job).bind fun s => step s (.exit 2)).isSome = true := by
    decide +kernel
  have careful : (exec step boot stopped_job).map (fun s => decide (Careful s (.exit 2))) =
      some true := by decide +kernel
  rw [run] at next careful
  obtain ⟨t, taken⟩ := Option.isSome_iff_exists.mp next
  obtain ⟨known, told⟩ := groups_known (by decide +kernel) run
  exact ⟨s, t, run, taken, known, told 2 t (by simpa using careful) taken⟩

/-- The group of a job loses its last outside parent with a job leader that exits without children.
It is not marked, and its stopped member not told. -/
theorem childless_exit_unnoticed :
    ∃ s t, exec step boot job = some s ∧ step s (.exit 3) = some t ∧ ¬ Known t ∧ ¬ Told s t := by
  obtain ⟨s, run⟩ := Option.isSome_iff_exists.mp
    (show (exec step boot job).isSome = true by decide +kernel)
  have next : ((exec step boot job).bind fun s => step s (.exit 3)).isSome = true := by
    decide +kernel
  have before : (exec step boot job).map (fun s => decide (LiveLink s 3 ∧
      5 ∈ (s.pids 3).pid_pglink ∧ (s.procs 5).p_stat = .SSTOP ∧
      (s.procs 5).p_whystop = .PR_JOBCONTROL)) = some true := by decide +kernel
  have after : ((exec step boot job).bind fun s => step s (.exit 3)).map (fun t =>
      decide (¬ LiveLink t 3 ∧ (t.pids 3).pid_pgorphaned = false ∧
        (t.pids 3).pid_pglink ≠ [] ∧ (t.procs 5).posted = [])) = some true := by decide +kernel
  rw [run] at next before after
  obtain ⟨t, taken⟩ := Option.isSome_iff_exists.mp next
  simp only [taken, Option.map_some, Option.some.injEq, decide_eq_true_eq]
    at before after
  obtain ⟨linked, member, stop, why⟩ := before
  obtain ⟨unlinked, unmarked, some, silent⟩ := after
  refine ⟨s, t, run, taken, fun known => ?_, fun told => ?_⟩
  · have mark := (known.marked 3 some).mpr unlinked
    rw [unmarked] at mark
    cases mark
  · obtain ⟨more, sent⟩ := told 3 linked unlinked ⟨5, member, stop, why⟩ 5 member
    simp [silent] at sent

end Pgrp
