import Svr4.Pgrp.Membership

/- Creation, exit and the moves between groups and sessions keep the tables consistent. -/
namespace Pgrp
open Function List Option

variable {s t : State} {p q g sp pp cp : Nat}

/-- `t` is `s` with a new process `cp`, a child of `pp` in its session and its group `g`. -/
structure Born (s t : State) (pp cp g : Nat) : Prop where
  grouped : (s.procs pp).p_pgidp = some g
  practive : t.practive = cp :: s.practive
  sessions : t.sessions = s.sessions
  streams : t.streams = s.streams
  parent : ∀ q, (t.procs q).p_parent = if q = cp then some pp else (s.procs q).p_parent
  child : ∀ q, (t.procs q).p_child = if q = pp then cp :: (s.procs pp).p_child
    else if q = cp then [] else (s.procs q).p_child
  stat : ∀ q, (t.procs q).p_stat = if q = cp then .SIDL else (s.procs q).p_stat
  pgidp : ∀ q, (t.procs q).p_pgidp = if q = cp then some g else (s.procs q).p_pgidp
  sessp : ∀ q, (t.procs q).p_sessp = (s.procs (if q = cp then pp else q)).p_sessp
  s_sidp : ∀ sp, (t.sess sp).s_sidp = (s.sess sp).s_sidp
  s_ref : ∀ sp, (t.sess sp).s_ref =
    (s.sess sp).s_ref + if (s.procs pp).p_sessp = sp then 1 else 0
  pglink : ∀ h, (t.pids h).pid_pglink =
    if h = g then cp :: (s.pids g).pid_pglink else (s.pids h).pid_pglink
  orphaned : ∀ h, (t.pids h).pid_pglink ≠ [] →
    (t.pids h).pid_pgorphaned = (s.pids h).pid_pgorphaned
  pid_ref : ∀ h, (t.pids h).pid_ref = (s.pids h).pid_ref + if h = cp then 1 else 0

theorem newproc_born (wf : Consistent s) (running : Running s pp) (fresh : cp ∉ s.practive)
    (unheld : (s.pids cp).pid_ref = 0) : ∃ g, Born s (newproc s pp cp) pp cp g := by
  obtain ⟨active, -⟩ := running
  obtain ⟨g, grouped⟩ := ne_none_iff_exists'.mp (wf.grouping.grouped pp active)
  have apart : cp ≠ pp := fun same => fresh (same ▸ active)
  have shared := ne_nil_of_mem ((wf.grouping.members g pp).mpr ⟨active, grouped⟩)
  have empty : (s.pids cp).pid_pglink = [] := by
    have nobody := wf.holding.pid_ref cp
    by_contra some
    simp only [some, if_false, unheld] at nobody
    omega
  have other : g ≠ cp := fun same => shared (same ▸ empty)
  have unfolded : newproc s pp cp = { s with
        practive := cp :: s.practive
        procs := update (update s.procs cp
          ⟨.SIDL, .PR_REQUESTED, some pp, [], some g, (s.procs pp).p_sessp, false, false, []⟩) pp
          { s.procs pp with p_child := cp :: (s.procs pp).p_child }
        pids := update (update s.pids cp ⟨1, false, []⟩) g
          { s.pids g with pid_pglink := cp :: (s.pids g).pid_pglink }
        sess := update s.sess (s.procs pp).p_sessp { s.sess (s.procs pp).p_sessp with
              s_ref := (s.sess (s.procs pp).p_sessp).s_ref + 1 } } := by
    have first : (s.pids g).pid_pglink.isEmpty = false := by simpa using shared
    simp only [newproc, setProc, SESS_HOLD, update_self, update_of_ne apart.symm, grouped,
      pgjoin_eq, update_of_ne other, shared, first]
    congr 1
    · funext q
      by_cases a : q = pp <;> by_cases b : q = cp <;> simp_all [regroup]
    · congr 2
      simp [pglinked, regroup]
  refine ⟨g, ?_⟩
  rw [unfolded]
  refine ⟨grouped, rfl, rfl, rfl, ?_, ?_, ?_, ?_, ?_, ?_, ?_, ?_, ?_, ?_⟩
  iterate 5
    intro q
    by_cases a : q = pp <;> by_cases b : q = cp <;> simp_all
  iterate 2
    intro sp
    rcases eq_or_ne (s.procs pp).p_sessp sp with rfl | here
    · simp
    · simp [here, here.symm]
  all_goals
    intro h
    by_cases d : h = g <;> by_cases e : h = cp <;> simp_all

theorem Born.tree (born : Born s t pp cp g) (tree : Tree s) (running : Running s pp)
    (fresh : cp ∉ s.practive) : Tree t := by
  obtain ⟨active, onproc⟩ := running
  have apart : cp ≠ pp := fun same => fresh (same ▸ active)
  have new : ∀ q ∈ s.practive, q ≠ cp := fun q hq same => fresh (same ▸ hq)
  have no_child : ∀ q ∈ s.practive, cp ∉ (s.procs q).p_child := fun q hq hc =>
    fresh ((tree.child q hq cp).mp hc).1
  refine ⟨?_, ?_, ?_, ?_⟩
  · exact born.practive ▸ nodup_cons.mpr ⟨fresh, tree.active⟩
  · intro q hq c
    rw [born.practive] at hq ⊢
    rw [born.child, born.parent]
    rcases mem_cons.mp hq with rfl | hq
    · have no_parent : c ∈ s.practive → (s.procs c).p_parent ≠ some q := fun hc parent =>
        fresh (tree.parent c hc q parent).1
      by_cases e : c = q <;> simp_all [apart.symm]
    · have old := tree.child q hq c
      have away := new q hq
      have no := no_child q hq
      by_cases e : c = cp <;> by_cases a : q = pp <;> simp_all [eq_comm]
  · intro q hq
    rw [born.practive] at hq
    rw [born.child]
    rcases mem_cons.mp hq with rfl | hq
    · simp [apart]
    · have once := tree.siblings q hq
      have no := no_child q hq
      by_cases a : q = pp <;> simp_all
  · intro c hc q parent
    rw [born.practive] at hc ⊢
    rw [born.parent] at parent
    rw [born.stat]
    rcases mem_cons.mp hc with rfl | hc
    · obtain rfl : pp = q := by simpa using parent
      simp [active, apart.symm, onproc]
    · rw [if_neg (new c hc)] at parent
      obtain ⟨hq, alive⟩ := tree.parent c hc q parent
      rw [if_neg (new q hq)]
      exact ⟨mem_cons_of_mem _ hq, alive⟩

theorem Born.grouping (born : Born s t pp cp g) (grouping : Grouping s) (fresh : cp ∉ s.practive) :
    Grouping t := by
  have unlisted : ∀ h, cp ∉ (s.pids h).pid_pglink := fun h hc =>
    fresh ((grouping.members h cp).mp hc).1
  refine ⟨?_, ?_, ?_⟩
  · intro h q
    rw [born.pglink, born.pgidp, born.practive]
    have old := grouping.members h q
    have no := unlisted h
    by_cases b : q = cp <;> by_cases d : h = g <;> simp_all [eq_comm]
  · intro h
    rw [born.pglink]
    split
    · exact nodup_cons.mpr ⟨unlisted g, grouping.once g⟩
    · exact grouping.once h
  · intro q hq
    rw [born.practive] at hq
    rw [born.pgidp]
    split
    · simp
    · rename_i other
      exact grouping.grouped q ((mem_cons.mp hq).resolve_left other)

theorem Born.holding (born : Born s t pp cp g) (holding : Holding s) (active : pp ∈ s.practive)
    (fresh : cp ∉ s.practive) (listed : pp ∈ (s.pids g).pid_pglink) : Holding t := by
  have sessp : ∀ q ∈ s.practive, (t.procs q).p_sessp = (s.procs q).p_sessp := by
    intro q hq
    have away : q ≠ cp := fun same => fresh (same ▸ hq)
    rw [born.sessp, if_neg away]
  have own : (t.procs cp).p_sessp = (s.procs pp).p_sessp := by rw [born.sessp, if_pos rfl]
  refine ⟨born.sessions ▸ holding.distinct, ?_, ?_, ?_⟩
  · intro q hq
    rw [born.practive] at hq
    rw [born.sessions]
    rcases mem_cons.mp hq with rfl | hq
    · exact own ▸ holding.within pp active
    · exact sessp q hq ▸ holding.within q hq
  · intro sp hsp
    rw [born.sessions] at hsp
    obtain ⟨counted, positive⟩ := holding.s_ref sp hsp
    have others : s.practive.countP (fun q => decide ((t.procs q).p_sessp = sp)) =
        s.practive.countP fun q => decide ((s.procs q).p_sessp = sp) :=
      countP_congr fun q hq => by rw [sessp q hq]
    rw [born.practive, countP_cons, others, born.s_ref, own]
    simp only [decide_eq_true_eq]
    omega
  · intro h
    have held := holding.pid_ref h
    have some : (t.pids h).pid_pglink = [] ↔ (s.pids h).pid_pglink = [] := by
      rw [born.pglink]
      split
      · simp_all [ne_nil_of_mem listed]
      · rfl
    simp only [born.pid_ref, born.practive, born.sessions, born.streams, born.s_sidp, some,
      mem_cons]
    by_cases e : h = cp
    · simp_all
      omega
    · simp_all

theorem Consistent.kept_by_newproc (wf : Consistent s) (running : Running s pp)
    (fresh : cp ∉ s.practive) (unheld : (s.pids cp).pid_ref = 0) :
    Consistent (newproc s pp cp) := by
  obtain ⟨g, born⟩ := newproc_born wf running fresh unheld
  exact ⟨born.tree wf.tree running fresh, born.grouping wf.grouping fresh,
    born.holding wf.holding running.1 fresh
      ((wf.grouping.members g pp).mpr ⟨running.1, born.grouped⟩)⟩

theorem regroup_apply (s : State) (p : Nat) (group : Option Nat) (q : Nat) :
    regroup s p group q =
      { s.procs q with p_pgidp := if q = p then group else (s.procs q).p_pgidp } := by
  by_cases here : q = p <;> simp [regroup, here]

theorem pgexit_pglink (grouped : (s.procs p).p_pgidp = some g) (h : Nat) :
    ((pgexit s p).pids h).pid_pglink =
      if h = g then (s.pids g).pid_pglink.erase p else (s.pids h).pid_pglink := by
  rw [pgexit_eq grouped]
  by_cases here : h = g <;> simp [here]

def orphaned_child (s : State) (p q : Nat) : State :=
  setProc s q { s.procs q with p_child := (s.procs q).p_child.erase p }

@[simp] theorem orphaned_child_procs (s : State) (p q r : Nat) : (orphaned_child s p q).procs r =
      { s.procs r with
        p_child := if r = q then (s.procs q).p_child.erase p else (s.procs r).p_child } := by
  by_cases here : r = q <;> simp [orphaned_child, here]

theorem freeproc_tables (of : (s.procs p).p_parent = some q)
    (grouped : (s.procs p).p_pgidp = some g) :
    (freeproc s p).practive = s.practive.erase p ∧
      (freeproc s p).procs = regroup (orphaned_child s p q) p none ∧
      (freeproc s p).streams = s.streams ∧
      (∀ h, ((freeproc s p).pids h).pid_pglink =
        if h = g then (s.pids g).pid_pglink.erase p else (s.pids h).pid_pglink) ∧
      ∀ h, ((freeproc s p).pids h).pid_pgorphaned =
        ((pgexit (orphaned_child s p q) p).pids h).pid_pgorphaned := by
  have grouped' : ((orphaned_child s p q).procs p).p_pgidp = some g := by simpa using grouped
  have unfolded : freeproc s p = pid_exit (orphaned_child s p q) p := by
    unfold freeproc
    rw [of]
    rfl
  have exited := pgexit_eq grouped'
  refine ⟨?_, ?_, ?_, ?_, ?_⟩
  · rw [unfolded]
    simp only [pid_exit, PID_RELE, setPid_practive, SESS_RELE_practive, exited]
    rfl
  · rw [unfolded]
    simp only [pid_exit, PID_RELE, setPid_procs, SESS_RELE_procs, exited]
  · rw [unfolded]
    simp only [pid_exit, PID_RELE, setPid_streams, SESS_RELE_streams, exited]
    rfl
  · intro h
    have listed := pgexit_pglink grouped' h
    rw [unfolded]
    by_cases here : h = p <;> simpa [pid_exit, PID_RELE, here, orphaned_child] using listed
  · intro h
    rw [unfolded]
    by_cases here : h = p <;> simp [pid_exit, PID_RELE, here]

theorem Holding.kept_by_pid_exit (holding : Holding s) (active : s.practive.Nodup)
    (hp : p ∈ s.practive) (grouped : (s.procs p).p_pgidp = some g)
    (listed : p ∈ (s.pids g).pid_pglink) : Holding (pid_exit s p) := by
  have left := holding.kept_by_pgexit grouped listed
  have practive : (pgexit s p).practive = s.practive := by rw [pgexit_eq grouped]
  obtain ⟨u, hu⟩ : ∃ u, u = pgexit s p := ⟨_, rfl⟩
  obtain ⟨v, hv⟩ : ∃ v, v = SESS_RELE u (u.procs p).p_sessp := ⟨_, rfl⟩
  have here : pid_exit s p = { setPid v p { v.pids p with pid_ref := (v.pids p).pid_ref - 1 } with
        practive := v.practive.erase p } := by
    rw [hv, hu]
    rfl
  rw [← hu] at left practive
  rw [← practive] at hp active
  have released := SESS_RELE_spec left hp
  have gone : ∀ r, r ∈ u.practive.erase p ↔ r ≠ p ∧ r ∈ u.practive := fun r => active.mem_erase_iff
  have pglink : ∀ h, (v.pids h).pid_pglink = (u.pids h).pid_pglink := by
    intro h
    rw [hv, SESS_RELE_pglink]
  have v_practive : v.practive = u.practive := by rw [hv, SESS_RELE_practive]
  have procs : v.procs = u.procs := by rw [hv, SESS_RELE_procs]
  have streams : v.streams = u.streams := by rw [hv, SESS_RELE_streams]
  rw [← hv] at released
  rw [here, v_practive]
  refine ⟨released.distinct, ?_, ?_, ?_⟩
  · intro r hr
    have hr := (gone r).mp hr
    exact procs ▸ released.within r hr.2 hr.1
  · exact procs ▸ released.s_ref
  · intro h
    have held := released.pid_ref h
    change (update v.pids p _ h).pid_ref = (if h ∈ u.practive.erase p then 1 else 0) +
      (if (update v.pids p _ h).pid_pglink = [] then 0 else 1) +
      v.sessions.countP (fun sp => decide ((v.sess sp).s_sidp = h)) + v.streams h
    simp only [gone, streams]
    by_cases b : h = p
    · subst b
      simp only [update_self, pglink, hp, if_true] at held ⊢
      simp
      omega
    · simpa [b, pglink] using held

theorem Consistent.kept_by_freeproc (wf : Consistent s) (hp : p ∈ s.practive)
    (idle : (s.procs p).p_stat = .SZOMB ∨ (s.procs p).p_stat = .SIDL) :
    Consistent (freeproc s p) := by
  cases of : (s.procs p).p_parent with
  | none =>
    have same : freeproc s p = s := by
      unfold freeproc
      rw [of]
    rw [same]
    exact wf
  | some q =>
    obtain ⟨hq, -, -⟩ := wf.tree.parent p hp q of
    obtain ⟨g, grouped⟩ := ne_none_iff_exists'.mp (wf.grouping.grouped p hp)
    have listed : p ∈ (s.pids g).pid_pglink := (wf.grouping.members g p).mpr ⟨hp, grouped⟩
    have childless := wf.tree.childless hp idle
    obtain ⟨practive, procs, streams, pglink, -⟩ := freeproc_tables of grouped
    have gone : ∀ r, r ∈ s.practive.erase p ↔ r ≠ p ∧ r ∈ s.practive :=
      fun r => wf.tree.active.mem_erase_iff
    refine ⟨⟨?_, ?_, ?_, ?_⟩, ⟨?_, ?_, ?_⟩, ?_⟩
    · exact practive ▸ wf.tree.active.erase p
    · intro r hr c
      rw [practive, gone] at hr
      rw [practive, gone, procs]
      have old := wf.tree.child r hr.2 c
      simp only [regroup_apply, orphaned_child_procs]
      by_cases here : r = q
      · subst here
        rw [if_pos rfl, (wf.tree.siblings r hr.2).mem_erase_iff, old, and_assoc]
      · rw [if_neg here, old]
        refine ⟨fun both => ⟨⟨?_, both.1⟩, both.2⟩, fun both => ⟨both.1.2, both.2⟩⟩
        rintro rfl
        exact here (some.inj (both.2.symm.trans of))
    · intro r hr
      rw [practive, gone] at hr
      rw [procs]
      simp only [regroup_apply, orphaned_child_procs]
      split
      · exact (wf.tree.siblings q hq).erase p
      · exact wf.tree.siblings r hr.2
    · intro c hc r parent
      rw [practive, gone] at hc
      rw [procs] at parent ⊢
      simp only [regroup_apply, orphaned_child_procs] at parent ⊢
      rw [practive, gone]
      obtain ⟨hr, alive⟩ := wf.tree.parent c hc.2 r parent
      refine ⟨⟨?_, hr⟩, alive⟩
      rintro rfl
      have child := (wf.tree.child r hr c).mpr ⟨hc.2, parent⟩
      simp [childless] at child
    · intro h r
      rw [pglink, practive, gone, procs]
      simp only [regroup_apply, orphaned_child_procs]
      have old := wf.grouping.members h r
      by_cases d : h = g
      · subst d
        rw [if_pos rfl, (wf.grouping.once h).mem_erase_iff, old]
        by_cases b : r = p <;> simp [b]
      · rw [if_neg d, old]
        by_cases b : r = p
        · subst b
          simp [grouped, Ne.symm d]
        · simp [b]
    · intro h
      rw [pglink]
      split
      · exact (wf.grouping.once g).erase p
      · exact wf.grouping.once h
    · intro r hr
      rw [practive, gone] at hr
      rw [procs]
      simp only [regroup_apply, orphaned_child_procs, if_neg hr.1]
      exact wf.grouping.grouped r hr.2
    · have unfolded : freeproc s p = pid_exit (orphaned_child s p q) p := by
        unfold freeproc
        rw [of]
        rfl
      have holding : Holding (orphaned_child s p q) :=
        wf.holding.congr rfl (fun r => by simp) rfl rfl rfl fun _ => rfl
      rw [unfolded]
      exact holding.kept_by_pid_exit wf.tree.active hp (by simpa using grouped) listed

theorem pgjoin_pglink (s : State) (p g h : Nat) : ((pgjoin s p g).pids h).pid_pglink =
      if h = g then p :: (s.pids g).pid_pglink else (s.pids h).pid_pglink := by
  rw [pgjoin_eq]
  by_cases here : h = g <;> simp [here]

theorem Grouping.left (grouping : Grouping s) (grouped : (s.procs p).p_pgidp = some g)
    (h q : Nat) :
    q ∈ ((pgexit s p).pids h).pid_pglink ↔ q ∈ (s.pids h).pid_pglink ∧ q ≠ p := by
  rw [pgexit_pglink grouped]
  by_cases here : h = g
  · subst here
    rw [if_pos rfl, (grouping.once h).mem_erase_iff, and_comm]
  · rw [if_neg here]
    refine ⟨fun hq => ⟨hq, ?_⟩, fun both => both.1⟩
    rintro rfl
    have other := ((grouping.members h q).mp hq).2
    exact here (some.inj (other.symm.trans grouped))

theorem Grouping.once_left (grouping : Grouping s) (grouped : (s.procs p).p_pgidp = some g)
    (h : Nat) : ((pgexit s p).pids h).pid_pglink.Nodup := by
  rw [pgexit_pglink grouped]
  split
  · exact (grouping.once g).erase p
  · exact grouping.once h

theorem lists_after_join {old : Nat → List Nat} (s : State) (p g : Nat)
    (left : ∀ h q, q ∈ (s.pids h).pid_pglink ↔ q ∈ old h ∧ q ≠ p)
    (once : ∀ h, (s.pids h).pid_pglink.Nodup) (h : Nat) :
    (∀ q, q ∈ ((pgjoin s p g).pids h).pid_pglink ↔ (q ∈ old h ∧ q ≠ p) ∨ (h = g ∧ q = p)) ∧
      ((pgjoin s p g).pids h).pid_pglink.Nodup := by
  rw [pgjoin_pglink]
  by_cases here : h = g
  · subst here
    refine ⟨fun q => ?_, ?_⟩
    · rw [if_pos rfl, mem_cons, left]
      simp [or_comm]
    · rw [if_pos rfl]
      exact nodup_cons.mpr ⟨fun hp => ((left h p).mp hp).2 rfl, once h⟩
  · simp [here, left, once h]

theorem move_procs (grouped : (s.procs p).p_pgidp = some q) (g : Nat) :
    (pgjoin (pgexit s p) p g).procs = regroup s p (some g) := by
  rw [pgjoin_eq, pgexit_eq grouped]
  simp [regroup]

theorem Consistent.kept_by_move (wf : Consistent s) (hp : p ∈ s.practive) (g : Nat) :
    Consistent (pgjoin (pgexit s p) p g) := by
  obtain ⟨a, grouped⟩ := ne_none_iff_exists'.mp (wf.grouping.grouped p hp)
  have listed : p ∈ (s.pids a).pid_pglink := (wf.grouping.members a p).mpr ⟨hp, grouped⟩
  have procs := move_procs grouped g
  have practive : (pgjoin (pgexit s p) p g).practive = s.practive := by
    rw [pgjoin_eq, pgexit_eq grouped]
  have lists := lists_after_join (pgexit s p) p g (wf.grouping.left grouped)
    (wf.grouping.once_left grouped)
  refine ⟨?_, ?_, ?_⟩
  · refine wf.tree.congr practive fun q => ?_
    rw [procs, regroup_apply]
    exact ⟨rfl, rfl, rfl⟩
  · refine wf.grouping.moved practive hp ?_ (fun h => (lists h).1) fun h => (lists h).2
    intro q
    rw [procs, regroup_apply]
  · exact (wf.holding.kept_by_pgexit grouped listed).kept_by_pgjoin p g

theorem PID_HOLD_pgjoin (s : State) (p g h : Nat) :
    PID_HOLD (pgjoin s p g) h = pgjoin (PID_HOLD s h) p g := by
  rw [pgjoin_eq, pgjoin_eq]
  unfold PID_HOLD setPid
  congr 1
  funext r
  by_cases a : r = h <;> by_cases b : r = g <;> by_cases c : h = g <;>
    simp_all [regroup, Nat.add_right_comm]

/-- `sess_create` up to the call of `pgjoin`. -/
def new_session (s : State) (p sp : Nat) : State :=
  let s := pgexit s p
  let s := SESS_RELE s (s.procs p).p_sessp
  let s := { s with sessions := sp :: s.sessions, sess := update s.sess sp ⟨1, p⟩ }
  setProc s p { s.procs p with p_sessp := sp }

theorem sess_create_eq (s : State) (p sp : Nat) :
    sess_create s p sp = PID_HOLD (pgjoin (new_session s p sp) p p) p := rfl

theorem Holding.kept_by_new_session (holding : Holding s) (active : s.practive.Nodup)
    (hp : p ∈ s.practive) (grouped : (s.procs p).p_pgidp = some g)
    (listed : p ∈ (s.pids g).pid_pglink) (fresh : sp ∉ s.sessions) :
    Holding (PID_HOLD (new_session s p sp) p) := by
  have left := holding.kept_by_pgexit grouped listed
  have practive : (pgexit s p).practive = s.practive := by rw [pgexit_eq grouped]
  have sessions : (pgexit s p).sessions = s.sessions := by rw [pgexit_eq grouped]
  obtain ⟨u, hu⟩ : ∃ u, u = pgexit s p := ⟨_, rfl⟩
  rw [← hu] at left practive sessions
  rw [← practive] at hp active
  rw [← sessions] at fresh
  have released := SESS_RELE_spec left hp
  obtain ⟨v, hv⟩ : ∃ v, v = SESS_RELE u (u.procs p).p_sessp := ⟨_, rfl⟩
  have made : new_session s p sp =
      setProc { v with sessions := sp :: v.sessions, sess := update v.sess sp ⟨1, p⟩ } p
        { v.procs p with p_sessp := sp } := by
    rw [hv, hu]
    rfl
  have v_practive : v.practive = u.practive := by rw [hv, SESS_RELE_practive]
  have v_procs : v.procs = u.procs := by rw [hv, SESS_RELE_procs]
  have v_streams : v.streams = u.streams := by rw [hv, SESS_RELE_streams]
  have v_pglink : ∀ h, (v.pids h).pid_pglink = (u.pids h).pid_pglink := by
    intro h
    rw [hv, SESS_RELE_pglink]
  rw [← hv] at released
  have new : ∀ sp' ∈ v.sessions, sp' ≠ sp := fun sp' hsp same =>
    fresh (same ▸ released.kept sp' hsp)
  have sessp : ∀ r, (update u.procs p { u.procs p with p_sessp := sp } r).p_sessp =
      if r = p then sp else (u.procs r).p_sessp := by
    intro r
    by_cases here : r = p <;> simp [here]
  have counted : ∀ sp', u.practive.countP (fun r => decide
      ((update u.procs p { u.procs p with p_sessp := sp } r).p_sessp = sp')) =
      (if sp = sp' then 1 else 0) +
        (u.practive.erase p).countP fun r => decide ((u.procs r).p_sessp = sp') := by
    intro sp'
    rw [(perm_cons_erase hp).countP_eq, countP_cons, Nat.add_comm]
    simp only [sessp, if_true, decide_eq_true_eq]
    congr 1
    refine countP_congr fun r hr => ?_
    have other : r ≠ p := (active.mem_erase_iff.mp hr).1
    simp [other]
  rw [made]
  refine ⟨?_, ?_, ?_, ?_⟩
  · exact nodup_cons.mpr ⟨fun hsp => fresh (released.kept sp hsp), released.distinct⟩
  · intro r hr
    simp only [PID_HOLD, setPid_procs, setProc_procs, v_procs, sessp]
    by_cases here : r = p
    · simp [here]
    · have hr : r ∈ u.practive := by simpa [PID_HOLD, v_practive] using hr
      simpa [here, PID_HOLD] using .inr (released.within r hr here)
  · intro sp' hsp
    simp only [PID_HOLD, setPid_procs, setProc_procs, setPid_practive, setProc_practive,
      setPid_sess, setProc_sess, v_procs, v_practive]
    rw [counted sp']
    rcases mem_cons.mp hsp with rfl | hsp
    · have nobody : (u.practive.erase p).countP (fun r => decide ((u.procs r).p_sessp = sp')) =
          0 := by
        refine countP_eq_zero.mpr fun r hr => ?_
        have hr := active.mem_erase_iff.mp hr
        have within := released.within r hr.2 hr.1
        simpa using fun same => new _ within same
      simp [nobody]
    · have other := new sp' hsp
      simpa [other, other.symm] using released.s_ref sp' hsp
  · intro h
    have held := released.pid_ref h
    have others : v.sessions.countP (fun sp' => decide
        ((update v.sess sp ⟨1, p⟩ sp').s_sidp = h)) =
        v.sessions.countP fun sp' => decide ((v.sess sp').s_sidp = h) := by
      refine countP_congr fun sp' hsp => ?_
      rw [update_of_ne (new sp' hsp)]
    simp only [PID_HOLD, setPid_pids, setPid_practive, setPid_sess, setPid_sessions,
      setPid_streams, setProc_pids, setProc_practive, setProc_sess, setProc_sessions,
      setProc_streams, countP_cons, update_self, decide_eq_true_eq, v_practive, v_streams, others]
    by_cases here : h = p
    · subst here
      simp only [update_self, v_pglink, if_true]
      omega
    · simpa [v_pglink, here, Ne.symm here] using held

theorem new_session_tables (sp : Nat) (grouped : (s.procs p).p_pgidp = some g) :
    (new_session s p sp).practive = s.practive ∧ (new_session s p sp).procs =
        update s.procs p { s.procs p with p_pgidp := none, p_sessp := sp } ∧
      (new_session s p sp).streams = s.streams ∧
      (∀ h, ((new_session s p sp).pids h).pid_pglink = ((pgexit s p).pids h).pid_pglink) ∧
      ∀ h, ((new_session s p sp).pids h).pid_pgorphaned = ((pgexit s p).pids h).pid_pgorphaned := by
  have exited := pgexit_eq grouped
  refine ⟨?_, ?_, ?_, ?_, ?_⟩
  · simp only [new_session, setProc_practive, SESS_RELE_practive, exited]
  · simp [new_session, exited, regroup]
  · simp only [new_session, setProc_streams, SESS_RELE_streams, exited]
  · intro h
    simp only [new_session, setProc_pids, SESS_RELE_pglink]
  · intro h
    simp only [new_session, setProc_pids, SESS_RELE_orphaned]

theorem sess_create_procs (sp : Nat) (grouped : (s.procs p).p_pgidp = some g) :
    (sess_create s p sp).procs =
      update s.procs p { s.procs p with p_pgidp := some p, p_sessp := sp } := by
  obtain ⟨-, procs, -⟩ := new_session_tables sp grouped
  rw [sess_create_eq, PID_HOLD, setPid_procs, pgjoin_eq]
  simp [regroup, procs]

@[simp] theorem PID_HOLD_pglink (s : State) (g h : Nat) :
    ((PID_HOLD s g).pids h).pid_pglink = (s.pids h).pid_pglink := by
  by_cases here : h = g <;> simp [PID_HOLD, here]

@[simp] theorem PID_HOLD_orphaned (s : State) (g h : Nat) :
    ((PID_HOLD s g).pids h).pid_pgorphaned = (s.pids h).pid_pgorphaned := by
  by_cases here : h = g <;> simp [PID_HOLD, here]

theorem Consistent.kept_by_sess_create (wf : Consistent s) (hp : p ∈ s.practive)
    (fresh : sp ∉ s.sessions) : Consistent (sess_create s p sp) := by
  obtain ⟨a, grouped⟩ := ne_none_iff_exists'.mp (wf.grouping.grouped p hp)
  have listed : p ∈ (s.pids a).pid_pglink := (wf.grouping.members a p).mpr ⟨hp, grouped⟩
  obtain ⟨made_practive, -, -, made_pglink, -⟩ := new_session_tables sp grouped
  have procs := sess_create_procs sp grouped
  have practive : (sess_create s p sp).practive = s.practive := by
    rw [sess_create_eq, PID_HOLD, setPid_practive, pgjoin_eq]
    exact made_practive
  have lists := lists_after_join (new_session s p sp) p p
    (fun h q => by rw [made_pglink]; exact wf.grouping.left grouped h q)
    (fun h => by rw [made_pglink]; exact wf.grouping.once_left grouped h)
  refine ⟨?_, ?_, ?_⟩
  · refine wf.tree.congr practive fun q => ?_
    rw [procs]
    by_cases here : q = p
    · subst here
      simp [SameKin]
    · simp [SameKin, here]
  · refine wf.grouping.moved (g := p) practive hp ?_ ?_ ?_
    · intro q
      rw [procs]
      by_cases here : q = p <;> simp [here]
    · intro h q
      rw [sess_create_eq, PID_HOLD_pglink]
      exact (lists h).1 q
    · intro h
      rw [sess_create_eq, PID_HOLD_pglink]
      exact (lists h).2
  · rw [sess_create_eq, PID_HOLD_pgjoin]
    exact (wf.holding.kept_by_new_session wf.tree.active hp grouped listed fresh).kept_by_pgjoin p p

/-- `t` is `s` but for what processes were signalled and which groups are marked orphaned. -/
structure Marked (s t : State) : Prop where
  practive : t.practive = s.practive
  sessions : t.sessions = s.sessions
  sess : t.sess = s.sess
  streams : t.streams = s.streams
  procs : ∀ q, t.procs q = { s.procs q with posted := (t.procs q).posted }
  pid_ref : ∀ g, (t.pids g).pid_ref = (s.pids g).pid_ref
  pglink : ∀ g, (t.pids g).pid_pglink = (s.pids g).pid_pglink

theorem Marked.refl (s : State) : Marked s s :=
  ⟨rfl, rfl, rfl, rfl, fun _ => rfl, fun _ => rfl, fun _ => rfl⟩

theorem Marked.trans {u : State} (first : Marked s t) (second : Marked t u) : Marked s u := by
  refine ⟨second.practive.trans first.practive, second.sessions.trans first.sessions,
    second.sess.trans first.sess, second.streams.trans first.streams, ?_,
    fun g => (second.pid_ref g).trans (first.pid_ref g),
    fun g => (second.pglink g).trans (first.pglink g)⟩
  intro q
  rw [second.procs q, first.procs q]

theorem Marked.linked (marked : Marked s t) : pglinked t.procs = pglinked s.procs := by
  funext q
  unfold pglinked
  rw [marked.procs q]
  dsimp only
  split
  · rw [marked.procs]
  · rfl

theorem psignal_marked (s : State) (p : Nat) (sig : Signal) : Marked s (psignal s p sig) := by
  refine ⟨rfl, rfl, rfl, rfl, fun q => ?_, fun _ => rfl, fun _ => rfl⟩
  by_cases here : q = p <;> simp [psignal, here]

theorem signals_marked (s : State) (l : List Nat) (sig : Signal) :
    Marked s (l.foldl (fun s p => psignal s p sig) s) := by
  induction l generalizing s with
  | nil => exact Marked.refl s
  | cons p l ih => exact (psignal_marked s p sig).trans (ih (psignal s p sig))

theorem orphaned_marked (s : State) (g : Nat) (bit : Bool) :
    Marked s (setPid s g { s.pids g with pid_pgorphaned := bit }) := by
  refine ⟨rfl, rfl, rfl, rfl, fun _ => rfl, fun h => ?_, fun h => ?_⟩ <;>
    by_cases here : h = g <;> simp [here]

theorem detach_group_marked (s : State) (pp g : Nat) : Marked s (detach_group s pp g) := by
  unfold detach_group
  split
  · exact Marked.refl s
  · split
    · exact Marked.refl s
    · have bit := orphaned_marked s g true
      split
      · exact (bit.trans (signals_marked _ _ _)).trans (signals_marked _ _ _)
      · exact bit

theorem detach_groups_marked (pp : Nat) (s : State) (l : List Nat) :
    Marked s (detach_groups pp s l) := by
  induction l generalizing s with
  | nil => exact Marked.refl s
  | cons cp l ih =>
    unfold detach_groups
    split
    · exact (detach_group_marked s pp _).trans (ih _)
    · exact ih s

/-- `t` is `s` but that the processes in `l` are init's, and for signals. -/
structure Adopted (s t : State) (l : List Nat) : Prop where
  practive : t.practive = s.practive
  pids : t.pids = s.pids
  sessions : t.sessions = s.sessions
  sess : t.sess = s.sess
  streams : t.streams = s.streams
  procs : ∀ q, t.procs q =
    { s.procs q with
        p_parent := if q ∈ l then some proc_init else (s.procs q).p_parent
        posted := (t.procs q).posted }
  posted : ∀ q, ∃ more, (t.procs q).posted = (s.procs q).posted ++ more

theorem reparent_spec (s : State) (l : List Nat) : Adopted s (reparent s l) l := by
  induction l generalizing s with
  | nil =>
    exact ⟨rfl, rfl, rfl, rfl, rfl, fun q => by simp [reparent], fun q => ⟨[], by simp [reparent]⟩⟩
  | cons c l ih =>
    obtain ⟨a, ha⟩ : ∃ a, a = setProc s c { s.procs c with p_parent := some proc_init } := ⟨_, rfl⟩
    obtain ⟨u, hu⟩ : ∃ u, u = if (a.procs c).strc = true then psignal a c .SIGKILL else a :=
      ⟨_, rfl⟩
    have unfolded : reparent s (c :: l) = reparent u l := by
      rw [hu, ha]
      rfl
    have marked : Marked a u := by
      rw [hu]
      split
      · exact psignal_marked a c _
      · exact Marked.refl a
    have pids : u.pids = s.pids := by
      rw [hu]
      split <;> rw [ha] <;> rfl
    have signalled : ∀ q, ∃ more, (u.procs q).posted = (s.procs q).posted ++ more := by
      intro q
      have same : (a.procs q).posted = (s.procs q).posted := by
        by_cases here : q = c <;> simp [ha, here]
      rw [hu, ← same]
      split
      · by_cases here : q = c
        · exact ⟨[.SIGKILL], by simp [psignal, here]⟩
        · exact ⟨[], by simp [psignal, here]⟩
      · exact ⟨[], by simp⟩
    have rest := ih u
    rw [unfolded]
    refine ⟨?_, rest.pids.trans pids, ?_, ?_, ?_, ?_, ?_⟩
    · rw [rest.practive, marked.practive, ha]
      rfl
    · rw [rest.sessions, marked.sessions, ha]
      rfl
    · rw [rest.sess, marked.sess, ha]
      rfl
    · rw [rest.streams, marked.streams, ha]
      rfl
    · intro q
      rw [rest.procs q, marked.procs q, ha]
      by_cases here : q = c
      · subst here
        by_cases there : q ∈ l <;> simp [there]
      · simp [here]
    · intro q
      obtain ⟨more, first⟩ := signalled q
      obtain ⟨more', second⟩ := rest.posted q
      exact ⟨more ++ more', by rw [second, first, append_assoc]⟩

/-- What `exit` leaves of everything but the signals and the marks. -/
structure Exited (s t : State) (p : Nat) : Prop where
  practive : t.practive = s.practive
  pids : t.pids = (pgdetach s p).pids
  sessions : t.sessions = s.sessions
  sess : t.sess = s.sess
  streams : t.streams = s.streams
  parent : ∀ q, (t.procs q).p_parent =
    if q ∈ (s.procs p).p_child then some proc_init else (s.procs q).p_parent
  child : ∀ q, (t.procs q).p_child =
    if q = p then []
    else if q = proc_init then (s.procs p).p_child ++ (s.procs q).p_child
    else (s.procs q).p_child
  stat : ∀ q, (t.procs q).p_stat = if q = p then .SZOMB else (s.procs q).p_stat
  pgidp : ∀ q, (t.procs q).p_pgidp = (s.procs q).p_pgidp
  sessp : ∀ q, (t.procs q).p_sessp = (s.procs q).p_sessp
  posted : ∀ q, ∃ more, (t.procs q).posted = ((pgdetach s p).procs q).posted ++ more

theorem exit_spec (s : State) (other : p ≠ proc_init) : Exited s (exit s p) p := by
  cases childless : (s.procs p).p_child with
  | nil =>
    have unfolded : exit s p = setProc s p { s.procs p with p_stat := .SZOMB } := by
      unfold exit
      rw [childless]
    have detached : pgdetach s p = s := by
      unfold pgdetach
      rw [childless]
      rfl
    rw [unfolded]
    refine ⟨rfl, by rw [detached]; rfl, rfl, rfl, rfl, ?_, ?_, ?_, ?_, ?_, ?_⟩ <;> intro q <;>
      by_cases here : q = p <;> simp_all
  | cons c l =>
    obtain ⟨a, ha⟩ : ∃ a, a = reparent (pgdetach s p) (c :: l) := ⟨_, rfl⟩
    have unfolded : exit s p = setProc (setProc (setProc a proc_init
          { a.procs proc_init with p_child := c :: l ++ (a.procs proc_init).p_child }) p
          { a.procs p with p_child := [] }) p
          { a.procs p with p_child := [], p_stat := .SZOMB } := by
      unfold exit
      rw [childless, ha]
      simp [setProc, other]
    have marked : Marked s (pgdetach s p) := detach_groups_marked p s _
    have adopted := reparent_spec (pgdetach s p) (c :: l)
    rw [← ha] at adopted
    have procs : ∀ q, ∃ posted, a.procs q = { s.procs q with
        p_parent := if q ∈ c :: l then some proc_init else (s.procs q).p_parent
        posted := posted } := by
      intro q
      refine ⟨(a.procs q).posted, ?_⟩
      rw [adopted.procs q, marked.procs q]
    rw [unfolded]
    refine ⟨adopted.practive.trans marked.practive, adopted.pids,
      adopted.sessions.trans marked.sessions, adopted.sess.trans marked.sess,
      adopted.streams.trans marked.streams, ?_, ?_, ?_, ?_, ?_, ?_⟩
    case refine_6 =>
      intro q
      obtain ⟨more, extended⟩ := adopted.posted q
      refine ⟨more, ?_⟩
      rw [← extended]
      by_cases here : q = p
      · simp [here]
      · by_cases there : q = proc_init
        · simp [there, other.symm]
        · simp [here, there]
    all_goals
      intro q
      obtain ⟨posted, record⟩ := procs q
      by_cases here : q = p
      · subst here
        simp [childless, record]
      · by_cases there : q = proc_init
        · subst there
          simp [childless, other.symm, record]
        · simp [childless, here, there, record]

def Adoptable (s : State) (p : Nat) : Prop :=
  p ≠ proc_init ∧ ((s.procs p).p_child ≠ [] → proc_init ∈ s.practive ∧
    (s.procs proc_init).p_stat ≠ .SZOMB ∧ (s.procs proc_init).p_stat ≠ .SIDL)

instance (s : State) (p : Nat) : Decidable (Adoptable s p) := inferInstanceAs (Decidable (_ ∧ _))

theorem Consistent.kept_by_exit (wf : Consistent s) (running : Running s p)
    (adoptable : Adoptable s p) : Consistent (exit s p) := by
  obtain ⟨hp, onproc⟩ := running
  obtain ⟨other, init⟩ := adoptable
  have exited := exit_spec s other
  have marked : Marked s (pgdetach s p) := detach_groups_marked p s _
  have own : ∀ c, c ∈ (s.procs p).p_child ↔ c ∈ s.practive ∧ (s.procs c).p_parent = some p :=
    wf.tree.child p hp
  refine ⟨⟨?_, ?_, ?_, ?_⟩, ⟨?_, ?_, ?_⟩, ?_⟩
  · exact exited.practive ▸ wf.tree.active
  · intro q hq c
    rw [exited.practive] at hq ⊢
    rw [exited.child q, exited.parent c]
    have old := wf.tree.child q hq c
    by_cases mine : c ∈ (s.procs p).p_child
    · obtain ⟨hc, parent⟩ := (own c).mp mine
      by_cases here : q = p
      · simp [here, mine, other.symm]
      · by_cases there : q = proc_init
        · simp [there, mine, hc, other.symm]
        · have elsewhere : c ∉ (s.procs q).p_child := fun hcq =>
            here (some.inj (((old.mp hcq).2).symm.trans parent))
          simp [here, there, mine, elsewhere, Ne.symm there]
    · by_cases here : q = p
      · have no : ¬ (c ∈ s.practive ∧ (s.procs c).p_parent = some p) := mine ∘ (own c).mpr
        simpa [here, mine] using no
      · by_cases there : q = proc_init
        · subst there
          simpa [here, mine] using old
        · simpa [here, there, mine] using old
  · intro q hq
    rw [exited.practive] at hq
    rw [exited.child q]
    split
    · simp
    rename_i here
    split
    · refine nodup_append.mpr ⟨wf.tree.siblings p hp, wf.tree.siblings q hq, ?_⟩
      rintro c mine d theirs rfl
      have one := ((own c).mp mine).2
      have two := ((wf.tree.child q hq c).mp theirs).2
      exact here (some.inj (two.symm.trans one))
    · exact wf.tree.siblings q hq
  · intro c hc q parent
    rw [exited.practive] at hc ⊢
    rw [exited.parent c] at parent
    rw [exited.stat q]
    by_cases mine : c ∈ (s.procs p).p_child
    · obtain rfl : proc_init = q := by simpa [mine] using parent
      rw [if_neg other.symm]
      exact init (ne_nil_of_mem mine)
    · rw [if_neg mine] at parent
      have here : q ≠ p := by
        rintro rfl
        exact mine ((own c).mpr ⟨hc, parent⟩)
      rw [if_neg here]
      exact wf.tree.parent c hc q parent
  · intro g q
    rw [exited.pids, marked.pglink, exited.practive, exited.pgidp]
    exact wf.grouping.members g q
  · intro g
    rw [exited.pids, marked.pglink]
    exact wf.grouping.once g
  · intro q hq
    rw [exited.pgidp]
    exact wf.grouping.grouped q (exited.practive ▸ hq)
  · refine wf.holding.congr exited.practive exited.sessp exited.sessions exited.sess
      exited.streams fun g => ?_
    rw [exited.pids, marked.pid_ref, marked.pglink]

theorem Consistent.kept_by_set (wf : Consistent s) (p_stat : Stat) (p_whystop : Why)
    (sexeced strc : Bool) (alive : p_stat ≠ .SZOMB ∧ p_stat ≠ .SIDL) :
    Consistent (setProc s p { s.procs p with
      p_stat := p_stat, p_whystop := p_whystop, sexeced := sexeced, strc := strc }) := by
  obtain ⟨pr, hpr⟩ : ∃ pr, pr = update s.procs p { s.procs p with
      p_stat := p_stat, p_whystop := p_whystop, sexeced := sexeced, strc := strc } := ⟨_, rfl⟩
  have same : ∀ q, (pr q).p_parent = (s.procs q).p_parent ∧ (pr q).p_child = (s.procs q).p_child ∧
      (pr q).p_pgidp = (s.procs q).p_pgidp ∧ (pr q).p_sessp = (s.procs q).p_sessp := by
    intro q
    by_cases here : q = p
    · subst here
      simp [hpr]
    · simp [hpr, here]
  refine ⟨⟨wf.tree.active, ?_, ?_, ?_⟩, ⟨?_, wf.grouping.once, ?_⟩, ?_⟩
  case refine_6 =>
    refine wf.holding.congr rfl (fun q => ?_) rfl rfl rfl fun _ => rfl
    rw [setProc_procs, ← hpr]
    exact (same q).2.2.2
  all_goals rw [setProc_procs, ← hpr]
  · intro q hq c
    rw [(same q).2.1, (same c).1]
    exact wf.tree.child q hq c
  · intro q hq
    rw [(same q).2.1]
    exact wf.tree.siblings q hq
  · intro c hc q parent
    rw [(same c).1] at parent
    obtain ⟨hq, zombie, idle⟩ := wf.tree.parent c hc q parent
    refine ⟨hq, ?_⟩
    by_cases here : q = p
    · simpa [hpr, here] using alive
    · simpa [hpr, here] using ⟨zombie, idle⟩
  · intro g q
    rw [(same q).2.2.1]
    exact wf.grouping.members g q
  · intro q hq
    rw [(same q).2.2.1]
    exact wf.grouping.grouped q hq

theorem Consistent.kept_by_stream (wf : Consistent s) (g count ref : Nat)
    (balanced : ref + s.streams g = (s.pids g).pid_ref + count) :
    Consistent { setPid s g { s.pids g with pid_ref := ref } with
      streams := update s.streams g count } := by
  have pglink : ∀ h, (update s.pids g { s.pids g with pid_ref := ref } h).pid_pglink =
      (s.pids h).pid_pglink := by
    intro h
    by_cases here : h = g <;> simp [here]
  refine ⟨⟨wf.tree.active, wf.tree.child, wf.tree.siblings, wf.tree.parent⟩,
    ⟨?_, ?_, wf.grouping.grouped⟩, ⟨wf.holding.distinct, wf.holding.within, wf.holding.s_ref, ?_⟩⟩
  · intro h q
    rw [setPid_pids, pglink]
    exact wf.grouping.members h q
  · intro h
    rw [setPid_pids, pglink]
    exact wf.grouping.once h
  · intro h
    have held := wf.holding.pid_ref h
    change (update s.pids g { s.pids g with pid_ref := ref } h).pid_ref =
      (if h ∈ s.practive then 1 else 0) +
        (if (update s.pids g { s.pids g with pid_ref := ref } h).pid_pglink = [] then 0 else 1) +
        s.sessions.countP (fun sp => decide ((s.sess sp).s_sidp = h)) +
        update s.streams g count h
    rw [pglink]
    by_cases here : h = g
    · subst here
      simp only [update_self]
      omega
    · simpa [here] using held

def destination (p : Nat) (pgid : Int) : Nat := if pgid = 0 then p else pgid.toNat

/-- What `setpgid` asks: `p` leads no session, is not in the group yet, and the group is its own or
of its session. -/
def Moves (s : State) (p : Nat) (pgid : Int) : Prop :=
  (s.sess (s.procs p).p_sessp).s_sidp ≠ p ∧ (s.procs p).p_pgidp ≠ some (destination p pgid) ∧
    (destination p pgid = p ∨
      ∃ q ∈ pgfind s (destination p pgid), (s.procs q).p_sessp = (s.procs p).p_sessp)

instance (s : State) (p : Nat) (pgid : Int) : Decidable (Moves s p pgid) :=
  inferInstanceAs (Decidable (_ ∧ _))

theorem setpgid_of_cases (grouping : Grouping s) {pgid : Int} (ok : setpgid_of s p pgid = .ok t) :
    t = s ∨ Moves s p pgid ∧ t = pgjoin (pgexit s p) p (destination p pgid) := by
  unfold setpgid_of at ok
  split at ok
  · cases ok
  rename_i leads
  split at ok
  · cases ok
  change (if (s.procs p).p_pgidp = some (destination p pgid) then _ else _) = _ at ok
  split at ok
  · exact .inl (Except.ok.inj ok).symm
  rename_i elsewhere
  refine .inr ?_
  change (if p = destination p pgid then _ else _) = _ at ok
  split at ok
  · rename_i own
    refine ⟨⟨leads, elsewhere, .inl own.symm⟩, ?_⟩
    rw [← own]
    exact (Except.ok.inj ok).symm
  split at ok
  · cases ok
  rename_i q found
  have listed : q ∈ (s.pids (destination p pgid)).pid_pglink := mem_of_head? found
  split at ok
  · cases ok
  · rename_i session
    rw [((grouping.members _ q).mp listed).2] at ok
    exact ⟨⟨leads, elsewhere, .inr ⟨q, found, by simpa using session⟩⟩,
      (Except.ok.inj ok).symm⟩

theorem setpgid_cases {pid pgid : Int} (ok : setpgid s p pid pgid = .ok t) :
    ∃ q, (q = p ∨ q ∈ (s.procs p).p_child) ∧ setpgid_target s p pid = .ok q ∧
      setpgid_of s q pgid = .ok t := by
  unfold setpgid at ok
  split at ok
  · rename_i q target
    refine ⟨q, ?_, target, ok⟩
    unfold setpgid_target at target
    split at target
    · exact .inl (Except.ok.inj target).symm
    split at target
    · cases target
    split at target
    · exact .inl (Except.ok.inj target).symm
    split at target
    · cases target
    · rename_i c found
      split at target
      · cases target
      · split at target
        · cases target
        · obtain rfl := Except.ok.inj target
          exact .inr (mem_of_find?_eq_some found)
  · cases ok

theorem setpgid_moves (wf : Consistent s) (hp : p ∈ s.practive) {pid pgid : Int}
    (ok : setpgid s p pid pgid = .ok t) :
    t = s ∨ ∃ q ∈ s.practive, setpgid_target s p pid = .ok q ∧ Moves s q pgid ∧
      t = pgjoin (pgexit s q) q (destination q pgid) := by
  obtain ⟨q, who, target, moved⟩ := setpgid_cases ok
  have hq : q ∈ s.practive := by
    rcases who with rfl | child
    · exact hp
    · exact ((wf.tree.child p hp q).mp child).1
  rcases setpgid_of_cases wf.grouping moved with same | ⟨moves, made⟩
  · exact .inl same
  · exact .inr ⟨q, hq, target, moves, made⟩

theorem Consistent.kept (wf : Consistent s) (c : Call)
    (adoptable : ∀ p, c = .exit p → Adoptable s p) (taken : step s c = some t) :
    Consistent t := by
  obtain ⟨possible, made⟩ : c.Possible s ∧ perform s c = t := by
    unfold step at taken
    split at taken
    · exact ⟨‹_›, some.inj taken⟩
    · cases taken
  rw [← made]
  cases c with
  | newproc pp cp => exact wf.kept_by_newproc possible.1 possible.2.1 possible.2.2
  | failed cp => exact wf.kept_by_freeproc possible.1 (.inr possible.2)
  | setpgrp p sp =>
    change Consistent (setpgrp s p sp)
    unfold setpgrp
    split
    · exact wf.kept_by_sess_create possible.1.1 possible.2
    · exact wf
  | setsid p sp =>
    change Consistent (done s (setsid s p sp))
    unfold setsid
    split
    · exact wf
    · exact wf.kept_by_sess_create possible.1.1 possible.2
  | setpgid p pid pgid =>
    change Consistent (done s (setpgid s p pid pgid))
    cases result : setpgid s p pid pgid with
    | error e => exact wf
    | ok u =>
      rcases setpgid_moves wf possible.1 result with same | ⟨q, hq, -, -, moved⟩
      · exact same ▸ wf
      · exact moved ▸ wf.kept_by_move hq _
  | exit p => exact wf.kept_by_exit possible (adoptable p rfl)
  | freeproc p => exact wf.kept_by_freeproc possible.1 (.inl possible.2)
  | set p p_stat p_whystop sexeced strc =>
    exact wf.kept_by_set p_stat p_whystop sexeced strc possible.2.2
  | hold g => exact wf.kept_by_stream g _ _ (by omega)
  | rele g =>
    have some : 0 < s.streams g := possible
    have held := wf.holding.pid_ref g
    exact wf.kept_by_stream g _ _ (by omega)

theorem boot_consistent : Consistent boot := by
  have procs : ∀ q, boot.procs q =
      ⟨.SONPROC, .PR_REQUESTED, none, [], some proc_sched, session0, false, false, []⟩ :=
    fun _ => rfl
  refine ⟨⟨nodup_singleton _, ?_, ?_, ?_⟩, ⟨?_, ?_, ?_⟩, ⟨nodup_singleton _, ?_, ?_, ?_⟩⟩
  · intro q _ c
    simp [procs]
  · intro q _
    simp [procs]
  · intro c _ q parent
    cases parent
  · intro g q
    by_cases here : g = proc_sched
    · subst here
      simp [boot]
    · simp [boot, here, Ne.symm here]
  · intro g
    by_cases here : g = proc_sched <;> simp [boot, here]
  · intro q _
    simp [procs]
  · intro q _
    simp [boot]
  · intro sp hsp
    simp_all [boot]
  · intro g
    by_cases here : g = proc_sched
    · subst here
      simp [boot]
    · simp [boot, here, Ne.symm here]

end Pgrp
