import Svr4.Pid.Slots

/- Every run keeps ids unique, processes findable and slots apart. -/
namespace Pid
open Function NextChains LabelledRuns List Option

section
variable {c : Config} {s s' : State} {free : List Nat} {np_nolast np_failok : Bool}
  {prp pidp : Option Nat} {cr_uid cr_ruid a : Nat} {id : Int}

structure Ok (c : Config) (s : State) : Prop where
  chains : Chains s
  range : InRange s s.mpid
  slots : ∃ free, Slots c s free

theorem pid_assign_cases
    (done : pid_assign c s np_nolast np_failok cr_uid cr_ruid prp pidp = .ok (s', id)) :
    (s' = s ∧ id = -1) ∨ ∃ p a m, prp = some p ∧ pidp = some a ∧ id = (m : Nat) ∧
      search s (2 * MAXPID) s.mpid = some m ∧ s' = enter c s p a m ∧
      ¬ (c.v_proc - 1 ≤ s.nproc ∧ (s.nproc = c.v_proc ∨ np_nolast = true)) := by
  unfold pid_assign at done
  split at done
  · obtain ⟨rfl, rfl⟩ := Prod.mk.inj (Except.ok.inj done)
    exact .inl ⟨rfl, rfl⟩
  next room =>
  split at done
  · obtain ⟨rfl, rfl⟩ := Prod.mk.inj (Except.ok.inj done)
    exact .inl ⟨rfl, rfl⟩
  split at done
  · next p a =>
    split at done
    · exact absurd done (by simp)
    · next m found =>
      obtain ⟨rfl, rfl⟩ := Prod.mk.inj (Except.ok.inj done)
      exact .inr ⟨p, a, m, rfl, rfl, rfl, found, rfl, room⟩
  · split at done
    · obtain ⟨rfl, rfl⟩ := Prod.mk.inj (Except.ok.inj done)
      exact .inl ⟨rfl, rfl⟩
    · exact absurd done (by simp)

theorem Ok.fits (ok : Ok c s) : s.nproc ≤ c.v_proc := by
  obtain ⟨free, slots⟩ := ok.slots
  have := slots.total
  omega

theorem Ok.search_unheld (ok : Ok c s) {m : Nat}
    (found : search s (2 * MAXPID) s.mpid = some m) : ∀ b ∈ s.held, (s.pids b).pid_id ≠ m := by
  intro b held same
  exact ok.chains.lookup_none.mp (search_some ok.range found).1 b held (congrArg _ same)

theorem Ok.pid_assign (ok : Ok c s)
    (possible : (Event.pid_assign np_nolast np_failok cr_uid cr_ruid prp pidp).Possible c s)
    (done : Pid.pid_assign c s np_nolast np_failok cr_uid cr_ruid prp pidp = .ok (s', id)) :
    Ok c s' := by
  rcases pid_assign_cases done with ⟨rfl, -⟩ | ⟨p, a, m, rfl, rfl, -, found, rfl, room⟩
  · exact ok
  obtain ⟨free, slots⟩ := ok.slots
  obtain ⟨address, fresh⟩ := possible
  obtain ⟨nonnull, outside, new⟩ := address p rfl
  have unheld := ok.search_unheld found
  have fits := ok.fits
  have full : s.nproc < c.v_proc := by
    by_contra full
    exact room ⟨by omega, .inl (by omega)⟩
  exact ⟨(ok.chains.enter (fresh a rfl) unheld).1, (search_some ok.range found).2,
    slots.enter ok.chains full ⟨nonnull, outside⟩ new (fresh a rfl) unheld⟩

theorem Ok.release (ok : Ok c s) {holder : Holder} (holds : holder ∈ s.holders a)
    (other : holder ≠ .process) : Ok c (PID_RELE s a holder) ∧
      Released s (PID_RELE s a holder) a holder := by
  obtain ⟨free, slots⟩ := ok.slots
  have released := ok.chains.release holds
  obtain ⟨-, -, -, -, -, mpid, minpid⟩ := released.rest
  refine ⟨⟨released.chains, ?_, free, slots.release released other⟩, released⟩
  have range := ok.range
  unfold InRange at range ⊢
  rw [mpid, minpid]
  exact range

theorem Released.keeps {a b : Nat} {holder other : Holder} (released : Released s s' a holder)
    (differ : other ≠ holder) : other ∈ s'.holders b ↔ other ∈ s.holders b := by
  rw [released.holders]
  by_cases same : b = a
  · rw [same, update_self]
    exact mem_erase_of_ne differ
  · rw [update_of_ne same]

theorem Ok.leave {prp : Nat} (ok : Ok c s) (mem : prp ∈ s.practive)
    (not_sched : prp ≠ c.proc_sched) : Ok c (pid_exit c s prp none none) := by
  obtain ⟨free, slots⟩ := ok.slots
  obtain ⟨pidp, pidp_eq⟩ : ∃ pidp, pidp = (s.procs prp).p_pidp := ⟨_, rfl⟩
  obtain ⟨slot, slot_eq⟩ : ∃ slot, slot = (s.pids pidp).pid_prslot := ⟨_, rfl⟩
  obtain ⟨s₁, s₁_eq⟩ : ∃ s₁ : State, s₁ = { s with
      pids := update s.pids pidp { s.pids pidp with pid_prinactive := true }
      dir := update s.dir slot s.procentfree
      procentfree := c.entry slot } := ⟨_, rfl⟩
  have exits : pid_exit c s prp none none = { PID_RELE s₁ pidp .process with
      practive := (PID_RELE s₁ pidp .process).practive.erase prp
      nproc := (PID_RELE s₁ pidp .process).nproc - 1 } := by
    rw [s₁_eq, slot_eq, pidp_eq]
    rfl
  have same : ∀ b, (s₁.pids b).pid_id = (s.pids b).pid_id ∧
      (s₁.pids b).pid_ref = (s.pids b).pid_ref := by
    rw [s₁_eq]
    exact fun b => ⟨update_field (f := PidInfo.pid_id) (by rfl) b, update_field (f := PidInfo.pid_ref) (by rfl) b⟩
  have hash : s₁.pidhash = s.pidhash ∧ s₁.holders = s.holders := by
    rw [s₁_eq]
    exact ⟨rfl, rfl⟩
  have held : s₁.held = s.held := by
    unfold State.held
    rw [hash.1]
  have chains : Chains s₁ := by
    constructor <;> simp only [held, hash, same]
    exacts [ok.chains.bucket, ok.chains.chain, ok.chains.ids, ok.chains.count, ok.chains.once,
      ok.chains.used, ok.chains.idle]
  have on_chain : pidp ∈ s.held := pidp_eq ▸ slots.held prp mem
  have active : (s.pids pidp).pid_prinactive = false := pidp_eq ▸ slots.active prp mem
  have holds : .process ∈ s₁.holders pidp := by
    rw [hash.2]
    exact (slots.process pidp on_chain).mp active
  have released := chains.release holds
  obtain ⟨-, -, -, -, -, mpid, minpid⟩ := released.rest
  rw [exits]
  refine ⟨?_, ?_, slot :: free, slots.leave ok.chains mem not_sched pidp_eq slot_eq s₁_eq released⟩
  · exact { released.chains with }
  · have range := ok.range
    dsimp only
    rw [mpid, minpid, s₁_eq]
    exact range

theorem Ok.pid_exit {prp : Nat} {group session : Option Nat} (ok : Ok c s)
    (possible : (Event.pid_exit prp group session).Possible c s) :
    Ok c (pid_exit c s prp group session) := by
  obtain ⟨mem, not_sched, of_group, of_session⟩ := possible
  have last : ∀ t : State, Ok c t → t.practive = s.practive → Ok c (Pid.pid_exit c t prp none none) :=
    fun t t_ok practive => t_ok.leave (practive ▸ mem) not_sched
  cases group with
  | none =>
    cases session with
    | none => exact last s ok rfl
    | some s_sidp =>
      obtain ⟨ok₁, released⟩ := ok.release (of_session s_sidp rfl) (by decide)
      exact last _ ok₁ released.rest.2.1
  | some pgp =>
    obtain ⟨ok₁, released⟩ := ok.release (of_group pgp rfl) (by decide)
    cases session with
    | none => exact last _ ok₁ released.rest.2.1
    | some s_sidp =>
      have holds := (released.keeps (by decide)).mpr (of_session s_sidp rfl)
      obtain ⟨ok₂, released₂⟩ := ok₁.release holds (by decide)
      exact last _ ok₂ (released₂.rest.2.1.trans released.rest.2.1)

theorem Ok.step (ok : Ok c s) (e : Event) (taken : step c s e = some s') : Ok c s' := by
  unfold Pid.step at taken
  split at taken
  · next possible =>
    cases e with
    | pid_assign np_nolast np_failok cr_uid cr_ruid prp pidp =>
      unfold run_event at taken
      dsimp only at taken
      split at taken
      · next t id done =>
        obtain rfl := some.inj taken
        exact ok.pid_assign possible done
      · exact absurd taken (by simp)
    | PID_HOLD pidp holder =>
      obtain rfl := some.inj taken
      obtain ⟨free, slots⟩ := ok.slots
      exact ⟨ok.chains.hold possible.1 possible.2.1, ok.range, free, slots.hold possible.2.2⟩
    | PID_RELE pidp holder =>
      obtain rfl := some.inj taken
      exact (ok.release possible.1 possible.2).1
    | pid_exit prp group session =>
      obtain rfl := some.inj taken
      exact ok.pid_exit possible
    | pid_setmin =>
      obtain rfl := some.inj taken
      have chains := ok.chains
      obtain ⟨free, slots⟩ := ok.slots
      refine ⟨{ chains with }, ?_, free, ?_⟩
      · unfold InRange pid_setmin at *
        dsimp only
        omega
      · exact { slots with }
    | set prp p_stat p_uid =>
      obtain rfl := some.inj taken
      have chains := ok.chains
      obtain ⟨free, slots⟩ := ok.slots
      exact ⟨{ chains with }, ok.range, free, slots.frame
        (fun p => update_field (f := Proc.p_pidp) (by rfl) p) ⟨rfl, rfl, rfl, rfl⟩ (fun _ => ⟨rfl, rfl⟩)
        (fun _ => Iff.rfl) (fun _ mem => mem) fun _ mem _ => mem⟩
  · exact absurd taken (by simp)

theorem new_path (c : Config) (procs : Nat → Proc) (pids : Nat → PidInfo) (n : Nat) :
    ∀ j, 1 ≤ j → j + n = c.v_proc → Path (fun i => slot_at c ((pid_init c procs pids).dir i))
        (if n = 0 then none else some j) (List.range' j n) := by
  induction n with
  | zero => exact fun j _ _ => rfl
  | succ n ih =>
    intro j low total
    rw [if_neg (by omega)]
    refine ⟨rfl, ?_⟩
    have rest := ih (j + 1) (by omega) (by omega)
    have word : slot_at c ((pid_init c procs pids).dir j) =
        if n = 0 then none else some (j + 1) := by
      unfold pid_init
      dsimp only
      rw [if_neg (by omega)]
      by_cases last : n = 0
      · rw [if_neg (by omega), if_pos last]
        have outside : ¬ c.InDir 0 := fun inside => by
          have placed := c.placed
          have := inside.1
          omega
        exact if_neg outside
      · rw [if_pos (by omega), if_neg last]
        exact (slot_at_entry (by omega)).2
    show Segment _ (slot_at c ((pid_init c procs pids).dir j)) (List.range' (j + 1) n) none
    rw [word]
    exact rest

theorem init_held (c : Config) (procs : Nat → Proc) (pids : Nat → PidInfo) :
    a ∈ (pid_init c procs pids).held ↔ a = c.pid0 := by
  rw [mem_held]
  constructor
  · rintro ⟨k, -, mem⟩
    unfold pid_init at mem
    dsimp only at mem
    split at mem
    · exact mem_singleton.mp mem
    · exact absurd mem not_mem_nil
  · rintro rfl
    exact ⟨0, by decide, mem_singleton.mpr rfl⟩

theorem init_ok (c : Config) (procs : Nat → Proc) (pids : Nat → PidInfo) :
    Ok c (pid_init c procs pids) := by
  have tuned := c.tuned
  obtain ⟨s, s_eq⟩ : ∃ s, s = pid_init c procs pids := ⟨_, rfl⟩
  have held : ∀ {a}, a ∈ s.held ↔ a = c.pid0 := s_eq ▸ init_held c procs pids
  have pid0 : s.pids c.pid0 = ⟨false, 3, 0, 0⟩ := by
    rw [s_eq]
    unfold pid_init
    dsimp only
    rw [update_self]
  have holders : s.holders c.pid0 = [.process, .group, .session] := by
    rw [s_eq]
    unfold pid_init
    dsimp only
    rw [update_self]
  have sched : (s.procs c.proc_sched).p_pidp = c.pid0 := by
    rw [s_eq]
    unfold pid_init
    dsimp only
    rw [update_self]
  have chain : ∀ k, s.pidhash k = if k = 0 then [c.pid0] else [] := fun k => by
    rw [s_eq]
    rfl
  have dir0 : s.dir 0 = c.proc_sched := by
    rw [s_eq]
    rfl
  have active : s.practive = [c.proc_sched] := by
    rw [s_eq]
    rfl
  rw [← s_eq]
  refine ⟨⟨fun k below a mem => ?_, fun k below => ?_, fun a mem b mem' _ => ?_, fun a mem => ?_,
    fun a mem => ?_, fun a mem => ?_, fun a absent => ?_⟩, ?_, List.range' 1 (c.v_proc - 1), ?_⟩
  · rw [chain] at mem
    split at mem
    · next zero =>
      rw [mem_singleton.mp mem, pid0, zero]
      rfl
    · exact absurd mem not_mem_nil
  · rw [chain]
    split <;> simp
  · rw [held.mp mem, held.mp mem']
  · rw [held.mp mem, pid0, holders]
    rfl
  · rw [held.mp mem, holders]
    decide
  · rw [held.mp mem, holders]
    exact cons_ne_nil _ _
  · have other : a ≠ c.pid0 := fun same => absent (held.mpr same)
    rw [s_eq]
    unfold pid_init
    dsimp only
    rw [update_of_ne other]
  · rw [s_eq]
    exact .inl (show 0 < MAXPID by decide)
  · refine ⟨?_, nodup_range', fun i mem => ?_, ?_, ?_, ?_, fun p mem => ?_, fun p mem => ?_,
      fun p mem => ?_, fun p mem => ?_, fun a mem _ => ?_, fun a mem => ?_, fun i below => ?_,
      ?_, ?_⟩
    · have path := new_path c procs pids (c.v_proc - 1) 1 (le_refl 1) (by omega)
      rw [if_neg (by omega), ← s_eq] at path
      have front : slot_at c s.procentfree = some 1 := by
        rw [s_eq]
        exact (slot_at_entry (by omega)).2
      rw [front]
      exact path
    · obtain ⟨low, high⟩ := mem_range'_1.mp mem
      refine ⟨by omega, ?_⟩
      rw [s_eq]
      unfold pid_init
      dsimp only
      rw [if_neg (by omega)]
      by_cases last : i < c.v_proc - 1
      · rw [if_pos last]
        exact .inr (slot_at_entry (by omega)).1
      · rw [if_neg last]
        exact .inl rfl
    · rw [s_eq]
      exact .inr (slot_at_entry (by omega)).1
    · rw [active]
      exact nodup_cons.mpr ⟨not_mem_nil, nodup_nil⟩
    · rw [active]
      exact mem_singleton.mpr rfl
    · rw [active] at mem
      rw [mem_singleton.mp mem]
      obtain ⟨positive, outside⟩ := c.sched_placed
      unfold Config.InDir
      omega
    · rw [active] at mem
      rw [mem_singleton.mp mem, sched]
      exact held.mpr rfl
    · rw [active] at mem
      rw [mem_singleton.mp mem, sched, pid0]
    · rw [active] at mem
      rw [mem_singleton.mp mem, sched, pid0]
      exact ⟨by dsimp only; omega, dir0⟩
    · exact ⟨c.proc_sched, by rw [active]; exact mem_singleton.mpr rfl,
        sched.trans (held.mp mem).symm⟩
    · rw [held.mp mem, pid0, holders]
      simp
    · by_cases zero : i = 0
      · refine .inr ⟨c.proc_sched, by rw [active]; exact mem_singleton.mpr rfl, ?_⟩
        rw [sched, pid0, zero]
      · exact .inl (mem_range'_1.mpr ⟨by omega, by omega⟩)
    · rw [active, s_eq]
      rfl
    · rw [length_range', s_eq]
      unfold pid_init
      dsimp only
      omega

theorem Ok.prfind (ok : Ok c s) {pid : Int} {prp : Nat} : prfind s pid = some prp ↔
    prp ∈ s.practive ∧ ((s.pids (s.procs prp).p_pidp).pid_id : Int) = pid := by
  obtain ⟨free, slots⟩ := ok.slots
  unfold Pid.prfind
  constructor
  · intro found
    split at found
    · next pidp looked_up =>
      obtain ⟨held, id_eq⟩ := ok.chains.lookup.mp looked_up
      split at found
      · next active =>
        obtain ⟨p, mem, same⟩ := slots.owner pidp held active
        have word := (slots.slot p mem).2
        rw [same] at word
        obtain rfl := word.symm.trans (some.inj found)
        exact ⟨mem, same ▸ id_eq⟩
      · exact absurd found (by simp)
    · exact absurd found (by simp)
  · rintro ⟨mem, id_eq⟩
    have looked_up := ok.chains.lookup.mpr ⟨slots.held prp mem, id_eq⟩
    rw [looked_up]
    dsimp only
    rw [if_pos (slots.active prp mem), (slots.slot prp mem).2]

theorem Ok.pid_entry (ok : Ok c s) {slot prp : Nat} (below : slot < c.v_proc) :
    pid_entry c s slot = some prp ↔ prp ∈ s.practive ∧
      (s.pids (s.procs prp).p_pidp).pid_prslot = slot ∧ (s.procs prp).p_stat ≠ .SIDL := by
  obtain ⟨free, slots⟩ := ok.slots
  unfold Pid.pid_entry
  rcases slots.every slot below with in_free | ⟨p, mem, same⟩
  · have word := (slots.free_word slot in_free).2
    rw [if_pos word.symm]
    refine ⟨fun none_ => absurd none_ (by simp), fun ⟨p_mem, p_slot, _⟩ => ?_⟩
    have p_word := (slots.slot prp p_mem).2
    rw [p_slot] at p_word
    rw [p_word] at word
    rcases word with null | inside
    · exact absurd null (slots.address prp p_mem).1
    · exact absurd inside (slots.address prp p_mem).2
  · have word := (slots.slot p mem).2
    rw [same] at word
    have address := slots.address p mem
    rw [word, if_neg (not_or.mpr ⟨address.2, address.1⟩)]
    split
    · next idle =>
      refine ⟨fun none_ => absurd none_ (by simp), fun ⟨q_mem, q_slot, not_idle⟩ => ?_⟩
      rw [slots.separate q_mem mem (q_slot.trans same.symm)] at not_idle
      exact absurd idle not_idle
    · next not_idle =>
      constructor
      · intro found
        obtain rfl := some.inj found
        exact ⟨mem, same, not_idle⟩
      · rintro ⟨q_mem, q_slot, -⟩
        rw [slots.separate q_mem mem (q_slot.trans same.symm)]

/-- The process `p` is new, with the pid `a` that it holds. -/
structure Assigned (s s' : State) (p a : Nat) (id : Int) : Prop where
  practive : s'.practive = p :: s.practive
  found : prfind s' id = some p
  on_chain : a ∈ s'.pidhash (id % HASHSZ).toNat
  pid : (s'.procs p).p_pidp = a ∧ ((s'.pids a).pid_id : Int) = id
  slot : s'.dir (s'.pids a).pid_prslot = p
  holders : s'.holders = update s.holders a [.process]
  nproc : s'.nproc = s.nproc + 1
  others : (∀ q, q ≠ p → s'.procs q = s.procs q) ∧ ∀ b, b ≠ a → s'.pids b = s.pids b

theorem Ok.assigned (ok : Ok c s)
    (possible : (Event.pid_assign np_nolast np_failok cr_uid cr_ruid prp pidp).Possible c s)
    (done : Pid.pid_assign c s np_nolast np_failok cr_uid cr_ruid prp pidp = .ok (s', id))
    (success : id ≠ -1) : ∃ p a, prp = some p ∧ pidp = some a ∧ Assigned s s' p a id := by
  have ok' := ok.pid_assign possible done
  obtain ⟨free, slots⟩ := ok'.slots
  rcases pid_assign_cases done with ⟨-, failed⟩ | ⟨p, a, m, rfl, rfl, rfl, found, rfl, -⟩
  · exact absurd failed success
  obtain ⟨s', s'_eq⟩ : ∃ s', s' = enter c s p a m := ⟨_, rfl⟩
  rw [← s'_eq] at ok' slots ⊢
  have new : (s'.procs p).p_pidp = a ∧ (s'.pids a).pid_id = m := by
    rw [s'_eq]
    unfold enter Pid.PID_HOLD
    simp only [update_self, and_self]
  have practive : s'.practive = p :: s.practive := by
    rw [s'_eq]
    rfl
  have mem : p ∈ s'.practive := practive ▸ mem_cons_self
  have held : a ∈ s'.held := new.1 ▸ slots.held p mem
  refine ⟨p, a, rfl, rfl, practive, ok'.prfind.mpr ⟨mem, ?_⟩, ?_, ⟨new.1, congrArg _ new.2⟩, ?_,
    ?_, ?_, fun q other => ?_, fun b other => ?_⟩
  · rw [new.1, new.2]
  · rw [← Int.natCast_emod, Int.toNat_natCast, ← new.2]
    exact ok'.chains.at_bucket.mp held
  · have slot := (slots.slot p mem).2
    rw [new.1] at slot
    exact slot
  · rw [s'_eq]
    unfold enter Pid.PID_HOLD
    dsimp only
    rw [update_idem, update_self]
  · rw [s'_eq]
    rfl
  · rw [s'_eq]
    exact update_of_ne other _ _
  · rw [s'_eq]
    unfold enter Pid.PID_HOLD
    dsimp only
    rw [update_of_ne other, update_of_ne other]

/-- A call that is about pids only. -/
structure Kept (s s' : State) : Prop where
  procs : s'.procs = s.procs
  practive : s'.practive = s.practive
  nproc : s'.nproc = s.nproc
  pids : ∀ b, (s'.pids b).pid_id = (s.pids b).pid_id ∧
    (s'.pids b).pid_prslot = (s.pids b).pid_prslot

theorem Kept.refl (s : State) : Kept s s := ⟨rfl, rfl, rfl, fun _ => ⟨rfl, rfl⟩⟩

theorem Kept.trans {t : State} (first : Kept s t) (second : Kept t s') : Kept s s' :=
  ⟨second.procs.trans first.procs, second.practive.trans first.practive,
    second.nproc.trans first.nproc, fun b =>
      ⟨(second.pids b).1.trans (first.pids b).1, (second.pids b).2.trans (first.pids b).2⟩⟩

theorem kept_hold (s : State) (a : Nat) (holder : Holder) : Kept s (PID_HOLD s a holder) := by
  exact ⟨rfl, rfl, rfl, fun b => ⟨update_field (f := PidInfo.pid_id) (by rfl) b,
    update_field (f := PidInfo.pid_prslot) (by rfl) b⟩⟩

theorem release_kept (s : State) (a : Nat) (holder : Holder) : Kept s (PID_RELE s a holder) ∧
    (PID_RELE s a holder).holders = update s.holders a ((s.holders a).erase holder) := by
  unfold Pid.PID_RELE
  dsimp only
  split
  · exact ⟨⟨rfl, rfl, rfl, fun b => ⟨update_field (f := PidInfo.pid_id) (by rfl) b,
      update_field (f := PidInfo.pid_prslot) (by rfl) b⟩⟩, rfl⟩
  · exact ⟨⟨rfl, rfl, rfl, fun _ => ⟨rfl, rfl⟩⟩, rfl⟩

/-- The process is gone, with the id that only it had, and its slot is free. -/
structure Exited (c : Config) (s s' : State) (prp : Nat) : Prop where
  practive : s'.practive = s.practive.erase prp
  lost : prfind s' (s.pids (s.procs prp).p_pidp).pid_id = none
  others : ∀ q ∈ s.practive, q ≠ prp →
    prfind s' (s.pids (s.procs q).p_pidp).pid_id = some q
  slot : pid_entry c s' (s.pids (s.procs prp).p_pidp).pid_prslot = none
  holder : .process ∉ s'.holders (s.procs prp).p_pidp
  nproc : s'.nproc + 1 = s.nproc

theorem exit_frame (c : Config) (s : State) (prp : Nat) (group session : Option Nat) :
    (pid_exit c s prp group session).practive = s.practive.erase prp ∧
      (pid_exit c s prp group session).nproc = s.nproc - 1 ∧
      (pid_exit c s prp group session).procs = s.procs ∧
      ∀ b, ((pid_exit c s prp group session).pids b).pid_id = (s.pids b).pid_id ∧
        ((pid_exit c s prp group session).pids b).pid_prslot = (s.pids b).pid_prslot := by
  have last : ∀ t : State, Kept s t → (pid_exit c t prp none none).practive = s.practive.erase prp ∧
      (pid_exit c t prp none none).nproc = s.nproc - 1 ∧
      (pid_exit c t prp none none).procs = s.procs ∧
      ∀ b, ((pid_exit c t prp none none).pids b).pid_id = (s.pids b).pid_id ∧
        ((pid_exit c t prp none none).pids b).pid_prslot = (s.pids b).pid_prslot := by
    intro t kept
    unfold Pid.pid_exit
    dsimp only
    obtain ⟨u, u_eq⟩ : ∃ u : State, u = { t with
        pids := update t.pids (t.procs prp).p_pidp
          { t.pids (t.procs prp).p_pidp with pid_prinactive := true }
        dir := update t.dir (t.pids (t.procs prp).p_pidp).pid_prslot t.procentfree
        procentfree := c.entry (t.pids (t.procs prp).p_pidp).pid_prslot } := ⟨_, rfl⟩
    have marked : Kept t u := by
      rw [u_eq]
      refine ⟨rfl, rfl, rfl, fun b => ?_⟩
      dsimp only
      by_cases same : b = (t.procs prp).p_pidp
      · rw [same, update_self]
        exact ⟨rfl, rfl⟩
      · rw [update_of_ne same]
        exact ⟨rfl, rfl⟩
    rw [← u_eq]
    have all := (kept.trans marked).trans (release_kept u (t.procs prp).p_pidp .process).1
    exact ⟨by rw [all.practive], by rw [all.nproc], all.procs, all.pids⟩
  have group_kept : ∀ pgp, Kept s (PID_RELE s pgp .group) := fun pgp => (release_kept s pgp _).1
  cases group with
  | none =>
    cases session with
    | none => exact last s (Kept.refl s)
    | some s_sidp => exact last _ (release_kept s s_sidp .session).1
  | some pgp =>
    cases session with
    | none => exact last _ (group_kept pgp)
    | some s_sidp => exact last _ ((group_kept pgp).trans (release_kept _ s_sidp .session).1)

theorem Ok.exited {prp : Nat} {group session : Option Nat} (ok : Ok c s)
    (possible : (Event.pid_exit prp group session).Possible c s) :
    Exited c s (Pid.pid_exit c s prp group session) prp := by
  have ok' := ok.pid_exit possible
  obtain ⟨practive, nproc, procs, pids⟩ := exit_frame c s prp group session
  obtain ⟨s', s'_eq⟩ : ∃ s', s' = Pid.pid_exit c s prp group session := ⟨_, rfl⟩
  rw [← s'_eq] at ok' practive nproc procs pids ⊢
  obtain ⟨free, slots⟩ := ok.slots
  obtain ⟨free', slots'⟩ := ok'.slots
  have mem : prp ∈ s.practive := possible.1
  have still : ∀ q, q ∈ s'.practive ↔ q ≠ prp ∧ q ∈ s.practive := fun q => by
    rw [practive]
    exact slots.once.mem_erase_iff
  -- whoever has the pid has its slot, and that is the process that exits
  have alone : ∀ q ∈ s'.practive, (s'.procs q).p_pidp ≠ (s.procs prp).p_pidp := by
    intro q q_mem same
    obtain ⟨other, old⟩ := (still q).mp q_mem
    rw [procs] at same
    exact other (slots.separate old mem (by rw [same]))
  refine ⟨practive, ?_, fun q q_mem other => ?_, ?_, fun holds => ?_, ?_⟩
  · rw [eq_none_iff_forall_ne_some]
    intro q found
    obtain ⟨q_mem, same⟩ := ok'.prfind.mp found
    have old := ((still q).mp q_mem).2
    rw [procs, (pids _).1] at same
    refine alone q q_mem ?_
    rw [procs]
    exact ok.chains.ids _ (slots.held q old) _ (slots.held prp mem) (Int.natCast_inj.mp same)
  · refine ok'.prfind.mpr ⟨(still q).mpr ⟨other, q_mem⟩, ?_⟩
    rw [procs, (pids _).1]
  · rw [eq_none_iff_forall_ne_some]
    intro q found
    obtain ⟨q_mem, same, -⟩ := (ok'.pid_entry (slots.slot prp mem).1).mp found
    obtain ⟨other, old⟩ := (still q).mp q_mem
    rw [procs, (pids _).2] at same
    exact other (slots.separate old mem same)
  · have held : (s.procs prp).p_pidp ∈ s'.held := by
      by_contra absent
      rw [ok'.chains.idle _ absent] at holds
      exact not_mem_nil holds
    obtain ⟨q, q_mem, same⟩ := slots'.owner _ held ((slots'.process _ held).mpr holds)
    exact alone q q_mem same
  · have positive := length_pos_of_mem mem
    rw [← slots.count] at positive
    omega

/-- In every state reached ids are unique and held as long as somebody holds them, processes are
found by id and slot, and calls keep their promises. -/
theorem pids_unique {procs : Nat → Proc} {pids : Nat → PidInfo} {events : List Event}
    (run : exec (step c) (pid_init c procs pids) events = some s) :
    (∀ a ∈ s.held, ∀ b ∈ s.held, (s.pids a).pid_id = (s.pids b).pid_id → a = b) ∧
      (∀ a, s.holders a ≠ [] ↔ a ∈ s.held) ∧
      (∀ pid prp, prfind s pid = some prp ↔
        prp ∈ s.practive ∧ ((s.pids (s.procs prp).p_pidp).pid_id : Int) = pid) ∧
      (∀ p ∈ s.practive, ∀ q ∈ s.practive, (s.pids (s.procs p).p_pidp).pid_prslot =
        (s.pids (s.procs q).p_pidp).pid_prslot → p = q) ∧
      (∃ free : List Nat, Path (fun i => slot_at c (s.dir i)) (slot_at c s.procentfree) free ∧
        free.Nodup ∧ free.length + s.nproc = c.v_proc) ∧
      (∀ slot < c.v_proc, ∀ prp, pid_entry c s slot = some prp ↔ prp ∈ s.practive ∧
        (s.pids (s.procs prp).p_pidp).pid_prslot = slot ∧ (s.procs prp).p_stat ≠ .SIDL) ∧
      (s.held.length < MAXPID - s.minpid → ∃ m, search s (2 * MAXPID) s.mpid = some m) ∧
      (∀ np_nolast np_failok cr_uid cr_ruid prp pidp s' id,
        pid_assign c s np_nolast np_failok cr_uid cr_ruid prp pidp = .ok (s', id) →
          (id = -1 → s' = s) ∧ (id ≠ -1 → (∀ a ∈ s.held, ((s.pids a).pid_id : Int) ≠ id) ∧
            (np_nolast = true → s'.nproc < c.v_proc) ∧
            ((Event.pid_assign np_nolast np_failok cr_uid cr_ruid prp pidp).Possible c s →
              ∃ p a, prp = some p ∧ pidp = some a ∧ Assigned s s' p a id))) ∧
      (∀ prp group session, (Event.pid_exit prp group session).Possible c s →
        Exited c s (pid_exit c s prp group session) prp) ∧
      (∀ a ∈ s.held, (s.pids a).pid_ref = (s.holders a).length) ∧
      ∀ a holder, Kept s (PID_HOLD s a holder) ∧ Kept s (PID_RELE s a holder) ∧
        (PID_HOLD s a holder).holders = update s.holders a (holder :: s.holders a) ∧
        (PID_RELE s a holder).holders = update s.holders a ((s.holders a).erase holder) := by
  have ok : Ok c s := exec_preserves (Ok c) (fun s e t ok taken => ok.step e taken)
    (init_ok c procs pids) run
  obtain ⟨free, slots⟩ := ok.slots
  refine ⟨ok.chains.ids, fun a => ⟨fun some_ => ?_, ok.chains.used a⟩, fun pid prp => ok.prfind,
    fun p p_mem q q_mem => slots.separate p_mem q_mem,
    ⟨free, slots.path, slots.nodup, slots.total⟩, fun slot below prp => ok.pid_entry below,
    search_ends ok.chains ok.range, ?_, fun prp group session possible => ok.exited possible,
    ok.chains.count, fun a holder => ?_⟩
  · by_contra absent
    exact some_ (ok.chains.idle a absent)
  · intro np_nolast np_failok cr_uid cr_ruid prp pidp s' id done
    have success := fun possible => ok.assigned possible done
    rcases pid_assign_cases done with ⟨rfl, rfl⟩ | ⟨p, a, m, rfl, rfl, rfl, found, rfl, room⟩
    · exact ⟨fun _ => rfl, fun differs => absurd rfl differs⟩
    · refine ⟨fun same => absurd same (by omega), fun differs => ⟨fun b held same => ?_,
        fun nolast => ?_, fun possible => success possible differs⟩⟩
      · exact ok.search_unheld found b held (Int.natCast_inj.mp same)
      · have below : ¬ c.v_proc - 1 ≤ s.nproc := fun full => room ⟨full, .inr nolast⟩
        show s.nproc + 1 < c.v_proc
        omega
  · obtain ⟨kept, holders⟩ := release_kept s a holder
    exact ⟨kept_hold s a holder, kept, rfl, holders⟩

end

/-- A system with sixty slots, where a process leads a group that outlives it. -/
theorem outlived_pid_unique : ∃ c events s,
    exec (step c) (pid_init c (fun _ => ⟨.other, 0, 0⟩) fun _ => ⟨false, 0, 0, 0⟩) events = some s ∧
      (∀ a ∈ s.held, ∀ b ∈ s.held, (s.pids a).pid_id = (s.pids b).pid_id → a = b) := by
  obtain ⟨c, c_eq⟩ : ∃ c : Config, c = ⟨60, 30, 1000, 5000, 9000, by decide, by decide, by decide⟩ :=
    ⟨_, rfl⟩
  obtain ⟨s, run⟩ := isSome_iff_exists.mp (show (exec (step c)
    (pid_init c (fun _ => ⟨.other, 0, 0⟩) fun _ => ⟨false, 0, 0, 0⟩)
    [.pid_assign false true 0 0 (some 6000) (some 7000), .PID_HOLD 7000 .group,
      .pid_exit 6000 none none]).isSome = true by
    rw [c_eq]
    decide +kernel)
  exact ⟨c, _, s, run, (pids_unique run).1⟩

end Pid
