import Svr4.Chains
import Svr4.Pid.Chains

/- The /proc directory: each slot is free or has one process. -/
namespace Pid
open Function NextChains List

def slot_at (c : Config) (w : Nat) : Option Nat :=
  if c.InDir w then some ((w - c.procdir) / 4) else none

section
variable {c : Config} {s s' : State} {free : List Nat} {a : Nat} {holder : Holder}

theorem slot_at_entry {i : Nat} (below : i < c.v_proc) :
    c.InDir (c.entry i) ∧ slot_at c (c.entry i) = some i := by
  have inside : c.InDir (c.entry i) := by
    unfold Config.InDir Config.entry
    omega
  refine ⟨inside, ?_⟩
  unfold slot_at
  rw [if_pos inside]
  unfold Config.entry
  rw [Nat.add_sub_cancel_left, Nat.mul_div_cancel_left i (by decide)]

structure Slots (c : Config) (s : State) (free : List Nat) : Prop where
  path : Path (fun i => slot_at c (s.dir i)) (slot_at c s.procentfree) free
  nodup : free.Nodup
  free_word : ∀ i ∈ free, i < c.v_proc ∧ (s.dir i = 0 ∨ c.InDir (s.dir i))
  front : s.procentfree = 0 ∨ c.InDir s.procentfree
  once : s.practive.Nodup
  sched : c.proc_sched ∈ s.practive
  address : ∀ p ∈ s.practive, p ≠ 0 ∧ ¬ c.InDir p
  held : ∀ p ∈ s.practive, (s.procs p).p_pidp ∈ s.held
  active : ∀ p ∈ s.practive, (s.pids (s.procs p).p_pidp).pid_prinactive = false
  slot : ∀ p ∈ s.practive, (s.pids (s.procs p).p_pidp).pid_prslot < c.v_proc ∧
    s.dir (s.pids (s.procs p).p_pidp).pid_prslot = p
  owner : ∀ a ∈ s.held, (s.pids a).pid_prinactive = false →
    ∃ p ∈ s.practive, (s.procs p).p_pidp = a
  process : ∀ a ∈ s.held, (s.pids a).pid_prinactive = false ↔ .process ∈ s.holders a
  every : ∀ i < c.v_proc, i ∈ free ∨
    ∃ p ∈ s.practive, (s.pids (s.procs p).p_pidp).pid_prslot = i
  count : s.nproc = s.practive.length
  total : free.length + s.nproc = c.v_proc

theorem Slots.separate (slots : Slots c s free) {p q : Nat} (p_mem : p ∈ s.practive)
    (q_mem : q ∈ s.practive) (same : (s.pids (s.procs p).p_pidp).pid_prslot =
      (s.pids (s.procs q).p_pidp).pid_prslot) : p = q := by
  rw [← (slots.slot p p_mem).2, ← (slots.slot q q_mem).2, same]

theorem Slots.frame (slots : Slots c s free)
    (procs : ∀ p, (s'.procs p).p_pidp = (s.procs p).p_pidp)
    (rest : s'.practive = s.practive ∧ s'.dir = s.dir ∧ s'.procentfree = s.procentfree ∧
      s'.nproc = s.nproc)
    (pids : ∀ b, (s'.pids b).pid_prslot = (s.pids b).pid_prslot ∧
      (s'.pids b).pid_prinactive = (s.pids b).pid_prinactive)
    (process : ∀ b, .process ∈ s'.holders b ↔ .process ∈ s.holders b)
    (held : ∀ b, b ∈ s'.held → b ∈ s.held)
    (stays : ∀ b ∈ s.held, .process ∈ s.holders b → b ∈ s'.held) : Slots c s' free := by
  cases s'
  obtain ⟨rfl, rfl, rfl, rfl⟩ := rest
  refine { slots with
    held := ?_, active := ?_, slot := ?_, owner := ?_, process := ?_, every := ?_ }
  · intro p mem
    rw [procs]
    exact stays _ (slots.held p mem) ((slots.process _ (slots.held p mem)).mp (slots.active p mem))
  · intro p mem
    rw [procs, (pids _).2]
    exact slots.active p mem
  · intro p mem
    rw [procs, (pids _).1]
    exact slots.slot p mem
  · intro b mem active
    rw [(pids b).2] at active
    obtain ⟨p, p_mem, same⟩ := slots.owner b (held b mem) active
    exact ⟨p, p_mem, (procs p).trans same⟩
  · intro b mem
    rw [(pids b).2, process b]
    exact slots.process b (held b mem)
  · refine fun i below => (slots.every i below).imp_right (Exists.imp fun p here => ?_)
    rw [procs, (pids _).1]
    exact here

theorem Slots.hold (slots : Slots c s free) (other : holder ≠ .process) :
    Slots c (PID_HOLD s a holder) free := by
  have pids : ∀ b, ((PID_HOLD s a holder).pids b).pid_prslot = (s.pids b).pid_prslot ∧
      ((PID_HOLD s a holder).pids b).pid_prinactive = (s.pids b).pid_prinactive := by
    exact fun b => ⟨update_field (f := PidInfo.pid_prslot) (by rfl) b,
      update_field (f := PidInfo.pid_prinactive) (by rfl) b⟩
  refine slots.frame (fun _ => rfl) ⟨rfl, rfl, rfl, rfl⟩ pids (fun b => ?_) (fun _ mem => mem)
    fun _ mem _ => mem
  unfold PID_HOLD
  dsimp only
  by_cases same : b = a
  · rw [same, update_self, mem_cons]
    exact ⟨fun mem => mem.resolve_left other.symm, .inr⟩
  · rw [update_of_ne same]

theorem Slots.release (slots : Slots c s free) (released : Released s s' a holder)
    (other : holder ≠ .process) : Slots c s' free := by
  obtain ⟨procs, practive, dir, procentfree, nproc, -, -⟩ := released.rest
  have process : ∀ b, .process ∈ s'.holders b ↔ .process ∈ s.holders b := by
    intro b
    rw [released.holders]
    by_cases same : b = a
    · rw [same, update_self]
      exact mem_erase_of_ne other.symm
    · rw [update_of_ne same]
  refine slots.frame (fun _ => by rw [procs]) ⟨practive, dir, procentfree, nproc⟩
    (fun b => (released.same b).2) process (fun b mem => ((released.held b).mp mem).1)
    fun b mem holds => (released.held b).mpr ⟨mem, fun same => ?_⟩
  rw [same] at holds
  exact ne_nil_of_mem ((mem_erase_of_ne other.symm).mpr holds)

theorem Slots.enter {prp pidp mpid : Nat} (slots : Slots c s free) (chains : Chains s)
    (room : s.nproc < c.v_proc) (address : prp ≠ 0 ∧ ¬ c.InDir prp) (new : prp ∉ s.practive)
    (fresh : pidp ∉ s.held) (unheld : ∀ b ∈ s.held, (s.pids b).pid_id ≠ mpid) :
    ∃ rest, Slots c (enter c s prp pidp mpid) rest := by
  have total := slots.total
  have path := slots.path
  have nodup := slots.nodup
  cases free with
  | nil =>
    rw [length_nil] at total
    omega
  | cons i rest =>
    obtain ⟨head, tail⟩ := path
    rw [nodup_cons] at nodup
    have i_word := slots.free_word i (mem_cons_self ..)
    have slot_eq : (s.procentfree - c.procdir) / 4 = i := by
      unfold slot_at at head
      split at head
      · exact Option.some.inj head
      · exact absurd head (by simp)
    have small : i % 2 ^ 24 = i := Nat.mod_eq_of_lt (by
      have := c.tuned
      omega)
    obtain ⟨s', s'_eq⟩ : ∃ s', s' = Pid.enter c s prp pidp mpid := ⟨_, rfl⟩
    obtain ⟨-, held⟩ := @Chains.enter c s prp pidp mpid chains fresh unheld
    rw [← s'_eq] at held
    have dir : s'.dir = update s.dir i prp := by
      rw [s'_eq, ← slot_eq]
      rfl
    have procentfree : s'.procentfree = s.dir i := by
      rw [s'_eq, ← slot_eq]
      rfl
    have procs : s'.procs = update s.procs prp ⟨.SIDL, 0, pidp⟩ := by
      rw [s'_eq]
      rfl
    have practive : s'.practive = prp :: s.practive := by
      rw [s'_eq]
      rfl
    have nproc : s'.nproc = s.nproc + 1 := by
      rw [s'_eq]
      rfl
    have new_pid : s'.pids pidp = ⟨false, 1, i, mpid⟩ := by
      rw [s'_eq, enter_pids, update_self, slot_eq, small]
    have old_pid : ∀ b, b ≠ pidp → s'.pids b = s.pids b := by
      intro b other
      rw [s'_eq, enter_pids, update_of_ne other]
    have new_holders : s'.holders pidp = [.process] := by
      rw [s'_eq, enter_holders, update_self]
    have old_holders : ∀ b, b ≠ pidp → s'.holders b = s.holders b := by
      intro b other
      rw [s'_eq, enter_holders, update_of_ne other]
    rw [← s'_eq]
    have new_proc : (s'.procs prp).p_pidp = pidp := by rw [procs, update_self]
    have old_proc : ∀ p ∈ s.practive, s'.procs p = s.procs p := by
      intro p mem
      rw [procs, update_of_ne]
      exact fun same => new (same ▸ mem)
    have known : ∀ b ∈ s.held, b ≠ pidp := fun b mem same => fresh (same ▸ mem)
    -- the slots of the others are not the one that was free
    have apart : ∀ p ∈ s.practive, (s.pids (s.procs p).p_pidp).pid_prslot ≠ i := by
      intro p mem same
      have word := (slots.slot p mem).2
      rw [same] at word
      rcases i_word.2 with null | inside
      · exact (slots.address p mem).1 (word.symm.trans null)
      · exact (slots.address p mem).2 (word ▸ inside)
    refine ⟨rest, ?_, nodup.2, fun j mem => ?_, ?_, ?_, ?_, fun p mem => ?_, fun p mem => ?_,
      fun p mem => ?_, fun p mem => ?_, fun b mem active => ?_, fun b mem => ?_, fun j below => ?_,
      ?_, ?_⟩
    · rw [dir, procentfree]
      refine Segment.congr tail fun j mem => ?_
      rw [update_of_ne (show j ≠ i from fun same => nodup.1 (same ▸ mem))]
    · rw [dir, update_of_ne (show j ≠ i from fun same => nodup.1 (same ▸ mem))]
      exact slots.free_word j (mem_cons_of_mem i mem)
    · rw [procentfree]
      exact i_word.2
    · rw [practive]
      exact nodup_cons.mpr ⟨new, slots.once⟩
    · rw [practive]
      exact mem_cons_of_mem _ slots.sched
    · rw [practive] at mem
      rcases mem_cons.mp mem with rfl | old
      · exact address
      · exact slots.address p old
    · rw [practive] at mem
      rcases mem_cons.mp mem with rfl | old
      · rw [new_proc]
        exact (held _).mpr (.inl rfl)
      · rw [old_proc p old]
        exact (held _).mpr (.inr (slots.held p old))
    · rw [practive] at mem
      rcases mem_cons.mp mem with rfl | old
      · rw [new_proc, new_pid]
      · rw [old_proc p old, old_pid _ (known _ (slots.held p old))]
        exact slots.active p old
    · rw [practive] at mem
      rcases mem_cons.mp mem with rfl | old
      · rw [new_proc, new_pid, dir, update_self]
        exact ⟨i_word.1, rfl⟩
      · rw [old_proc p old, old_pid _ (known _ (slots.held p old)), dir, update_of_ne (apart p old)]
        exact slots.slot p old
    · rcases (held b).mp mem with rfl | old
      · exact ⟨prp, practive ▸ mem_cons_self .., new_proc⟩
      · rw [old_pid b (known b old)] at active
        obtain ⟨p, p_mem, same⟩ := slots.owner b old active
        exact ⟨p, practive ▸ mem_cons_of_mem _ p_mem, (old_proc p p_mem).symm ▸ same⟩
    · rcases (held b).mp mem with rfl | old
      · rw [new_pid, new_holders]
        simp
      · rw [old_pid b (known b old), old_holders b (known b old)]
        exact slots.process b old
    · rcases slots.every j below with in_free | ⟨p, mem, same⟩
      · rcases mem_cons.mp in_free with rfl | later
        · refine .inr ⟨prp, practive ▸ mem_cons_self .., ?_⟩
          rw [new_proc, new_pid]
        · exact .inl later
      · refine .inr ⟨p, practive ▸ mem_cons_of_mem _ mem, ?_⟩
        rw [old_proc p mem, old_pid _ (known _ (slots.held p mem))]
        exact same
    · rw [nproc, practive, slots.count]
      rfl
    · rw [length_cons] at total
      omega

theorem Slots.leave {prp pidp slot : Nat} {s₁ s₂ : State} (slots : Slots c s free)
    (chains : Chains s) (mem : prp ∈ s.practive) (not_sched : prp ≠ c.proc_sched)
    (pidp_eq : pidp = (s.procs prp).p_pidp) (slot_eq : slot = (s.pids pidp).pid_prslot)
    (s₁_eq : s₁ = { s with
      pids := update s.pids pidp { s.pids pidp with pid_prinactive := true }
      dir := update s.dir slot s.procentfree
      procentfree := c.entry slot })
    (released : Released s₁ s₂ pidp .process) :
    Slots c { s₂ with practive := s₂.practive.erase prp, nproc := s₂.nproc - 1 } (slot :: free) := by
  obtain ⟨procs, practive, dir, procentfree, nproc, -, -⟩ := released.rest
  have active := slots.active prp mem
  have on_chain := slots.held prp mem
  have word := slots.slot prp mem
  have away := slots.address prp mem
  rw [← pidp_eq] at active on_chain word
  rw [← slot_eq] at word
  rw [s₁_eq] at procs practive dir procentfree nproc
  dsimp only at procs practive dir procentfree nproc
  have held : ∀ b, b ∈ s₂.held → b ∈ s.held := by
    intro b b_mem
    have := ((released.held b).mp b_mem).1
    rw [s₁_eq] at this
    exact this
  have holders : ∀ b, b ≠ pidp → s₂.holders b = s.holders b := by
    intro b other
    rw [released.holders, update_of_ne other, s₁_eq]
  have pids : ∀ b, b ≠ pidp → (s₂.pids b).pid_prslot = (s.pids b).pid_prslot ∧
      (s₂.pids b).pid_prinactive = (s.pids b).pid_prinactive := by
    intro b other
    obtain ⟨-, same_slot, same_active⟩ := released.same b
    rw [same_slot, same_active, s₁_eq]
    dsimp only
    rw [update_of_ne other]
    exact ⟨rfl, rfl⟩
  have gone : (s₂.pids pidp).pid_prinactive = true := by
    rw [(released.same pidp).2.2, s₁_eq]
    dsimp only
    rw [update_self]
  have no_process : .process ∉ s₂.holders pidp := by
    rw [released.holders, update_self, s₁_eq]
    exact (chains.once pidp on_chain).not_mem_erase
  -- the others have other pids and other slots
  have others : ∀ p ∈ s.practive.erase prp, p ∈ s.practive ∧ (s.procs p).p_pidp ≠ pidp ∧
      (s.pids (s.procs p).p_pidp).pid_prslot ≠ slot := by
    intro p p_mem
    obtain ⟨other, old⟩ := slots.once.mem_erase_iff.mp p_mem
    have slot_differs : (s.pids (s.procs p).p_pidp).pid_prslot ≠ slot := by
      rw [slot_eq, pidp_eq]
      exact fun same => other (slots.separate old mem same)
    refine ⟨old, fun same => slot_differs ?_, slot_differs⟩
    rw [same, slot_eq]
  have not_free : slot ∉ free := by
    intro in_free
    rcases (slots.free_word slot in_free).2 with null | inside
    · exact away.1 (word.2.symm.trans null)
    · exact away.2 (word.2 ▸ inside)
  obtain ⟨inside, decoded⟩ := slot_at_entry word.1
  refine ⟨?_, nodup_cons.mpr ⟨not_free, slots.nodup⟩, fun j j_mem => ?_, ?_, ?_, ?_,
    fun p p_mem => ?_, fun p p_mem => ?_, fun p p_mem => ?_, fun p p_mem => ?_,
    fun b b_mem b_active => ?_, fun b b_mem => ?_, fun j below => ?_, ?_, ?_⟩
  · rw [dir, procentfree]
    refine ⟨decoded, ?_⟩
    show Segment _ (slot_at c (update s.dir slot s.procentfree slot)) free none
    rw [update_self]
    refine Segment.congr slots.path fun j j_mem => ?_
    rw [update_of_ne (show j ≠ slot from fun same => not_free (same ▸ j_mem))]
  · rw [dir]
    rcases mem_cons.mp j_mem with rfl | old
    · rw [update_self]
      exact ⟨word.1, slots.front⟩
    · rw [update_of_ne (show j ≠ slot from fun same => not_free (same ▸ old))]
      exact slots.free_word j old
  · rw [procentfree]
    exact .inr inside
  · rw [practive]
    exact slots.once.erase prp
  · rw [practive]
    exact (mem_erase_of_ne not_sched.symm).mpr slots.sched
  · rw [practive] at p_mem
    exact slots.address p (others p p_mem).1
  · rw [practive] at p_mem
    obtain ⟨old, other_pid, -⟩ := others p p_mem
    rw [procs]
    refine (released.held _).mpr ⟨?_, fun same => absurd same other_pid⟩
    rw [s₁_eq]
    exact slots.held p old
  · rw [practive] at p_mem
    obtain ⟨old, other_pid, -⟩ := others p p_mem
    rw [procs, (pids _ other_pid).2]
    exact slots.active p old
  · rw [practive] at p_mem
    obtain ⟨old, other_pid, other_slot⟩ := others p p_mem
    rw [procs, (pids _ other_pid).1, dir, update_of_ne other_slot]
    exact slots.slot p old
  · have other : b ≠ pidp := by
      rintro rfl
      rw [gone] at b_active
      exact absurd b_active (by simp)
    rw [(pids b other).2] at b_active
    obtain ⟨p, p_mem, same⟩ := slots.owner b (held b b_mem) b_active
    refine ⟨p, ?_, by rw [procs, same]⟩
    rw [practive]
    refine (mem_erase_of_ne fun is_prp => other ?_).mpr p_mem
    rw [← same, is_prp, pidp_eq]
  · by_cases same : b = pidp
    · rw [same, gone]
      exact ⟨fun absurd_ => absurd absurd_ (by simp), fun mem => absurd mem no_process⟩
    · rw [(pids b same).2, holders b same]
      exact slots.process b (held b b_mem)
  · rcases slots.every j below with in_free | ⟨p, p_mem, same⟩
    · exact .inl (mem_cons_of_mem _ in_free)
    by_cases is_prp : p = prp
    · refine .inl (mem_cons.mpr (.inl ?_))
      rw [← same, is_prp, slot_eq, pidp_eq]
    · have stays : p ∈ s.practive.erase prp := (mem_erase_of_ne is_prp).mpr p_mem
      refine .inr ⟨p, ?_, ?_⟩
      · rw [practive]
        exact stays
      · rw [procs, (pids _ (others p stays).2.1).1]
        exact same
  · rw [nproc, practive, length_erase_of_mem mem, slots.count]
  · dsimp only
    have total := slots.total
    have count := slots.count
    have positive := length_pos_of_mem mem
    rw [nproc, length_cons]
    omega

end

end Pid
