import Mathlib.Data.List.Perm.Subperm
import Svr4.Pid.Table

/- The hash chains and the counts of the pids on them. -/
namespace Pid
open Function List

section
variable {c : Config} {s : State} {a b : Nat} {holder : Holder} {pid : Int}

/-- A pid is on the chain of its id, each id once, and counts its holders. -/
structure Chains (s : State) : Prop where
  bucket : ∀ k < HASHSZ, ∀ a ∈ s.pidhash k, (s.pids a).pid_id % HASHSZ = k
  chain : ∀ k < HASHSZ, (s.pidhash k).Nodup
  ids : ∀ a ∈ s.held, ∀ b ∈ s.held, (s.pids a).pid_id = (s.pids b).pid_id → a = b
  count : ∀ a ∈ s.held, (s.pids a).pid_ref = (s.holders a).length
  once : ∀ a ∈ s.held, (s.holders a).Nodup
  used : ∀ a ∈ s.held, s.holders a ≠ []
  idle : ∀ a, a ∉ s.held → s.holders a = []

theorem mem_held : a ∈ s.held ↔ ∃ k < HASHSZ, a ∈ s.pidhash k := by
  unfold State.held
  simp only [mem_flatMap, mem_range]

theorem bucket_lt (n : Nat) : n % HASHSZ < HASHSZ := Nat.mod_lt n (by decide)

theorem Chains.at_bucket (chains : Chains s) :
    a ∈ s.held ↔ a ∈ s.pidhash ((s.pids a).pid_id % HASHSZ) := by
  rw [mem_held]
  constructor
  · rintro ⟨k, below, mem⟩
    rw [chains.bucket k below a mem]
    exact mem
  · exact fun mem => ⟨_, bucket_lt _, mem⟩

theorem holders_few {l : List Holder} (once : l.Nodup) : l.length ≤ 6 := by
  have all : l ⊆ [.process, .group, .session, .terminal, .foreground_of_birth,
      .foreground_of_session] := by
    intro h _
    cases h
    all_goals simp
  exact (subperm_of_subset once all).length_le

theorem Chains.lookup (chains : Chains s) :
    pid_lookup s pid = some a ↔ a ∈ s.held ∧ ((s.pids a).pid_id : Int) = pid := by
  unfold pid_lookup
  constructor
  · intro found
    have same : ((s.pids a).pid_id : Int) = pid := by simpa using find?_some found
    have mem := mem_of_find?_eq_some found
    refine ⟨mem_held.mpr ⟨_, ?_, mem⟩, same⟩
    have := Int.emod_lt_of_pos pid (show (0 : Int) < HASHSZ by decide)
    have := Int.emod_nonneg pid (show (HASHSZ : Int) ≠ 0 by decide)
    omega
  · rintro ⟨held, rfl⟩
    have at_bucket := chains.at_bucket.mp held
    have here : (((s.pids a).pid_id : Int) % HASHSZ).toNat = (s.pids a).pid_id % HASHSZ := by
      omega
    rw [here]
    obtain ⟨b, found⟩ := Option.isSome_iff_exists.mp (find?_isSome.mpr
      ⟨a, at_bucket, by simp⟩ : (find? (fun pidp => decide
        (((s.pids pidp).pid_id : Int) = (s.pids a).pid_id)) _).isSome = true)
    have same : (s.pids b).pid_id = (s.pids a).pid_id :=
      Int.natCast_inj.mp (by simpa using find?_some found)
    have b_held : b ∈ s.held := mem_held.mpr ⟨_, bucket_lt _, mem_of_find?_eq_some found⟩
    rw [found, chains.ids b b_held a held same]

theorem Chains.lookup_none (chains : Chains s) :
    pid_lookup s pid = none ↔ ∀ a ∈ s.held, ((s.pids a).pid_id : Int) ≠ pid := by
  constructor
  · intro absent a held same
    rw [chains.lookup.mpr ⟨held, same⟩] at absent
    exact absurd absent (by simp)
  · intro absent
    rw [Option.eq_none_iff_forall_ne_some]
    exact fun a found => absent a (chains.lookup.mp found).1 (chains.lookup.mp found).2

theorem Chains.hold (chains : Chains s) (held : a ∈ s.held) (new : holder ∉ s.holders a) :
    Chains (PID_HOLD s a holder) := by
  have same_id : ∀ b, ((PID_HOLD s a holder).pids b).pid_id = (s.pids b).pid_id := by
    intro b
    unfold PID_HOLD
    dsimp only
    by_cases same : b = a
    · rw [same, update_self]
    · rw [update_of_ne same]
  refine ⟨fun k below b mem => ?_, chains.chain, fun b mem b' mem' same => ?_, fun b mem => ?_,
    fun b mem => ?_, fun b mem => ?_, fun b absent => ?_⟩
  · rw [same_id]
    exact chains.bucket k below b mem
  · rw [same_id, same_id] at same
    exact chains.ids b mem b' mem' same
  · unfold PID_HOLD
    dsimp only
    rw [update_apply, update_apply]
    split
    · have few := holders_few (nodup_cons.mpr ⟨new, chains.once a held⟩)
      rw [chains.count a held]
      rw [length_cons] at few ⊢
      exact Nat.mod_eq_of_lt (by omega)
    · exact chains.count b mem
  · unfold PID_HOLD
    dsimp only
    rw [update_apply]
    split
    · exact nodup_cons.mpr ⟨new, chains.once a held⟩
    · exact chains.once b mem
  · unfold PID_HOLD
    dsimp only
    rw [update_apply]
    split
    · exact cons_ne_nil _ _
    · exact chains.used b mem
  · have other : b ≠ a := fun same => absent (same ▸ held)
    unfold PID_HOLD
    dsimp only
    rw [update_of_ne other]
    exact chains.idle b absent

/-- What a release does: the pid goes off its chain when nobody holds it any more, and the rest
    stays. -/
structure Released (s s' : State) (a : Nat) (holder : Holder) : Prop where
  chains : Chains s'
  holders : s'.holders = update s.holders a ((s.holders a).erase holder)
  held : ∀ b, b ∈ s'.held ↔ b ∈ s.held ∧ (b = a → (s.holders a).erase holder ≠ [])
  same : ∀ b, (s'.pids b).pid_id = (s.pids b).pid_id ∧
    (s'.pids b).pid_prslot = (s.pids b).pid_prslot ∧
    (s'.pids b).pid_prinactive = (s.pids b).pid_prinactive
  rest : s'.procs = s.procs ∧ s'.practive = s.practive ∧ s'.dir = s.dir ∧
    s'.procentfree = s.procentfree ∧ s'.nproc = s.nproc ∧ s'.mpid = s.mpid ∧
    s'.minpid = s.minpid

theorem Chains.release (chains : Chains s) (holds : holder ∈ s.holders a) :
    Released s (PID_RELE s a holder) a holder := by
  have held : a ∈ s.held := by
    by_contra absent
    rw [chains.idle a absent] at holds
    exact not_mem_nil holds
  have count := chains.count a held
  have fewer := length_erase_of_mem holds
  have erased := (chains.once a held).erase holder
  unfold PID_RELE
  dsimp only
  split
  · next more =>
    have same_id : ∀ b, (update s.pids a
        { s.pids a with pid_ref := (s.pids a).pid_ref - 1 } b).pid_id = (s.pids b).pid_id := by
      intro b
      by_cases same : b = a
      · rw [same, update_self]
      · rw [update_of_ne same]
    have left_over : (s.holders a).erase holder ≠ [] := by
      intro none_left
      rw [none_left, length_nil] at fewer
      omega
    refine ⟨⟨fun k below b mem => ?_, chains.chain, fun b mem b' mem' same => ?_,
      fun b mem => ?_, fun b mem => ?_, fun b mem => ?_, fun b absent => ?_⟩, rfl, fun b => ?_,
      fun b => ⟨same_id b, ?_, ?_⟩, rfl, rfl, rfl, rfl, rfl, rfl, rfl⟩
    · rw [same_id]
      exact chains.bucket k below b mem
    · rw [same_id, same_id] at same
      exact chains.ids b mem b' mem' same
    · dsimp only
      rw [update_apply, update_apply]
      split
      · dsimp only
        omega
      · exact chains.count b mem
    · dsimp only
      rw [update_apply]
      split
      · exact erased
      · exact chains.once b mem
    · dsimp only
      rw [update_apply]
      split
      · exact left_over
      · exact chains.used b mem
    · have other : b ≠ a := fun same => absent (same ▸ held)
      dsimp only
      rw [update_of_ne other]
      exact chains.idle b absent
    · exact ⟨fun mem => ⟨mem, fun _ => left_over⟩, fun mem => mem.1⟩
    · dsimp only
      by_cases same : b = a
      · rw [same, update_self]
      · rw [update_of_ne same]
    · dsimp only
      by_cases same : b = a
      · rw [same, update_self]
      · rw [update_of_ne same]
  · next last =>
    have none_left : (s.holders a).erase holder = [] := by
      apply eq_nil_of_length_eq_zero
      omega
    obtain ⟨k, k_eq⟩ : ∃ k, k = (s.pids a).pid_id % HASHSZ := ⟨_, rfl⟩
    have below : k < HASHSZ := k_eq ▸ bucket_lt _
    -- off the chain of its id, and it was on no other
    have still : ∀ b j, j < HASHSZ →
        (b ∈ update s.pidhash k ((s.pidhash k).erase a) j ↔ b ∈ s.pidhash j ∧ b ≠ a) := by
      intro b j j_below
      by_cases here : j = k
      · rw [here, update_self, (chains.chain k below).mem_erase_iff, and_comm]
      · rw [update_of_ne here]
        refine ⟨fun mem => ⟨mem, fun same => here ?_⟩, fun mem => mem.1⟩
        rw [← chains.bucket j j_below b mem, same, k_eq]
    have held_iff : ∀ b, b ∈ (pid_rele { s with
        holders := update s.holders a ((s.holders a).erase holder) } a).held ↔
          b ∈ s.held ∧ b ≠ a := by
      intro b
      unfold pid_rele
      rw [← k_eq, mem_held, mem_held]
      constructor
      · rintro ⟨j, j_below, mem⟩
        have both := (still b j j_below).mp mem
        exact ⟨⟨j, j_below, both.1⟩, both.2⟩
      · rintro ⟨⟨j, j_below, mem⟩, other⟩
        exact ⟨j, j_below, (still b j j_below).mpr ⟨mem, other⟩⟩
    refine ⟨⟨fun j j_below b mem => ?_, fun j j_below => ?_, fun b mem b' mem' same => ?_,
      fun b mem => ?_, fun b mem => ?_, fun b mem => ?_, fun b absent => ?_⟩, rfl, fun b => ?_,
      fun b => ⟨rfl, rfl, rfl⟩, rfl, rfl, rfl, rfl, rfl, rfl, rfl⟩
    · unfold pid_rele at mem
      rw [← k_eq] at mem
      exact chains.bucket j j_below b ((still b j j_below).mp mem).1
    · unfold pid_rele
      dsimp only
      rw [← k_eq]
      rw [update_apply]
      split
      · exact (chains.chain k below).erase a
      · exact chains.chain j j_below
    · exact chains.ids b ((held_iff b).mp mem).1 b' ((held_iff b').mp mem').1 same
    · obtain ⟨mem, other⟩ := (held_iff b).mp mem
      unfold pid_rele
      dsimp only
      rw [update_of_ne other]
      exact chains.count b mem
    · obtain ⟨mem, other⟩ := (held_iff b).mp mem
      unfold pid_rele
      dsimp only
      rw [update_of_ne other]
      exact chains.once b mem
    · obtain ⟨mem, other⟩ := (held_iff b).mp mem
      unfold pid_rele
      dsimp only
      rw [update_of_ne other]
      exact chains.used b mem
    · unfold pid_rele
      dsimp only
      by_cases same : b = a
      · rw [same, update_self, none_left]
      · rw [update_of_ne same]
        exact chains.idle b fun mem => absent ((held_iff b).mpr ⟨mem, same⟩)
    · rw [held_iff, none_left]
      simp

section
variable (c) (prp pidp mpid : Nat)

theorem enter_pids : (enter c s prp pidp mpid).pids =
    update s.pids pidp ⟨false, 1, (s.procentfree - c.procdir) / 4 % 2 ^ 24, mpid⟩ := by
  unfold Pid.enter PID_HOLD
  dsimp only
  rw [update_idem, update_self]
  rfl

theorem enter_holders : (enter c s prp pidp mpid).holders = update s.holders pidp [.process] := by
  unfold Pid.enter PID_HOLD
  dsimp only
  rw [update_idem, update_self]

end

theorem Chains.enter {prp pidp mpid : Nat} (chains : Chains s) (fresh : pidp ∉ s.held)
    (unheld : ∀ b ∈ s.held, (s.pids b).pid_id ≠ mpid) : Chains (enter c s prp pidp mpid) ∧
      ∀ b, b ∈ (Pid.enter c s prp pidp mpid).held ↔ b = pidp ∨ b ∈ s.held := by
  obtain ⟨s', s'_eq⟩ : ∃ s', s' = Pid.enter c s prp pidp mpid := ⟨_, rfl⟩
  rw [← s'_eq]
  have hash : s'.pidhash =
      update s.pidhash (mpid % HASHSZ) (pidp :: s.pidhash (mpid % HASHSZ)) := by
    rw [s'_eq]
    rfl
  have new_pid : s'.pids pidp = ⟨false, 1, (s.procentfree - c.procdir) / 4 % 2 ^ 24, mpid⟩ := by
    rw [s'_eq, enter_pids, update_self]
  have old_pid : ∀ b, b ≠ pidp → s'.pids b = s.pids b := by
    intro b other
    rw [s'_eq, enter_pids, update_of_ne other]
  have new_holders : s'.holders pidp = [.process] := by
    rw [s'_eq, enter_holders, update_self]
  have old_holders : ∀ b, b ≠ pidp → s'.holders b = s.holders b := by
    intro b other
    rw [s'_eq, enter_holders, update_of_ne other]
  have chain : ∀ b k, b ∈ s'.pidhash k ↔ (b = pidp ∧ k = mpid % HASHSZ) ∨ b ∈ s.pidhash k := by
    intro b k
    rw [hash]
    by_cases here : k = mpid % HASHSZ
    · rw [here, update_self, mem_cons]
      simp
    · rw [update_of_ne here]
      simp [here]
  have held : ∀ b, b ∈ s'.held ↔ b = pidp ∨ b ∈ s.held := by
    intro b
    rw [mem_held, mem_held]
    constructor
    · rintro ⟨k, below, mem⟩
      rcases (chain b k).mp mem with ⟨new, -⟩ | old
      · exact .inl new
      · exact .inr ⟨k, below, old⟩
    · rintro (new | ⟨k, below, old⟩)
      · exact ⟨_, bucket_lt mpid, (chain b _).mpr (.inl ⟨new, rfl⟩)⟩
      · exact ⟨k, below, (chain b k).mpr (.inr old)⟩
  have known : ∀ b ∈ s.held, b ≠ pidp := fun b mem same => fresh (same ▸ mem)
  refine ⟨⟨fun k below b mem => ?_, fun k below => ?_, fun b mem b' mem' same => ?_,
    fun b mem => ?_, fun b mem => ?_, fun b mem => ?_, fun b absent => ?_⟩, held⟩
  · rcases (chain b k).mp mem with ⟨rfl, here⟩ | old
    · rw [new_pid, here]
    · rw [old_pid b (known b (mem_held.mpr ⟨k, below, old⟩))]
      exact chains.bucket k below b old
  · rw [hash]
    by_cases here : k = mpid % HASHSZ
    · rw [here, update_self]
      refine nodup_cons.mpr ⟨fun mem => fresh ?_, chains.chain _ (bucket_lt mpid)⟩
      exact mem_held.mpr ⟨_, bucket_lt mpid, mem⟩
    · rw [update_of_ne here]
      exact chains.chain k below
  · rcases (held b).mp mem with rfl | old
    · rcases (held b').mp mem' with rfl | old'
      · rfl
      · rw [new_pid, old_pid b' (known b' old')] at same
        exact absurd same.symm (unheld b' old')
    · rcases (held b').mp mem' with rfl | old'
      · rw [new_pid, old_pid b (known b old)] at same
        exact absurd same (unheld b old)
      · rw [old_pid b (known b old), old_pid b' (known b' old')] at same
        exact chains.ids b old b' old' same
  · rcases (held b).mp mem with rfl | old
    · rw [new_pid, new_holders]
      rfl
    · rw [old_pid b (known b old), old_holders b (known b old)]
      exact chains.count b old
  · rcases (held b).mp mem with rfl | old
    · rw [new_holders]
      exact nodup_cons.mpr ⟨not_mem_nil, nodup_nil⟩
    · rw [old_holders b (known b old)]
      exact chains.once b old
  · rcases (held b).mp mem with rfl | old
    · rw [new_holders]
      exact cons_ne_nil _ _
    · rw [old_holders b (known b old)]
      exact chains.used b old
  · rw [held] at absent
    rw [old_holders b fun same => absent (.inl same)]
    exact chains.idle b fun mem => absent (.inr mem)

end

end Pid

/- The loop for a free id. -/
namespace Pid
open Function List

section
variable {s : State} {m m' fuel : Nat}

/-- Below MAXPID, unless the minimum has moved beyond it. -/
def InRange (s : State) (m : Nat) : Prop := m < MAXPID ∨ MAXPID ≤ s.minpid

theorem search_some (start : InRange s m) (found : search s fuel m = some m') :
    pid_lookup s m' = none ∧ InRange s m' := by
  induction fuel generalizing m with
  | zero => exact absurd found (by simp [search])
  | succ fuel ih =>
    have next : InRange s (next_mpid s.minpid m) := by
      unfold InRange at start ⊢
      unfold next_mpid
      split <;> omega
    unfold search at found
    dsimp only at found
    split at found
    · exact ih next found
    · next free =>
      obtain rfl := Option.some.inj found
      exact ⟨Option.not_isSome_iff_eq_none.mp free, next⟩

theorem search_none (endless : search s fuel m = none) :
    ∀ k < fuel, ((next_mpid s.minpid)^[k + 1] m : Nat) ∈
      {i : Nat | (pid_lookup s i).isSome = true} := by
  induction fuel generalizing m with
  | zero => exact fun k below => absurd below (Nat.not_lt_zero k)
  | succ fuel ih =>
    unfold search at endless
    dsimp only at endless
    split at endless
    · next taken =>
      intro k below
      cases k with
      | zero => exact taken
      | succ k =>
        rw [iterate_succ_apply]
        exact ih endless k (by omega)
    · exact absurd endless (by simp)

theorem next_iterate (minpid : Nat) {k : Nat} (below : m + k < MAXPID) :
    (next_mpid minpid)^[k] m = m + k := by
  induction k with
  | zero => rfl
  | succ k ih =>
    rw [iterate_succ_apply', ih (by omega)]
    unfold next_mpid
    rw [if_neg (by omega)]
    rfl

theorem tried {minpid t : Nat} (start : m < MAXPID) (low : minpid ≤ t) (high : t < MAXPID) :
    ∃ k < 2 * MAXPID, (next_mpid minpid)^[k + 1] m = t := by
  by_cases above : m < t
  · refine ⟨t - m - 1, by omega, ?_⟩
    rw [show t - m - 1 + 1 = t - m by omega, next_iterate minpid (by omega)]
    omega
  -- up to the end, from there to the minimum, and on from it
  refine ⟨(t - minpid) + (MAXPID - m) - 1, by omega, ?_⟩
  have wraps : next_mpid minpid ((next_mpid minpid)^[MAXPID - 1 - m] m) = minpid := by
    rw [next_iterate minpid (by omega)]
    unfold next_mpid
    rw [if_pos (by omega)]
  rw [show (t - minpid) + (MAXPID - m) - 1 + 1 = (t - minpid) + ((MAXPID - 1 - m) + 1) by omega,
    iterate_add_apply, iterate_succ_apply', wraps, next_iterate minpid (by omega)]
  omega

theorem some_unheld (few : s.held.length < MAXPID - s.minpid) :
    ∃ t, s.minpid ≤ t ∧ t < MAXPID ∧ ∀ a ∈ s.held, (s.pids a).pid_id ≠ t := by
  by_contra all
  have within : range' s.minpid (MAXPID - s.minpid) ⊆
      s.held.map fun a => (s.pids a).pid_id := by
    intro t mem
    obtain ⟨low, high⟩ := mem_range'_1.mp mem
    by_contra unheld
    refine all ⟨t, low, by omega, fun a held same => unheld ?_⟩
    exact mem_map.mpr ⟨a, held, same⟩
  have longer := (subperm_of_subset nodup_range' within).length_le
  rw [length_range', length_map] at longer
  omega

theorem search_ends (chains : Chains s) (start : InRange s m)
    (few : s.held.length < MAXPID - s.minpid) : ∃ m', search s (2 * MAXPID) m = some m' := by
  obtain ⟨t, low, high, unheld⟩ := some_unheld few
  have from_ : m < MAXPID := by
    unfold InRange at start
    omega
  obtain ⟨k, below, reached⟩ := tried from_ low high
  cases found : search s (2 * MAXPID) m with
  | some m' => exact ⟨m', rfl⟩
  | none =>
    have taken : (pid_lookup s t).isSome = true := by
      have := search_none found k below
      rw [reached] at this
      exact this
    have free : pid_lookup s t = none :=
      chains.lookup_none.mpr fun a held same => unheld a held (Int.natCast_inj.mp same)
    rw [free] at taken
    exact absurd taken (by simp)

end

end Pid
