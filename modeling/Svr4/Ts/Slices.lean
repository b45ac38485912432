import Svr4.Ts.Class

/- Priorities, limits and nice values stay in their ranges. -/
namespace Ts
open Function List

variable {c : Config} {s : State} {t u : Tsproc} {p : Nat} {level x : Int}

theorem Config.entry (c : Config) {d : Dpent} (hd : d ∈ c.ts_dptbl) :
    1 ≤ d.ts_quantum ∧ (0 ≤ d.ts_tqexp ∧ d.ts_tqexp ≤ c.ts_maxumdpri) ∧
      (0 ≤ d.ts_slpret ∧ d.ts_slpret ≤ c.ts_maxumdpri) ∧
      (0 ≤ d.ts_lwait ∧ d.ts_lwait ≤ c.ts_maxumdpri) := by
  obtain ⟨old, new, accepted⟩ := c.accepted
  unfold ts_admin at accepted
  rw [if_neg (by simp)] at accepted
  split at accepted
  · cases accepted
  split at accepted
  · rename_i checked
    have table := Except.ok.inj accepted
    have length : (c.ts_dptbl.length : Int) = old.length := by
      rw [← table, length_zipWith]
      omega
    rw [← table] at hd
    obtain ⟨i, hi, rfl⟩ := getElem_of_mem hd
    rw [getElem_zipWith]
    have ok := all_eq_true.mp checked _ (getElem_mem (show i < new.length by simp at hi; omega))
    simp only [entry_ok, Bool.and_eq_true, Bool.not_eq_true', decide_eq_false_iff_not] at ok
    unfold Config.ts_maxumdpri
    dsimp only
    omega
  · cases accepted

theorem Config.maxumdpri_nonneg (c : Config) : 0 ≤ c.ts_maxumdpri := by
  have := c.entries
  unfold Config.ts_maxumdpri
  omega

theorem Config.dp_mem (c : Config) (high : level ≤ c.ts_maxumdpri) : c.dp level ∈ c.ts_dptbl := by
  have inside : level.toNat < c.ts_dptbl.length := by
    have := c.entries
    unfold Config.ts_maxumdpri at high
    omega
  unfold Config.dp
  rw [getD_eq_getElem?_getD, getElem?_eq_getElem inside]
  exact getElem_mem inside

theorem tdiv_within {a b : Int} (bound : Int) (positive : 0 < b) (low : -(bound * b) ≤ a)
    (high : a ≤ bound * b) : -bound ≤ a.tdiv b ∧ a.tdiv b ≤ bound := by
  rcases Int.le_total 0 a with nonneg | nonpos
  · rw [Int.tdiv_eq_ediv_of_nonneg nonneg]
    have upper : a / b ≤ bound := Int.ediv_le_of_le_mul positive high
    have lower : 0 ≤ a / b := Int.ediv_nonneg nonneg (Int.le_of_lt positive)
    omega
  · have flipped : a.tdiv b = -((-a) / b) := by
      rw [← Int.tdiv_eq_ediv_of_nonneg (by omega), Int.neg_tdiv, Int.neg_neg]
    have upper : -a / b ≤ bound := Int.ediv_le_of_le_mul positive (by omega)
    have lower : 0 ≤ -a / b := Int.ediv_nonneg (by omega) (Int.le_of_lt positive)
    omega

theorem to_char_of_small (low : 0 ≤ x) (high : x ≤ 127) : to_char x = x := by
  unfold to_char
  rw [Int.bmod_def]
  omega

theorem to_short_of_small (low : -32768 ≤ x) (high : x ≤ 32767) : to_short x = x := by
  unfold to_short
  rw [Int.bmod_def]
  omega

theorem nice_of_range {u : Int} (low : -c.ts_maxupri ≤ u) (high : u ≤ c.ts_maxupri) :
    0 ≤ nice_of c u ∧ nice_of c u ≤ 39 := by
  have within := tdiv_within (a := u * 20) 20 c.range.1 (by omega) (by omega)
  unfold nice_of
  rw [to_char_of_small (by omega) (by omega)]
  dsimp only
  split <;> omega

theorem entry_nice {u : Int} (low : -c.ts_maxupri ≤ u) (high : u ≤ c.ts_maxupri)
    (above : u ≠ -c.ts_maxupri) :
    to_char (20 - (20 * u).tdiv c.ts_maxupri) = nice_of c u := by
  have within := tdiv_within (a := u * 20) 20 c.range.1 (by omega) (by omega)
  have not_least : (u * 20).tdiv c.ts_maxupri ≠ -20 := by
    intro least
    rcases Int.le_total 0 (u * 20) with nonneg | nonpos
    · have := Int.tdiv_nonneg nonneg (Int.le_of_lt c.range.1)
      omega
    · have flipped : (u * 20).tdiv c.ts_maxupri = -(-(u * 20) / c.ts_maxupri) := by
        rw [← Int.tdiv_eq_ediv_of_nonneg (by omega), Int.neg_tdiv, Int.neg_neg]
      have less : -(u * 20) / c.ts_maxupri < 20 := Int.ediv_lt_of_lt_mul c.range.1 (by omega)
      omega
  unfold nice_of
  rw [Int.mul_comm 20 u, to_char_of_small (by omega) (by omega)]
  rw [if_neg (by omega)]

def limit_of (c : Config) (nice : Int) : Int :=
  to_short ((-((nice - NZERO) * c.ts_maxupri)).tdiv NZERO)

/-- All that a process has but its time slice. -/
structure Ranked (c : Config) (t : Tsproc) : Prop where
  cpupri : 0 ≤ t.ts_cpupri ∧ t.ts_cpupri ≤ c.ts_maxumdpri
  umdpri : 0 ≤ t.ts_umdpri ∧ t.ts_umdpri ≤ c.ts_maxumdpri
  limited : t.ts_upri ≤ t.ts_uprilim
  upri : -c.ts_maxupri ≤ t.ts_upri ∧ t.ts_upri ≤ c.ts_maxupri
  uprilim : -c.ts_maxupri ≤ t.ts_uprilim ∧ t.ts_uprilim ≤ c.ts_maxupri
  nice : 0 ≤ t.ts_nice ∧ t.ts_nice ≤ 2 * NZERO - 1
  nice_is : t.ts_nice = t.niced.getD (nice_of c t.ts_upri)
  niced : ∀ nice ∈ t.niced, t.ts_uprilim = limit_of c nice

def SliceLeft (c : Config) (t : Tsproc) : Prop :=
  1 ≤ t.ts_timeleft ∧ ∃ d ∈ c.ts_dptbl, t.ts_timeleft ≤ d.ts_quantum

def Sliced (c : Config) (t : Tsproc) : Prop :=
  t.tskpri = false → t.tsbackq = false → SliceLeft c t

structure Sound (c : Config) (t : Tsproc) : Prop extends Ranked c t where
  slice : Sliced c t

theorem new_umdpri_range (c : Config) (t : Tsproc) :
    0 ≤ (new_umdpri c t).ts_umdpri ∧ (new_umdpri c t).ts_umdpri ≤ c.ts_maxumdpri := by
  have := c.maxumdpri_nonneg
  unfold new_umdpri
  dsimp only
  split
  · omega
  · split <;> omega

theorem Ranked.new_level (ranked : Ranked c t) (low : 0 ≤ level) (high : level ≤ c.ts_maxumdpri) :
    Ranked c (new_umdpri c { t with ts_cpupri := level }) :=
  { ranked with cpupri := ⟨low, high⟩, umdpri := new_umdpri_range c _ }

theorem Ranked.entry (ranked : Ranked c t) : c.dp t.ts_cpupri ∈ c.ts_dptbl :=
  c.dp_mem ranked.cpupri.2

theorem Ranked.full_quantum (ranked : Ranked c t) : Sound c (full_quantum c t) := by
  refine ⟨{ ranked with }, fun _ _ => ?_⟩
  have listed := c.dp_mem ranked.umdpri.2
  exact ⟨(c.entry listed).1, c.dp t.ts_umdpri, listed, Int.le_refl _⟩

theorem Ranked.back_of_queue (ranked : Ranked c t) : Sound c { t with tsbackq := true } :=
  ⟨{ ranked with }, fun _ pending => by cases pending⟩

@[simp] theorem set_tsprocs (s : State) (p : Nat) (t : Tsproc) :
    (s.set p t).tsprocs = update s.tsprocs p t := rfl

theorem reset_priority_spec (c : Config) (s : State) (p : Nat) (wasonq : Bool)
    (ranked : Ranked c (s.tsprocs p)) :
    (reset_priority c s p wasonq).plist = s.plist ∧
      ∃ u, (reset_priority c s p wasonq).tsprocs = update s.tsprocs p u ∧ Sound c u ∧
        u.ts_uprilim = (s.tsprocs p).ts_uprilim := by
  have there : Ranked c (user_globpri c (s.tsprocs p)) :=
    { ranked with }
  have full := there.full_quantum
  have back := there.back_of_queue
  unfold reset_priority
  dsimp only
  split
  · split
    · exact ⟨rfl, _, rfl, full, rfl⟩
    · exact ⟨rfl, _, rfl, back, rfl⟩
  · split
    · exact ⟨rfl, _, rfl, full, rfl⟩
    · exact ⟨rfl, _, rfl, back, rfl⟩

end Ts

/- Runs of the time-sharing class: ranks, time slices and limits. -/
namespace Ts
open Function LabelledRuns List

variable {c : Config} {s s' : State} {t u : Tsproc} {p : Nat} {reqpcredp : Option Bool}
  {wasonq : Bool} {nice : Int}

def AllSound (c : Config) (s : State) : Prop := ∀ p ∈ s.plist, Sound c (s.tsprocs p)

theorem AllSound.update (sound : AllSound c s) (new : Sound c u)
    (listed : ∀ q ∈ s'.plist, q = p ∨ q ∈ s.plist)
    (procs : s'.tsprocs = update s.tsprocs p u) : AllSound c s' := by
  intro q hq
  rw [procs]
  by_cases here : q = p
  · subst here
    simpa using new
  · simpa [here] using sound q ((listed q hq).resolve_left here)

variable {parms : Tsparms}

theorem valid_range (ok : valid c parms = true) : (parms.ts_uprilim = TS_NOCHANGE ∨
      -c.ts_maxupri ≤ parms.ts_uprilim ∧ parms.ts_uprilim ≤ c.ts_maxupri) ∧
    (parms.ts_upri = TS_NOCHANGE ∨
      -c.ts_maxupri ≤ parms.ts_upri ∧ parms.ts_upri ≤ c.ts_maxupri) := by
  unfold valid ts_parmsin at ok
  split at ok
  · rename_i accepted
    split at accepted
    · cases accepted
    · split at accepted
      · cases accepted
      · omega
  · cases ok

theorem entry_range (ok : valid c parms = true) : entry_upri parms ≤ entry_uprilim parms ∧
      (-c.ts_maxupri ≤ entry_upri parms ∧ entry_upri parms ≤ c.ts_maxupri) ∧
      (-c.ts_maxupri ≤ entry_uprilim parms ∧ entry_uprilim parms ≤ c.ts_maxupri) := by
  have positive := c.range.1
  obtain ⟨limit, priority⟩ := valid_range ok
  unfold entry_upri entry_uprilim
  split <;> split <;> (try split) <;> omega

theorem granted_range (ok : valid c parms = true) (ranked : Ranked c t) :
    granted_upri parms t ≤ granted_uprilim parms t ∧
      (-c.ts_maxupri ≤ granted_upri parms t ∧ granted_upri parms t ≤ c.ts_maxupri) ∧
      (-c.ts_maxupri ≤ granted_uprilim parms t ∧ granted_uprilim parms t ≤ c.ts_maxupri) := by
  obtain ⟨limit, priority⟩ := valid_range ok
  have upri := ranked.upri
  have uprilim := ranked.uprilim
  unfold granted_upri granted_uprilim
  dsimp only
  split <;> split <;> split <;> omega

theorem enterclass_spec {parms : Option Tsparms} {memory : Option Int} {p_stat : Stat}
    {sprocio : Bool}
    (ok : ts_enterclass c s p parms reqpcredp wasonq memory p_stat sprocio = .ok s')
    (checked : ∀ q ∈ parms, valid c q = true) (above : ∀ q ∈ parms, entry_upri q ≠ -c.ts_maxupri) :
    s'.plist = p :: s.plist ∧ ∃ u, s'.tsprocs = update s.tsprocs p u ∧ Sound c u ∧
      (reqpcredp = some false → u.ts_uprilim ≤ 0) := by
  have middle : 0 ≤ c.tsmedumdpri ∧ c.tsmedumdpri ≤ c.ts_maxumdpri := by
    have := c.maxumdpri_nonneg
    unfold Config.tsmedumdpri
    omega
  have positive := c.range.1
  unfold ts_enterclass at ok
  split at ok
  · cases ok
  rename_i garbage
  split at ok
  · obtain ⟨t, ht⟩ : ∃ t : Tsproc, t =
      { ts_timeleft := garbage, ts_cpupri := c.tsmedumdpri, ts_uprilim := 0, ts_upri := 0
        ts_umdpri := c.tsmedumdpri, ts_nice := 20, tskpri := false, tsbackq := false
        tsfork := false, ts_dispwait := 0, p_stat := p_stat, p_pri := 0, sprocio := sprocio
        niced := none } := ⟨_, rfl⟩
    have ranked : Ranked c t := by
      have nice_zero : nice_of c 0 = 20 := by
        unfold nice_of
        rw [Int.zero_mul, Int.zero_tdiv]
        rfl
      rw [ht]
      refine ⟨middle, middle, Int.le_refl 0, ?_, ?_, ?_, nice_zero.symm, nofun⟩ <;>
        simp only [NZERO] <;> omega
    obtain rfl := Except.ok.inj ok
    rw [← ht]
    obtain ⟨plist, u, procs, sound, limit⟩ := reset_priority_spec c
      { s.set p t with plist := p :: s.plist } p wasonq (by simpa using ranked)
    refine ⟨plist, u, by simpa using procs, sound, fun _ => ?_⟩
    simp [ht] at limit
    omega
  · rename_i parms
    have checked := checked parms rfl
    have above := above parms rfl
    obtain ⟨limited, upri, uprilim⟩ := entry_range checked
    split at ok
    · cases ok
    rename_i permitted
    obtain rfl := Except.ok.inj ok
    obtain ⟨t, ht⟩ : ∃ t : Tsproc, t = new_umdpri c
      { ts_timeleft := garbage, ts_cpupri := c.tsmedumdpri
        ts_uprilim := entry_uprilim parms, ts_upri := entry_upri parms
        ts_umdpri := c.tsmedumdpri
        ts_nice := to_char (20 - (20 * entry_upri parms).tdiv c.ts_maxupri)
        tskpri := false, tsbackq := false, tsfork := false, ts_dispwait := 0
        p_stat := p_stat, p_pri := 0, sprocio := sprocio, niced := none } := ⟨_, rfl⟩
    have nice := entry_nice upri.1 upri.2 above
    have ranked : Ranked c t := by
      rw [ht]
      refine ⟨middle, new_umdpri_range c _, limited, upri, uprilim, ?_, nice, nofun⟩
      rw [nice]
      exact nice_of_range upri.1 upri.2
    rw [← ht]
    obtain ⟨plist, u, procs, sound, limit⟩ := reset_priority_spec c
      { s.set p t with plist := p :: s.plist } p wasonq (by simpa using ranked)
    refine ⟨plist, u, by simpa using procs, sound, fun unprivileged => ?_⟩
    have same_limit : t.ts_uprilim = entry_uprilim parms := by
      rw [ht]
      rfl
    simp [same_limit] at limit
    rw [limit]
    by_contra high
    exact permitted ⟨unprivileged, by omega⟩

/-- `ts_parmsset` gives a process the limit and the priority; the nice value it sets goes with the
priority. -/
theorem parmsset_spec (ok : ts_parmsset c s p parms reqpcredp wasonq = .ok s')
    (checked : valid c parms = true) (ranked : Ranked c (s.tsprocs p))
    (granted : nice_of c parms.ts_upri = nice_of c (granted_upri parms (s.tsprocs p))) :
    s'.plist = s.plist ∧ ∃ u, s'.tsprocs = update s.tsprocs p u ∧ Sound c u ∧
      u.ts_uprilim = granted_uprilim parms (s.tsprocs p) ∧
      (reqpcredp = some false → u.ts_uprilim ≤ (s.tsprocs p).ts_uprilim) := by
  obtain ⟨limited, upri, uprilim⟩ := granted_range checked ranked
  unfold ts_parmsset at ok
  dsimp only at ok
  split at ok
  · cases ok
  rename_i permitted
  have lower : reqpcredp = some false →
      granted_uprilim parms (s.tsprocs p) ≤ (s.tsprocs p).ts_uprilim := by
    intro unprivileged
    by_contra raised
    exact permitted ⟨unprivileged, by omega⟩
  rw [granted] at ok
  obtain ⟨t, ht⟩ : ∃ t : Tsproc, t = { new_umdpri c { s.tsprocs p with
        ts_uprilim := granted_uprilim parms (s.tsprocs p)
        ts_upri := granted_upri parms (s.tsprocs p) } with
      ts_nice := nice_of c (granted_upri parms (s.tsprocs p)), niced := none } := ⟨_, rfl⟩
  have new : Ranked c t := by
    rw [ht]
    exact ⟨ranked.cpupri, new_umdpri_range c _, limited, upri, uprilim,
      nice_of_range upri.1 upri.2, rfl, nofun⟩
  have limit : t.ts_uprilim = granted_uprilim parms (s.tsprocs p) := by
    rw [ht]
    rfl
  replace ok : (if t.tskpri = true then Except.ok (s.set p t)
      else .ok (reset_priority c (s.set p { t with ts_dispwait := 0 }) p wasonq)) =
        (.ok s' : Except Errno State) := by
    rw [ht]
    exact ok
  split at ok
  · rename_i kernel
    obtain rfl := Except.ok.inj ok
    refine ⟨rfl, t, rfl, ⟨new, fun user => ?_⟩, limit, fun h => limit ▸ lower h⟩
    rw [kernel] at user
    cases user
  · obtain rfl := Except.ok.inj ok
    have reset : Ranked c { t with ts_dispwait := 0 } := { new with }
    obtain ⟨plist, u, procs, sound, kept⟩ := reset_priority_spec c
      (s.set p { t with ts_dispwait := 0 }) p wasonq (by simpa using reset)
    simp only [set_tsprocs, update_self, limit] at kept
    exact ⟨plist, u, by simpa using procs, sound, kept, fun h => kept ▸ lower h⟩

theorem limit_range (low : 0 ≤ nice) (high : nice ≤ 2 * NZERO - 1) :
    limit_of c nice = (-((nice - NZERO) * c.ts_maxupri)).tdiv NZERO ∧
      -c.ts_maxupri ≤ limit_of c nice ∧ limit_of c nice ≤ c.ts_maxupri := by
  have positive := c.range
  unfold NZERO at *
  have product : -(20 * c.ts_maxupri) ≤ (nice - 20) * c.ts_maxupri ∧
      (nice - 20) * c.ts_maxupri ≤ 19 * c.ts_maxupri := by
    constructor
    · rw [← Int.neg_mul]
      exact Int.mul_le_mul_of_nonneg_right (by omega) (by omega)
    · exact Int.mul_le_mul_of_nonneg_right (by omega) (by omega)
  have within := tdiv_within (a := -((nice - 20) * c.ts_maxupri)) (b := 20)
    c.ts_maxupri (by omega) (by omega) (by omega)
  unfold limit_of NZERO
  rw [to_short_of_small (by omega) (by omega)]
  exact ⟨rfl, within⟩

theorem newnice_range (t : Tsproc) (incr : Int) :
    0 ≤ newnice t incr ∧ newnice t incr ≤ 2 * NZERO - 1 := by
  unfold newnice NZERO
  dsimp only
  split <;> split <;> (try split) <;> omega

theorem donice_spec (incr : Int) (wasonq : Bool) (ranked : Ranked c (s.tsprocs p)) :
    (ts_donice c s p incr wasonq).plist = s.plist ∧
      ∃ u, (ts_donice c s p incr wasonq).tsprocs = update s.tsprocs p u ∧ Sound c u ∧
        u.ts_uprilim = limit_of c (newnice (s.tsprocs p) incr) := by
  have nice := newnice_range (s.tsprocs p) incr
  obtain ⟨-, low, high⟩ := limit_range (c := c) nice.1 nice.2
  have bounded := c.range.2
  obtain ⟨limit, hlimit⟩ : ∃ limit, limit = limit_of c (newnice (s.tsprocs p) incr) := ⟨_, rfl⟩
  have change : limit ≠ TS_NOCHANGE := by
    unfold TS_NOCHANGE
    omega
  have checked : valid c ⟨limit, limit⟩ = true := by
    unfold valid ts_parmsin
    rw [if_neg (by dsimp only; omega), if_neg (by dsimp only; omega), if_pos (.inl rfl)]
  have uprilim : granted_uprilim ⟨limit, limit⟩ (s.tsprocs p) = limit := if_neg change
  have upri : granted_upri ⟨limit, limit⟩ (s.tsprocs p) = limit := by
    unfold granted_upri
    rw [uprilim]
    dsimp only
    rw [if_neg change, if_neg (by omega)]
  obtain ⟨s', ok⟩ : ∃ s', ts_parmsset c s p ⟨limit, limit⟩ none wasonq = .ok s' := by
    unfold ts_parmsset
    dsimp only
    rw [if_neg (by simp)]
    split
    · exact ⟨_, rfl⟩
    · exact ⟨_, rfl⟩
  obtain ⟨plist, u, procs, sound, kept, -⟩ := parmsset_spec ok checked ranked (by rw [upri])
  rw [uprilim] at kept
  have settled : ts_donice c s p incr wasonq = s'.set p { s'.tsprocs p with
      ts_nice := to_char (newnice (s.tsprocs p) incr)
      niced := some (newnice (s.tsprocs p) incr) } := by
    unfold ts_donice
    dsimp only
    rw [← limit_of, ← hlimit, ok]
  have char : to_char (newnice (s.tsprocs p) incr) = newnice (s.tsprocs p) incr :=
    to_char_of_small nice.1 (by unfold NZERO at nice; omega)
  rw [settled, char]
  refine ⟨plist, { u with
      ts_nice := newnice (s.tsprocs p) incr
      niced := some (newnice (s.tsprocs p) incr) }, ?_,
      ⟨{ sound with nice, nice_is := rfl, niced := ?_ }, sound.slice⟩, kept.trans hlimit⟩
  · simp [procs]
  · intro n hn
    obtain rfl : newnice (s.tsprocs p) incr = n := Option.some.inj hn
    exact kept.trans hlimit

/-- A nice value at least the process's counts for no more than the limit, unless that is negative.
-/
theorem limit_kept (ranked : Ranked c t) (low : t.ts_nice ≤ nice) (high : nice ≤ 2 * NZERO - 1)
    (careful : 0 ≤ t.ts_uprilim ∨ -(t.ts_uprilim * NZERO) ≤ (nice - NZERO) * c.ts_maxupri) :
    limit_of c nice ≤ t.ts_uprilim := by
  have positive := c.range.1
  have start := ranked.nice.1
  obtain ⟨exact_limit, -⟩ := limit_range (c := c) (by omega) high
  have below : ∀ {v : Int}, v ≤ t.ts_uprilim * NZERO → v.tdiv NZERO ≤ t.ts_uprilim := by
    intro v less
    have := Int.tdiv_le_tdiv (show (0 : Int) < NZERO by decide) less
    rwa [Int.mul_tdiv_cancel _ (by decide)] at this
  rcases careful with nonneg | enough
  · have nice_is := ranked.nice_is
    cases asked : t.niced with
    | some n =>
      rw [asked] at nice_is
      obtain rfl : t.ts_nice = n := nice_is
      have product := Int.mul_le_mul_of_nonneg_right
        (show t.ts_nice - NZERO ≤ nice - NZERO by omega) (Int.le_of_lt positive)
      rw [ranked.niced _ asked, (limit_range start (by omega)).1, exact_limit]
      exact Int.tdiv_le_tdiv (by decide) (by omega)
    | none =>
      rw [asked] at nice_is
      rw [exact_limit]
      apply below
      by_cases favoured : nice < NZERO
      · -- the nice value is that of the priority, rounded towards zero
        have quotient : NZERO - nice ≤ (t.ts_upri * NZERO).tdiv c.ts_maxupri := by
          have scale := tdiv_within (a := t.ts_upri * 20) 20 positive
            (by have := ranked.upri.1; omega) (by have := ranked.upri.2; omega)
          change t.ts_nice = nice_of c t.ts_upri at nice_is
          unfold nice_of at nice_is
          unfold NZERO at *
          rw [to_char_of_small (by omega) (by omega)] at nice_is
          dsimp only at nice_is
          split at nice_is <;> omega
        have above : 0 ≤ t.ts_upri * NZERO := by
          by_contra negative
          have := Int.tdiv_le_tdiv positive (show t.ts_upri * NZERO ≤ 0 by omega)
          rw [Int.zero_tdiv] at this
          omega
        have scaled := Int.mul_le_mul_of_nonneg_right quotient (Int.le_of_lt positive)
        have rounded := Int.tdiv_mul_le (t.ts_upri * NZERO) (show c.ts_maxupri ≠ 0 by omega)
        rw [if_pos above] at rounded
        have limited := Int.mul_le_mul_of_nonneg_right ranked.limited (show 0 ≤ NZERO by decide)
        have flipped : (NZERO - nice) * c.ts_maxupri = -((nice - NZERO) * c.ts_maxupri) := by
          rw [← Int.neg_mul, Int.neg_sub]
        omega
      · have product := Int.mul_nonneg (show 0 ≤ nice - NZERO by omega) (Int.le_of_lt positive)
        have := Int.mul_nonneg nonneg (show 0 ≤ NZERO by decide)
        omega
  · rw [exact_limit]
    exact below (by omega)

end Ts
