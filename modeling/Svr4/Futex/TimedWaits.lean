import Mathlib.Algebra.Group.Int.Defs
import Svr4.Clock.Heap
import Svr4.Futex.Machine

/- How long a timed futex wait lasts: the tick count of os/thread.c on the callout table of
   os/clock.c, where lbolt and every sum is a 32-bit signed value. -/
namespace TimedWaits
open Callout LabelledRuns Int Multiset BitVec
open Futex (Timestruc check_wait futex_ticks)

def long (n : Int) : Int := n.bmod (2 ^ 32)

/-- The function, as the table names it. -/
def futex_timeout : Nat := 0

def clock (s : Table) : Table := { s with lbolt := long (s.lbolt + 1) }

/-- `timeout`, where the sum of lbolt and `tim` is an int. -/
def timeout (s : Table) (func arg : Nat) (tim : Int) : Option (Table × Int) :=
  Callout.timeout s func arg (long (s.lbolt + tim) - s.lbolt)

def arm (s : Table) (waiter : Nat) (ticks : BitVec 32) : Option Table :=
  if BitVec.slt 0 ticks then (timeout s futex_timeout waiter ticks.toInt).map Prod.fst else some s

def Expires (waiter : Nat) (c : Callo) : Prop := c.c_func = futex_timeout ∧ c.c_arg = waiter

instance (waiter : Nat) (c : Callo) : Decidable (Expires waiter c) :=
  inferInstanceAs (Decidable (_ ∧ _))

structure Watch where
  table : Table
  increments : Nat
  /-- How often lbolt had been incremented when futex_timeout ran for the waiter. -/
  expired : List Nat

inductive Event
  | clock
  | turn
  | timeout (func arg : Nat) (tim : Int)
  | untimeout (id : Int)

/-- Whatever happens while the waiter's block is allocated: no other wait is at its address. -/
def step (waiter : Nat) (s : Watch) : Event → Option Watch
  | .clock => some { s with table := clock s.table, increments := s.increments + 1 }
  | .turn =>
    match timein_turn s.table with
    | some (svcall, table) =>
      some { s with
        table := table
        expired := if Expires waiter svcall then s.increments :: s.expired else s.expired }
    | none => some s
  | .timeout func arg tim =>
    if func = futex_timeout ∧ arg = waiter then none
    else (timeout s.table func arg tim).map fun (table, _) => { s with table := table }
  | .untimeout id => some { s with table := (untimeout s.table id).1 }

def requested (value : Timestruc) : Nat :=
  (value.tv_sec.toNat * 10 ^ 9 + value.tv_nsec.toNat + (10 ^ 7 - 1)) / 10 ^ 7

structure Legal (value : Timestruc) : Prop where
  sec : 0 ≤ value.tv_sec.toInt
  nsec : 0 ≤ value.tv_nsec.toInt
  below : value.tv_nsec.toInt < 10 ^ 9

structure NeverEarly (uaddr : Nat) (value : Timestruc) (lbolt : BitVec 32) : Prop where
  at_once : check_wait uaddr (some (some value)) = .error .ETIMEDOUT → requested value = 0
  late : ∀ ticks, check_wait uaddr (some (some value)) = .ok ticks →
    ∀ waiter table armed, table.Ok → table.lbolt = lbolt.toInt →
      (∀ c ∈ table.pending, ¬ Expires waiter c) → arm table waiter ticks = some armed →
      ∀ events s, exec (step waiter) ⟨armed, 0, []⟩ events = some s →
        ∀ n ∈ s.expired, requested value ≤ n

theorem long_self {n : Int} (low : -2 ^ 31 ≤ n) (high : n < 2 ^ 31) : long n = n := by
  unfold long
  rw [bmod_eq_of_le] <;> omega

theorem long_over {n : Int} (low : 2 ^ 31 ≤ n) (high : n < 2 ^ 32) : long n = n - 2 ^ 32 := by
  unfold long
  rw [bmod_def]
  split <;> omega

theorem toInt_long (x : BitVec 32) : x.toInt = long (x.toInt + (0 : Nat)) := by
  have low := le_toInt x
  have high := toInt_lt (x := x)
  rw [long_self] <;> omega

theorem toInt_nonneg {x : BitVec 32} (positive : 0 ≤ x.toInt) : x.toInt = x.toNat := by
  rw [toInt_eq_toNat_cond] at positive ⊢
  split at positive <;> split <;> omega

theorem long_le {n : Int} (positive : 0 ≤ n) : long n ≤ n ∧ long n < 2 ^ 31 := by
  unfold long
  rw [bmod_def]
  split <;> omega

theorem ticks_requested {value : Timestruc} (legal : Legal value) :
    (futex_ticks value).toInt = long (requested value) := by
  obtain ⟨sec, nsec, below⟩ := legal
  have per_tick : Futex.nsec_per_tick.toInt = 10000000 := by decide
  have sum : (value.tv_nsec + Futex.nsec_per_tick - 1).toInt = value.tv_nsec.toInt + 9999999 := by
    calc (value.tv_nsec + Futex.nsec_per_tick - 1).toInt
      _ = long (long (value.tv_nsec.toInt + 10000000) - 1) := by
        rw [toInt_sub, toInt_add, per_tick]
        rfl
      _ = value.tv_nsec.toInt + 9999999 := by
        rw [long_self (n := value.tv_nsec.toInt + 10000000) (by omega) (by omega)]
        rw [long_self (by omega) (by omega)]
        omega
  have quotient : ((value.tv_nsec + Futex.nsec_per_tick - 1).sdiv Futex.nsec_per_tick).toInt =
      (value.tv_nsec.toInt + 9999999) / 10000000 := by
    rw [toInt_sdiv, sum, per_tick, tdiv_eq_ediv_of_nonneg (by omega)]
    exact long_self (by omega) (by omega)
  have whole : (requested value : Int) =
      value.tv_sec.toInt * 100 + (value.tv_nsec.toInt + 9999999) / 10000000 := by
    have sec_eq := toInt_nonneg sec
    have nsec_eq := toInt_nonneg nsec
    unfold requested
    omega
  unfold futex_ticks
  rw [toInt_add, toInt_mul, quotient, whole]
  exact bmod_add_bmod

section Watching
variable {waiter : Nat} {lbolt wanted : Int} {s s' : Watch}

/-- Every entry for the waiter is due when the wanted ticks have passed, and none was called
    before. -/
structure Watched (waiter : Nat) (lbolt wanted : Int) (s : Watch) : Prop where
  table : s.table.Ok
  now : s.table.lbolt = long (lbolt + s.increments)
  due : ∀ c ∈ s.table.pending, Expires waiter c → c.c_time = lbolt + wanted
  late : ∀ n ∈ s.expired, wanted ≤ n

theorem step_watched (low : -2 ^ 31 ≤ lbolt) (high : lbolt + wanted < 2 ^ 31)
    (watched : Watched waiter lbolt wanted s) (e : Event) (taken : step waiter s e = some s') :
    Watched waiter lbolt wanted s' := by
  obtain ⟨table_ok, now, due, late⟩ := watched
  cases e with
  | clock =>
    cases taken
    refine ⟨{ table_ok with }, ?_, due, late⟩
    calc long (s.table.lbolt + 1)
      _ = long (lbolt + s.increments + 1) := by rw [now]; exact bmod_add_bmod
      _ = long (lbolt + (s.increments + 1 : Nat)) := by rw [Int.add_assoc]; rfl
  | turn =>
    unfold step at taken
    rcases timein_turn_spec table_ok with ⟨ends, -⟩ | ⟨c, t, turn, is_due, -, pending, ok, same, -⟩
    · rw [ends] at taken
      cases taken
      exact ⟨table_ok, now, due, late⟩
    rw [turn] at taken
    cases taken
    have was_pending : c ∈ s.table.pending := pending ▸ mem_cons_self c _
    have rest : ∀ d ∈ t.pending, d ∈ s.table.pending :=
      fun d mem => pending ▸ mem_cons_of_mem mem
    refine ⟨ok, same.trans now, fun d mem => due d (rest d mem), ?_⟩
    split
    · next expires =>
      intro n mem
      rcases List.mem_cons.mp mem with rfl | earlier
      · by_contra early
        have := due c was_pending expires
        have := long_self (n := lbolt + s.increments) (by omega) (by omega)
        omega
      · exact late n earlier
    · exact late
  | timeout func arg tim =>
    unfold step at taken
    dsimp only at taken
    split at taken
    · exact absurd taken (by simp)
    next other =>
    obtain ⟨⟨table, id⟩, added, rfl⟩ := Option.map_eq_some_iff.mp taken
    obtain ⟨ok, same, -, pending⟩ := timeout_spec table_ok added
    refine ⟨ok, same.trans now, fun c mem expires => ?_, late⟩
    rw [pending] at mem
    rcases mem_cons.mp mem with rfl | before
    · exact absurd expires other
    · exact due c before expires
  | untimeout id =>
    cases taken
    rcases untimeout_spec table_ok id with ⟨-, nothing⟩ | ⟨f, -, -, -, pending, ok, same, -⟩
    · refine ⟨?_, ?_, ?_, late⟩ <;> dsimp only <;> rw [nothing]
      · exact table_ok
      · exact now
      · exact due
    · refine ⟨ok, same.trans now, fun c mem => due c ?_, late⟩
      rw [pending]
      exact mem_cons_of_mem mem

end Watching

theorem armed_watched {waiter : Nat} {lbolt ticks : BitVec 32} {table armed : Table}
    (ok : table.Ok) (at_lbolt : table.lbolt = lbolt.toInt)
    (fresh : ∀ c ∈ table.pending, ¬ Expires waiter c) (positive : 0 < ticks.toInt)
    (fits : lbolt.toInt + ticks.toInt < 2 ^ 31) (arms : arm table waiter ticks = some armed) :
    Watched waiter lbolt.toInt ticks.toInt ⟨armed, 0, []⟩ := by
  have low := le_toInt lbolt
  unfold arm at arms
  rw [if_pos (by rw [slt_eq_decide]; simpa using positive)] at arms
  obtain ⟨⟨table', id⟩, added, rfl⟩ := Option.map_eq_some_iff.mp arms
  obtain ⟨armed_ok, same, -, pending⟩ := timeout_spec ok added
  refine ⟨armed_ok, ?_, fun c mem expires => ?_, fun n mem => absurd mem (by simp)⟩
  · exact (same.trans at_lbolt).trans (toInt_long lbolt)
  · rw [pending] at mem
    rcases mem_cons.mp mem with rfl | before
    · dsimp only
      rw [at_lbolt, long_self (by omega) fits]
      omega
    · exact absurd expires (fresh c before)

def empty (lbolt : Int) : Table := ⟨fun _ => ⟨0, 0, 0, 0⟩, -1, 1, 0, lbolt⟩

theorem clocks_run (waiter : Nat) {lbolt : Int} (k : Nat) (events : List Event) (s : Watch)
    (now : s.table.lbolt = long (lbolt + s.increments)) :
    exec (step waiter) s (List.replicate k .clock ++ events) = exec (step waiter) { s with
          table := { s.table with lbolt := long (lbolt + (s.increments + k : Nat)) }
          increments := s.increments + k } events := by
  induction k generalizing s with
  | zero =>
    rw [Nat.add_zero, ← now]
    rfl
  | succ k ih =>
    have next : long (s.table.lbolt + 1) = long (lbolt + (s.increments + 1 : Nat)) := by
      rw [now]
      exact Int.bmod_add_bmod.trans (congrArg long (Int.add_assoc _ _ _))
    have rest := ih { s with table := clock s.table, increments := s.increments + 1 } next
    rw [Nat.add_assoc, Nat.add_comm 1 k] at rest
    exact rest

/-- On a table with nothing else on it the waiter's function is called in the first turn that
    finds it due. -/
theorem fires (waiter k : Nat) {lbolt ticks : BitVec 32} (positive : BitVec.slt 0 ticks)
    (due : long (lbolt.toInt + ticks.toInt) ≤ long (lbolt.toInt + k)) :
    ∃ armed s, (empty lbolt.toInt).Ok ∧ (∀ c ∈ (empty lbolt.toInt).pending, ¬ Expires waiter c) ∧
      arm (empty lbolt.toInt) waiter ticks = some armed ∧
      exec (step waiter) ⟨armed, 0, []⟩ (List.replicate k .clock ++ [.turn]) = some s ∧
      k ∈ s.expired := by
  have ok : (empty lbolt.toInt).Ok := by
    refine ⟨le_refl _, ?_, fun i _ below => absurd below (Nat.not_lt_zero i)⟩
    show (-1 : Int) + 1 ≤ (1 : Nat)
    omega
  obtain ⟨⟨armed, id⟩, added⟩ : ∃ added,
      timeout (empty lbolt.toInt) futex_timeout waiter ticks.toInt = some added := ⟨_, rfl⟩
  obtain ⟨armed_ok, same, -, pending⟩ := timeout_spec ok added
  have now : armed.lbolt = long (lbolt.toInt + (0 : Nat)) := same.trans (toInt_long lbolt)
  have run := clocks_run waiter k [.turn] ⟨armed, 0, []⟩ now
  rw [Nat.zero_add] at run
  have later_ok : { armed with lbolt := long (lbolt.toInt + k) }.Ok :=
    { armed_ok with }
  rcases timein_turn_spec later_ok with ⟨-, none_due⟩ | ⟨c, t, turn, -, -, taken, -⟩
  · have sooner := none_due _ (pending ▸ mem_cons_self _ _)
    dsimp only [empty] at sooner
    omega
  have mem : c ∈ armed.pending := by
    show c ∈ { armed with lbolt := long (lbolt.toInt + k) }.pending
    rw [taken]
    exact mem_cons_self c _
  rw [pending] at mem
  have called : Expires waiter c := by
    rcases mem_cons.mp mem with rfl | nothing
    · exact ⟨rfl, rfl⟩
    · exact absurd nothing (notMem_zero c)
  refine ⟨armed, ⟨t, k, [k]⟩, ok, fun c mem => absurd mem (notMem_zero c), ?_,
    run.trans ?_, List.mem_singleton_self k⟩
  · unfold arm
    rw [if_pos positive, added]
    rfl
  · unfold exec step
    rw [turn]
    dsimp only
    rw [if_pos called]
    rfl

theorem check_wait_legal {uaddr : Nat} (mapped : uaddr ≠ 0) {value : Timestruc}
    (legal : Legal value) :
    check_wait uaddr (some (some value)) =
      if (futex_ticks value).toInt ≤ 0 then .error .ETIMEDOUT else .ok (futex_ticks value) := by
  obtain ⟨sec, nsec, below⟩ := legal
  have valid : ¬ (value.tv_sec.slt 0 ∨ value.tv_nsec.slt 0
      ∨ (1000000000 : BitVec 32).sle value.tv_nsec) := by
    simp [slt_eq_decide, sle_eq_decide]
    omega
  unfold check_wait
  rw [if_neg mapped]
  dsimp only
  rw [if_neg valid]
  simp [sle_eq_decide]

/-- A timed wait can time out early only where the ticks, or their sum with lbolt, do not fit a
long. -/
theorem never_early_iff {uaddr : Nat} (mapped : uaddr ≠ 0) {value : Timestruc}
    (legal : Legal value) (lbolt : BitVec 32) :
    NeverEarly uaddr value lbolt ↔
      requested value = 0 ∨ requested value < 2 ^ 31 ∧ lbolt.toInt + requested value < 2 ^ 31 := by
  have checked := check_wait_legal mapped legal
  have ticks_eq := ticks_requested legal
  have low := le_toInt lbolt
  have high := toInt_lt (x := lbolt)
  constructor
  · intro never
    by_cases zero : requested value = 0
    · exact .inl zero
    right
    by_cases wrapped : (futex_ticks value).toInt ≤ 0
    · rw [if_pos wrapped] at checked
      exact absurd (never.at_once checked) zero
    rw [if_neg wrapped] at checked
    have soonest : ∀ k : Nat,
        long (lbolt.toInt + (futex_ticks value).toInt) ≤ long (lbolt.toInt + k) →
          requested value ≤ k := by
      intro k due
      obtain ⟨armed, s, ok, fresh, arms, run, expired⟩ := fires 0 k
        (by rw [slt_eq_decide]; simpa using wrapped) due
      exact never.late _ checked 0 _ armed ok rfl fresh arms _ s run k expired
    obtain ⟨fewer, fits⟩ := long_le (natCast_nonneg (requested value))
    by_cases beyond : 2 ^ 31 ≤ lbolt.toInt + (futex_ticks value).toInt
    · -- the sum is a time long past, and the first turn calls the entry
      have past := long_over beyond (by omega)
      have now := long_self (n := lbolt.toInt + (0 : Nat)) (by omega) (by omega)
      have := soonest 0 (by omega)
      omega
    · have := soonest (futex_ticks value).toInt.toNat (by rw [toNat_of_nonneg (by omega)])
      omega
  · intro fits
    have exact_sum : long (requested value) = requested value :=
      long_self (by omega) (by omega)
    constructor
    · intro timed_out
      by_contra positive
      rw [timed_out, if_neg (by omega)] at checked
      exact absurd checked (by simp)
    · intro ticks chosen waiter table armed ok at_lbolt fresh arms events s run n expired
      rw [chosen] at checked
      split at checked
      · exact absurd checked (by simp)
      · next positive =>
        obtain rfl : ticks = futex_ticks value := Except.ok.inj checked
        have start := armed_watched ok at_lbolt fresh (not_le.mp positive) (by omega) arms
        have watched := exec_preserves (Watched waiter lbolt.toInt (futex_ticks value).toInt)
          (fun s e t watched taken => step_watched low (by omega) watched e taken) start run
        have := watched.late n expired
        omega

/-- Five seconds in the last tick of the first half of lbolt's range but 500. -/
theorem five_seconds_never_early : NeverEarly 1 ⟨5, 0⟩ 2147483147 :=
  (never_early_iff (by decide) ⟨by decide, by decide, by decide⟩ 2147483147).mpr (.inr (by decide))

/-- A wait of 497 days is over after four ticks. -/
theorem wraps_to_four_ticks : ¬ NeverEarly 1 ⟨42949673, 0⟩ 0 := by
  intro never
  obtain ⟨armed, s, ok, fresh, arms, run, expired⟩ :=
    @fires 0 4 0 (futex_ticks ⟨42949673, 0⟩) (by decide) (by decide)
  have early := never.late _ (by decide) 0 _ armed ok rfl fresh arms _ s run 4 expired
  exact absurd early (by decide)

end TimedWaits
