import Mathlib.Data.Nat.Log
import Mathlib.Tactic.Positivity

/- The cylinder overflow algorithm, on 32-bit integers. -/
namespace Cylinders
open List Int

def int (n : Int) : Int := (n + 2 ^ 31) % 2 ^ 32 - 2 ^ 31

structure Call where
  cg : Int
  pref : Int
  result : Int
  deriving DecidableEq

/-- `unfinished` is a search that has run out of fuel. -/
inductive Found
  | found (result : Int)
  | refused
  | unfinished
  deriving DecidableEq

/-- The calls of a search are kept for the record. -/
structure Search (S : Type) where
  state : S
  calls : List Call
  found : Found

/-- An allocator is given a group, a preference and a size or a mode. -/
abbrev Allocator (S : Type) := S → Int → Int → Int → S × Int

variable {S : Type}

def Search.after (search : Search S) (calls : List Call) : Search S :=
  { search with calls := calls ++ search.calls }

/-- `for (i = 1; i < fs->fs_ncg; i *= 2)` -/
def rehash (allocator : Allocator S) (fs_ncg size : Int) : Nat → Int → Int → S → Search S
  | 0, _, _, s => ⟨s, [], .unfinished⟩
  | fuel + 1, i, cg, s =>
    if i < fs_ncg then
      let cg := int (cg + i)
      let cg := if fs_ncg ≤ cg then int (cg - fs_ncg) else cg
      let (s, result) := allocator s cg 0 size
      if result ≠ 0 then ⟨s, [⟨cg, 0, result⟩], .found result⟩
      else (rehash allocator fs_ncg size fuel (int (i * 2)) cg s).after [⟨cg, 0, result⟩]
    else ⟨s, [], .refused⟩

/-- `for (i = 2; i < fs->fs_ncg; i++)` -/
def sweep (allocator : Allocator S) (fs_ncg size : Int) : Nat → Int → Int → S → Search S
  | 0, _, _, s => ⟨s, [], .unfinished⟩
  | fuel + 1, i, cg, s =>
    if i < fs_ncg then
      let (s, result) := allocator s cg 0 size
      if result ≠ 0 then ⟨s, [⟨cg, 0, result⟩], .found result⟩
      else
        let after := int (cg + 1)
        let after := if after = fs_ncg then 0 else after
        (sweep allocator fs_ncg size fuel (int (i + 1)) after s).after [⟨cg, 0, result⟩]
    else ⟨s, [], .refused⟩

def hashalloc (allocator : Allocator S) (fs_ncg : Int) (fuel : Nat) (s : S) (cg pref size : Int) :
    Search S :=
  let (s, result) := allocator s cg pref size
  if result ≠ 0 then ⟨s, [⟨cg, pref, result⟩], .found result⟩
  else
    let rehashed := (rehash allocator fs_ncg size fuel 1 cg s).after [⟨cg, pref, result⟩]
    match rehashed.found with
    | .refused =>
      (sweep allocator fs_ncg size fuel 2 ((int (cg + 2)).tmod fs_ncg) rehashed.state).after
        rehashed.calls
    | _ => rehashed

structure Tried (allocator : Allocator S) (fs_ncg size : Int) (search : Search S) : Prop where
  answered : ∀ call ∈ search.calls, ∃ s, (allocator s call.cg call.pref size).2 = call.result
  inside : ∀ call ∈ search.calls, 0 ≤ call.cg ∧ call.cg < fs_ncg
  ended : search.found ≠ .unfinished
  refused : search.found = .refused → ∀ call ∈ search.calls, call.result = 0
  found : ∀ result, search.found = .found result → result ≠ 0 ∧
    ∃ call ∈ search.calls, call.result = result

def Search.asked (search : Search S) (cg : Int) : Prop := ∃ call ∈ search.calls, call.cg = cg

/-- The search returns, asks only groups that there are, and only some of them twice; and when it
    returns 0 each group has refused. -/
structure Complete (allocator : Allocator S) (fs_ncg size : Int) (search : Search S) : Prop
    extends Tried allocator fs_ncg size search where
  covered : search.found = .refused → ∀ cg, 0 ≤ cg → cg < fs_ncg → search.asked cg
  few : (search.calls.length : Int) ≤ fs_ncg + Nat.log 2 fs_ncg.toNat

section
variable {allocator : Allocator S} {fs_ncg cg pref size i : Int} {search : Search S} {s : S}
  {calls : List Call} {call : Call}

theorem int_eq {n : Int} (low : -2 ^ 31 ≤ n) (high : n < 2 ^ 31) : int n = n := by
  unfold int
  omega

theorem tried_refused (s : S) : Tried allocator fs_ncg size ⟨s, [], .refused⟩ :=
  ⟨fun _ mem => absurd mem not_mem_nil, fun _ mem => absurd mem not_mem_nil, nofun,
    fun _ _ mem => absurd mem not_mem_nil, nofun⟩

theorem tried_found {s : S} (t : S) (answer : (allocator s call.cg call.pref size).2 = call.result)
    (low : 0 ≤ call.cg) (high : call.cg < fs_ncg) (accepted : call.result ≠ 0) :
    Tried allocator fs_ncg size ⟨t, [call], .found call.result⟩ := by
  refine ⟨fun c mem => ?_, fun c mem => ?_, nofun, nofun, fun result same => ?_⟩
  · rw [mem_singleton.mp mem]
    exact ⟨s, answer⟩
  · rw [mem_singleton.mp mem]
    exact ⟨low, high⟩
  · obtain rfl : call.result = result := by simpa using same
    exact ⟨accepted, call, mem_singleton_self _, rfl⟩

theorem Tried.after (tried : Tried allocator fs_ncg size search)
    (answers : ∀ call ∈ calls, ∃ s, (allocator s call.cg call.pref size).2 = call.result)
    (refusals : ∀ call ∈ calls, 0 ≤ call.cg ∧ call.cg < fs_ncg ∧ call.result = 0) :
    Tried allocator fs_ncg size (search.after calls) := by
  refine ⟨fun call mem => ?_, fun call mem => ?_, tried.ended, fun refused call mem => ?_,
    fun result same => ?_⟩
  · rcases mem_append.mp mem with mem | mem
    · exact answers call mem
    · exact tried.answered call mem
  · rcases mem_append.mp mem with mem | mem
    · exact ⟨(refusals call mem).1, (refusals call mem).2.1⟩
    · exact tried.inside call mem
  · rcases mem_append.mp mem with mem | mem
    · exact (refusals call mem).2.2
    · exact tried.refused refused call mem
  · obtain ⟨accepted, call, mem, same⟩ := tried.found result same
    exact ⟨accepted, call, mem_append_right _ mem, same⟩

theorem Search.asked_after {cg : Int} :
    (search.after calls).asked cg ↔ (∃ call ∈ calls, call.cg = cg) ∨ search.asked cg := by
  unfold Search.asked Search.after
  simp only [mem_append, or_and_right, exists_or]

theorem further_on (low : 0 ≤ cg) (high : cg < fs_ncg) (i_low : 0 ≤ i) (i_high : i ≤ fs_ncg)
    (groups : fs_ncg ≤ 2 ^ 30) :
    (if fs_ncg ≤ int (cg + i) then int (int (cg + i) - fs_ncg) else int (cg + i)) =
      (cg + i) % fs_ncg := by
  rw [int_eq (by omega) (by omega)]
  split
  · rw [int_eq (by omega) (by omega), ← sub_emod_right, emod_eq_of_lt (by omega) (by omega)]
  · rw [emod_eq_of_lt (by omega) (by omega)]

theorem rehash_spec (allocator : Allocator S) (groups : fs_ncg ≤ 2 ^ 30) (size : Int)
    (k fuel : Nat) (few : k ≤ 30) (enough : 31 ≤ k + fuel) (low : 0 ≤ cg) (high : cg < fs_ncg)
    (s : S) :
    Tried allocator fs_ncg size (rehash allocator fs_ncg size fuel (2 ^ k) cg s) ∧
      ((rehash allocator fs_ncg size fuel (2 ^ k) cg s).found = .refused → 2 ^ k < fs_ncg →
        (rehash allocator fs_ncg size fuel (2 ^ k) cg s).asked ((cg + 2 ^ k) % fs_ncg)) ∧
      ((rehash allocator fs_ncg size fuel (2 ^ k) cg s).calls = [] ∨
        2 ^ (k + (rehash allocator fs_ncg size fuel (2 ^ k) cg s).calls.length) < 2 * fs_ncg) := by
  induction fuel generalizing k cg s with
  | zero => omega
  | succ fuel ih =>
    have positive : (0 : Int) < 2 ^ k := by positivity
    unfold rehash
    by_cases more : 2 ^ k < fs_ncg
    · have less : k < 30 := by
        by_contra last
        obtain rfl : k = 30 := by omega
        omega
      have next_group := further_on low high (le_of_lt positive) (le_of_lt more) groups
      simp only [if_pos more, next_group]
      obtain ⟨t, result, answer⟩ : ∃ t result,
          allocator s ((cg + 2 ^ k) % fs_ncg) 0 size = (t, result) := ⟨_, _, rfl⟩
      have low' := emod_nonneg (cg + 2 ^ k) (show fs_ncg ≠ 0 by omega)
      have high' := emod_lt_of_pos (cg + 2 ^ k) (show 0 < fs_ncg by omega)
      have step : (2 : Int) ^ (k + 1) < 2 * fs_ncg := by
        rw [pow_succ]
        omega
      simp only [answer]
      by_cases accepted : result ≠ 0
      · simp only [if_pos accepted]
        exact ⟨tried_found t (congrArg Prod.snd answer) low' high' accepted, nofun, .inr step⟩
      simp only [if_neg accepted]
      have doubled : int (2 ^ k * 2) = 2 ^ (k + 1) := by
        rw [← pow_succ]
        exact int_eq (by omega) (by omega)
      rw [doubled]
      obtain ⟨tried, -, length⟩ := ih (k + 1) less (by omega) low' high' t
      have zero : result = 0 := not_not.mp accepted
      refine ⟨tried.after (fun call mem => ?_) fun call mem => ?_, fun _ _ => ?_, .inr ?_⟩
      · rw [mem_singleton.mp mem]
        exact ⟨s, congrArg Prod.snd answer⟩
      · rw [mem_singleton.mp mem]
        exact ⟨low', high', zero⟩
      · exact Search.asked_after.mpr (.inl ⟨_, mem_singleton_self _, rfl⟩)
      · show (2 : Int) ^ (k + ([_] ++ _).length) < _
        rw [length_append, length_singleton, ← add_assoc]
        rcases length with nothing | some_left
        · rw [nothing]
          exact step
        · exact some_left
    · simp only [if_neg more]
      exact ⟨tried_refused s, fun _ more' => absurd more' more, .inl trivial⟩

theorem sweep_spec (allocator : Allocator S) (groups : fs_ncg ≤ 2 ^ 30) (size : Int)
    (fuel : Nat) (first : 2 ≤ i) (some_fuel : 0 < fuel) (enough : fs_ncg < i + fuel)
    (low : 0 ≤ cg) (high : cg < fs_ncg) (s : S) :
    Tried allocator fs_ncg size (sweep allocator fs_ncg size fuel i cg s) ∧
      ((sweep allocator fs_ncg size fuel i cg s).found = .refused → ∀ d, i ≤ d → d < fs_ncg →
        (sweep allocator fs_ncg size fuel i cg s).asked ((cg + (d - i)) % fs_ncg)) ∧
      ((sweep allocator fs_ncg size fuel i cg s).calls.length : Int) ≤ max 0 (fs_ncg - i) := by
  induction fuel generalizing i cg s with
  | zero => exact absurd some_fuel (lt_irrefl 0)
  | succ fuel ih =>
    unfold sweep
    by_cases more : i < fs_ncg
    · obtain ⟨t, result, answer⟩ : ∃ t result, allocator s cg 0 size = (t, result) := ⟨_, _, rfl⟩
      simp only [if_pos more, answer]
      by_cases accepted : result ≠ 0
      · simp only [if_pos accepted]
        refine ⟨tried_found t (congrArg Prod.snd answer) low high accepted, nofun, ?_⟩
        show (1 : Int) ≤ _
        omega
      have zero : result = 0 := not_not.mp accepted
      have following :
          (if int (cg + 1) = fs_ncg then 0 else int (cg + 1)) = (cg + 1) % fs_ncg := by
        rw [int_eq (by omega) (by omega)]
        split
        · rename_i last
          rw [last, emod_self]
        · rw [emod_eq_of_lt (by omega) (by omega)]
      simp only [if_neg accepted, following, int_eq (show -2 ^ 31 ≤ i + 1 by omega) (by omega)]
      obtain ⟨tried, covered, length⟩ := ih (show 2 ≤ i + 1 by omega) (by omega) (by omega)
        (emod_nonneg (cg + 1) (show fs_ncg ≠ 0 by omega))
        (emod_lt_of_pos (cg + 1) (show 0 < fs_ncg by omega)) t
      refine ⟨tried.after (fun call mem => ?_) fun call mem => ?_,
        fun refused d from_i below => ?_, ?_⟩
      · rw [mem_singleton.mp mem]
        exact ⟨s, congrArg Prod.snd answer⟩
      · rw [mem_singleton.mp mem]
        exact ⟨low, high, zero⟩
      · rw [Search.asked_after]
        by_cases here : d = i
        · left
          refine ⟨_, mem_singleton_self _, ?_⟩
          rw [here, sub_self, add_zero, emod_eq_of_lt low high]
        · right
          have asked := covered refused d (by omega) below
          rwa [emod_add_emod, show cg + 1 + (d - (i + 1)) = cg + (d - i) by omega] at asked
      · show (([_] ++ _ : List Call).length : Int) ≤ _
        rw [length_append, length_singleton]
        omega
    · simp only [if_neg more]
      refine ⟨tried_refused s, fun _ d from_i below => by omega, ?_⟩
      exact le_max_left _ _

theorem hashalloc_spec (allocator : Allocator S) (some_group : 1 ≤ fs_ncg)
    (groups : fs_ncg ≤ 2 ^ 30) (fuel : Nat)
    (enough : fs_ncg + 31 ≤ fuel) (low : 0 ≤ cg) (high : cg < fs_ncg) (s : S) (pref size : Int) :
    Complete allocator fs_ncg size (hashalloc allocator fs_ncg fuel s cg pref size) := by
  obtain ⟨n, rfl⟩ : ∃ n : Nat, fs_ncg = n := ⟨fs_ncg.toNat, by omega⟩
  obtain ⟨t, result, answer⟩ : ∃ t result, allocator s cg pref size = (t, result) := ⟨_, _, rfl⟩
  unfold hashalloc
  simp only [answer]
  by_cases accepted : result ≠ 0
  · rw [if_pos accepted]
    refine ⟨tried_found t (congrArg Prod.snd answer) low high accepted, nofun, ?_⟩
    show (1 : Int) ≤ _
    omega
  rw [if_neg accepted]
  have zero : result = 0 := not_not.mp accepted
  obtain ⟨search, made⟩ : ∃ search, search = rehash allocator n size fuel 1 cg t := ⟨_, rfl⟩
  have spec := rehash_spec allocator groups size 0 fuel (by decide) (by omega) low high t
  rw [pow_zero, ← made, zero_add] at spec
  rw [← made]
  obtain ⟨tried, rehashed, length⟩ := spec
  have first : ∀ call ∈ [(⟨cg, pref, result⟩ : Call)],
      0 ≤ call.cg ∧ call.cg < (n : Int) ∧ call.result = 0 := by
    intro call mem
    rw [mem_singleton.mp mem]
    exact ⟨low, high, zero⟩
  have answered : ∀ call ∈ [(⟨cg, pref, result⟩ : Call)],
      ∃ s, (allocator s call.cg call.pref size).2 = call.result := by
    intro call mem
    rw [mem_singleton.mp mem]
    exact ⟨s, congrArg Prod.snd answer⟩
  have tried' := tried.after answered first
  have probes : search.calls.length ≤ Nat.log 2 n + 1 ∧ (n = 1 → search.calls.length = 0) := by
    rcases length with nothing | bound
    · rw [nothing]
      exact ⟨Nat.zero_le _, fun _ => rfl⟩
    have bound' : 2 ^ search.calls.length < 2 * n := by exact_mod_cast bound
    cases probes : search.calls.length with
    | zero => exact ⟨Nat.zero_le _, fun _ => rfl⟩
    | succ k =>
      rw [probes, pow_succ] at bound'
      have log := Nat.le_log_of_pow_le (b := 2) (by decide) (show 2 ^ k ≤ n by omega)
      refine ⟨by omega, ?_⟩
      rintro rfl
      have := Nat.one_le_two_pow (n := k)
      omega
  cases found : search.found with
  | unfinished => exact absurd found tried.ended
  | found r =>
    have shape : (search.after [⟨cg, pref, result⟩]).found = .found r := found
    rw [shape]
    refine ⟨tried', fun refused => ?_, ?_⟩
    · rw [shape] at refused
      cases refused
    · show ((([_] : List Call) ++ search.calls).length : Int) ≤ _
      rw [length_append, length_singleton, toNat_natCast]
      omega
  | refused =>
    have shape : (search.after [⟨cg, pref, result⟩]).found = .refused := found
    have start : (int (cg + 2)).tmod n = (cg + 2) % n := by
      rw [int_eq (by omega) (by omega), tmod_eq_emod_of_nonneg (by omega)]
    rw [shape]
    simp only [start]
    obtain ⟨swept, covered, length'⟩ := sweep_spec allocator groups size fuel
      (le_refl 2) (by omega) (by omega) (emod_nonneg (cg + 2) (show (n : Int) ≠ 0 by omega))
      (emod_lt_of_pos (cg + 2) (show 0 < (n : Int) by omega)) search.state
    have refusals : ∀ call ∈ (search.after [⟨cg, pref, result⟩]).calls,
        0 ≤ call.cg ∧ call.cg < (n : Int) ∧ call.result = 0 := by
      intro call mem
      obtain ⟨low, high⟩ := tried'.inside call mem
      exact ⟨low, high, tried'.refused shape call mem⟩
    refine ⟨swept.after tried'.answered refusals, fun refused g g_low g_high => ?_, ?_⟩
    · -- the group asked first, the next one, or one of the sweep
      rw [Search.asked_after]
      obtain ⟨d, distance⟩ : ∃ d, d = (g - cg) % n := ⟨_, rfl⟩
      have d_low := emod_nonneg (g - cg) (show (n : Int) ≠ 0 by omega)
      have d_high := emod_lt_of_pos (g - cg) (show 0 < (n : Int) by omega)
      have back : (cg + d) % n = g := by
        rw [distance, add_emod_emod, show cg + (g - cg) = g by omega]
        exact emod_eq_of_lt g_low g_high
      by_cases zero : d = 0
      · left
        refine ⟨_, mem_append_left _ (mem_singleton_self _), ?_⟩
        rw [← back, zero, add_zero, emod_eq_of_lt low high]
      by_cases one : d = 1
      · left
        obtain ⟨call, mem, here⟩ := rehashed found (by omega)
        refine ⟨call, mem_append_right _ mem, ?_⟩
        rw [here, ← back, one]
      · right
        have asked := covered refused d (by omega) (by omega)
        rwa [emod_add_emod, show cg + 2 + (d - 2) = cg + d by omega, back] at asked
    · show ((([_] ++ search.calls) ++
        (sweep allocator n size fuel 2 ((cg + 2) % n) search.state).calls : List Call).length : Int)
          ≤ _
      rw [length_append, length_append, length_singleton, toNat_natCast]
      omega

end

end Cylinders
