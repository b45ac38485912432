import Svr4.Minima
import Svr4.Ts.Class

/- disp/ts.c: the processes that the time-sharing class nominates for swapping. -/
namespace SwapNominations
open Ts Minima List

/-- A tsproc and what is read of its process. ts_maxglobpri is the highest global priority in use.
-/
structure Tsproc (ts_maxglobpri : Int) where
  ts_procp : Nat
  pstat : Stat
  ppri : Int
  sload : Bool
  ssys : Bool
  slock : Bool
  suswap : Bool
  sprocio : Bool
  sswlocks : Bool
  nonneg : 0 ≤ ppri
  most : ppri ≤ ts_maxglobpri

variable {ts_maxglobpri : Int}

/-- The loop of `ts_swapin`, with `retpp`, `maxpri` and `*runflagp`. -/
def swapin_loop : List (Tsproc ts_maxglobpri) → Option (Tsproc ts_maxglobpri) → Int → Bool →
    Option (Tsproc ts_maxglobpri) × Int × Bool
  | [], retpp, maxpri, runflag => (retpp, maxpri, runflag)
  | tspp :: rest, retpp, maxpri, runflag =>
    if tspp.suswap then swapin_loop rest retpp maxpri runflag
    else if tspp.pstat = .SRUN then
      if tspp.sload = false then
        if tspp.ppri > maxpri then swapin_loop rest (some tspp) tspp.ppri runflag
        else swapin_loop rest retpp maxpri runflag
      else swapin_loop rest retpp maxpri true
    else swapin_loop rest retpp maxpri runflag

def ts_swapin (plist : List (Tsproc ts_maxglobpri)) : Option (Tsproc ts_maxglobpri) × Bool :=
  let r := swapin_loop plist none (-1) false
  (if r.2.1 = -1 then none else r.1, r.2.2)

def eligible (jl : Nat) (tspp : Tsproc ts_maxglobpri) : Bool :=
  !(tspp.pstat = .SZOMB) &&
    (tspp.sload && !tspp.ssys && !tspp.slock && !tspp.suswap && !tspp.sprocio && !tspp.sswlocks) &&
    !(tspp.ts_procp = jl)

def swapout_loop (jl : Nat) : List (Tsproc ts_maxglobpri) → Option (Tsproc ts_maxglobpri) →
    Int → Int → Option (Tsproc ts_maxglobpri)
  | [], retpp, _, _ => retpp
  | tspp :: rest, retpp, minspri, minrpri =>
    if eligible jl tspp then
      if (tspp.pstat = .SSLEEP ∨ tspp.pstat = .SSTOP) ∧ tspp.ppri < minspri then
        swapout_loop jl rest (some tspp) tspp.ppri minrpri
      else if retpp.isNone ∧ tspp.pstat = .SRUN ∧ tspp.ppri < minrpri then
        swapout_loop jl rest (some tspp) minspri tspp.ppri
      else swapout_loop jl rest retpp minspri minrpri
    else swapout_loop jl rest retpp minspri minrpri

/-- With whether `*unloadokp` is set. -/
def ts_swapout (jl : Nat) (plist : List (Tsproc ts_maxglobpri)) :
    Option (Tsproc ts_maxglobpri) × Bool :=
  let retpp := swapout_loop jl plist none (ts_maxglobpri + 1) (ts_maxglobpri + 1)
  (retpp, retpp.isSome)

def Unloaded (tspp : Tsproc ts_maxglobpri) : Prop :=
  tspp.suswap = false ∧ tspp.pstat = .SRUN ∧ tspp.sload = false

def Asleep (jl : Nat) (tspp : Tsproc ts_maxglobpri) : Prop :=
  eligible jl tspp = true ∧ (tspp.pstat = .SSLEEP ∨ tspp.pstat = .SSTOP)

def Runnable (jl : Nat) (tspp : Tsproc ts_maxglobpri) : Prop :=
  eligible jl tspp = true ∧ tspp.pstat = .SRUN

instance (jl : Nat) (tspp : Tsproc ts_maxglobpri) : Decidable (Runnable jl tspp) :=
  inferInstanceAs (Decidable (_ ∧ _))

structure Nominates (jl : Nat) (plist : List (Tsproc ts_maxglobpri)) : Prop where
  swapin : Picks Unloaded (-·.ppri) (· ∈ plist) (ts_swapin plist).1
  runflag : (ts_swapin plist).2 = true ↔
    ∃ tspp ∈ plist, tspp.suswap = false ∧ tspp.pstat = .SRUN ∧ tspp.sload = true
  asleep : (∃ tspp ∈ plist, Asleep jl tspp) → ∃ tspp, (ts_swapout jl plist).1 = some tspp ∧
    Picks (Asleep jl) (·.ppri) (· ∈ plist) (some tspp)
  runnable : (¬∃ tspp ∈ plist, Asleep jl tspp) →
    Picks (Runnable jl) (·.ppri) (· ∈ plist) (ts_swapout jl plist).1

variable {plist : List (Tsproc ts_maxglobpri)} {retpp : Option (Tsproc ts_maxglobpri)}
  {tspp : Tsproc ts_maxglobpri} {S : Tsproc ts_maxglobpri → Prop} {jl : Nat}

theorem swapin_loop_spec {maxpri : Int} {runflag : Bool}
    (picks : Picks Unloaded (-·.ppri) S retpp) (top : maxpri = (retpp.map (·.ppri)).getD (-1)) :
    let r := swapin_loop plist retpp maxpri runflag
    Picks Unloaded (-·.ppri) (fun t => S t ∨ t ∈ plist) r.1 ∧
      r.2.1 = (r.1.map (·.ppri)).getD (-1) ∧ (r.2.2 = true ↔ runflag = true ∨
        ∃ t ∈ plist, t.suswap = false ∧ t.pstat = .SRUN ∧ t.sload = true) := by
  induction plist generalizing S retpp maxpri runflag with
  | nil => exact ⟨picks.congr fun _ => by simp, top, by simp [swapin_loop]⟩
  | cons tspp rest ih =>
    have next : ∀ {retpp maxpri flag}, Picks Unloaded (-·.ppri) (fun t => S t ∨ t = tspp) retpp →
        maxpri = (retpp.map (·.ppri)).getD (-1) → (flag = true ↔ runflag = true ∨
          tspp.suswap = false ∧ tspp.pstat = .SRUN ∧ tspp.sload = true) →
        let r := swapin_loop rest retpp maxpri flag
        Picks Unloaded (-·.ppri) (fun t => S t ∨ t ∈ tspp :: rest) r.1 ∧
          r.2.1 = (r.1.map (·.ppri)).getD (-1) ∧ (r.2.2 = true ↔ runflag = true ∨
            ∃ t ∈ tspp :: rest, t.suswap = false ∧ t.pstat = .SRUN ∧ t.sload = true) := by
      intro retpp maxpri flag picks top loaded
      obtain ⟨all, last, flags⟩ := @ih retpp _ maxpri flag picks top
      refine ⟨all.congr fun t => by simp [or_assoc], last, ?_⟩
      rw [flags, loaded, or_assoc]
      simp
    rw [swapin_loop]
    split_ifs with used run out more
    · exact next (picks.skip fun unloaded => by simp [unloaded.1] at used) top (by simp [used])
    · refine next (picks.take ⟨by simpa using used, run, out⟩ fun a same => ?_) rfl (by simp [out])
      subst same
      simp only [Option.map_some, Option.getD_some] at top
      omega
    · refine next (picks.skip fun _ => ?_) top (by simp [out])
      have nonneg := tspp.nonneg
      cases retpp with
      | none =>
        simp only [Option.map_none, Option.getD_none] at top
        omega
      | some a =>
        simp only [Option.map_some, Option.getD_some] at top
        exact ⟨a, rfl, by omega⟩
    · exact next (picks.skip fun unloaded => absurd unloaded.2.2 out) top (by simp [used, run, out])
    · exact next (picks.skip fun unloaded => absurd unloaded.2.1 run) top (by simp [run])

theorem ts_swapin_spec : Picks Unloaded (-·.ppri) (· ∈ plist) (ts_swapin plist).1 ∧
    ((ts_swapin plist).2 = true ↔
      ∃ t ∈ plist, t.suswap = false ∧ t.pstat = .SRUN ∧ t.sload = true) := by
  obtain ⟨picks, top, flag⟩ := @swapin_loop_spec _ plist none _ (-1) false picks_nothing rfl
  refine ⟨?_, by simpa [ts_swapin] using flag⟩
  have all := picks.congr (T := (· ∈ plist)) fun t => by simp
  unfold ts_swapin
  simp only
  split
  · next least =>
    cases chosen : (swapin_loop plist none (-1) false).1 with
    | none => exact chosen ▸ all
    | some t =>
      rw [chosen] at top
      have nonneg := t.nonneg
      simp only [Option.map_some, Option.getD_some] at top
      omega
  · exact all

theorem swapout_loop_asleep {minrpri : Int} (picks : Picks (Asleep jl) (·.ppri) S (some tspp)) :
    ∃ t, swapout_loop jl plist (some tspp) tspp.ppri minrpri = some t ∧
      Picks (Asleep jl) (·.ppri) (fun t => S t ∨ t ∈ plist) (some t) := by
  induction plist generalizing S tspp with
  | nil => exact ⟨tspp, rfl, picks.congr fun _ => by simp⟩
  | cons t rest ih =>
    have next : ∀ {u}, Picks (Asleep jl) (·.ppri) (fun x => S x ∨ x = t) (some u) →
        ∃ t', swapout_loop jl rest (some u) u.ppri minrpri = some t' ∧
          Picks (Asleep jl) (·.ppri) (fun x => S x ∨ x ∈ t :: rest) (some t') := by
      intro u picks
      obtain ⟨t', chosen, all⟩ := ih picks
      exact ⟨t', chosen, all.congr fun x => by simp [or_assoc]⟩
    rw [swapout_loop]
    split_ifs with ok less never
    · refine next (picks.take ⟨ok, less.1⟩ fun a same => ?_)
      cases same
      exact Int.le_of_lt less.2
    · simp at never
    · refine next (picks.skip fun asleep => ⟨tspp, rfl, ?_⟩)
      exact Int.not_lt.mp fun smaller => less ⟨asleep.2, smaller⟩
    · exact next (picks.skip fun asleep => absurd asleep.1 ok)

theorem swapout_loop_exists {minrpri : Int} (some_asleep : ∃ t ∈ plist, Asleep jl t) :
    ∃ t, swapout_loop jl plist retpp (ts_maxglobpri + 1) minrpri = some t ∧
      Picks (Asleep jl) (·.ppri) (· ∈ plist) (some t) := by
  induction plist generalizing retpp minrpri with
  | nil =>
    obtain ⟨t, never, -⟩ := some_asleep
    cases never
  | cons t rest ih =>
    by_cases asleep : Asleep jl t
    · have picks : Picks (Asleep jl) (·.ppri) _ _ :=
        picks_nothing.take asleep fun _ never => by cases never
      obtain ⟨t', chosen, all⟩ := @swapout_loop_asleep _ rest t _ jl minrpri picks
      refine ⟨t', ?_, all.congr fun x => by simp⟩
      have most := t.most
      rw [swapout_loop, if_pos asleep.1, if_pos ⟨asleep.2, by omega⟩]
      exact chosen
    obtain ⟨u, member, later⟩ := some_asleep
    have next : ∀ {retpp minrpri}, ∃ t',
        swapout_loop jl rest retpp (ts_maxglobpri + 1) minrpri = some t' ∧
          Picks (Asleep jl) (·.ppri) (· ∈ t :: rest) (some t') := by
      intro retpp minrpri
      have there : ∃ t ∈ rest, Asleep jl t := by
        rcases mem_cons.mp member with rfl | old
        · exact absurd later asleep
        · exact ⟨u, old, later⟩
      obtain ⟨t', chosen, all⟩ := @ih retpp minrpri there
      exact ⟨t', chosen, (all.skip fun now => absurd now asleep).congr fun x => by
        rw [mem_cons, or_comm]⟩
    rw [swapout_loop]
    split_ifs with ok now
    · exact absurd ⟨ok, now.1⟩ asleep
    · exact next
    · exact next
    · exact next

theorem swapout_loop_runnable {minrpri : Int} (none_asleep : ∀ t ∈ plist, ¬Asleep jl t)
    (top : retpp = none → minrpri = ts_maxglobpri + 1) :
    swapout_loop jl plist retpp (ts_maxglobpri + 1) minrpri =
      retpp.or (plist.find? fun t => decide (Runnable jl t)) := by
  induction plist generalizing retpp minrpri with
  | nil => simp [swapout_loop]
  | cons t rest ih =>
    have later : ∀ t ∈ rest, ¬Asleep jl t := fun t mem => none_asleep t (.tail _ mem)
    rw [swapout_loop]
    split_ifs with ok asleep first
    · exact absurd ⟨ok, asleep.1⟩ (none_asleep t (.head rest))
    · rw [ih later (fun never => by cases never), Option.isNone_iff_eq_none.mp first.1,
        find?_cons_of_pos (by simpa using ⟨ok, first.2.1⟩)]
      rfl
    · rw [ih later top]
      cases retpp with
      | some a => rfl
      | none =>
        have most := t.most
        have high := top rfl
        rw [find?_cons_of_neg]
        simp only [decide_eq_true_eq]
        exact fun run => first ⟨rfl, run.2, by omega⟩
    · rw [ih later top, find?_cons_of_neg]
      simp only [decide_eq_true_eq]
      exact fun run => ok run.1

/-- The nominations are right iff some eligible process is asleep or stopped, or no eligible
runnable one is below the first. -/
theorem nominates_iff (jl : Nat) (plist : List (Tsproc ts_maxglobpri)) : Nominates jl plist ↔
    (∃ t ∈ plist, Asleep jl t) ∨ ∀ t, plist.find? (fun t => decide (Runnable jl t)) = some t →
      ∀ u ∈ plist, Runnable jl u → t.ppri ≤ u.ppri := by
  have result : (¬∃ t ∈ plist, Asleep jl t) → (ts_swapout jl plist).1 =
      plist.find? fun t => decide (Runnable jl t) := fun none_asleep =>
    swapout_loop_runnable (fun t mem asleep => none_asleep ⟨t, mem, asleep⟩) fun _ => rfl
  constructor
  · intro right
    by_cases some_asleep : ∃ t ∈ plist, Asleep jl t
    · exact .inl some_asleep
    · refine .inr fun t first => ?_
      have picks := right.runnable some_asleep
      rw [result some_asleep, first] at picks
      exact picks.2.2
  · intro fine
    refine ⟨ts_swapin_spec.1, ts_swapin_spec.2, swapout_loop_exists, fun none_asleep => ?_⟩
    rw [result none_asleep]
    cases first : plist.find? fun t => decide (Runnable jl t) with
    | none => simpa [Picks] using first
    | some t => exact ⟨mem_of_find?_eq_some first, by simpa using find?_some first,
        fine.resolve_left none_asleep t first⟩

def runnable_at (ts_procp : Nat) (ppri : Int) (low : 0 ≤ ppri) (high : ppri ≤ 59) : Tsproc 59 :=
  ⟨ts_procp, .SRUN, ppri, true, false, false, false, false, false, low, high⟩

/-- The second one of two that are runnable has the lower priority, and the first is nominated. -/
theorem first_runnable_nominated : ¬Nominates 0
    [runnable_at 1 20 (by decide) (by decide), runnable_at 2 10 (by decide) (by decide)] := by
  intro right
  have picks := right.runnable (by simp [Asleep, runnable_at])
  exact absurd (picks.2.2 _ (.tail _ (.head _)) ⟨rfl, rfl⟩) (by decide)

end SwapNominations
