import Mathlib.Algebra.Order.Group.Multiset
import Mathlib.Tactic.Abel
import Svr4.Clock.Heap

/- Runs of the callout table, with what was scheduled, called and cancelled in them. -/
namespace Callout
open BinaryHeaps LabelledRuns Option List

structure System where
  table : Table
  scheduled : List Callo
  /-- The entries that were called, and when. -/
  invoked : List (Int × Callo)
  /-- The entries that were found by `untimeout`, and the id it looked for. -/
  cancelled : List (Int × Callo)

/-- The clock ticks at any time. What a callback does comes after the turn that calls it. -/
inductive Event
  | timeout (func arg : Nat) (tim : Int)
  | ttimeout (func arg : Nat) (tim : Int)
  | untimeout (id : Int)
  | tick
  | turn

/-- A panic ends the run. -/
def step (s : System) : Event → Option System
  | .timeout func arg tim =>
    (timeout s.table func arg tim).map fun (table, id) =>
      { s with table := table, scheduled := ⟨s.table.lbolt + tim, id, arg, func⟩ :: s.scheduled }
  | .ttimeout func arg tim =>
    (ttimeout s.table func arg tim).map fun (table, id) =>
      { s with
          table := table
          scheduled :=
            if s.table.calllimit + 1 = s.table.v_call then s.scheduled
            else ⟨s.table.lbolt + tim, id, arg, func⟩ :: s.scheduled }
  | .untimeout id =>
    let (table, f) := untimeout s.table id
    some
      { s with
          table := table
          cancelled :=
            if 0 ≤ f then (id, s.table.callout f.toNat) :: s.cancelled else s.cancelled }
  | .tick => some { s with table := { s.table with lbolt := s.table.lbolt + 1 } }
  | .turn =>
    match timein_turn s.table with
    | some (svcall, table) =>
      some { s with table := table, invoked := (s.table.lbolt, svcall) :: s.invoked }
    | none => some s

/-- `timein`, where a callback does what it does in the state in which it is called. Fuel bounds
    the turns. -/
def timein (callback : System → Callo → List Event) : Nat → System → Option System
  | 0, _ => none
  | fuel + 1, s =>
    match timein_turn s.table with
    | some (svcall, table) =>
      let called := { s with table := table, invoked := (s.table.lbolt, svcall) :: s.invoked }
      (exec step called (callback called svcall)).bind (timein callback fuel)
    | none => some s

def start (callout : Nat → Callo) (v_call : Nat) (timeid lbolt : Int) : System :=
  ⟨⟨callout, -1, v_call, timeid, lbolt⟩, [], [], []⟩

/-- How many entries are due. -/
def System.due (s : System) : Nat := s.table.pending.countP fun c => c.c_time ≤ s.table.lbolt

/-- What the callbacks do succeeds in the states of `inv`, and `budget` bounds how many due entries
    they still add. -/
def Sparing (callback : System → Callo → List Event) (inv : System → Prop)
    (budget : System → Nat) : Prop :=
  ∀ s svcall table, inv s → timein_turn s.table = some (svcall, table) →
    let called := { s with table := table, invoked := (s.table.lbolt, svcall) :: s.invoked }
    ∃ t, exec step called (callback called svcall) = some t ∧ inv t ∧
      t.due + budget t ≤ called.due + budget s

def Event.Ahead : Event → Prop
  | .timeout _ _ tim | .ttimeout _ _ tim => 0 ≤ tim
  | _ => True

/-- The entries were called in the order in which they are due. -/
def System.InTurn (s : System) : Prop :=
  (s.invoked.map Prod.snd).Pairwise fun later sooner => sooner.c_time ≤ later.c_time

/-- Each entry is called, cancelled or pending, and only once. -/
structure System.Ok (v_call : Nat) (s : System) : Prop where
  table : s.table.Ok
  size : s.table.v_call = v_call
  balance : (s.scheduled : Multiset Callo) =
    (s.invoked.map Prod.snd : Multiset Callo) + (s.cancelled.map Prod.snd : Multiset Callo) +
      s.table.pending
  due : ∀ e ∈ s.invoked, e.2.c_time ≤ e.1
  named : ∀ e ∈ s.cancelled, e.2.c_id = e.1

section Runs
variable {v_call : Nat} {s s' : System} {table : Table}

theorem timeout_ok {func arg : Nat} {tim id : Int} (ok : s.Ok v_call)
    (added : timeout s.table func arg tim = some (table, id)) :
    System.Ok v_call { s with
      table := table, scheduled := ⟨s.table.lbolt + tim, id, arg, func⟩ :: s.scheduled } := by
  obtain ⟨table_ok, -, size, pending⟩ := timeout_spec ok.table added
  refine ⟨table_ok, size.trans ok.size, ?_, ok.due, ok.named⟩
  rw [← Multiset.cons_coe, ok.balance, pending, Multiset.add_cons]

theorem turn_ok {svcall : Callo} (ok : s.Ok v_call)
    (taken : timein_turn s.table = some (svcall, table)) :
    System.Ok v_call
      { s with table := table, invoked := (s.table.lbolt, svcall) :: s.invoked } := by
  rcases timein_turn_spec ok.table with ⟨none_due, -⟩ | ⟨c, t, turn, due, -, pending, facts⟩
  · exact absurd (taken.symm.trans none_due) (by simp)
  obtain ⟨rfl, rfl⟩ := Prod.mk.inj (some.inj (taken.symm.trans turn))
  refine ⟨facts.1, facts.2.2.trans ok.size, ?_, ?_, ok.named⟩
  · rw [ok.balance, pending, map_cons, ← Multiset.cons_coe, Multiset.add_cons,
      Multiset.cons_add, Multiset.cons_add]
  · intro e mem
    rcases mem_cons.mp mem with rfl | earlier
    · exact due
    · exact ok.due e earlier

theorem untimeout_step {id : Int} (taken : step s (.untimeout id) = some s') : s' = { s with
    table := (untimeout s.table id).1
    cancelled := if 0 ≤ (untimeout s.table id).2 then
        (id, s.table.callout (untimeout s.table id).2.toNat) :: s.cancelled
      else s.cancelled } :=
  (some.inj taken).symm

theorem step_ok (ok : s.Ok v_call) (e : Event) (taken : step s e = some s') : s'.Ok v_call := by
  cases e with
  | timeout func arg tim =>
    obtain ⟨⟨table, id⟩, added, rfl⟩ := map_eq_some_iff.mp taken
    exact timeout_ok ok added
  | ttimeout func arg tim =>
    obtain ⟨⟨table, id⟩, added, rfl⟩ := map_eq_some_iff.mp taken
    unfold ttimeout at added
    split at added
    · next full =>
      obtain ⟨rfl, -⟩ := Prod.mk.inj (some.inj added)
      dsimp only
      rw [if_pos full]
      exact ok
    · next room =>
      dsimp only
      rw [if_neg room]
      exact timeout_ok ok added
  | untimeout id =>
    rw [untimeout_step taken]
    rcases untimeout_spec ok.table id with
      ⟨-, nothing⟩ | ⟨f, -, at_f, same_id, pending, table_ok, -, size⟩
    · rw [nothing]
      exact ok
    rw [at_f, if_pos (Int.natCast_nonneg f), Int.toNat_natCast]
    refine ⟨table_ok, size.trans ok.size, ?_, ok.due, ?_⟩
    · rw [ok.balance, pending, map_cons, ← Multiset.cons_coe, Multiset.add_cons,
        Multiset.add_cons, Multiset.cons_add]
    · intro e mem
      rcases mem_cons.mp mem with rfl | earlier
      · exact same_id
      · exact ok.named e earlier
  | tick =>
    cases taken
    exact { ok with table := ⟨ok.table.low, ok.table.room, ok.table.order⟩ }
  | turn =>
    unfold step at taken
    dsimp only at taken
    split at taken
    · next svcall table turn =>
      cases taken
      exact turn_ok ok turn
    · obtain rfl := some.inj taken
      exact ok

theorem start_ok (callout : Nat → Callo) (v_call : Nat) (timeid lbolt : Int) :
    (start callout v_call timeid lbolt).Ok v_call where
  table := ⟨le_refl _, by
    show (-1 : Int) + 1 ≤ v_call
    omega, fun i positive below => absurd below (Nat.not_lt_zero i)⟩
  size := rfl
  balance := rfl
  due := by simp [start]
  named := by simp [start]

/-- Each call is recorded in front of those before it. -/
structure System.Extends (s s' : System) : Prop where
  scheduled : s.scheduled <:+ s'.scheduled
  invoked : s.invoked <:+ s'.invoked
  cancelled : s.cancelled <:+ s'.cancelled

theorem System.Extends.rfl : s.Extends s := ⟨List.suffix_rfl, List.suffix_rfl, List.suffix_rfl⟩

theorem System.Extends.trans {t : System} (first : s.Extends t) (second : t.Extends s') :
    s.Extends s' :=
  ⟨first.scheduled.trans second.scheduled, first.invoked.trans second.invoked,
    first.cancelled.trans second.cancelled⟩

theorem step_extends (e : Event) (taken : step s e = some s') : s.Extends s' := by
  cases e with
  | timeout func arg tim =>
    obtain ⟨_, -, rfl⟩ := map_eq_some_iff.mp taken
    exact ⟨suffix_cons _ _, suffix_rfl, suffix_rfl⟩
  | ttimeout func arg tim =>
    obtain ⟨_, -, rfl⟩ := map_eq_some_iff.mp taken
    refine ⟨?_, suffix_rfl, suffix_rfl⟩
    dsimp only
    split
    · exact suffix_rfl
    · exact suffix_cons _ _
  | untimeout id =>
    rw [untimeout_step taken]
    refine ⟨suffix_rfl, suffix_rfl, ?_⟩
    split
    · exact suffix_cons _ _
    · exact suffix_rfl
  | tick =>
    cases taken
    exact ⟨suffix_rfl, suffix_rfl, suffix_rfl⟩
  | turn =>
    unfold step at taken
    dsimp only at taken
    split at taken
    · cases taken
      exact ⟨suffix_rfl, suffix_cons _ _, suffix_rfl⟩
    · cases taken
      exact .rfl

theorem exec_extends {events : List Event} (run : exec step s events = some s') :
    s.Extends s' :=
  exec_preserves (s.Extends ·) (fun _ e _ before taken => before.trans (step_extends e taken)) .rfl
    run

/-- A called entry was due, so what is pending then or scheduled later is not due before it. -/
structure System.Orderly (s : System) : Prop where
  in_turn : s.InTurn
  first : ∀ e ∈ s.invoked, ∀ c ∈ s.table.pending, e.2.c_time ≤ c.c_time
  past : ∀ e ∈ s.invoked, e.2.c_time ≤ s.table.lbolt

theorem timeout_orderly {func arg : Nat} {tim id : Int} (ok : s.Ok v_call) (orderly : s.Orderly)
    (ahead : 0 ≤ tim) (added : timeout s.table func arg tim = some (table, id)) :
    System.Orderly { s with
      table := table, scheduled := ⟨s.table.lbolt + tim, id, arg, func⟩ :: s.scheduled } := by
  obtain ⟨-, lbolt, -, pending⟩ := timeout_spec ok.table added
  refine ⟨orderly.in_turn, fun e called c mem => ?_, fun e called => ?_⟩
  · have past := orderly.past e called
    rw [pending] at mem
    rcases Multiset.mem_cons.mp mem with rfl | old
    · dsimp only
      omega
    · exact orderly.first e called c old
  · exact lbolt ▸ orderly.past e called

theorem turn_orderly {svcall : Callo} (ok : s.Ok v_call) (orderly : s.Orderly)
    (taken : timein_turn s.table = some (svcall, table)) :
    System.Orderly
      { s with table := table, invoked := (s.table.lbolt, svcall) :: s.invoked } := by
  rcases timein_turn_spec ok.table with
    ⟨none_due, -⟩ | ⟨c, t, turn, due, least, pending, -, lbolt, -⟩
  · exact absurd (taken.symm.trans none_due) (by simp)
  obtain ⟨rfl, rfl⟩ := Prod.mk.inj (some.inj (taken.symm.trans turn))
  have mem : svcall ∈ s.table.pending := pending ▸ Multiset.mem_cons_self svcall _
  refine ⟨?_, ?_, ?_⟩
  · refine pairwise_cons.mpr ⟨fun d before => ?_, orderly.in_turn⟩
    obtain ⟨e, called, rfl⟩ := mem_map.mp before
    exact orderly.first e called svcall mem
  · intro e called d left_over
    rcases mem_cons.mp called with rfl | before
    · exact least d left_over
    · exact orderly.first e before d (pending ▸ Multiset.mem_cons_of_mem left_over)
  · intro e called
    rw [lbolt]
    rcases mem_cons.mp called with rfl | before
    · exact due
    · exact orderly.past e before

theorem step_orderly (ok : s.Ok v_call) (orderly : s.Orderly) (e : Event) (ahead : e.Ahead)
    (taken : step s e = some s') : s'.Orderly := by
  cases e with
  | timeout func arg tim =>
    obtain ⟨⟨table, id⟩, added, rfl⟩ := map_eq_some_iff.mp taken
    exact timeout_orderly ok orderly ahead added
  | ttimeout func arg tim =>
    obtain ⟨⟨table, id⟩, added, rfl⟩ := map_eq_some_iff.mp taken
    unfold ttimeout at added
    split at added
    · next full =>
      obtain ⟨rfl, -⟩ := Prod.mk.inj (some.inj added)
      exact { orderly with }
    · next room =>
      dsimp only
      rw [if_neg room]
      exact timeout_orderly ok orderly ahead added
  | untimeout id =>
    rw [untimeout_step taken]
    rcases untimeout_spec ok.table id with ⟨-, nothing⟩ | ⟨f, -, -, -, pending, -, lbolt, -⟩
    · rw [nothing]
      exact orderly
    · refine ⟨orderly.in_turn, fun e called c mem => ?_, fun e called => ?_⟩
      · exact orderly.first e called c (pending ▸ Multiset.mem_cons_of_mem mem)
      · exact lbolt ▸ orderly.past e called
  | tick =>
    cases taken
    refine { orderly with past := fun e called => ?_ }
    exact (orderly.past e called).trans (by dsimp only; omega)
  | turn =>
    unfold step at taken
    dsimp only at taken
    split at taken
    · next svcall table turn =>
      cases taken
      exact turn_orderly ok orderly turn
    · cases taken
      exact orderly

theorem exec_ok {events : List Event} (ok : s.Ok v_call) (run : exec step s events = some s') :
    s'.Ok v_call :=
  exec_preserves _ (fun _ e _ ok taken => step_ok ok e taken) ok run

theorem exec_orderly {events : List Event} (ok : s.Ok v_call) (orderly : s.Orderly)
    (ahead : ∀ e ∈ events, e.Ahead) (run : exec step s events = some s') : s'.Orderly := by
  induction events generalizing s with
  | nil =>
    cases run
    exact orderly
  | cons e events ih =>
    obtain ⟨t, taken, rest⟩ := exec_cons_eq_some.mp run
    exact ih (step_ok ok e taken) (step_orderly ok orderly e (ahead e mem_cons_self) taken)
      (fun e mem => ahead e (mem_cons_of_mem _ mem)) rest

/-- `timein` is a run of turns and of what the callbacks do. -/
theorem timein_run {callback : System → Callo → List Event} {fuel : Nat}
    (returned : timein callback fuel s = some s') : ∃ events, exec step s events = some s' ∧
      ∀ e ∈ events, e = .turn ∨ ∃ t c, e ∈ callback t c := by
  induction fuel generalizing s with
  | zero => exact absurd returned (by simp [timein])
  | succ fuel ih =>
    unfold timein at returned
    split at returned
    · next svcall table turn =>
      obtain ⟨t, ran, rest⟩ := bind_eq_some_iff.mp returned
      obtain ⟨events, run, from_callbacks⟩ := ih rest
      have after := exec_append ran run
      refine ⟨.turn :: _, exec_cons_eq_some.mpr ⟨_, ?_, after⟩, ?_⟩
      · unfold step
        rw [turn]
      · intro e mem
        rcases mem_cons.mp mem with rfl | mem
        · exact .inl rfl
        · rcases mem_append.mp mem with here | later
          · exact .inr ⟨_, _, here⟩
          · exact from_callbacks e later
    · cases returned
      exact ⟨[], rfl, fun e mem => absurd mem not_mem_nil⟩

theorem turn_due {svcall : Callo} (ok : s.Ok v_call)
    (taken : timein_turn s.table = some (svcall, table)) :
    s.due = System.due { s with
      table := table, invoked := (s.table.lbolt, svcall) :: s.invoked } + 1 := by
  rcases timein_turn_spec ok.table with
    ⟨none_due, -⟩ | ⟨c, t, turn, due, -, pending, -, lbolt, -⟩
  · exact absurd (taken.symm.trans none_due) (by simp)
  · obtain ⟨rfl, rfl⟩ := Prod.mk.inj (some.inj (taken.symm.trans turn))
    unfold System.due
    rw [pending, lbolt]
    exact Multiset.countP_cons_of_pos _ due

/-- Each turn takes a due entry, and the callbacks add finitely many. -/
theorem timein_returns {callback : System → Callo → List Event} {inv : System → Prop}
    {budget : System → Nat} (sparing : Sparing callback inv budget) (ok : s.Ok v_call)
    (holds : inv s) : ∃ s', timein callback (s.due + budget s + 1) s = some s' := by
  suffices enough : ∀ n s, System.Ok v_call s → inv s → s.due + budget s ≤ n →
      ∃ s', timein callback (n + 1) s = some s' from enough _ s ok holds (le_refl _)
  clear ok holds
  intro n
  induction n with
  | zero =>
    intro s ok holds bound
    refine ⟨s, ?_⟩
    cases turn : timein_turn s.table with
    | none =>
      unfold timein
      rw [turn]
    | some taken =>
      have one := turn_due ok turn
      omega
  | succ n ih =>
    intro s ok holds bound
    cases turn : timein_turn s.table with
    | none =>
      refine ⟨s, ?_⟩
      unfold timein
      rw [turn]
    | some taken =>
      obtain ⟨svcall, table⟩ := taken
      have one := turn_due ok turn
      obtain ⟨t, ran, still, spent⟩ := sparing s svcall table holds turn
      obtain ⟨s', rest⟩ := ih t (exec_ok (turn_ok ok turn) ran) still (by omega)
      refine ⟨s', ?_⟩
      unfold timein
      rw [turn]
      exact bind_eq_some_iff.mpr ⟨t, ran, rest⟩

/-- What was pending or is scheduled is called or cancelled once, or is pending. -/
theorem System.Extends.balance (more : s.Extends s') (ok : s.Ok v_call) (ok' : s'.Ok v_call) :
    ∃ new called gone, s'.scheduled = new ++ s.scheduled ∧ s'.invoked = called ++ s.invoked ∧
      s'.cancelled = gone ++ s.cancelled ∧
      (s.table.pending + new : Multiset Callo) =
        (called.map Prod.snd : Multiset Callo) + (gone.map Prod.snd : Multiset Callo) +
          s'.table.pending := by
  obtain ⟨new, scheduled⟩ := more.scheduled
  obtain ⟨called, invoked⟩ := more.invoked
  obtain ⟨gone, cancelled⟩ := more.cancelled
  refine ⟨new, called, gone, scheduled.symm, invoked.symm, cancelled.symm, ?_⟩
  have after := ok'.balance
  rw [← scheduled, ← invoked, ← cancelled, map_append, map_append, ← Multiset.coe_add,
    ← Multiset.coe_add, ← Multiset.coe_add, ok.balance] at after
  refine add_left_cancel (a := (s.invoked.map Prod.snd : Multiset Callo) +
    (s.cancelled.map Prod.snd : Multiset Callo)) ?_
  calc _ = (new : Multiset Callo) + ((s.invoked.map Prod.snd : Multiset Callo) +
        (s.cancelled.map Prod.snd : Multiset Callo) + s.table.pending) := by abel
    _ = _ := after
    _ = _ := by abel

theorem start_orderly (callout : Nat → Callo) (v_call : Nat) (timeid lbolt : Int) :
    (start callout v_call timeid lbolt).Orderly :=
  ⟨.nil, fun _ called => absurd called not_mem_nil,
    fun _ called => absurd called not_mem_nil⟩

theorem timein_ok (callback : System → Callo → List Event) (fuel : Nat) (ok : s.Ok v_call)
    (returned : timein callback fuel s = some s') :
    s'.Ok v_call ∧ ∀ c ∈ s'.table.pending, s'.table.lbolt < c.c_time := by
  induction fuel generalizing s with
  | zero => exact absurd returned (by simp [timein])
  | succ fuel ih =>
    unfold timein at returned
    split at returned
    · next svcall table turn =>
      obtain ⟨t, ran, rest⟩ := bind_eq_some_iff.mp returned
      have called := turn_ok ok turn
      exact ih (exec_preserves _ (fun s e t ok taken => step_ok ok e taken) called ran) rest
    · next ends =>
      cases returned
      refine ⟨ok, ?_⟩
      rcases timein_turn_spec ok.table with ⟨-, none_due⟩ | ⟨c, t, turn, -⟩
      · exact none_due
      · exact absurd (ends.symm.trans turn) (by simp)

/-- At the end of every run the table is a heap, each scheduled entry is called or cancelled once or
pending, and the next call does what it should. -/
theorem callouts_exact {callout : Nat → Callo} {timeid lbolt : Int} {events : List Event}
    (run : exec step (start callout v_call timeid lbolt) events = some s) :
    Heap Callo.c_time s.table.callout s.table.entries ∧ s.table.entries ≤ v_call ∧
      (s.scheduled : Multiset Callo) =
        (s.invoked.map Prod.snd : Multiset Callo) + (s.cancelled.map Prod.snd : Multiset Callo) +
          s.table.pending ∧
      (∀ e ∈ s.invoked, e.2.c_time ≤ e.1) ∧ (∀ e ∈ s.cancelled, e.2.c_id = e.1) ∧
      (∀ c table, timein_turn s.table = some (c, table) →
        c.c_time ≤ s.table.lbolt ∧ (∀ d ∈ s.table.pending, c.c_time ≤ d.c_time) ∧
          s.table.pending = c ::ₘ table.pending) ∧
      (∀ callback fuel s', timein callback fuel s = some s' →
        (∀ c ∈ s'.table.pending, s'.table.lbolt < c.c_time) ∧
        ∃ new called gone, s'.scheduled = new ++ s.scheduled ∧ s'.invoked = called ++ s.invoked ∧
          s'.cancelled = gone ++ s.cancelled ∧
          (s.table.pending + new : Multiset Callo) =
            (called.map Prod.snd : Multiset Callo) + (gone.map Prod.snd : Multiset Callo) +
              s'.table.pending) ∧
      (∀ callback inv budget, Sparing callback inv budget → inv s →
        ∃ fuel s', timein callback fuel s = some s') ∧
      ((∀ e ∈ events, e.Ahead) → s.InTurn ∧
        ∀ callback fuel s', (∀ t c, ∀ e ∈ callback t c, e.Ahead) →
          timein callback fuel s = some s' → s'.InTurn) ∧
      ∀ id, ((∀ c ∈ s.table.pending, c.c_id ≠ id) → untimeout s.table id = (s.table, -1)) ∧
        ((∃ c ∈ s.table.pending, c.c_id = id) → ∃ c, c.c_id = id ∧
          s.table.pending = c ::ₘ (untimeout s.table id).1.pending) := by
  have ok : s.Ok v_call := exec_ok (start_ok callout v_call timeid lbolt) run
  refine ⟨ok.table.order, ?_, ok.balance, ok.due, ok.named, ?_, ?_, ?_, ?_, ?_⟩
  · have room := ok.table.room
    have entries := entries_eq ok.table
    have size := ok.size
    omega
  · intro c table turn
    rcases timein_turn_spec ok.table with ⟨ends, -⟩ | ⟨d, t, turn', due, first, pending, -⟩
    · exact absurd (turn.symm.trans ends) (by simp)
    · obtain ⟨rfl, rfl⟩ := Prod.mk.inj (some.inj (turn.symm.trans turn'))
      refine ⟨due, fun d mem => ?_, pending⟩
      rw [pending] at mem
      rcases Multiset.mem_cons.mp mem with rfl | left_over
      · exact le_refl _
      · exact first d left_over
  · intro callback fuel s' returned
    obtain ⟨ok', none_due⟩ := timein_ok callback fuel ok returned
    obtain ⟨more, ran, -⟩ := timein_run returned
    exact ⟨none_due, (exec_extends ran).balance ok ok'⟩
  · intro callback inv budget sparing holds
    exact ⟨_, timein_returns sparing ok holds⟩
  · intro ahead
    have orderly := exec_orderly (start_ok callout v_call timeid lbolt)
      (start_orderly callout v_call timeid lbolt) ahead run
    refine ⟨orderly.in_turn, fun callback fuel s' callbacks returned => ?_⟩
    obtain ⟨more, ran, from_callbacks⟩ := timein_run returned
    refine (exec_orderly ok orderly (fun e mem => ?_) ran).in_turn
    rcases from_callbacks e mem with rfl | ⟨t, c, mem⟩
    · trivial
    · exact callbacks t c e mem
  · intro id
    rcases untimeout_spec ok.table id with
      ⟨absent, nothing⟩ | ⟨f, below, -, same_id, pending, -⟩
    · exact ⟨fun _ => nothing, fun ⟨c, mem, same⟩ => absurd same (absent c mem)⟩
    · have entries := entries_eq ok.table
      have mem : s.table.callout f ∈ s.table.pending := mem_contents.mpr ⟨f, by omega, rfl⟩
      exact ⟨fun absent => absurd same_id (absent _ mem), fun _ => ⟨_, same_id, pending⟩⟩

end Runs

/-- A callback that asks to be called again, some ticks later. -/
def again (tim : Int) (_ : System) (c : Callo) : List Event := [.timeout c.c_func c.c_arg tim]

theorem again_sparing (v_call : Nat) {tim : Int} (later : 0 < tim) :
    Sparing (again tim) (System.Ok v_call) fun _ => 0 := by
  intro s c table ok taken called
  have ok' : called.Ok v_call := turn_ok ok taken
  have fewer : table.calllimit = s.table.calllimit - 1 := by
    unfold timein_turn at taken
    split at taken
    · dsimp only at taken
      split at taken <;> cases taken <;> rfl
    · exact absurd taken (by simp)
  have room : called.table.calllimit + 1 ≠ called.table.v_call := by
    have before := ok.table.room
    have size := ok.size
    have size' := ok'.size
    show table.calllimit + 1 ≠ _
    omega
  obtain ⟨⟨table', id⟩, added⟩ : ∃ added, timeout called.table c.c_func c.c_arg tim = some added := by
    unfold timeout
    rw [if_neg room]
    exact ⟨_, rfl⟩
  refine ⟨_, exec_cons_eq_some.mpr ⟨_, map_eq_some_iff.mpr ⟨_, added, rfl⟩, rfl⟩,
    timeout_ok ok' added, ?_⟩
  obtain ⟨-, lbolt, -, pending⟩ := timeout_spec ok'.table added
  unfold System.due
  rw [pending, lbolt, Multiset.countP_cons_of_neg]
  dsimp only
  omega

/-- Two callouts, of which the second is due first, and `timein` when it is. -/
theorem two_callouts_exact : ∃ s fuel s',
    exec step (start (fun _ => ⟨0, 0, 0, 0⟩) 2 0 0) [.timeout 1 0 5, .timeout 2 0 1, .tick] =
      some s ∧ timein (again 3) fuel s = some s' ∧ s'.InTurn ∧
      Heap Callo.c_time s.table.callout s.table.entries := by
  have ran := show (exec step (start (fun _ => ⟨0, 0, 0, 0⟩) 2 0 0)
    [.timeout 1 0 5, .timeout 2 0 1, .tick]).isSome = true by decide +kernel
  obtain ⟨s, run⟩ := isSome_iff_exists.mp ran
  have ok : s.Ok 2 := exec_ok (start_ok _ 2 0 0) run
  obtain ⟨heap, -, -, -, -, -, -, returns, in_turn, -⟩ := callouts_exact run
  obtain ⟨fuel, s', returned⟩ := returns (again 3) (System.Ok 2) _ (again_sparing 2 (by decide)) ok
  have ahead : ∀ e ∈ [Event.timeout 1 0 5, .timeout 2 0 1, .tick], e.Ahead := by
    simp [Event.Ahead]
  have kept := (in_turn ahead).2 (again 3) fuel s' (by simp [again, Event.Ahead]) returned
  exact ⟨s, fuel, s', run, returned, kept, heap⟩

end Callout
