import Svr4.Futex.Waits

/- How a wait ends: the flags of a waiter, the callouts that refer to it, and the record
   of what the wakes counted and the waits returned. -/
namespace Futex
open Function List Option
variable {s t : Kernel} {l : Label} {p r : Proc} {q q' v w k : Nat} {waiter : FutexWaiter} {pc : Pc}

def FutexWaiter.pending (waiter : FutexWaiter) : Prop :=
  waiter.woken = false ∧ waiter.timed_out = false

/-- Pending callouts refer to linked waiters, one callout a waiter. -/
structure Armed (s : Kernel) : Prop where
  linked : ∀ e ∈ s.callout, ∀ w, e.c_arg = some w → w ∈ s.futex_waiters
  own : ∀ e ∈ s.callout, ∀ w waiter, e.c_arg = some w → s.waiters w = some waiter →
    e.c_id = waiter.timeout_id ∧ waiter.timed_out = false
  once : (s.callout.filterMap Callo.c_arg).Nodup

def PlaceOk (waiters : Nat → Option FutexWaiter) : Pc → Prop
  | .enqueuing w _ _ | .calling w => ∀ waiter, waiters w = some waiter → waiter.pending
  | .finishing w error => ∀ waiter, waiters w = some waiter → error = none ∧ ¬ waiter.pending
  | .freeing w error => ∀ waiter, waiters w = some waiter → (error = none ↔ waiter.woken = true)
  | _ => True

structure Flags (s : Kernel) : Prop where
  places : ∀ q p, s.procs q = some p → PlaceOk s.waiters p.pc
  asleep : ∀ q w waiter, s.asleep q w → s.waiters w = some waiter → waiter.pending
  one : ∀ w waiter, s.waiters w = some waiter → waiter.woken = true → waiter.timed_out = false

/-- Waits are numbered in order, counted when their flag is set, and what they returned agrees with
that. -/
structure Ledger (s : Kernel) : Prop where
  known : ∀ w waiter, s.waiters w = some waiter → waiter.serial < s.serials
  distinct : ∀ v w waiter waiter', s.waiters v = some waiter → s.waiters w = some waiter' →
    waiter.serial = waiter'.serial → v = w
  woken : ∀ w waiter, s.waiters w = some waiter → (waiter.serial ∈ s.counted ↔ waiter.woken = true)
  past : ∀ n ∈ s.counted, n < s.serials
  returned : ∀ n e, (n, e) ∈ s.returned → n < s.serials ∧ (e = none ↔ n ∈ s.counted) ∧
    ∀ w waiter, s.waiters w = some waiter → waiter.serial ≠ n
  accounted : ∀ n ∈ s.counted, (∃ e, (n, e) ∈ s.returned) ∨
    ∃ w waiter, s.waiters w = some waiter ∧ waiter.serial = n
  counted_once : s.counted.Nodup
  returned_once : (s.returned.map Prod.fst).Nodup

/-! Steps that leave the waits alone -/

theorem Armed.sub (armed : Armed s) (callout : t.callout.Sublist s.callout)
    (queue : t.futex_waiters = s.futex_waiters) (waiters : t.waiters = s.waiters) : Armed t := by
  cases t
  subst queue waiters
  exact ⟨fun e pending => armed.linked e (callout.subset pending),
    fun e pending => armed.own e (callout.subset pending), armed.once.sublist (callout.filterMap _)⟩

theorem placeOk_of_idle (waiters : Nat → Option FutexWaiter) (idle : pc.busy = false) :
    PlaceOk waiters pc := by
  cases pc <;> simp_all [PlaceOk, Pc.busy]

theorem busy_waiter (busy : pc.busy = true) : ∃ w, pc.waiter = some w := by
  cases pc <;> simp_all [Pc.waiter, Pc.busy]

theorem PlaceOk.congr {old new : Nat → Option FutexWaiter} (ok : PlaceOk old pc)
    (same : ∀ w, pc.waiter = some w → ∀ a, new w = some a → ∃ b, old w = some b ∧ a.woken = b.woken
      ∧ a.timed_out = b.timed_out) : PlaceOk new pc := by
  cases pc with
  | enqueuing w expected ticks | calling w =>
    intro a there
    obtain ⟨b, there', woken, timed_out⟩ := same w rfl a there
    obtain ⟨h1, h2⟩ := ok b there'
    exact ⟨woken.trans h1, timed_out.trans h2⟩
  | finishing w error =>
    intro a there
    obtain ⟨b, there', woken, timed_out⟩ := same w rfl a there
    obtain ⟨h1, h2⟩ := ok b there'
    exact ⟨h1, fun ⟨h3, h4⟩ => h2 ⟨woken ▸ h3, timed_out ▸ h4⟩⟩
  | freeing w error =>
    intro a there
    obtain ⟨b, there', woken, -⟩ := same w rfl a there
    rw [woken]
    exact ok b there'
  | _ => trivial

theorem Flags.of_same (flags : Flags s) (same : Same s t) : Flags t := by
  constructor
  · intro q p found
    rw [same.waiters]
    cases busy : p.pc.busy with
    | false => exact placeOk_of_idle _ busy
    | true =>
      obtain ⟨w, own⟩ := busy_waiter busy
      obtain ⟨c, there, here⟩ := (same.at_waiter q p.pc w own).mp ⟨p, found, rfl⟩
      rw [← here]
      exact flags.places q c there
  · intro q w waiter slept found
    exact flags.asleep q w waiter (same.asleep q w slept) (same.waiters ▸ found)
  · rw [same.waiters]
    exact flags.one

theorem Ledger.of_eq (ledger : Ledger s) (waiters : t.waiters = s.waiters)
    (history : t.serials = s.serials ∧ t.counted = s.counted ∧ t.returned = s.returned) :
    Ledger t := by
  cases t
  obtain ⟨rfl, rfl, rfl⟩ := history
  subst waiters
  exact { ledger with }

theorem Ledger.mark (ledger : Ledger s) (new : FutexWaiter) (found : s.waiters w = some waiter)
    (serial : new.serial = waiter.serial) (flag : new.woken = waiter.woken)
    (waiters : t.waiters = update s.waiters w (some new))
    (history : t.serials = s.serials ∧ t.counted = s.counted ∧ t.returned = s.returned) :
    Ledger t := by
  cases t
  obtain ⟨rfl, rfl, rfl⟩ := history
  subst waiters
  have old : ∀ v a, update s.waiters w (some new) v = some a →
      ∃ b, s.waiters v = some b ∧ a.serial = b.serial ∧ a.woken = b.woken := by
    intro v a there
    by_cases same : v = w
    · subst same
      rw [update_self] at there
      cases there
      exact ⟨waiter, found, serial, flag⟩
    · rw [update_of_ne same] at there
      exact ⟨a, there, rfl, rfl⟩
  refine { ledger with known := ?_, distinct := ?_, woken := ?_, returned := ?_, accounted := ?_ }
  · intro v a there
    obtain ⟨b, there', same, -⟩ := old v a there
    rw [same]
    exact ledger.known v b there'
  · intro v v' a a' there there' equal
    obtain ⟨b, hb, same, -⟩ := old v a there
    obtain ⟨b', hb', same', -⟩ := old v' a' there'
    exact ledger.distinct v v' b b' hb hb' (same ▸ same' ▸ equal)
  · intro v a there
    obtain ⟨b, hb, same, flag⟩ := old v a there
    rw [same, flag]
    exact ledger.woken v b hb
  · intro n e listed
    obtain ⟨bound, agrees, apart⟩ := ledger.returned n e listed
    refine ⟨bound, agrees, fun v a there => ?_⟩
    obtain ⟨b, hb, same, -⟩ := old v a there
    rw [same]
    exact apart v b hb
  · refine fun n listed => (ledger.accounted n listed).imp_right fun live => ?_
    obtain ⟨v, b, hb, number⟩ := live
    by_cases same : v = w
    · subst same
      obtain rfl := some.inj (found.symm.trans hb)
      exact ⟨v, new, update_self _ _ _, serial.trans number⟩
    · exact ⟨v, b, (update_of_ne same _ _).trans hb, number⟩

/-! Steps of the history -/

theorem Ledger.serial_not_returned (ledger : Ledger s) (found : s.waiters w = some waiter) :
    waiter.serial ∉ s.returned.map Prod.fst := by
  intro listed
  obtain ⟨⟨n, e⟩, listed, rfl⟩ := mem_map.mp listed
  exact (ledger.returned _ e listed).2.2 w waiter found rfl

theorem Ledger.refuse (ledger : Ledger s) (e : Errno) (waiters : t.waiters = s.waiters)
    (serials : t.serials = s.serials + 1) (counted : t.counted = s.counted)
    (returned : t.returned = s.returned ++ [(s.serials, some e)]) : Ledger t := by
  cases t
  subst waiters serials counted returned
  refine { ledger with known := ?_, past := ?_, returned := ?_, accounted := ?_, returned_once := ?_ }
  · exact fun w waiter found => Nat.lt_succ_of_lt (ledger.known w waiter found)
  · exact fun n listed => Nat.lt_succ_of_lt (ledger.past n listed)
  · intro n e' listed
    rw [mem_append, mem_singleton] at listed
    rcases listed with old | new
    · obtain ⟨bound, rest⟩ := ledger.returned n e' old
      exact ⟨Nat.lt_succ_of_lt bound, rest⟩
    · obtain ⟨rfl, rfl⟩ := Prod.mk.inj new
      have uncounted : s.serials ∉ s.counted := fun listed => (ledger.past _ listed).false
      exact ⟨Nat.lt_succ_self _, by simp [uncounted], fun w waiter found =>
        (ledger.known w waiter found).ne⟩
  · exact fun n listed =>
      (ledger.accounted n listed).imp_left (Exists.imp fun e' done => mem_append_left _ done)
  · have fresh : s.serials ∉ s.returned.map Prod.fst := by
      intro listed
      obtain ⟨⟨n, e'⟩, listed, rfl⟩ := mem_map.mp listed
      exact (ledger.returned _ e' listed).1.false
    rw [map_append, map_singleton, ← concat_eq_append]
    exact ledger.returned_once.concat fresh

theorem Ledger.zalloc (ledger : Ledger s) (fresh : s.waiters w = none)
    (number : waiter.serial = s.serials) (flag : waiter.woken = false)
    (waiters : t.waiters = update s.waiters w (some waiter))
    (serials : t.serials = s.serials + 1) (counted : t.counted = s.counted)
    (returned : t.returned = s.returned) : Ledger t := by
  cases t
  subst waiters serials counted returned
  have cases_of : ∀ v a, update s.waiters w (some waiter) v = some a →
      v = w ∧ a = waiter ∨ s.waiters v = some a := by
    intro v a there
    by_cases same : v = w
    · subst same
      rw [update_self] at there
      exact .inl ⟨rfl, (some.inj there).symm⟩
    · rw [update_of_ne same] at there
      exact .inr there
  have uncounted : s.serials ∉ s.counted := fun listed => (ledger.past _ listed).false
  refine { ledger with
    known := ?_, distinct := ?_, woken := ?_, past := ?_, returned := ?_, accounted := ?_ }
  · intro v a there
    rcases cases_of v a there with ⟨-, rfl⟩ | old
    · exact Nat.lt_succ_of_le number.le
    · exact Nat.lt_succ_of_lt (ledger.known v a old)
  · intro v v' a a' there there' equal
    rcases cases_of v a there with ⟨rfl, rfl⟩ | old <;>
      rcases cases_of v' a' there' with ⟨rfl, rfl⟩ | old'
    · rfl
    · have := ledger.known v' a' old'
      omega
    · have := ledger.known v a old
      omega
    · exact ledger.distinct v v' a a' old old' equal
  · intro v a there
    rcases cases_of v a there with ⟨-, rfl⟩ | old
    · simp [number, flag, uncounted]
    · exact ledger.woken v a old
  · exact fun n listed => Nat.lt_succ_of_lt (ledger.past n listed)
  · intro n e listed
    obtain ⟨bound, agrees, apart⟩ := ledger.returned n e listed
    refine ⟨Nat.lt_succ_of_lt bound, agrees, fun v a there => ?_⟩
    rcases cases_of v a there with ⟨-, rfl⟩ | old
    · omega
    · exact apart v a old
  · refine fun n listed => (ledger.accounted n listed).imp_right fun live => ?_
    obtain ⟨v, b, old, number⟩ := live
    have other : v ≠ w := by
      rintro rfl
      simp [fresh] at old
    exact ⟨v, b, (update_of_ne other _ _).trans old, number⟩

theorem Ledger.count (ledger : Ledger s) (found : s.waiters w = some waiter)
    (unwoken : waiter.woken = false)
    (waiters : t.waiters = update s.waiters w (some { waiter with woken := true }))
    (serials : t.serials = s.serials) (counted : t.counted = s.counted ++ [waiter.serial])
    (returned : t.returned = s.returned) : Ledger t := by
  cases t
  subst waiters serials counted returned
  have uncounted : waiter.serial ∉ s.counted := by
    rw [ledger.woken w waiter found, unwoken]
    simp
  have cases_of : ∀ v a, update s.waiters w (some { waiter with woken := true }) v = some a →
      v = w ∧ a = { waiter with woken := true } ∨ v ≠ w ∧ s.waiters v = some a := by
    intro v a there
    by_cases same : v = w
    · subst same
      rw [update_self] at there
      exact .inl ⟨rfl, (some.inj there).symm⟩
    · rw [update_of_ne same] at there
      exact .inr ⟨same, there⟩
  refine { ledger with
    known := ?_, distinct := ?_, woken := ?_, past := ?_, returned := ?_, accounted := ?_
    counted_once := ?_ }
  · intro v a there
    rcases cases_of v a there with ⟨-, rfl⟩ | ⟨-, old⟩
    · exact ledger.known w waiter found
    · exact ledger.known v a old
  · intro v v' a a' there there' equal
    rcases cases_of v a there with ⟨rfl, rfl⟩ | ⟨-, old⟩ <;>
      rcases cases_of v' a' there' with ⟨rfl, rfl⟩ | ⟨-, old'⟩
    · rfl
    · exact ledger.distinct _ _ _ _ found old' equal
    · exact ledger.distinct _ _ _ _ old found equal
    · exact ledger.distinct _ _ _ _ old old' equal
  · intro v a there
    rw [mem_append, mem_singleton]
    rcases cases_of v a there with ⟨-, rfl⟩ | ⟨other, old⟩
    · simp
    · have apart : a.serial ≠ waiter.serial :=
        fun equal => other (ledger.distinct v w a waiter old found equal)
      simp [apart, ledger.woken v a old]
  · intro n listed
    rw [mem_append, mem_singleton] at listed
    rcases listed with old | rfl
    · exact ledger.past n old
    · exact ledger.known w waiter found
  · intro n e listed
    obtain ⟨bound, agrees, apart⟩ := ledger.returned n e listed
    have other : n ≠ waiter.serial := fun same => apart w waiter found same.symm
    refine ⟨bound, by simp [agrees, other], fun v a there => ?_⟩
    rcases cases_of v a there with ⟨-, rfl⟩ | ⟨-, old⟩
    · exact apart w waiter found
    · exact apart v a old
  · intro n listed
    rw [mem_append, mem_singleton] at listed
    rcases listed with old | rfl
    · refine (ledger.accounted n old).imp_right fun live => ?_
      obtain ⟨v, b, there, number⟩ := live
      by_cases same : v = w
      · subst same
        obtain rfl := some.inj (found.symm.trans there)
        exact ⟨v, _, update_self _ _ _, number⟩
      · exact ⟨v, b, (update_of_ne same _ _).trans there, number⟩
    · exact .inr ⟨w, _, update_self _ _ _, rfl⟩
  · rw [← concat_eq_append]
    exact ledger.counted_once.concat uncounted

theorem Ledger.free {error : Option Errno} (ledger : Ledger s) (found : s.waiters w = some waiter)
    (decided : error = none ↔ waiter.woken = true)
    (waiters : t.waiters = update s.waiters w none) (serials : t.serials = s.serials)
    (counted : t.counted = s.counted)
    (returned : t.returned = s.returned ++ [(waiter.serial, error)]) : Ledger t := by
  cases t
  subst waiters serials counted returned
  have old : ∀ v a, update s.waiters w none v = some a → v ≠ w ∧ s.waiters v = some a := by
    intro v a there
    by_cases same : v = w
    · simp [same] at there
    · rw [update_of_ne same] at there
      exact ⟨same, there⟩
  refine { ledger with
    known := fun v a there => ledger.known v a (old v a there).2
    distinct := fun v v' a a' there there' =>
      ledger.distinct v v' a a' (old v a there).2 (old v' a' there').2
    woken := fun v a there => ledger.woken v a (old v a there).2
    returned := ?_, accounted := ?_, returned_once := ?_ }
  · intro n e listed
    rw [mem_append, mem_singleton] at listed
    rcases listed with past | new
    · obtain ⟨bound, agrees, apart⟩ := ledger.returned n e past
      exact ⟨bound, agrees, fun v a there => apart v a (old v a there).2⟩
    · obtain ⟨rfl, rfl⟩ := Prod.mk.inj new
      refine ⟨ledger.known w waiter found, decided.trans (ledger.woken w waiter found).symm, ?_⟩
      intro v a there equal
      obtain ⟨other, there⟩ := old v a there
      exact other (ledger.distinct v w a waiter there found equal)
  · intro n listed
    rcases ledger.accounted n listed with ⟨e, done⟩ | ⟨v, b, there, number⟩
    · exact .inl ⟨e, mem_append_left _ done⟩
    · by_cases same : v = w
      · subst same
        obtain rfl := some.inj (found.symm.trans there)
        exact .inl ⟨error, by simp [number]⟩
      · exact .inr ⟨v, b, (update_of_ne same _ _).trans there, number⟩
  · rw [map_append, map_singleton, ← concat_eq_append]
    exact ledger.returned_once.concat (ledger.serial_not_returned found)

end Futex
