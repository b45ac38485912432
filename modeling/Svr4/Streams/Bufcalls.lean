import Mathlib.Algebra.Order.Group.Multiset
import Mathlib.Data.Multiset.Range
import Mathlib.Tactic.Abel
import Svr4.Runs
import Svr4.TailedLists

/- os/strsubr.c, io/stream.c: the requests that wait for memory, and the pass of `queuerun` over
   them. The functions that it calls may add and cancel requests. -/
namespace Bufcalls
open Function LabelledRuns TailedLists List Option

/-- A stream event as `bufcall` uses it. Its serial number is kept for the record. -/
structure Strevent where
  se_func : Nat
  se_arg : Int
  se_size : Int
  serial : Nat
  deriving DecidableEq

def setrun : Nat := 0

/-- In the loop `nevent` turns are left; `calling` is in the function of an event. -/
inductive Pass
  | outside
  | turning (count : Int) (nevent : Nat)
  | calling (sep : Nat) (count : Int) (nevent : Nat)
  deriving DecidableEq

/-- `called`, `cancelled` and `turns` are a record: the events called, cancelled, and those that had
their turn, with whether they fitted. -/
structure Kernel where
  events : Nat → Option Strevent
  se_next : Nat → Option Nat
  bc_head : Option Nat
  bc_tail : Option Nat
  strbcwait : Bool
  strbcflag : Bool
  pass : Pass
  serials : Nat
  called : Multiset Nat
  cancelled : Multiset Nat
  turns : List (Nat × Bool)

/-- `esbbcall` is `bufcall` with the size -1. A loop that does not end in `rounds` does not end
here. -/
inductive Label
  | kmem_free
  | start (count : Int) (nevent : Nat)
  | turn
  | bufcall (sep se_func : Nat) (se_arg se_size : Int)
  | unbufcall (id rounds : Nat)
  | strunbcall (size p : Int) (rounds : Nat)
  | returned

/-- `for (sep = bc_head; sep; sep = sep->se_next) nevent++;` makes `n`. -/
def counts (se_next : Nat → Option Nat) : Nat → Option Nat → Bool
  | 0, none => true
  | n + 1, some sep => counts se_next n (se_next sep)
  | _, _ => false

namespace Kernel

def ends (s : Kernel) : Ends := ⟨s.se_next, s.bc_head, s.bc_tail⟩

def setEnds (s : Kernel) (e : Ends) : Kernel :=
  { s with se_next := e.next, bc_head := e.head, bc_tail := e.tail }

def serial (s : Kernel) (sep : Nat) : Nat := (s.events sep).elim 0 Strevent.serial

def bufcall (s : Kernel) (sep : Nat) (se_func : Nat) (se_arg se_size : Int) : Kernel :=
  { s.setEnds (enqueue s.ends sep) with
    events := update s.events sep (some ⟨se_func, se_arg, se_size, s.serials⟩)
    serials := s.serials + 1
    strbcwait := true }

def sefree (s : Kernel) (sep : Nat) : Kernel :=
  { s with events := update s.events sep none }

def cancel (s : Kernel) (found : Nat → Bool) (rounds : Nat) : Option Kernel :=
  (search found s.se_next rounds none s.bc_head).map fun hit =>
    match hit with
    | none => s
    | some (psep, sep) =>
        { (s.setEnds (unlink s.ends psep sep)).sefree sep with
          cancelled := s.serial sep ::ₘ s.cancelled }

def unbufcall (s : Kernel) (id rounds : Nat) : Option Kernel :=
  s.cancel (fun sep => id == sep) rounds

def strunbcall (s : Kernel) (size p : Int) (rounds : Nat) : Option Kernel :=
  s.cancel (fun sep => (s.events sep).any fun event =>
    event.se_arg == p && event.se_func == setrun && event.se_size == size) rounds

/-- An event that is too big goes from the head to the tail. -/
def rotate (s : Kernel) (sep : Nat) : Kernel :=
  let se_next := update s.se_next sep none
  { s with
    bc_head := s.se_next sep
    se_next :=
      match s.bc_tail with
      | some tail => update se_next tail (some sep)
      | none => se_next
    bc_tail := some sep }

def finish (s : Kernel) : Kernel :=
  { s with
    strbcwait := if s.bc_head = none then s.strbcwait else true
    bc_tail := if s.bc_head = none then none else s.bc_tail
    pass := .outside }

def turn (s : Kernel) (count : Int) : Nat → Option Kernel
  | 0 => some s.finish
  | nevent + 1 =>
      match s.bc_head with
      | none => some s.finish
      | some sep =>
          (s.events sep).map fun event =>
            if event.se_size ≤ count then
              { s with
                bc_head := s.se_next sep
                called := event.serial ::ₘ s.called
                turns := (event.serial, true) :: s.turns
                pass := .calling sep count nevent }
            else
              { s.rotate sep with
                turns := (event.serial, false) :: s.turns
                pass := .turning count nevent }

/-- Requests come at any time but between the turns, where interrupts are off. -/
def step (s : Kernel) : Label → Option Kernel
  | .kmem_free => some { s with strbcflag := s.strbcflag || s.strbcwait }
  | .start count nevent =>
      if s.pass = .outside ∧ s.strbcflag ∧ counts s.se_next nevent s.bc_head then
        some { s with strbcwait := false, strbcflag := false, pass := .turning count nevent }
      else none
  | .turn =>
      match s.pass with
      | .turning count nevent => s.turn count nevent
      | _ => none
  | .bufcall sep se_func se_arg se_size =>
      match s.pass with
      | .turning .. => none
      | _ => if s.events sep = none then some (s.bufcall sep se_func se_arg se_size) else none
  | .unbufcall id rounds =>
      match s.pass with
      | .turning .. => none
      | _ => s.unbufcall id rounds
  | .strunbcall size p rounds =>
      match s.pass with
      | .turning .. => none
      | _ => s.strunbcall size p rounds
  | .returned =>
      match s.pass with
      | .calling sep count nevent => some { s.sefree sep with pass := .turning count nevent }
      | _ => none

end Kernel

/-- Between two passes the list is proper, of just the events added and neither called nor
cancelled, each once; what fitted at its turn has been called once; `kmem_free` is told of what
waits. -/
def Settled (s : Kernel) : Prop :=
  ∃ l, Held s.ends l ∧ (∀ sep ∈ l, s.events sep ≠ none) ∧
    ↑(l.map s.serial) + s.called + s.cancelled = Multiset.range s.serials ∧
    (∀ n, (n, true) ∈ s.turns → s.called.count n = 1) ∧
    (l ≠ [] → s.strbcwait = true)

/-- At a turn an event that is too big is not the only one. -/
def Spares (s : Kernel) : Label → Prop
  | .turn =>
      match s.pass with
      | .turning count (_ + 1) =>
          ∀ sep event, s.bc_head = some sep → s.events sep = some event →
            count < event.se_size → s.se_next sep ≠ none
      | _ => True
  | _ => True

/-- The other case of `Spares`. -/
def drops (s : Kernel) : Label → Bool
  | .turn =>
      match s.pass with
      | .turning count (_ + 1) =>
          s.bc_head.any fun sep => (s.events sep).any fun event =>
            decide (count < event.se_size) && (s.se_next sep).isNone
      | _ => false
  | _ => false

theorem spares_iff {s : Kernel} {label : Label} : drops s label = false ↔ Spares s label := by
  unfold drops Spares
  split
  · split
    · next count nevent pass =>
      cases s.bc_head with
      | none => simp
      | some sep =>
        cases known : s.events sep with
        | none =>
          refine iff_of_true (by simp [known]) fun sep' event front known' _ => ?_
          cases front
          cases known.symm.trans known'
        | some event =>
          constructor
          · intro kept sep' event' front known' big
            cases front
            cases known.symm.trans known'
            simpa [known, big, isSome_iff_ne_none] using kept
          · intro spares
            simp only [any_some, known, Bool.and_eq_false_iff, decide_eq_false_iff_not]
            by_cases big : count < event.se_size
            · exact .inr (isNone_eq_false_iff.mpr
                (isSome_iff_ne_none.mpr (spares sep event rfl known big)))
            · exact .inl big
    · simp
  · simp

instance (s : Kernel) (label : Label) : Decidable (Spares s label) := decidable_of_iff _ spares_iff

section
variable {s t : Kernel} {l : List Nat} {lost : Multiset Nat} {label : Label} {labels : List Label}
  {sep : Nat}

/-- The books in the middle of a pass: `lost` has the events neither listed nor called nor
cancelled. -/
structure Sound (s : Kernel) (l : List Nat) (lost : Multiset Nat) : Prop where
  loose : Loose s.ends l
  held : s.pass = .outside → Held s.ends l
  live : ∀ sep ∈ l, s.events sep ≠ none
  calling : ∀ sep count nevent, s.pass = .calling sep count nevent →
    sep ∉ l ∧ s.events sep ≠ none
  balance : ↑(l.map s.serial) + s.called + s.cancelled + lost = Multiset.range s.serials
  fitted : ∀ n, (n, true) ∈ s.turns → n ∈ s.called
  waits : s.pass = .outside → l ≠ [] → s.strbcwait = true

theorem Sound.called_once (sound : Sound s l lost) {n : Nat} (fitted : (n, true) ∈ s.turns) :
    s.called.count n = 1 := by
  have nodup : (↑(l.map s.serial) + s.called + s.cancelled + lost).Nodup := by
    rw [sound.balance]
    exact Multiset.nodup_range _
  have once := Multiset.nodup_iff_count_le_one.mp nodup n
  rw [Multiset.count_add, Multiset.count_add, Multiset.count_add] at once
  have some := Multiset.count_pos.mpr (sound.fitted n fitted)
  omega

theorem Settled.sound (settled : Settled s) (outside : s.pass = .outside) : ∃ l, Sound s l 0 := by
  obtain ⟨l, held, live, balance, fitted, waits⟩ := settled
  refine ⟨l, .inl held, fun _ => held, live, fun sep count nevent calling => ?_, ?_,
    fun n mem => ?_, fun _ => waits⟩
  · rw [outside] at calling
    cases calling
  · rw [add_zero, balance]
  · exact Multiset.count_pos.mp (by rw [fitted n mem]; exact Nat.one_pos)

theorem Sound.settled_iff (sound : Sound s l lost) (outside : s.pass = .outside) :
    Settled s ↔ lost = 0 := by
  constructor
  · rintro ⟨l', held, -, balance, -, -⟩
    obtain rfl : l' = l := NextChains.Path.unique held.path sound.loose.path
    have whole := sound.balance
    rw [balance] at whole
    exact left_eq_add.mp whole.symm
  · rintro rfl
    have balance := sound.balance
    rw [add_zero] at balance
    exact ⟨l, sound.held outside, sound.live, balance, fun n => sound.called_once,
      sound.waits outside⟩

theorem map_serial {events : Nat → Option Strevent} (off : sep ∉ l)
    (same : ∀ k, k ≠ sep → events k = s.events k) :
    (l.map fun k => (events k).elim 0 Strevent.serial) = l.map s.serial := by
  apply map_congr_left
  intro k mem
  have apart : k ≠ sep := by
    rintro rfl
    exact off mem
  rw [same k apart]
  rfl

theorem Sound.bufcall {se_func : Nat} {se_arg se_size : Int} (sound : Sound s l lost)
    (free : s.events sep = none) :
    Sound (s.bufcall sep se_func se_arg se_size) (l ++ [sep]) lost := by
  have off : sep ∉ l := fun mem => sound.live sep mem free
  have held := sound.loose.enqueue off
  have others : ∀ k, k ≠ sep → update s.events sep
      (some ⟨se_func, se_arg, se_size, s.serials⟩) k = s.events k :=
    fun k apart => update_of_ne apart _ _
  constructor
  · exact .inl held
  · exact fun _ => held
  · intro k mem
    show update s.events sep _ k ≠ none
    by_cases here : k = sep
    · rw [here, update_self]
      exact nofun
    · rw [update_of_ne here]
      refine sound.live k ((mem_append.mp mem).resolve_right fun last => ?_)
      exact here (mem_singleton.mp last)
  · intro k count nevent calling
    obtain ⟨off', live⟩ := sound.calling k count nevent calling
    have apart : k ≠ sep := by
      rintro rfl
      exact live free
    refine ⟨by simp [off', apart], ?_⟩
    show update s.events sep _ k ≠ none
    rw [update_of_ne apart]
    exact live
  · have serials : (l ++ [sep]).map (s.bufcall sep se_func se_arg se_size).serial =
        l.map s.serial ++ [s.serials] := by
      rw [map_append]
      congr 1
      · exact map_serial off others
      · show [(update s.events sep _ sep).elim 0 Strevent.serial] = _
        rw [update_self]
        rfl
    rw [serials]
    show _ + s.called + s.cancelled + lost = Multiset.range (s.serials + 1)
    rw [Multiset.range_succ, ← sound.balance, ← Multiset.coe_add, Multiset.coe_singleton,
      ← Multiset.singleton_add]
    abel
  · exact sound.fitted
  · exact fun _ _ => rfl

theorem Sound.cancel {found : Nat → Bool} {rounds : Nat} (sound : Sound s l lost)
    (cancelled : s.cancel found rounds = some t) : ∃ l, Sound t l lost := by
  obtain ⟨hit, searched, rfl⟩ := map_eq_some_iff.mp cancelled
  have head : s.bc_head = l.head? := sound.loose.head_eq
  rw [head] at searched
  have path : NextChains.Path s.ends.next s.ends.head ([] ++ l) := sound.loose.path
  rcases search_hit [] found path searched with
    rfl | ⟨us, sep, vs, rfl, rfl⟩
  · exact ⟨l, sound⟩
  rw [nil_append]
  have held := sound.loose.unlink
  have nodup := sound.loose.nodup
  have off : sep ∉ us ++ vs := by
    have := nodup_middle.mp nodup
    exact (nodup_cons.mp this).1
  have others : ∀ k, k ≠ sep → update s.events sep none k = s.events k :=
    fun k apart => update_of_ne apart _ _
  have part : ∀ k ∈ us ++ vs, k ∈ us ++ sep :: vs := by
    intro k mem
    rcases mem_append.mp mem with early | late
    · exact mem_append_left _ early
    · exact mem_append_right _ (mem_cons_of_mem _ late)
  refine ⟨us ++ vs, .inl held, fun _ => held, fun k mem => ?_, fun k count nevent calling => ?_,
    ?_, sound.fitted, fun outside some => ?_⟩
  · show update s.events sep none k ≠ none
    have apart : k ≠ sep := by
      rintro rfl
      exact off mem
    rw [others k apart]
    exact sound.live k (part k mem)
  · obtain ⟨off', live⟩ := sound.calling k count nevent calling
    have apart : k ≠ sep := by
      rintro rfl
      simp at off'
    refine ⟨fun mem => off' (part k mem), ?_⟩
    show update s.events sep none k ≠ none
    rw [others k apart]
    exact live
  · show ↑((us ++ vs).map fun k => (update s.events sep none k).elim 0
      Strevent.serial) + s.called + (s.serial sep ::ₘ s.cancelled) + lost =
        Multiset.range s.serials
    rw [map_serial off others]
    have balance := sound.balance
    have middle : (((us ++ sep :: vs).map s.serial : List Nat) : Multiset Nat) =
        {s.serial sep} + ((us ++ vs).map s.serial : List Nat) := by
      rw [Multiset.singleton_add, Multiset.cons_coe, Multiset.coe_eq_coe, ← map_cons]
      exact Perm.map _ perm_middle
    rw [middle] at balance
    rw [← Multiset.singleton_add, ← balance]
    abel
  · refine sound.waits outside fun nil => ?_
    simp at nil

theorem Sound.finish (sound : Sound s l lost) : Sound s.finish l lost := by
  have head : s.bc_head = l.head? := sound.loose.head_eq
  have held : Held s.finish.ends l := by
    unfold Kernel.finish Kernel.ends
    by_cases empty : s.bc_head = none
    · rw [empty] at head
      obtain rfl : l = [] := by
        cases l with
        | nil => rfl
        | cons x l => cases head
      rw [if_pos empty, empty]
      exact held_nil
    · rw [if_neg empty]
      rcases sound.loose with held | ⟨empty', -⟩
      · exact held
      · exact absurd empty' empty
  refine ⟨.inl held, fun _ => held, sound.live, nofun, sound.balance, sound.fitted,
    fun _ some => ?_⟩
  show (if s.bc_head = none then s.strbcwait else true) = true
  have waiting : s.bc_head ≠ none := by
    rw [head]
    cases l with
    | nil => exact absurd rfl some
    | cons x l => exact nofun
  rw [if_neg waiting]

theorem Sound.balance_cons (sound : Sound s (sep :: l) lost) :
    (l.map s.serial : Multiset Nat) + {s.serial sep} + s.called + s.cancelled + lost =
      Multiset.range s.serials := by
  have balance := sound.balance
  rw [map_cons, ← Multiset.cons_coe, ← Multiset.singleton_add] at balance
  rw [← balance]
  abel

theorem Sound.turn {count : Int} {nevent : Nat} (sound : Sound s l lost)
    (pass : s.pass = .turning count nevent) (taken : s.turn count nevent = some t) :
    ∃ l new, Sound t l (lost + new) ∧ (new = 0 ↔ Spares s .turn) := by
  have kept : ∀ {t l}, Sound t l lost → Spares s .turn →
      ∃ l new, Sound t l (lost + new) ∧ (new = 0 ↔ Spares s .turn) := by
    intro t l after spares
    refine ⟨l, 0, ?_, fun _ => spares, fun _ => rfl⟩
    rw [add_zero]
    exact after
  unfold Spares at kept ⊢
  rw [pass] at kept ⊢
  have head : s.bc_head = l.head? := sound.loose.head_eq
  cases nevent with
  | zero =>
    cases taken
    exact kept sound.finish trivial
  | succ nevent =>
    cases l with
    | nil =>
      have empty : s.bc_head = none := head
      unfold Kernel.turn at taken
      rw [empty] at taken
      cases taken
      refine kept sound.finish fun sep event front => ?_
      rw [empty] at front
      cases front
    | cons sep l =>
      have here : s.bc_head = some sep := head
      have off := (nodup_cons.mp sound.loose.nodup).1
      have live : ∀ k ∈ l, s.events k ≠ none := fun k mem => sound.live k (mem_cons_of_mem _ mem)
      unfold Kernel.turn at taken
      rw [here] at taken
      obtain ⟨event, known, rfl⟩ := map_eq_some_iff.mp taken
      have serial : s.serial sep = event.serial := by
        unfold Kernel.serial
        rw [known]
        rfl
      have balance := sound.balance_cons
      have loose : Loose { s.ends with head := s.se_next sep } l := sound.loose.advance
      rw [serial] at balance
      split
      · next fits =>
        refine kept (l := l) ⟨loose, nofun, live, ?_, ?_, ?_, nofun⟩ ?_
        · rintro k count' nevent' calling
          cases calling
          exact ⟨off, sound.live _ mem_cons_self⟩
        · show ↑(l.map s.serial) + (event.serial ::ₘ s.called) + s.cancelled + lost =
            Multiset.range s.serials
          rw [← balance, ← Multiset.singleton_add]
          abel
        · intro n mem
          rcases mem_cons.mp mem with same | mem
          · cases same
            exact Multiset.mem_cons_self _ _
          · exact Multiset.mem_cons_of_mem (sound.fitted n mem)
        · intro k event' front known' big
          cases here.symm.trans front
          cases known.symm.trans known'
          exact absurd fits (by omega)
      · next big =>
        have fitted : ∀ n, (n, true) ∈ (event.serial, false) :: s.turns → n ∈ s.called := by
          intro n mem
          rcases mem_cons.mp mem with same | mem
          · cases same
          · exact sound.fitted n mem
        have second : s.se_next sep = l.head? := loose.head_eq
        cases l with
        | nil =>
          -- its link leads to itself now, and the head to nothing
          refine ⟨[], {event.serial}, ⟨.inr ⟨second, rfl⟩, nofun, nofun, nofun, ?_, fitted, nofun⟩,
            ?_⟩
          · show (([] : List Nat) : Multiset Nat) + s.called + s.cancelled + (lost + _) =
              Multiset.range s.serials
            rw [← balance, map_nil]
            abel
          · constructor
            · intro none
              exact absurd none (Multiset.singleton_ne_zero _)
            · intro spares
              exact absurd second (spares sep event here known (by omega))
        | cons x l =>
          have last : s.bc_tail = (sep :: x :: l).getLast? := by
            rcases sound.loose with held | ⟨-, nil⟩
            · exact held.last
            · cases nil
          obtain ⟨ys, z, whole⟩ : ∃ ys z, x :: l = ys ++ [z] := by
            rcases eq_nil_or_concat (x :: l) with nil | ⟨ys, z, whole⟩
            · cases nil
            · exact ⟨ys, z, by rw [whole, concat_eq_append]⟩
          have tail : s.bc_tail = some z := by
            rw [last, getLast?_cons_cons, whole, getLast?_concat]
          have apart : z ≠ sep := by
            rintro rfl
            exact off (by rw [whole]; simp)
          have held := loose.enqueue off
          have ends : (s.rotate sep).ends = enqueue { s.ends with head := s.se_next sep } sep := by
            unfold Kernel.rotate enqueue Kernel.ends
            rw [second, tail]
            dsimp only [head?_cons, getD_some]
            rw [update_comm apart]
          have rotated : Held (s.rotate sep).ends (x :: l ++ [sep]) := by
            rw [ends]
            exact held
          refine kept (l := x :: l ++ [sep]) ⟨.inl rotated, nofun, ?_, nofun, ?_, fitted, nofun⟩ ?_
          · intro k mem
            rcases mem_append.mp mem with mem | mem
            · exact live k mem
            · rw [mem_singleton.mp mem]
              exact sound.live _ mem_cons_self
          · show ↑((x :: l ++ [sep]).map s.serial) + s.called + s.cancelled + lost =
              Multiset.range s.serials
            rw [← balance, map_append, ← Multiset.coe_add, map_singleton, serial,
              Multiset.coe_singleton]
          · intro k event' front known' big'
            cases here.symm.trans front
            rw [second]
            exact nofun

theorem Sound.step (sound : Sound s l lost) (taken : s.step label = some t) :
    ∃ l new, Sound t l (lost + new) ∧ (new = 0 ↔ Spares s label) := by
  have kept : Spares s label → (∃ l, Sound t l lost) →
      ∃ l new, Sound t l (lost + new) ∧ (new = 0 ↔ Spares s label) := by
    rintro spares ⟨l, after⟩
    refine ⟨l, 0, ?_, fun _ => spares, fun _ => rfl⟩
    rw [add_zero]
    exact after
  cases label with
  | kmem_free =>
    cases taken
    exact kept trivial ⟨l, { sound with }⟩
  | start count nevent =>
    obtain ⟨-, taken⟩ := ite_none_right_eq_some.mp taken
    cases taken
    exact kept trivial ⟨l, { sound with held := nofun, calling := nofun, waits := nofun }⟩
  | turn =>
    unfold Kernel.step at taken
    cases pass : s.pass with
    | turning count nevent =>
      rw [pass] at taken
      exact sound.turn pass taken
    | outside =>
      rw [pass] at taken
      cases taken
    | calling sep count nevent =>
      rw [pass] at taken
      cases taken
  | bufcall sep se_func se_arg se_size =>
    unfold Kernel.step at taken
    dsimp only at taken
    split at taken
    · cases taken
    · obtain ⟨free, taken⟩ := ite_none_right_eq_some.mp taken
      cases taken
      exact kept trivial ⟨_, sound.bufcall free⟩
  | unbufcall id rounds | strunbcall size p rounds =>
    unfold Kernel.step at taken
    dsimp only at taken
    split at taken
    · cases taken
    · exact kept trivial (sound.cancel taken)
  | returned =>
    unfold Kernel.step at taken
    dsimp only at taken
    split at taken
    · next sep count nevent pass =>
      cases taken
      have off := (sound.calling sep count nevent pass).1
      refine kept trivial ⟨l, sound.loose, nofun, fun k mem => ?_, nofun, ?_, sound.fitted, nofun⟩
      · show update s.events sep none k ≠ none
        have apart : k ≠ sep := by
          rintro rfl
          exact off mem
        rw [update_of_ne apart]
        exact sound.live k mem
      · show ↑(l.map fun k => (update s.events sep none k).elim 0 Strevent.serial) +
          s.called + s.cancelled + lost = Multiset.range s.serials
        rw [map_serial off fun k apart => update_of_ne apart _ _]
        exact sound.balance
    · cases taken

theorem Sound.run (sound : Sound s l lost) (run : exec Kernel.step s labels = some t) :
    ∃ l new, Sound t l (lost + new) ∧ (new = 0 ↔ Guarded Kernel.step Spares s labels) := by
  induction labels generalizing s l lost with
  | nil =>
    obtain rfl : s = t := by simpa using run
    refine ⟨l, 0, ?_, fun _ => trivial, fun _ => rfl⟩
    rw [add_zero]
    exact sound
  | cons label labels ih =>
    obtain ⟨u, taken, rest⟩ := exec_cons_eq_some.mp run
    obtain ⟨l, new, after, first⟩ := sound.step taken
    obtain ⟨l, new', after, later⟩ := ih after rest
    refine ⟨l, new + new', ?_, ?_⟩
    · rw [← add_assoc]
      exact after
    · rw [← Multiset.card_eq_zero, Multiset.card_add, Nat.add_eq_zero_iff, Multiset.card_eq_zero,
        Multiset.card_eq_zero, first, later]
      constructor
      · rintro ⟨spares, guarded⟩
        refine ⟨spares, fun v taken' => ?_⟩
        obtain rfl : u = v := some.inj (taken.symm.trans taken')
        exact guarded
      · rintro ⟨spares, guarded⟩
        exact ⟨spares, guarded u taken⟩

/-- After the passes of `queuerun` the requests are in order exactly when no turn found a request
too big alone on the list. -/
theorem no_bufcall_lost_iff (start : Settled s) (outside : s.pass = .outside)
    (run : exec Kernel.step s labels = some t) (ended : t.pass = .outside) :
    Settled t ↔ Guarded Kernel.step Spares s labels := by
  obtain ⟨l, sound⟩ := start.sound outside
  obtain ⟨l, new, after, exact_⟩ := sound.run run
  rw [zero_add] at after
  rw [after.settled_iff ended, exact_]

end

def idle : Kernel where
  events := fun _ => none
  se_next := fun _ => none
  bc_head := none
  bc_tail := none
  strbcwait := false
  strbcflag := false
  pass := .outside
  serials := 0
  called := 0
  cancelled := 0
  turns := []

theorem idle_settled : Settled idle :=
  ⟨[], held_nil, nofun, rfl, nofun, fun some => absurd rfl some⟩

def two_requests : List Label :=
  [.bufcall 1 9 0 500, .bufcall 2 9 0 100, .kmem_free, .start 200 2, .turn, .turn,
    .bufcall 3 9 0 300, .returned, .turn]

theorem two_requests_run : (exec Kernel.step idle two_requests).isSome = true := by decide +kernel

theorem no_bufcall_lost_two : Settled ((exec Kernel.step idle two_requests).get two_requests_run) :=
  (no_bufcall_lost_iff idle_settled rfl (some_get two_requests_run).symm
    (by decide +kernel)).mpr (by decide +kernel)

/-- The one request that waits is too big: after the pass it is neither on the list nor called nor
    cancelled. -/
theorem lone_request_lost :
    ∃ t, exec Kernel.step idle [.bufcall 1 9 0 500, .kmem_free, .start 200 1, .turn, .turn] =
      some t ∧ t.bc_head = none ∧ t.serials = 1 ∧ t.called = 0 ∧ t.cancelled = 0 ∧ ¬ Settled t := by
  refine ⟨_, rfl, rfl, rfl, rfl, rfl, ?_⟩
  rintro ⟨l, held, -, balance, -⟩
  obtain rfl : l = [] := NextChains.Path.unique held.path NextChains.path_nil
  have cards := congrArg Multiset.card balance
  exact absurd cards (by decide)

end Bufcalls
