import Mathlib.Algebra.Group.Nat.Defs
import Svr4.BinaryHeaps
import Svr4.Runs

/- os/clock.c: the callout table, a heap on the time at which an entry is due. -/
namespace Callout
open Function BinaryHeaps LabelledRuns

structure Callo where
  c_time : Int
  c_id : Int
  c_arg : Nat
  c_func : Nat
  deriving DecidableEq

structure Table where
  callout : Nat → Callo
  /-- The index of the last entry, -1 in an empty table. -/
  calllimit : Int
  v_call : Nat
  timeid : Int
  lbolt : Int

/-- The entries move down until one for the time `t` can be put at the returned index. -/
def heap_up (callout : Nat → Callo) (t : Int) (j : Nat) : (Nat → Callo) × Nat :=
  if 0 < j then
    let k := (j - 1) / 2
    if t < (callout k).c_time then heap_up (update callout j (callout k)) t k
    else (callout, j)
  else (callout, 0)
termination_by j

def earlier_child (calllimit : Int) (callout : Nat → Callo) (j : Nat) : Nat :=
  let k := 1 + 2 * j
  if k < calllimit ∧ (callout (k + 1)).c_time < (callout k).c_time then k + 1 else k

theorem earlier_child_bounds {calllimit : Int} {callout : Nat → Callo} {j : Nat}
    (inside : ((1 + 2 * j : Nat) : Int) ≤ calllimit) :
    j < earlier_child calllimit callout j ∧ earlier_child calllimit callout j ≤ calllimit ∧
      parent (earlier_child calllimit callout j) = j := by
  unfold earlier_child parent
  dsimp only
  split <;> omega

def heap_down (calllimit : Int) (callout : Nat → Callo) (t : Int) (j : Nat) :
    (Nat → Callo) × Nat :=
  if inside : ((1 + 2 * j : Nat) : Int) ≤ calllimit then
    let k := earlier_child calllimit callout j
    if t ≤ (callout k).c_time then (callout, j)
    else heap_down calllimit (update callout j (callout k)) t k
  else (callout, j)
termination_by calllimit.toNat - j
decreasing_by
  have := (@earlier_child_bounds calllimit callout j inside).1
  omega

/-- `++timeid` of a 32-bit int. -/
def next_id (timeid : Int) : Int := (timeid + 1).bmod (2 ^ 32)

/-- The table with the entry, and its id; none where the table overflows and the system
    panics. -/
def timeout (s : Table) (func arg : Nat) (tim : Int) : Option (Table × Int) :=
  let t := s.lbolt + tim
  let j := s.calllimit + 1
  if j = s.v_call then none
  else
    let (callout, j) := heap_up s.callout t j.toNat
    let id := next_id s.timeid
    some
      ({ s with
          callout := update callout j ⟨t, id, arg, func⟩
          calllimit := s.calllimit + 1
          timeid := id }, id)

def ttimeout (s : Table) (func arg : Nat) (tim : Int) : Option (Table × Int) :=
  if s.calllimit + 1 = s.v_call then some (s, -1) else timeout s func arg tim

/-- Also the index where the entry was found, or -1. -/
def untimeout (s : Table) (id : Int) : Table × Int :=
  match (List.range (s.calllimit + 1).toNat).find? fun f => (s.callout f).c_id = id with
  | none => (s, -1)
  | some f =>
    if (f : Int) = s.calllimit then ({ s with calllimit := s.calllimit - 1 }, f)
    else
      let pend := s.callout s.calllimit.toNat
      let calllimit := s.calllimit - 1
      let t := pend.c_time
      let (callout, j) :=
        if 0 < f ∧ t < (s.callout ((f - 1) / 2)).c_time then heap_up s.callout t f
        else heap_down calllimit s.callout t f
      ({ s with callout := update callout j pend, calllimit := calllimit }, f)

/-- One turn of the loop of `timein` up to the call of the entry that is taken. None ends the loop.
-/
def timein_turn (s : Table) : Option (Callo × Table) :=
  if (s.callout 0).c_time ≤ s.lbolt ∧ 0 ≤ s.calllimit then
    let svcall := s.callout 0
    let plast := s.callout s.calllimit.toNat
    let calllimit := s.calllimit - 1
    if 0 ≤ calllimit then
      let (callout, j) := heap_down calllimit s.callout plast.c_time 0
      some (svcall, { s with callout := update callout j plast, calllimit := calllimit })
    else some (svcall, { s with calllimit := calllimit })
  else none

def Table.entries (s : Table) : Nat := (s.calllimit + 1).toNat

def Table.pending (s : Table) : Multiset Callo := contents s.callout s.entries

end Callout

/- Every operation keeps the heap and moves no entry but its own. -/
namespace Callout
open Function BinaryHeaps

def InOrder (callout : Nat → Callo) (n : Nat) : Prop := Heap Callo.c_time callout n

section Helpers
variable {n : Nat} {c : Callo} {calllimit : Int}

/-- The entry that `heap_up` places is put into a heap, where its children are not due earlier. -/
theorem heap_up_fills (callout : Nat → Callo) (j : Nat) (inside : j < n)
    (holed : Holed Callo.c_time callout n j)
    (below : ∀ i, 0 < i → i < n → parent i = j → c.c_time ≤ (callout i).c_time) :
    InOrder (update (heap_up callout c.c_time j).1 (heap_up callout c.c_time j).2 c) n ∧
      contents (update (heap_up callout c.c_time j).1 (heap_up callout c.c_time j).2 c) n =
        contents (update callout j c) n := by
  induction callout, j using heap_up.induct c.c_time with
  | case1 callout j positive k later ih =>
    have rise := holed.rise positive inside
    rw [heap_up, if_pos positive]
    rw [if_pos later]
    have lower : ∀ i, 0 < i → i < n → parent i = k →
        c.c_time ≤ (update callout j (callout k) i).c_time := by
      intro i i_positive i_inside child
      by_cases at_hole : i = j
      · rw [at_hole, update_self]
        exact le_of_lt later
      · rw [update_of_ne at_hole]
        have order := holed.apart i i_positive i_inside at_hole (by omega)
        rw [child] at order
        exact le_trans (le_of_lt later) order
    obtain ⟨order, same⟩ := ih (by omega) rise lower
    exact ⟨order, same.trans (contents_move inside (by omega) (by omega))⟩
  | case2 callout j positive k sooner =>
    rw [heap_up, if_pos positive]
    rw [if_neg sooner]
    exact ⟨holed.fill (fun _ => not_lt.mp sooner) below, rfl⟩
  | case3 callout j zero =>
    obtain rfl : j = 0 := by omega
    rw [heap_up, if_neg zero]
    exact ⟨holed.fill (fun positive => absurd positive zero) below, rfl⟩

theorem earlier_child_least {callout : Nat → Callo} {j i : Nat} (positive : 0 < i)
    (inside : (i : Int) ≤ calllimit) (child : parent i = j) :
    (callout (earlier_child calllimit callout j)).c_time ≤ (callout i).c_time := by
  have which : i = 1 + 2 * j ∨ i = 1 + 2 * j + 1 := by
    unfold parent at child
    omega
  unfold earlier_child
  dsimp only
  split
  · next right =>
    rcases which with rfl | rfl
    · exact le_of_lt right.2
    · exact le_refl _
  · next left =>
    rcases which with rfl | rfl
    · exact le_refl _
    · exact not_lt.mp fun sooner => left ⟨by omega, sooner⟩

theorem heap_down_fills (callout : Nat → Callo) (j : Nat) (size : (n : Int) = calllimit + 1)
    (inside : j < n) (holed : Holed Callo.c_time callout n j)
    (above : 0 < j → (callout (parent j)).c_time ≤ c.c_time) :
    InOrder (update (heap_down calllimit callout c.c_time j).1
        (heap_down calllimit callout c.c_time j).2 c) n ∧
      contents (update (heap_down calllimit callout c.c_time j).1
        (heap_down calllimit callout c.c_time j).2 c) n = contents (update callout j c) n := by
  induction callout, j using heap_down.induct calllimit c.c_time with
  | case1 callout j has_child k later =>
    rw [heap_down, dif_pos has_child]
    rw [if_pos later]
    refine ⟨holed.fill above fun i positive i_inside child => ?_, rfl⟩
    exact le_trans later (earlier_child_least positive (by omega) child)
  | case2 callout j has_child k sooner ih =>
    obtain ⟨down, k_inside, is_child⟩ := @earlier_child_bounds calllimit callout j has_child
    have sink : Holed Callo.c_time (update callout j (callout k)) n k :=
      holed.sink (by omega) (by omega) is_child
        fun i positive i_inside child => earlier_child_least positive (by omega) child
    rw [heap_down, dif_pos has_child]
    rw [if_neg sooner]
    obtain ⟨order, same⟩ := ih (by omega) sink fun _ => by
      rw [is_child, update_self]
      exact le_of_lt (not_le.mp sooner)
    exact ⟨order, same.trans (contents_move inside (by omega) (by omega))⟩
  | case3 callout j childless =>
    rw [heap_down, dif_neg childless]
    refine ⟨holed.fill above fun i positive i_inside child => ?_, rfl⟩
    unfold parent at child
    omega

end Helpers

structure Table.Ok (s : Table) : Prop where
  low : -1 ≤ s.calllimit
  room : s.calllimit + 1 ≤ s.v_call
  order : InOrder s.callout s.entries

section Operations
variable {s s' : Table}

theorem entries_eq (ok : s.Ok) : (s.entries : Int) = s.calllimit + 1 := by
  have := ok.low
  unfold Table.entries
  omega

theorem timeout_spec {func arg : Nat} {tim id : Int} (ok : s.Ok)
    (added : timeout s func arg tim = some (s', id)) :
    s'.Ok ∧ s'.lbolt = s.lbolt ∧ s'.v_call = s.v_call ∧
      s'.pending = ⟨s.lbolt + tim, id, arg, func⟩ ::ₘ s.pending := by
  have low := ok.low
  have room := ok.room
  unfold timeout at added
  dsimp only at added
  split at added
  · exact absurd added (by simp)
  next not_full =>
  obtain ⟨rfl, rfl⟩ := Prod.mk.inj (Option.some.inj added)
  obtain ⟨n, n_eq⟩ : ∃ n, s.entries = n := ⟨_, rfl⟩
  have last : (s.calllimit + 1).toNat = n := n_eq
  have more : (s.calllimit + 1 + 1).toNat = n + 1 := by omega
  have order := ok.order
  have holed : Holed Callo.c_time s.callout (n + 1) n := by
    constructor
    · intro i positive inside other not_child
      exact order i positive (by omega)
    · intro positive i i_positive inside child
      have := parent_lt i_positive
      omega
  have childless : ∀ i, 0 < i → i < n + 1 → parent i = n → s.lbolt + tim ≤ (s.callout i).c_time := by
    intro i positive inside child
    have := parent_lt positive
    omega
  obtain ⟨filled, same⟩ := heap_up_fills (c := ⟨s.lbolt + tim, next_id s.timeid, arg, func⟩)
    s.callout n (by omega) holed childless
  refine ⟨⟨?_, ?_, ?_⟩, rfl, rfl, ?_⟩
  · dsimp only
    omega
  · dsimp only
    omega
  · unfold Table.entries
    rw [more, last]
    exact filled
  · unfold Table.pending Table.entries
    rw [more, last]
    refine same.trans ?_
    rw [contents_succ, update_self]
    exact congrArg _ (contents_congr fun i below => update_of_ne (by omega) _ _)

theorem contents_without {a : Nat → Callo} {n f : Nat} (inside : f < n) :
    a f ::ₘ contents (update a f (a n)) n = contents a (n + 1) := by
  rw [contents_update inside, contents_succ]

/-- The table with an entry taken out. -/
theorem Table.Ok.taken {n : Nat} {callout : Nat → Callo} {c : Callo} (ok : s.Ok)
    (n_eq : s.entries = n + 1) (order : InOrder callout n)
    (same : contents s.callout (n + 1) = c ::ₘ contents callout n) :
    s.pending = c ::ₘ Table.pending { s with calllimit := s.calllimit - 1, callout := callout } ∧
      Table.Ok { s with calllimit := s.calllimit - 1, callout := callout } := by
  have room := ok.room
  have entries := entries_eq ok
  have fewer : (s.calllimit - 1 + 1).toNat = n := by omega
  refine ⟨?_, ?_, ?_, ?_⟩
  · unfold Table.pending
    rw [n_eq, same]
    unfold Table.entries
    rw [fewer]
  · dsimp only
    omega
  · dsimp only
    omega
  · unfold Table.entries
    rw [fewer]
    exact order

theorem untimeout_spec (ok : s.Ok) (id : Int) :
    ((∀ c ∈ s.pending, c.c_id ≠ id) ∧ untimeout s id = (s, -1)) ∨
      ∃ f : Nat, (f : Int) ≤ s.calllimit ∧ (untimeout s id).2 = f ∧ (s.callout f).c_id = id ∧
        s.pending = s.callout f ::ₘ (untimeout s id).1.pending ∧ (untimeout s id).1.Ok ∧
        (untimeout s id).1.lbolt = s.lbolt ∧ (untimeout s id).1.v_call = s.v_call := by
  have order := ok.order
  unfold untimeout
  split
  · next none_found =>
    refine .inl ⟨fun c mem same => ?_, rfl⟩
    obtain ⟨i, below, rfl⟩ := mem_contents.mp mem
    rw [List.find?_eq_none] at none_found
    exact none_found i (List.mem_range.mpr below) (by simpa using same)
  next f found =>
  have same_id : (s.callout f).c_id = id := by simpa using List.find?_some found
  have inside : f < s.entries := List.mem_range.mp (List.mem_of_find?_eq_some found)
  have entries := entries_eq ok
  obtain ⟨n, n_eq⟩ : ∃ n, s.entries = n + 1 := ⟨s.entries - 1, by omega⟩
  have last : s.calllimit.toNat = n := by omega
  right
  split
  · next at_end =>
    obtain rfl : f = n := by omega
    obtain ⟨split_off, ok'⟩ := ok.taken n_eq (order.fewer (by omega)) (contents_succ _ _)
    exact ⟨f, by omega, rfl, same_id, split_off, ok', rfl, rfl⟩
  · next earlier =>
    have holed : Holed Callo.c_time s.callout n f := (order.fewer (by omega)).holed f
    have filled : ∀ moved : (Nat → Callo) × Nat,
        (if 0 < f ∧ (s.callout s.calllimit.toNat).c_time < (s.callout ((f - 1) / 2)).c_time then
          heap_up s.callout (s.callout s.calllimit.toNat).c_time f
        else heap_down (s.calllimit - 1) s.callout (s.callout s.calllimit.toNat).c_time f) = moved →
        InOrder (update moved.1 moved.2 (s.callout n)) n ∧
          contents (update moved.1 moved.2 (s.callout n)) n =
            contents (update s.callout f (s.callout n)) n := by
      intro moved moved_eq
      rw [last] at moved_eq
      split at moved_eq
      · next rises =>
        rw [← moved_eq]
        refine heap_up_fills s.callout f (by omega) holed fun i positive below child => ?_
        exact le_trans (le_of_lt rises.2) (holed.across rises.1 i positive below child)
      · next sinks =>
        rw [← moved_eq]
        refine heap_down_fills s.callout f (by omega) (by omega) holed fun positive => ?_
        exact not_lt.mp fun sooner => sinks ⟨positive, sooner⟩
    obtain ⟨moved, moved_eq⟩ : ∃ moved, _ = moved := ⟨_, rfl⟩
    obtain ⟨in_order, same⟩ := filled moved moved_eq
    dsimp only
    rw [moved_eq, last]
    have out := contents_without (a := s.callout) (show f < n by omega)
    obtain ⟨split_off, ok'⟩ := ok.taken n_eq in_order (by rw [same, out])
    exact ⟨f, by omega, rfl, same_id, split_off, ok', rfl, rfl⟩

/-- The entry that is taken is due and none is due before it. The loop ends when none is due. -/
theorem timein_turn_spec (ok : s.Ok) :
    (timein_turn s = none ∧ ∀ c ∈ s.pending, s.lbolt < c.c_time) ∨
      ∃ c s', timein_turn s = some (c, s') ∧ c.c_time ≤ s.lbolt ∧
        (∀ d ∈ s'.pending, c.c_time ≤ d.c_time) ∧ s.pending = c ::ₘ s'.pending ∧ s'.Ok ∧
        s'.lbolt = s.lbolt ∧ s'.v_call = s.v_call := by
  have order := ok.order
  have entries := entries_eq ok
  have least : ∀ c ∈ s.pending, (s.callout 0).c_time ≤ c.c_time := by
    intro c mem
    obtain ⟨i, below, rfl⟩ := mem_contents.mp mem
    exact order.root_least i below
  by_cases due : (s.callout 0).c_time ≤ s.lbolt ∧ 0 ≤ s.calllimit
  · right
    obtain ⟨n, n_eq⟩ : ∃ n, s.entries = n + 1 := ⟨s.entries - 1, by omega⟩
    have last : s.calllimit.toNat = n := by omega
    have rest : ∃ s' : Table, timein_turn s = some (s.callout 0, s') ∧
        s.pending = s.callout 0 ::ₘ s'.pending ∧ s'.Ok ∧ s'.lbolt = s.lbolt ∧
          s'.v_call = s.v_call := by
      unfold timein_turn
      rw [if_pos due]
      dsimp only
      split
      · next more =>
        have holed : Holed Callo.c_time s.callout n 0 := (order.fewer (by omega)).holed 0
        obtain ⟨in_order, same⟩ := @heap_down_fills n (s.callout n) (s.calllimit - 1)
          s.callout 0 (by omega) (by omega) holed fun positive => absurd positive (Nat.lt_irrefl 0)
        rw [last]
        have out := contents_without (a := s.callout) (show 0 < n by omega)
        obtain ⟨split_off, ok'⟩ := ok.taken n_eq in_order (by rw [same, out])
        exact ⟨_, rfl, split_off, ok', rfl, rfl⟩
      · next single =>
        obtain rfl : n = 0 := by omega
        obtain ⟨split_off, ok'⟩ := ok.taken n_eq (order.fewer (by omega)) (contents_succ _ _)
        exact ⟨_, rfl, split_off, ok', rfl, rfl⟩
    obtain ⟨s', taken, split_off, facts⟩ := rest
    refine ⟨s.callout 0, s', taken, due.1, fun d mem => ?_, split_off, facts⟩
    exact least d (split_off ▸ Multiset.mem_cons_of_mem mem)
  · refine .inl ⟨if_neg due, fun c mem => ?_⟩
    have some_entry : 0 ≤ s.calllimit := by
      obtain ⟨i, below, -⟩ := mem_contents.mp mem
      omega
    have later : s.lbolt < (s.callout 0).c_time := not_le.mp fun sooner => due ⟨sooner, some_entry⟩
    exact lt_of_lt_of_le later (least c mem)

end Operations

end Callout
