import Mathlib.Algebra.Order.BigOperators.Group.Finset
import Mathlib.Order.Interval.Finset.Nat
import Svr4.Extents

/- How far up a layout reaches, and how far once its gaps are closed. -/
namespace BlockExtents
open Function Option Finset

variable {ι : Type} {f g : ι → Option Extent} {floor x n : Nat} {k : ι} {e t c : Extent}

def span : Option Extent → Finset Nat
  | none => ∅
  | some e => Finset.Icc e.first e.last

theorem mem_span {o : Option Extent} : x ∈ span o ↔ ∃ e, o = some e ∧ e.first ≤ x ∧ x ≤ e.last := by
  cases o with
  | none => simp [span]
  | some e => simp [span]

theorem card_span (o : Option Extent) : (span o).card = blocks o := by
  cases o with
  | none => rfl
  | some e =>
    simp only [span, blocks, Nat.card_Icc, Extent.last]
    omega

section Count
variable {f : ι → Option Extent} {S : Finset ι} {floor : Nat}

theorem card_covered (apart : Apart f) (S : Finset ι) :
    (S.biUnion fun i => span (f i)).card = used S f := by
  rw [card_biUnion]
  · exact sum_congr rfl fun i _ => card_span (f i)
  · intro i _ j _ ne
    refine disjoint_left.mpr ?_
    intro x at_i at_j
    obtain ⟨a, ha, low_a, high_a⟩ := mem_span.mp at_i
    obtain ⟨b, hb, low_b, high_b⟩ := mem_span.mp at_j
    rcases apart i j a b ne ha hb with before | after
    · unfold Extent.Before at before
      omega
    · unfold Extent.Before at after
      omega

/-- The lowest block in use once the gaps are closed: the floor, or the block below it. -/
def base (floor : Nat) (S : Finset ι) (f : ι → Option Extent) : Nat :=
  if ∃ i ∈ S, (f i).any (fun e => decide (e.first < floor)) = true then floor - 1 else floor

/-- The block behind the last one once the gaps are closed. -/
def reach (floor : Nat) (S : Finset ι) (f : ι → Option Extent) : Nat := base floor S f + used S f

/-- Where the things of `S` can lie: at the floor, or one block below it. -/
structure Grounded (floor : Nat) (S : Finset ι) (f : ι → Option Extent) : Prop where
  inside : ∀ i e, f i = some e → i ∈ S
  low : ∀ i e, f i = some e → floor ≤ e.first + 1

theorem base_cases (floor : Nat) (S : Finset ι) (f : ι → Option Extent) :
    (base floor S f = floor ∧ ∀ i ∈ S, ∀ e, f i = some e → floor ≤ e.first) ∨
    (base floor S f = floor - 1 ∧ ∃ i ∈ S, ∃ e, f i = some e ∧ e.first < floor) := by
  unfold base
  by_cases below : ∃ i ∈ S, (f i).any (fun e => decide (e.first < floor)) = true
  · rw [if_pos below]
    obtain ⟨i, member, lower⟩ := below
    obtain ⟨e, at_i, low⟩ := (any_eq_true ..).mp lower
    exact .inr ⟨rfl, i, member, e, at_i, of_decide_eq_true low⟩
  · rw [if_neg below]
    refine .inl ⟨rfl, fun i member e at_i => not_lt.mp fun low => below ⟨i, member, ?_⟩⟩
    rw [at_i]
    exact decide_eq_true low

section
variable (grounded : Grounded floor S f)
include grounded

theorem Grounded.base_le {i : ι} (at_i : f i = some e) : base floor S f ≤ e.first := by
  have low := grounded.low i e at_i
  rcases base_cases floor S f with ⟨same, all⟩ | ⟨same, _⟩
  · rw [same]
    exact all i (grounded.inside i e at_i) e at_i
  · omega

theorem Grounded.covered_subset (below : ∀ i e, f i = some e → e.last < n) :
    (S.biUnion fun i => span (f i)) ⊆ Finset.Ico (base floor S f) n := by
  intro x member
  obtain ⟨i, _, at_i⟩ := mem_biUnion.mp member
  obtain ⟨e, he, low, high⟩ := mem_span.mp at_i
  have := grounded.base_le he
  have := below i e he
  exact mem_Ico.mpr ⟨by omega, by omega⟩

theorem Grounded.reach_le (apart : Apart f) (below : ∀ i e, f i = some e → e.last < n)
    (high : floor ≤ n) : reach floor S f ≤ n := by
  have count := card_le_card (grounded.covered_subset below)
  rw [card_covered apart, Nat.card_Ico] at count
  have : base floor S f ≤ floor := by
    rcases base_cases floor S f with ⟨same, _⟩ | ⟨same, _⟩ <;> omega
  unfold reach
  omega

/-- Below the top of a layout without gaps every block from the base on is in use. -/
theorem Grounded.covered_of_packed (packed : Packed floor f) (at_k : f k = some t)
    (low : base floor S f ≤ x) (high : x ≤ t.last) :
    ∃ i e, f i = some e ∧ e.first ≤ x ∧ x ≤ e.last := by
  -- the nearest thing that starts above `x` would rest on one that covers it
  induction h : t.first using Nat.strong_induction_on generalizing k t with
  | _ n ih =>
    by_cases here : t.first ≤ x
    · exact ⟨k, t, at_k, here, high⟩
    rcases packed k t at_k with floor_low | ⟨j, b, at_j, meets⟩
    · rcases base_cases floor S f with ⟨same, _⟩ | ⟨same, i, member, e, at_i, below⟩
      · omega
      · have := grounded.low i e at_i
        have := e.first_le_last
        exact ⟨i, e, at_i, by omega, by omega⟩
    · have := b.first_le_last
      exact ih b.first (by omega) at_j (by omega) rfl

theorem Grounded.reach_of_packed (apart : Apart f) (packed : Packed floor f) (top : Topmost f k)
    (at_k : f k = some t) :
    reach floor S f = t.last + 1 := by
  have below : ∀ i e, f i = some e → e.last < t.last + 1 := by
    intro i e at_i
    obtain ⟨t', at_k', above⟩ := top
    obtain rfl := some.inj (at_k.symm.trans at_k')
    by_cases same : i = k
    · subst same
      obtain rfl := some.inj (at_k.symm.trans at_i)
      exact Nat.lt_succ_self _
    · have before := above i e same at_i
      have := t.first_le_last
      unfold Extent.Before at before
      omega
  have all : (S.biUnion fun i => span (f i)) = Ico (base floor S f) (t.last + 1) := by
    apply Subset.antisymm (grounded.covered_subset below)
    intro x member
    obtain ⟨low, high⟩ := mem_Ico.mp member
    obtain ⟨i, e, at_i, first, last⟩ :=
      grounded.covered_of_packed packed at_k low (Nat.lt_succ_iff.mp high)
    exact mem_biUnion.mpr ⟨i, grounded.inside i e at_i, mem_span.mpr ⟨e, at_i, first, last⟩⟩
  have count := card_covered apart S
  rw [all, Nat.card_Ico] at count
  have := grounded.base_le at_k
  have := t.first_le_last
  unfold reach
  omega

end

theorem reach_clear [DecidableEq ι] {k : ι} (member : k ∈ S) {e : Extent} (at_k : f k = some e)
    (high : floor ≤ e.first) :
    reach floor S (update f k none) + (e.more + 1) = reach floor S f := by
  have amount := used_update (f := f) member none
  rw [at_k] at amount
  have same : base floor S (update f k none) = base floor S f := by
    rcases base_cases floor S f with ⟨eq, all⟩ | ⟨eq, i, at_S, a, at_i, low⟩
    · rcases base_cases floor S (update f k none) with
        ⟨eq', _⟩ | ⟨_, i, at_S, a, at_i, low⟩
      · rw [eq, eq']
      · rcases update_eq_some at_i with ⟨_, absurd⟩ | ⟨_, at_i⟩
        · cases absurd
        · exact absurd low (not_lt.mpr (all i at_S a at_i))
    · have ne : i ≠ k := by
        rintro rfl
        obtain rfl := some.inj (at_k.symm.trans at_i)
        omega
      rcases base_cases floor S (update f k none) with ⟨_, all⟩ | ⟨eq', _⟩
      · have := all i at_S a (by rw [update_of_ne ne, at_i])
        omega
      · rw [eq, eq']
  simp only [blocks] at amount
  unfold reach
  omega

end Count

/- Things that slide down onto the floor. -/

/-- Nothing goes up, and nothing goes below the floor. -/
def Lowered (floor : Nat) (f g : ι → Option Extent) : Prop :=
  ∀ i a b, f i = some a → g i = some b → b.first ≤ a.first ∧ (b.first < floor → b.first = a.first)

theorem Lowered.refl (floor : Nat) (f : ι → Option Extent) : Lowered floor f f := by
  intro i a b at_i at_i'
  obtain rfl := some.inj (at_i.symm.trans at_i')
  exact ⟨le_refl _, fun _ => rfl⟩

theorem Lowered.trans {f g h : ι → Option Extent} (moved : Rearranged f g) (one : Lowered floor f g)
    (two : Lowered floor g h) : Lowered floor f h := by
  intro i a c at_f at_h
  obtain ⟨b, at_g, _⟩ := moved.image at_f
  obtain ⟨down, same⟩ := one i a b at_f at_g
  obtain ⟨down', same'⟩ := two i b c at_g at_h
  refine ⟨le_trans down' down, fun low => ?_⟩
  have := same' low
  exact this.trans (same (by omega))

theorem lowered_slide [DecidableEq ι] {floor goal : Nat} {f : ι → Option Extent}
    (at_k : f k = some c) (down : goal ≤ c.first) (kept : goal < floor → goal = c.first) :
    Lowered floor f (update f k (some ⟨goal, c.more⟩)) := by
  intro i a b at_i at_i'
  rcases update_eq_some at_i' with ⟨rfl, same⟩ | ⟨_, at_i'⟩
  · cases same
    obtain rfl := some.inj (at_k.symm.trans at_i)
    exact ⟨down, kept⟩
  · obtain rfl := some.inj (at_i.symm.trans at_i')
    exact ⟨le_refl _, fun _ => rfl⟩

/-- Closing the gaps does not change how far a packed layout reaches, whatever thing is left out. -/
theorem Lowered.reach (S : Finset ι) (moved : Rearranged f g) (down : Lowered floor f g) :
    reach floor S g = reach floor S f := by
  have same : base floor S g = base floor S f := by
    rcases base_cases floor S f with ⟨eq, all⟩ | ⟨eq, i, at_S, a, at_i, low⟩
    · rcases base_cases floor S g with ⟨eq', _⟩ | ⟨_, i, at_S, b, at_i, low⟩
      · rw [eq, eq']
      · obtain ⟨a, at_f, _⟩ := moved.preimage at_i
        have := (down i a b at_f at_i).2 low
        have := all i at_S a at_f
        omega
    · obtain ⟨b, at_g, _⟩ := moved.image at_i
      have := (down i a b at_i at_g).1
      rcases base_cases floor S g with ⟨_, all⟩ | ⟨eq', _⟩
      · have := all i at_S b at_g
        omega
      · rw [eq, eq']
  unfold BlockExtents.reach
  rw [same, moved.used S]

theorem Rearranged.clear [DecidableEq ι] (moved : Rearranged f g) (k : ι) :
    Rearranged (update f k none) (update g k none) := by
  constructor
  · intro i
    rw [update_apply, update_apply]
    split
    · rfl
    · exact moved.shape i
  · intro i j a b a' b' ha hb ha' hb'
    rcases update_eq_some ha with ⟨_, absurd⟩ | ⟨_, ha⟩
    · cases absurd
    rcases update_eq_some hb with ⟨_, absurd⟩ | ⟨_, hb⟩
    · cases absurd
    rcases update_eq_some ha' with ⟨_, absurd⟩ | ⟨_, ha'⟩
    · cases absurd
    rcases update_eq_some hb' with ⟨_, absurd⟩ | ⟨_, hb'⟩
    · cases absurd
    exact moved.order i j a b a' b' ha hb ha' hb'

theorem Lowered.clear [DecidableEq ι] (down : Lowered floor f g) (k : ι) :
    Lowered floor (update f k none) (update g k none) := by
  intro i a b at_f at_g
  rcases update_eq_some at_f with ⟨_, absurd⟩ | ⟨_, at_f⟩
  · cases absurd
  rcases update_eq_some at_g with ⟨_, absurd⟩ | ⟨_, at_g⟩
  · cases absurd
  exact down i a b at_f at_g

theorem PackedTo.stays (moved : Rearranged f g) (down : Lowered floor f g)
    (packed : PackedTo floor f k) (at_k : f k = some c) : g k = some c := by
  -- the induction climbs: what `k` rests on stays, and `k` stays behind it
  induction h : c.first using Nat.strong_induction_on generalizing k c with
  | _ n ih =>
    obtain ⟨c', at_k', more⟩ := moved.image at_k
    obtain ⟨lower, low_same⟩ := down k c c' at_k at_k'
    have first : c'.first = c.first := by
      rcases packed c at_k k c at_k (.inr rfl) with low | ⟨j, b, at_j, meets⟩
      · by_cases below : c'.first < floor
        · exact low_same below
        · omega
      have := b.first_le_last
      have before : b.Before c := by
        unfold Extent.Before
        omega
      have packed_j : PackedTo floor f j := by
        intro b' at_j' i e at_i order
        obtain rfl := some.inj (at_j.symm.trans at_j')
        refine packed c at_k i e at_i (.inl ?_)
        rcases order with under | rfl
        · unfold Extent.Before at *
          omega
        · obtain rfl := some.inj (at_j.symm.trans at_i)
          exact before
      have stays := ih b.first (by omega) packed_j at_j rfl
      have after := moved.order j k b c b c' at_j at_k stays at_k' before
      unfold Extent.Before at after
      omega
    rw [at_k']
    congr 1
    cases c
    cases c'
    simp only at first more
    rw [first, more]

end BlockExtents
