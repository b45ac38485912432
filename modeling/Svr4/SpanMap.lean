import Mathlib.Data.Int.Order.Basic
import Mathlib.Data.List.Pairwise

/- Maps from the integers to finitely many kinds, kept as a list of closed spans
   in increasing order. Neighbours of one kind that touch have been joined. -/
namespace SpanMap
open List
variable {K : Type} {b : Int}

structure Span (K : Type) where
  lo : Int
  hi : Int
  kind : K
  deriving DecidableEq, Repr

def Before (p q : Span K) : Prop := p.hi < q.lo ∧ (p.kind = q.kind → p.hi + 1 < q.lo)

def Separated (l : List (Span K)) : Prop := l.Pairwise Before

def Holds (l : List (Span K)) (b : Int) (k : K) : Prop :=
  ∃ p ∈ l, p.lo ≤ b ∧ b ≤ p.hi ∧ p.kind = k

def valueAt (l : List (Span K)) (b : Int) : Option K :=
  (l.find? fun p => p.lo ≤ b ∧ b ≤ p.hi).map Span.kind

def overwrite (f : Int → Option K) (lo hi : Int) (v : Option K) : Int → Option K :=
  fun b => if lo ≤ b ∧ b ≤ hi then v else f b

@[simp] theorem holds_nil (b : Int) (k : K) : ¬ Holds [] b k := by
  simp [Holds]

@[simp] theorem holds_cons (p : Span K) (l : List (Span K)) (b : Int) (k : K) :
    Holds (p :: l) b k ↔ (p.lo ≤ b ∧ b ≤ p.hi ∧ p.kind = k) ∨ Holds l b k := by
  simp [Holds]

@[simp] theorem holds_append (l m : List (Span K)) (b : Int) (k : K) :
    Holds (l ++ m) b k ↔ Holds l b k ∨ Holds m b k := by
  simp only [Holds, mem_append]
  constructor
  · rintro ⟨p, mem | mem, here⟩
    · exact .inl ⟨p, mem, here⟩
    · exact .inr ⟨p, mem, here⟩
  · rintro (⟨p, mem, here⟩ | ⟨p, mem, here⟩)
    · exact ⟨p, .inl mem, here⟩
    · exact ⟨p, .inr mem, here⟩

variable {l m : List (Span K)}

theorem not_holds_of_clear (clear : ∀ p ∈ l, p.hi < b ∨ b < p.lo) (k : K) : ¬ Holds l b k := by
  rintro ⟨p, mem, low, high, -⟩
  rcases clear p mem with left | right <;> omega

theorem Separated.unique (apart : Separated l) {j k : K} (first : Holds l b j)
    (second : Holds l b k) : j = k := by
  induction l with
  | nil => exact absurd first (holds_nil b j)
  | cons p l ih =>
    obtain ⟨ahead, rest⟩ := pairwise_cons.mp apart
    have beyond : ∀ i, p.lo ≤ b → b ≤ p.hi → ¬ Holds l b i := by
      rintro i low high ⟨q, mem, start, -, -⟩
      have := (ahead q mem).1
      omega
    rcases (holds_cons p l b j).mp first with ⟨low, high, eq⟩ | first
    · rcases (holds_cons p l b k).mp second with ⟨-, -, eq'⟩ | second
      · exact eq.symm.trans eq'
      · exact absurd second (beyond k low high)
    · rcases (holds_cons p l b k).mp second with ⟨low, high, -⟩ | second
      · exact absurd first (beyond j low high)
      · exact ih rest first second

theorem Separated.valueAt_eq_some (apart : Separated l) (b : Int) (k : K) :
    valueAt l b = some k ↔ Holds l b k := by
  constructor
  · intro found
    obtain ⟨p, first, rfl⟩ := Option.map_eq_some_iff.mp found
    have inside := List.find?_some first
    simp only [decide_eq_true_eq] at inside
    exact ⟨p, mem_of_find?_eq_some first, inside.1, inside.2, rfl⟩
  · intro holds
    cases found : valueAt l b with
    | none =>
      obtain ⟨p, mem, low, high, -⟩ := holds
      have none_inside := Option.map_eq_none_iff.mp found
      have := List.find?_eq_none.mp none_inside p mem
      simp [low, high] at this
    | some j =>
      obtain ⟨p, first, rfl⟩ := Option.map_eq_some_iff.mp found
      have inside := List.find?_some first
      simp only [decide_eq_true_eq] at inside
      have here : Holds l b p.kind := ⟨p, mem_of_find?_eq_some first, inside.1, inside.2, rfl⟩
      rw [apart.unique here holds]

theorem valueAt_eq_of_holds_iff (left : Separated l) (right : Separated m)
    (same : ∀ k, Holds l b k ↔ Holds m b k) : valueAt l b = valueAt m b := by
  apply Option.ext
  intro k
  exact (left.valueAt_eq_some b k).trans ((same k).trans (right.valueAt_eq_some b k).symm)

theorem Separated.valueAt_eq_iff (left : Separated l) (right : Separated m) (b : Int) :
    valueAt l b = valueAt m b ↔ ∀ k, Holds l b k ↔ Holds m b k := by
  refine ⟨fun same k => ?_, valueAt_eq_of_holds_iff left right⟩
  rw [← left.valueAt_eq_some b k, ← right.valueAt_eq_some b k, same]

theorem Before.trans {p q r : Span K} (proper : q.lo ≤ q.hi) (left : Before p q)
    (right : Before q r) : Before p r := by
  have := left.1
  have := right.1
  exact ⟨by omega, fun _ => by omega⟩

/-- A new span between two groups that are clear of it keeps the list separated. -/
theorem Separated.insert {n : Span K} (apart : Separated (l ++ m)) (left : ∀ p ∈ l, Before p n)
    (right : ∀ q ∈ m, Before n q) : Separated (l ++ n :: m) := by
  obtain ⟨first, second, cross⟩ := pairwise_append.mp apart
  refine pairwise_append.mpr ⟨first, pairwise_cons.mpr ⟨right, second⟩, ?_⟩
  intro p hp q hq
  rcases mem_cons.mp hq with rfl | hq
  · exact left p hp
  · exact cross p hp q hq

theorem separated_append :
    Separated (l ++ m) ↔ Separated l ∧ Separated m ∧ ∀ p ∈ l, ∀ q ∈ m, Before p q :=
  pairwise_append

theorem separated_cons {p : Span K} : Separated (p :: l) ↔ (∀ q ∈ l, Before p q) ∧ Separated l :=
  pairwise_cons

end SpanMap
