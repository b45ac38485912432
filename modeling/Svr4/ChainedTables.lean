import Mathlib.Logic.Function.Basic

/- A stack kept in tables of bounded size: the table in front, and behind each table the one
   that its lowest entry holds, down to a marker. -/
namespace ChainedTables
open Function
variable {α : Type} {Holds Holds' : α → Nat → (Nat → α) → Prop} {marker b : α} {capacity : Nat}
  {e' : Nat → α}

/-- `Holds c n e` says that `c` holds the table of the `n` entries of `e`. -/
inductive Lists (Holds : α → Nat → (Nat → α) → Prop) (marker : α) (capacity : Nat) :
    Nat → (Nat → α) → List α → Prop
  | bottom {e : Nat → α} (last : e 0 = marker) : Lists Holds marker capacity 1 e []
  | link {e below : Nat → α} {n : Nat} {rest : List α} (some_ : e 0 ≠ marker)
      (held : Holds (e 0) n below) (positive : 0 < n) (fits : n ≤ capacity)
      (tail : Lists Holds marker capacity n below rest) :
      Lists Holds marker capacity 1 e (e 0 :: rest)
  | entry {e : Nat → α} {n : Nat} {rest : List α} (some_ : e n ≠ marker) (positive : 0 < n)
      (tail : Lists Holds marker capacity n e rest) :
      Lists Holds marker capacity (n + 1) e (e n :: rest)

variable {n : Nat} {e : Nat → α} {stack : List α}

section
variable (h : Lists Holds marker capacity n e stack)
include h

theorem Lists.positive : 0 < n := by
  cases h with
  | bottom => exact Nat.one_pos
  | link => exact Nat.one_pos
  | entry => exact Nat.succ_pos _

theorem Lists.frame (same : ∀ c ∈ stack, ∀ n e, Holds c n e → Holds' c n e) :
    Lists Holds' marker capacity n e stack := by
  induction h with
  | bottom last => exact Lists.bottom last
  | link some_ held positive fits tail ih =>
    exact Lists.link some_ (same _ List.mem_cons_self _ _ held) positive fits
      (ih fun c mem => same c (List.mem_cons_of_mem _ mem))
  | entry some_ positive tail ih =>
    exact Lists.entry some_ positive (ih fun c mem => same c (List.mem_cons_of_mem _ mem))

theorem Lists.congr (same : ∀ k < n, e' k = e k) : Lists Holds marker capacity n e' stack := by
  induction h with
  | bottom last => exact Lists.bottom ((same 0 Nat.one_pos).trans last)
  | link some_ held positive fits tail =>
    have first := same 0 Nat.one_pos
    rw [← first] at some_ held ⊢
    exact Lists.link some_ held positive fits tail
  | @entry e n rest some_ positive tail ih =>
    have top := same n (Nat.lt_succ_self n)
    rw [← top] at some_ ⊢
    exact Lists.entry some_ positive (ih fun k below => same k (Nat.lt_succ_of_lt below))

theorem Lists.push [DecidableEq α] (some_ : b ≠ marker) :
    Lists Holds marker capacity (n + 1) (Function.update e n b) (b :: stack) := by
  have top : update e n b n = b := update_self n b e
  have lower : Lists Holds marker capacity n (update e n b) stack :=
    h.congr fun k below => update_of_ne (Nat.ne_of_lt below) b e
  have pushed := Lists.entry (e := update e n b) (by rwa [top]) h.positive lower
  rwa [top] at pushed

theorem Lists.chain (first : e' 0 = b) (some_ : b ≠ marker) (held : Holds b n e)
    (fits : n ≤ capacity) :
    Lists Holds marker capacity 1 e' (b :: stack) := by
  subst first
  exact Lists.link some_ held h.positive fits h

end

end ChainedTables
