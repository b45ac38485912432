import Mathlib.Data.List.Count
import Mathlib.Logic.Relation

/- Depth-first search for a goal, as the list of the vertices that it enters. -/
namespace DepthFirst
open Relation List
variable {V : Type} [DecidableEq V] {x : V}

/-- The vertices entered, the last one first, when the search enters `v` after those of `tr`. It
goes on from no vertex that it has met, nor from the goal. -/
def enter (succ : V → List V) (goal : V) : Nat → V → List V → List V
  | 0, v, tr => v :: tr
  | n + 1, v, tr =>
      if goal ∈ tr then tr
      else if v ∈ tr ∨ v = goal then v :: tr
      else (succ v).foldl (fun tr w => enter succ goal n w tr) (v :: tr)

def sweep (succ : V → List V) (goal : V) (n : Nat) (ws tr : List V) : List V :=
  ws.foldl (fun tr w => enter succ goal n w tr) tr

variable {succ : V → List V} {goal : V} {n : Nat} {v w : V} {ws tr : List V} {support : List V}

@[simp] theorem sweep_nil : sweep succ goal n [] tr = tr := rfl

@[simp] theorem sweep_cons :
    sweep succ goal n (w :: ws) tr = sweep succ goal n ws (enter succ goal n w tr) := rfl

theorem enter_met (open_ : goal ∉ tr) (met : v ∈ tr) : enter succ goal n v tr = v :: tr := by
  cases n with
  | zero => rfl
  | succ n => rw [enter, if_neg open_, if_pos (.inl met)]

theorem enter_fresh (open_ : goal ∉ tr) (fresh : v ∉ tr) (other : v ≠ goal) :
    enter succ goal (n + 1) v tr = sweep succ goal n (succ v) (v :: tr) := by
  rw [enter, if_neg open_, if_neg (not_or.mpr ⟨fresh, other⟩)]
  rfl

theorem sweep_suffix_of (each : ∀ w tr, tr <:+ enter succ goal n w tr) :
    tr <:+ sweep succ goal n ws tr := by
  induction ws generalizing tr with
  | nil => exact suffix_rfl
  | cons w ws ih => exact (each w tr).trans ih

theorem enter_suffix : tr <:+ enter succ goal n v tr := by
  induction n generalizing v tr with
  | zero => exact suffix_cons v tr
  | succ n ih =>
    rw [enter]
    split
    · exact suffix_rfl
    · split
      · exact suffix_cons v tr
      · exact (suffix_cons v tr).trans (sweep_suffix_of fun w tr => ih)

theorem sweep_suffix : tr <:+ sweep succ goal n ws tr := sweep_suffix_of fun _ _ => enter_suffix

theorem mem_enter (open_ : goal ∉ tr) : v ∈ enter succ goal n v tr := by
  cases n with
  | zero => exact mem_cons_self
  | succ n =>
    rw [enter, if_neg open_]
    split
    · exact mem_cons_self
    · exact sweep_suffix.subset mem_cons_self

theorem sweep_reach_of
    (each : ∀ w tr x, x ∈ enter succ goal n w tr → x ∈ tr ∨ ReflTransGen (fun a b => b ∈ succ a) w
      x) (mem : x ∈ sweep succ goal n ws tr) :
    x ∈ tr ∨ ∃ w ∈ ws, ReflTransGen (fun a b => b ∈ succ a) w x := by
  induction ws generalizing tr with
  | nil => exact .inl mem
  | cons w ws ih =>
    rcases ih mem with early | ⟨w', mem', path⟩
    · exact (each w tr x early).imp_right fun path => ⟨w, mem_cons_self, path⟩
    · exact .inr ⟨w', mem_cons_of_mem _ mem', path⟩

theorem enter_reach (mem : x ∈ enter succ goal n v tr) :
    x ∈ tr ∨ ReflTransGen (fun a b => b ∈ succ a) v x := by
  induction n generalizing v tr x with
  | zero =>
    rcases mem_cons.mp mem with rfl | old
    · exact .inr ReflTransGen.refl
    · exact .inl old
  | succ n ih =>
    have here : ∀ {x}, x ∈ v :: tr → x ∈ tr ∨ ReflTransGen (fun a b => b ∈ succ a) v x := by
      intro x mem
      rcases mem_cons.mp mem with rfl | old
      · exact .inr ReflTransGen.refl
      · exact .inl old
    rw [enter] at mem
    split at mem
    · exact .inl mem
    · split at mem
      · exact here mem
      · rcases sweep_reach_of (fun w tr x => ih) mem with old | ⟨w, edge, path⟩
        · exact here old
        · exact .inr (path.head edge)

def unmet (support tr : List V) : Nat := support.countP fun x => decide (x ∉ tr)

theorem unmet_mono {tr' : List V} (sub : tr ⊆ tr') : unmet support tr' ≤ unmet support tr := by
  refine countP_mono_left fun x _ fresh => ?_
  have fresh := of_decide_eq_true fresh
  exact decide_eq_true fun mem => fresh (sub mem)

theorem unmet_cons_lt (mem : v ∈ support) (fresh : v ∉ tr) :
    unmet support (v :: tr) < unmet support tr := by
  unfold unmet
  induction support with
  | nil => exact nomatch mem
  | cons x xs ih =>
    have rest : xs.countP (fun x => decide (x ∉ v :: tr)) ≤ xs.countP fun x => decide (x ∉ tr) :=
      unmet_mono (subset_cons_self v tr)
    by_cases same : x = v
    · subst same
      rw [countP_cons_of_neg (by simp), countP_cons_of_pos (by simpa using fresh)]
      exact Nat.lt_succ_of_le rest
    · have later : v ∈ xs := (mem_cons.mp mem).resolve_left fun eq => same eq.symm
      have less := ih later
      by_cases met : x ∈ tr
      · rw [countP_cons_of_neg (by simp [met]), countP_cons_of_neg (by simp [met])]
        exact less
      · rw [countP_cons_of_pos (by simp [met, same]), countP_cons_of_pos (by simp [met])]
        exact Nat.succ_lt_succ less

theorem sweep_closed_of (each : ∀ w tr, w ∈ support → unmet support tr ≤ n →
      goal ∉ enter succ goal n w tr → ∀ x ∈ enter succ goal n w tr, x ∉ tr →
        ∀ y ∈ succ x, y ∈ enter succ goal n w tr)
    (inside : ∀ w ∈ ws, w ∈ support) (room : unmet support tr ≤ n)
    (open_ : goal ∉ sweep succ goal n ws tr) :
    (∀ w ∈ ws, w ∈ sweep succ goal n ws tr) ∧
      ∀ x ∈ sweep succ goal n ws tr, x ∉ tr → ∀ y ∈ succ x, y ∈ sweep succ goal n ws tr := by
  induction ws generalizing tr with
  | nil => exact ⟨nofun, fun x mem fresh => absurd mem fresh⟩
  | cons w ws ih =>
    rw [sweep_cons] at open_ ⊢
    have still : goal ∉ enter succ goal n w tr := fun mem => open_ (sweep_suffix.subset mem)
    have before : goal ∉ tr := fun mem => still (enter_suffix.subset mem)
    obtain ⟨entered, closed⟩ := ih (fun w mem => inside w (mem_cons_of_mem _ mem))
      (Nat.le_trans (unmet_mono enter_suffix.subset) room) open_
    refine ⟨?_, ?_⟩
    · intro w' mem
      rcases mem_cons.mp mem with rfl | mem
      · exact sweep_suffix.subset (mem_enter before)
      · exact entered w' mem
    · intro x mem fresh y edge
      by_cases early : x ∈ enter succ goal n w tr
      · exact sweep_suffix.subset
          (each w tr (inside w mem_cons_self) room still x early fresh y edge)
      · exact closed x mem early y edge

/-- Where the goal is not met, every successor of an entered vertex is entered. -/
theorem enter_closed (finite : ∀ x ∈ support, ∀ y ∈ succ x, y ∈ support) (inside : v ∈ support)
    (room : unmet support tr ≤ n) (open_ : goal ∉ enter succ goal n v tr) :
    ∀ x ∈ enter succ goal n v tr, x ∉ tr → ∀ y ∈ succ x, y ∈ enter succ goal n v tr := by
  induction n generalizing v tr with
  | zero =>
    intro x mem fresh
    rcases mem_cons.mp mem with rfl | old
    · exact absurd (unmet_cons_lt inside fresh) (by omega)
    · exact absurd old fresh
  | succ n ih =>
    have before : goal ∉ tr := fun mem => open_ (enter_suffix.subset mem)
    by_cases met : v ∈ tr
    · rw [enter_met before met]
      intro x mem fresh
      rcases mem_cons.mp mem with rfl | old
      · exact absurd met fresh
      · exact absurd old fresh
    have other : v ≠ goal := by
      rintro rfl
      exact open_ (mem_enter before)
    rw [enter_fresh before met other] at open_ ⊢
    have less := unmet_cons_lt inside met
    obtain ⟨entered, closed⟩ := sweep_closed_of (fun w tr mem room still => ih mem room still)
      (finite v inside) (by omega) open_
    intro x mem fresh y edge
    by_cases here : x = v
    · subst here
      exact entered y edge
    · exact closed x mem (fun old => fresh ((mem_cons.mp old).resolve_left here)) y edge

theorem goal_mem_enter (finite : ∀ x ∈ support, ∀ y ∈ succ x, y ∈ support) (inside : v ∈ support)
    (room : support.length ≤ n) :
    goal ∈ enter succ goal n v [] ↔ ReflTransGen (fun a b => b ∈ succ a) v goal := by
  refine ⟨fun mem => (enter_reach mem).resolve_left not_mem_nil, fun path => ?_⟩
  by_contra open_
  have closed := enter_closed finite inside (Nat.le_trans countP_le_length room) open_
  have all : ∀ x, ReflTransGen (fun a b => b ∈ succ a) v x → x ∈ enter succ goal n v [] := by
    intro x path
    induction path with
    | refl => exact mem_enter not_mem_nil
    | tail _ edge ih => exact closed _ ih not_mem_nil _ edge
  exact open_ (all goal path)

end DepthFirst
