import Mathlib.Data.List.Nodup
import Mathlib.Data.List.Perm.Subperm

/- Following pointers from vertex to vertex, where each vertex points to one vertex at
   most, and graphs that grow edge by edge without closing a cycle. -/
namespace WaitGraph
open Relation
variable {V : Type} {R : V → V → Prop}

def Acyclic (R : V → V → Prop) : Prop := ∀ a, ¬ TransGen R a a

theorem Acyclic.mono {R S : V → V → Prop} (acyclic : Acyclic R) (sub : ∀ a b, S a b → R a b) :
    Acyclic S := fun a loop => acyclic a (TransGen.mono sub _ _ loop)

theorem path_with_edge {o b x y : V} (apart : ¬ ReflTransGen R b o)
    (path : TransGen (fun u v => R u v ∨ (u = o ∧ v = b)) x y) :
    TransGen R x y ∨ (ReflTransGen R x o ∧ ReflTransGen R b y) := by
  induction path with
  | single edge =>
    rcases edge with old | ⟨rfl, rfl⟩
    · exact .inl (TransGen.single old)
    · exact .inr ⟨ReflTransGen.refl, ReflTransGen.refl⟩
  | tail _ edge ih =>
    rcases edge with old | ⟨rfl, rfl⟩
    · rcases ih with path | ⟨left, right⟩
      · exact .inl (path.tail old)
      · exact .inr ⟨left, right.tail old⟩
    · rcases ih with path | ⟨-, right⟩
      · exact .inr ⟨path.to_reflTransGen, ReflTransGen.refl⟩
      · exact absurd right apart

theorem Acyclic.add (acyclic : Acyclic R) {o b : V} (apart : ¬ ReflTransGen R b o) :
    Acyclic fun u v => R u v ∨ (u = o ∧ v = b) := by
  intro a loop
  rcases path_with_edge apart loop with old | ⟨left, right⟩
  · exact acyclic a old
  · exact apart (right.trans left)

section Follow
variable [DecidableEq V]

def follow (next : V → Option V) (goal : V) : Nat → V → Option Bool
  | 0, _ => none
  | rounds + 1, a =>
      if a = goal then some true
      else match next a with
        | none => some false
        | some b => follow next goal rounds b

variable {next : V → Option V} {goal a : V} {r : Bool}

theorem follow_exact {n : Nat} (ends : follow next goal n a = some r) :
    r = true ↔ ReflTransGen (fun a b => next a = some b) a goal := by
  induction n generalizing a with
  | zero => simp [follow] at ends
  | succ n ih =>
    by_cases here : a = goal
    · subst here
      have yes : r = true := by simpa [follow] using ends.symm
      simp [yes, ReflTransGen.refl]
    cases step : next a with
    | none =>
      have no : r = false := by simpa [follow, here, step] using ends.symm
      simp only [no, Bool.false_eq_true, false_iff]
      intro path
      rcases ReflTransGen.cases_head path with same | ⟨b, edge, -⟩
      · exact here same
      · simp [step] at edge
    | some b =>
      simp only [follow, here, if_false, step] at ends
      rw [ih ends]
      constructor
      · exact fun path => ReflTransGen.head step path
      · intro path
        rcases ReflTransGen.cases_head path with same | ⟨c, edge, rest⟩
        · exact absurd same here
        · obtain rfl : b = c := Option.some.inj (step.symm.trans edge)
          exact rest

variable {support : List V}

section
variable (acyclic : Acyclic fun a b => next a = some b)
  (finite : ∀ a b, next a = some b → a ∈ support)
include acyclic finite

/-- The vertices passed so far lead to `a` and are all different. -/
theorem follow_ends_from (n : Nat) (trail : List V) (distinct : trail.Nodup)
    (known : trail ⊆ support) (lead : ∀ t ∈ trail, TransGen (fun a b => next a = some b) t a)
    (enough : support.length + 2 ≤ n + trail.length) : ∃ r, follow next goal n a = some r := by
  induction n generalizing a trail with
  | zero =>
    have := (List.subperm_of_subset distinct known).length_le
    omega
  | succ n ih =>
    by_cases here : a = goal
    · exact ⟨true, by simp [follow, here]⟩
    cases step : next a with
    | none => exact ⟨false, by simp [follow, here, step]⟩
    | some b =>
      have new : a ∉ trail := fun mem => acyclic a (lead a mem)
      simp only [follow, here, if_false, step]
      refine ih (a :: trail) (List.nodup_cons.mpr ⟨new, distinct⟩) ?_ ?_ ?_
      · exact List.cons_subset.mpr ⟨finite a b step, known⟩
      · intro t mem
        rcases List.mem_cons.mp mem with rfl | mem
        · exact TransGen.single step
        · exact (lead t mem).tail step
      · simp only [List.length_cons]
        omega

theorem follow_ends (goal a : V) : ∃ r, follow next goal (support.length + 2) a = some r :=
  follow_ends_from acyclic finite (support.length + 2) [] List.nodup_nil (by simp) (by simp)
    (by simp)

end

end Follow

end WaitGraph
