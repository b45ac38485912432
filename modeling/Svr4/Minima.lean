/- The choice of a least element in one pass over a list. -/
namespace Minima
variable {α : Type} {P : α → Prop} {key : α → Int} {S T : α → Prop} {r : Option α} {x : α}

/-- One of `S` with `P` that has the least key; none if there are none. -/
def Picks (P : α → Prop) (key : α → Int) (S : α → Prop) : Option α → Prop
  | none => ∀ a, S a → ¬P a
  | some a => S a ∧ P a ∧ ∀ b, S b → P b → key a ≤ key b

theorem picks_nothing : Picks P key (fun _ => False) none := fun _ never => never.elim

theorem Picks.congr (picks : Picks P key S r) (same : ∀ a, S a ↔ T a) : Picks P key T r := by
  rwa [show T = S from funext fun a => propext (same a).symm]

theorem Picks.skip (picks : Picks P key S r) (no_less : P x → ∃ a, r = some a ∧ key a ≤ key x) :
    Picks P key (fun a => S a ∨ a = x) r := by
  cases r with
  | none =>
    intro a member holds
    rcases member with old | rfl
    · exact picks a old holds
    · obtain ⟨b, never, -⟩ := no_less holds
      cases never
  | some a =>
    refine ⟨.inl picks.1, picks.2.1, fun b member holds => ?_⟩
    rcases member with old | rfl
    · exact picks.2.2 b old holds
    · obtain ⟨c, same, least⟩ := no_less holds
      cases same
      exact least

theorem Picks.take (picks : Picks P key S r) (holds : P x)
    (less : ∀ a, r = some a → key x ≤ key a) : Picks P key (fun a => S a ∨ a = x) (some x) := by
  refine ⟨.inr rfl, holds, fun b member other => ?_⟩
  rcases member with old | rfl
  · cases r with
    | none => exact absurd other (picks b old)
    | some a => exact Int.le_trans (less a rfl) (picks.2.2 b old other)
  · exact Int.le_refl _

end Minima
