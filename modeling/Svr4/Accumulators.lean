import Mathlib.Data.List.Basic

/- Steps of a loop that put things into a list in the state, the same whatever the state is. -/
namespace Accumulators
variable {S A α : Type} {R P Q : α → Prop} {view : S → List α} {f g : S → S}

/-- Of the things in `R`, the step puts exactly those in `P` into the list. -/
def Adds (R : α → Prop) (view : S → List α) (f : S → S) (P : α → Prop) : Prop :=
  ∀ s x, R x → (x ∈ view (f s) ↔ x ∈ view s ∨ P x)

theorem Adds.nothing (same : ∀ s, view (f s) = view s) : Adds R view f fun _ => False := by
  intro s x _
  rw [same, or_false]

theorem Adds.append {xs : List α} (appended : ∀ s, view (f s) = view s ++ xs) :
    Adds R view f (· ∈ xs) := by
  intro s x _
  rw [appended, List.mem_append]

theorem Adds.congr (h : Adds R view f P) (same : ∀ x, R x → (P x ↔ Q x)) : Adds R view f Q := by
  intro s x r
  rw [h s x r, same x r]

theorem Adds.comp (first : Adds R view f P) (second : Adds R view g Q) :
    Adds R view (fun s => g (f s)) fun x => P x ∨ Q x := by
  intro s x r
  rw [second (f s) x r, first s x r, or_assoc]

theorem Adds.foldl {step : S → A → S} {P : A → α → Prop}
    (each : ∀ a, Adds R view (fun s => step s a) (P a)) (as : List A) :
    Adds R view (fun s => as.foldl step s) fun x => ∃ a ∈ as, P a x := by
  intro s x r
  induction as generalizing s with
  | nil => simp
  | cons a as ih =>
    refine (ih (step s a)).trans ((or_congr_left (each a s x r)).trans ?_)
    simp [or_assoc]

end Accumulators
