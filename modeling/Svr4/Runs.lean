import Mathlib.Data.List.Basic

/- Deterministic labelled machines. A label carries every choice the environment
   makes, so a run is a list of labels; `none` is a label that cannot be taken. -/
namespace LabelledRuns
variable {S L : Type}

def exec (step : S → L → Option S) : S → List L → Option S
  | s, [] => some s
  | s, l :: ls => (step s l).bind fun t => exec step t ls

/-- Every step of the run is taken in a state that satisfies `ok`. -/
def Guarded (step : S → L → Option S) (ok : S → L → Prop) : S → List L → Prop
  | _, [] => True
  | s, l :: ls => ok s l ∧ ∀ t, step s l = some t → Guarded step ok t ls

instance Guarded.decidable {step : S → L → Option S} {ok : S → L → Prop}
    [∀ s l, Decidable (ok s l)] : ∀ (s : S) (ls : List L), Decidable (Guarded step ok s ls)
  | _, [] => inferInstanceAs (Decidable True)
  | s, l :: ls =>
      have : ∀ t, Decidable (Guarded step ok t ls) := fun t => Guarded.decidable t ls
      inferInstanceAs (Decidable (ok s l ∧ ∀ t ∈ step s l, Guarded step ok t ls))

def Throughout (step : S → L → Option S) (P : S → Prop) : S → List L → Prop
  | s, [] => P s
  | s, l :: ls => P s ∧ ∀ t, step s l = some t → Throughout step P t ls

@[simp] theorem exec_nil (step : S → L → Option S) (s : S) : exec step s [] = some s := rfl

variable {step : S → L → Option S} {ok : S → L → Prop} (inv : S → Prop) {P : S → Prop} {s t : S}
  {ls : List L}

theorem exec_cons_eq_some {l : L} :
    exec step s (l :: ls) = some t ↔ ∃ u, step s l = some u ∧ exec step u ls = some t := by
  simp [exec, Option.bind_eq_some_iff]

theorem exec_append {ms : List L} {u : S} (first : exec step s ls = some t)
    (second : exec step t ms = some u) : exec step s (ls ++ ms) = some u := by
  induction ls generalizing s with
  | nil =>
    obtain rfl : s = t := by simpa using first
    exact second
  | cons l ls ih =>
    obtain ⟨v, taken, rest⟩ := exec_cons_eq_some.mp first
    exact exec_cons_eq_some.mpr ⟨v, taken, ih rest⟩

/-- The invariant rule: what each guarded step preserves holds at the end of a guarded run. -/
theorem exec_invariant (preserved : ∀ s l t, inv s → ok s l → step s l = some t → inv t)
    (start : inv s) (guarded : Guarded step ok s ls) (run : exec step s ls = some t) : inv t := by
  induction ls generalizing s with
  | nil =>
    obtain rfl : s = t := by simpa using run
    exact start
  | cons l ls ih =>
    obtain ⟨u, hu, rest⟩ := exec_cons_eq_some.mp run
    exact ih (preserved s l u start guarded.1 hu) (guarded.2 u hu) rest

theorem exec_of_guarded (taken : ∀ s l, inv s → ok s l → ∃ t, step s l = some t ∧ inv t)
    (start : inv s) (guarded : Guarded step ok s ls) : ∃ t, exec step s ls = some t := by
  induction ls generalizing s with
  | nil => exact ⟨s, rfl⟩
  | cons l ls ih =>
    obtain ⟨u, hu, after⟩ := taken s l start guarded.1
    obtain ⟨t, rest⟩ := ih after (guarded.2 u hu)
    exact ⟨t, exec_cons_eq_some.mpr ⟨u, hu, rest⟩⟩

theorem guarded_of_forall (all : ∀ s l, ok s l) (s : S) (ls : List L) : Guarded step ok s ls := by
  induction ls generalizing s with
  | nil => trivial
  | cons l ls ih => exact ⟨all s l, fun t _ => ih t⟩

theorem exec_preserves (preserved : ∀ s l t, inv s → step s l = some t → inv t) (start : inv s)
    (run : exec step s ls = some t) : inv t :=
  exec_invariant inv (fun s l t hs _ => preserved s l t hs) start
    (guarded_of_forall (fun _ _ => trivial) s ls) run

theorem Throughout.start (through : Throughout step P s ls) : P s := by
  cases ls with
  | nil => exact through
  | cons l ls => exact through.1

/-- Guarded steps that preserve an invariant keep what it implies all along the run. -/
theorem throughout_of_guarded (implies : ∀ s, inv s → P s)
    (preserved : ∀ s l t, inv s → ok s l → step s l = some t → inv t) (start : inv s)
    (guarded : Guarded step ok s ls) : Throughout step P s ls := by
  induction ls generalizing s with
  | nil => exact implies s start
  | cons l ls ih =>
    exact ⟨implies s start, fun t taken => ih (preserved s l t start guarded.1 taken)
      (guarded.2 t taken)⟩

theorem guarded_of_throughout (preserved : ∀ s l t, inv s → step s l = some t → inv t)
    (needed : ∀ s l t, inv s → step s l = some t → P t → ok s l) (start : inv s)
    (through : Throughout step P s ls) (run : exec step s ls = some t) : Guarded step ok s ls := by
  induction ls generalizing s with
  | nil => trivial
  | cons l ls ih =>
    obtain ⟨u, taken, rest⟩ := exec_cons_eq_some.mp run
    have after := through.2 u taken
    refine ⟨needed s l u start taken after.start, ?_⟩
    intro v taken'
    obtain rfl : u = v := Option.some.inj (taken.symm.trans taken')
    exact ih (preserved s l u start taken) after rest

end LabelledRuns
