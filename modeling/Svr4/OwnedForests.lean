import Mathlib.Logic.Basic

/- Forests whose trees have owners: an owner has roots at levels, and a node of one level has
   children at the level below. -/
namespace OwnedForests
variable {ι α : Type} {root root' : ι → Nat → α → Prop} {child child' : α → α → Prop} {leaf : α}
  {l : Nat} {o : ι}

inductive Recorded (root : ι → Nat → α → Prop) (child : α → α → Prop) (owner : ι) :
    Nat → α → Prop
  | root {level : Nat} {a : α} (at_root : root owner level a) : Recorded root child owner level a
  | child {level : Nat} {a b : α} (above : Recorded root child owner (level + 1) a)
      (edge : child a b) : Recorded root child owner level b

def OnePlace (root : ι → Nat → α → Prop) (child : α → α → Prop) : Prop :=
  ∀ ⦃owner owner' level level' a⦄, Recorded root child owner level a →
    Recorded root child owner' level' a → owner = owner' ∧ level = level'

variable {owner : ι} {level : Nat} {a : α}

theorem recorded_congr
    (same : ∀ owner level a b, Recorded root child owner (level + 1) a → (child' a b ↔ child a b)) :
    Recorded root child' owner level a ↔ Recorded root child owner level a := by
  constructor
  · intro h
    induction h with
    | root at_root => exact Recorded.root at_root
    | child above edge ih => exact Recorded.child ih ((same _ _ _ _ ih).mp edge)
  · intro h
    induction h with
    | root at_root => exact Recorded.root at_root
    | child above edge ih => exact Recorded.child ih ((same _ _ _ _ above).mpr edge)

structure Grown (root root' : ι → Nat → α → Prop) (child child' : α → α → Prop) (owner : ι)
    (level : Nat) (leaf : α) : Prop where
  roots : ∀ {o l a}, root o l a → root' o l a
  new_roots : ∀ {o l a}, root' o l a → root o l a ∨ (o = owner ∧ l = level ∧ a = leaf)
  children : ∀ {o l a b}, Recorded root child o (l + 1) a → child a b → child' a b
  new_children : ∀ {o l a b}, Recorded root child o (l + 1) a → child' a b →
    child a b ∨ (o = owner ∧ l = level ∧ b = leaf)
  childless : 0 < level → ∀ b, ¬ child' leaf b
  there : Recorded root' child' owner level leaf

theorem Grown.recorded_iff (h : Grown root root' child child' owner level leaf) :
    Recorded root' child' o l a ↔
      Recorded root child o l a ∨ (o = owner ∧ l = level ∧ a = leaf) := by
  constructor
  · intro recorded
    induction recorded with
    | root at_root => exact (h.new_roots at_root).imp Recorded.root id
    | child above edge ih =>
      rcases ih with old | ⟨-, same, rfl⟩
      · exact (h.new_children old edge).imp (Recorded.child old) id
      · exact absurd edge (h.childless (same ▸ Nat.succ_pos _) _)
  · rintro (recorded | ⟨rfl, rfl, rfl⟩)
    · induction recorded with
      | root at_root => exact Recorded.root (h.roots at_root)
      | child above edge ih => exact Recorded.child ih (h.children above edge)
    · exact h.there

theorem Grown.one_place (h : Grown root root' child child' owner level leaf)
    (one : OnePlace root child) (new : ∀ o l, ¬ Recorded root child o l leaf) :
    OnePlace root' child' := by
  intro o o' l l' a first second
  rcases h.recorded_iff.mp first with first | ⟨rfl, rfl, rfl⟩ <;>
    rcases h.recorded_iff.mp second with second | ⟨rfl, rfl, same⟩
  · exact one first second
  · exact absurd (same ▸ first) (new o l)
  · exact absurd second (new _ _)
  · exact ⟨rfl, rfl⟩

theorem recorded_cut (roots : ∀ o l a, root' o l a ↔ o ≠ owner ∧ root o l a) :
    Recorded root' child o l a ↔ o ≠ owner ∧ Recorded root child o l a := by
  constructor
  · intro h
    induction h with
    | root at_root => exact ((roots _ _ _).mp at_root).imp id Recorded.root
    | child above edge ih => exact ih.imp id fun old => Recorded.child old edge
  · rintro ⟨other, h⟩
    induction h with
    | root at_root => exact Recorded.root ((roots _ _ _).mpr ⟨other, at_root⟩)
    | child above edge ih => exact Recorded.child ih edge

end OwnedForests
