import Mathlib.Data.List.Basic

/- Lists in which the elements of one kind stand side by side. -/
namespace Blocks
open List
variable {α : Type} {p : α → Bool} {us vs xs : List α} {a b : α}

def Together (p : α → Bool) (xs : List α) : Prop :=
  ∃ us bs vs, xs = us ++ (bs ++ vs) ∧ (∀ x ∈ us, p x = false) ∧ (∀ x ∈ bs, p x = true) ∧
    ∀ x ∈ vs, p x = false

theorem together_of_none (none : ∀ x ∈ xs, p x = false) : Together p xs :=
  ⟨xs, [], [], by simp, none, nofun, nofun⟩

theorem Together.around (together : Together p (us ++ b :: vs)) (here : p b = true) :
    ∃ as bs cs ds, us = as ++ bs ∧ vs = cs ++ ds ∧ (∀ x ∈ as, p x = false) ∧
      (∀ x ∈ bs, p x = true) ∧ (∀ x ∈ cs, p x = true) ∧ ∀ x ∈ ds, p x = false := by
  obtain ⟨as, block, ds, split, before, inside, behind⟩ := together
  rcases append_eq_append_iff.mp split with ⟨ms, as_eq, rest⟩ | ⟨bs, us_eq, rest⟩
  · cases ms with
    | nil =>
      rw [append_nil] at as_eq
      cases block with
      | nil =>
        have b_mem : b ∈ ds := by
          rw [nil_append, nil_append] at rest
          rw [← rest]
          exact mem_cons_self
        rw [behind b b_mem] at here
        exact absurd here Bool.false_ne_true
      | cons c cs =>
        obtain ⟨rfl, rfl⟩ := cons.inj rest
        refine ⟨us, [], cs, ds, (append_nil us).symm, rfl, as_eq ▸ before, nofun, ?_, behind⟩
        exact fun x mem => inside x (mem_cons_of_mem _ mem)
    | cons m ms =>
      obtain ⟨rfl, -⟩ := cons.inj rest
      rw [before b (by rw [as_eq]; simp)] at here
      exact absurd here Bool.false_ne_true
  · rcases append_eq_append_iff.mp rest with ⟨ms, bs_eq, tail⟩ | ⟨cs, block_eq, tail⟩
    · have b_mem : b ∈ ds := by
        rw [tail]
        simp
      rw [behind b b_mem] at here
      exact absurd here Bool.false_ne_true
    cases cs with
    | nil =>
      have b_mem : b ∈ ds := by
        rw [nil_append] at tail
        rw [← tail]
        exact mem_cons_self
      rw [behind b b_mem] at here
      exact absurd here Bool.false_ne_true
    | cons c cs =>
      obtain ⟨rfl, rfl⟩ := cons.inj tail
      refine ⟨as, bs, cs, ds, us_eq, rfl, before, ?_, ?_, behind⟩
      · exact fun x mem => inside x (by rw [block_eq]; exact mem_append_left _ mem)
      · exact fun x mem => inside x (by rw [block_eq]; simp [mem])

theorem together_append_of_front (none : ∀ x ∈ us, p x = false) :
    Together p (us ++ vs) ↔ Together p vs := by
  constructor
  · intro together
    by_cases some_here : ∃ b ∈ vs, p b = true
    · obtain ⟨b, mem, here⟩ := some_here
      obtain ⟨fs, gs, rfl⟩ := append_of_mem mem
      rw [← append_assoc] at together
      obtain ⟨as, bs, cs, ds, front, rfl, before, block, rest, behind⟩ := together.around here
      -- the block starts behind `us`
      rcases append_eq_append_iff.mp front with ⟨ms, rfl, rfl⟩ | ⟨ms, us_eq, bs_eq⟩
      · refine ⟨ms, bs ++ b :: cs, ds, by simp, ?_, ?_, behind⟩
        · exact fun x mem => before x (mem_append_right _ mem)
        · intro x mem
          simp only [mem_append, mem_cons] at mem
          rcases mem with early | rfl | late
          · exact block x early
          · exact here
          · exact rest x late
      · refine ⟨[], fs ++ b :: cs, ds, by simp, nofun, ?_, behind⟩
        intro x mem
        simp only [mem_append, mem_cons] at mem
        rcases mem with early | rfl | late
        · exact block x (by rw [bs_eq]; exact mem_append_right _ early)
        · exact here
        · exact rest x late
    · refine together_of_none fun x mem => ?_
      by_contra pass
      exact some_here ⟨x, mem, by simpa using pass⟩
  · rintro ⟨as, bs, cs, rfl, before, inside, behind⟩
    refine ⟨us ++ as, bs, cs, by simp, ?_, inside, behind⟩
    intro x mem
    rcases mem_append.mp mem with early | late
    · exact none x early
    · exact before x late

theorem together_reverse : Together p xs.reverse ↔ Together p xs := by
  have turn : ∀ ys : List α, Together p ys → Together p ys.reverse := by
    rintro ys ⟨us, bs, vs, rfl, before, inside, behind⟩
    refine ⟨vs.reverse, bs.reverse, us.reverse, by simp, ?_, ?_, ?_⟩
    · exact fun x mem => behind x (mem_reverse.mp mem)
    · exact fun x mem => inside x (mem_reverse.mp mem)
    · exact fun x mem => before x (mem_reverse.mp mem)
  refine ⟨fun together => ?_, turn xs⟩
  have back := turn _ together
  rwa [reverse_reverse] at back

theorem together_append_of_back (none : ∀ x ∈ vs, p x = false) :
    Together p (us ++ vs) ↔ Together p us := by
  rw [← together_reverse, reverse_append,
    together_append_of_front fun x mem => none x (mem_reverse.mp mem), together_reverse]

theorem Together.apart (together : Together p (us ++ a :: vs)) (other : p a = false) :
    (∀ x ∈ us, p x = false) ∨ ∀ x ∈ vs, p x = false := by
  by_contra both
  push Not at both
  obtain ⟨⟨x, mem, here⟩, y, behind, there⟩ := both
  obtain ⟨fs, gs, rfl⟩ := append_of_mem mem
  have split : fs ++ x :: gs ++ a :: vs = fs ++ x :: (gs ++ a :: vs) := by simp
  rw [split] at together
  obtain ⟨-, -, cs, ds, -, rest, -, -, inside, outside⟩ := together.around (by simpa using here)
  rcases append_eq_append_iff.mp rest with ⟨ms, cs_eq, tail⟩ | ⟨ms, -, ds_eq⟩
  · cases ms with
    | nil =>
      have y_mem : y ∈ ds := by
        rw [nil_append] at tail
        rw [← tail]
        exact mem_cons_of_mem _ behind
      rw [outside y y_mem] at there
      exact there rfl
    | cons m ms =>
      obtain ⟨rfl, -⟩ := cons.inj tail
      rw [inside a (by rw [cs_eq]; simp)] at other
      exact Bool.false_ne_true other.symm
  · have y_mem : y ∈ ds := by
      rw [ds_eq]
      simp [behind]
    rw [outside y y_mem] at there
    exact there rfl

theorem Together.insert_other (together : Together p (us ++ vs)) (other : p a = false)
    (side : (∀ x ∈ us, p x = false) ∨ ∀ x ∈ vs, p x = false) : Together p (us ++ a :: vs) := by
  rcases side with front | back
  · rw [together_append_of_front front] at together ⊢
    rw [← singleton_append, together_append_of_front (by simp [other])]
    exact together
  · rw [together_append_of_back back] at together
    rw [append_cons, together_append_of_back back, together_append_of_back (by simp [other])]
    exact together

/-- A new element may come in next to one of the block. -/
theorem Together.insert_front (together : Together p (us ++ b :: vs)) (here : p b = true)
    (same : p a = true) : Together p (us ++ a :: b :: vs) := by
  obtain ⟨as, bs, cs, ds, rfl, rfl, before, front, rest, behind⟩ := together.around here
  refine ⟨as, bs ++ a :: b :: cs, ds, by simp, before, ?_, behind⟩
  intro x mem
  simp only [mem_append, mem_cons] at mem
  rcases mem with early | rfl | rfl | late
  · exact front x early
  · exact same
  · exact here
  · exact rest x late

theorem Together.insert_back (together : Together p (us ++ b :: vs)) (here : p b = true)
    (same : p a = true) : Together p (us ++ b :: a :: vs) := by
  have turned : Together p (vs.reverse ++ b :: us.reverse) := by
    have back := together_reverse.mpr together
    simpa using back
  have back := together_reverse.mpr (turned.insert_front here same)
  simpa using back

theorem together_insert_new (front : ∀ x ∈ us, p x = false) (back : ∀ x ∈ vs, p x = false) :
    Together p (us ++ a :: vs) := by
  rw [together_append_of_front front, ← singleton_append, together_append_of_back back]
  cases here : p a with
  | false => exact together_of_none (by simp [here])
  | true => exact ⟨[], [a], [], rfl, nofun, by simp [here], nofun⟩

theorem Together.erase (together : Together p (us ++ a :: vs)) : Together p (us ++ vs) := by
  cases here : p a with
  | true =>
    obtain ⟨as, bs, cs, ds, rfl, rfl, before, front, rest, behind⟩ := together.around here
    refine ⟨as, bs ++ cs, ds, by simp, before, ?_, behind⟩
    intro x mem
    rcases mem_append.mp mem with early | late
    · exact front x early
    · exact rest x late
  | false =>
    rcases together.apart here with front | back
    · rw [together_append_of_front front, ← singleton_append,
        together_append_of_front (by simp [here])] at together
      rwa [together_append_of_front front]
    · rw [append_cons, together_append_of_back back,
        together_append_of_back (by simp [here])] at together
      rwa [together_append_of_back back]

theorem Together.head_eq (together : Together p (us ++ a :: vs)) (here : p a = true) :
    (vs.filter p).head? = vs.head?.filter p := by
  obtain ⟨-, -, cs, ds, -, rfl, -, -, inside, outside⟩ := together.around here
  have none_behind : ds.filter p = [] := filter_eq_nil_iff.mpr fun x mem => by simp [outside x mem]
  rw [filter_append, filter_eq_self.mpr inside, none_behind, append_nil]
  cases cs with
  | nil =>
    cases ds with
    | nil => rfl
    | cons d ds => simp [Option.filter_some, outside d mem_cons_self]
  | cons c cs => simp [Option.filter_some, inside c mem_cons_self]

theorem Together.last_eq (together : Together p (us ++ a :: vs)) (here : p a = true) :
    (us.filter p).getLast? = us.getLast?.filter p := by
  have turned : Together p (vs.reverse ++ a :: us.reverse) := by
    have back := together_reverse.mpr together
    simpa using back
  have head := turned.head_eq here
  rwa [filter_reverse, head?_reverse, head?_reverse] at head

end Blocks
