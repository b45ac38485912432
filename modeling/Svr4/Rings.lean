import Mathlib.Data.List.Chain
import Mathlib.Data.List.Nodup

/- Doubly linked rings. Every ring has a header cell, which is in it for good; the other
   cells come and go. The cells of several rings may share one pair of link fields. -/
namespace Rings
open Function List

structure Links (α : Type) where
  next : α → α
  prev : α → α

namespace Links
variable {α : Type}

/-- `a->next = b->next; a->prev = b; b->next->prev = a; b->next = a;` -/
def insertAfter [DecidableEq α] (l : Links α) (a b : α) : Links α :=
  let c := l.next b
  { next := update (update l.next a c) b a
    prev := update (update l.prev a b) c a }

/-- `a->prev->next = a->next; a->next->prev = a->prev;` -/
def remove [DecidableEq α] (l : Links α) (a : α) : Links α :=
  { next := update l.next (l.prev a) (l.next a)
    prev := update l.prev (l.next a) (l.prev a) }

/-- `a->next = a->prev = a;` -/
def single [DecidableEq α] (l : Links α) (a : α) : Links α :=
  { next := update l.next a a
    prev := update l.prev a a }

/-- `for (p = from; p != h; p = p->next) if (test(p)) return p;` in `fuel` rounds at most. -/
def find [DecidableEq α] (l : Links α) (h : α) (test : α → Bool) : Nat → α → Option α
  | 0, _ => none
  | fuel + 1, p => if p = h then none else if test p then some p else find l h test fuel (l.next p)

def Joined (l : Links α) (a b : α) : Prop := l.next a = b ∧ l.prev b = a

end Links

open Links

/-- The ring of `h` has these further cells, in this order. -/
structure Ring {α : Type} (l : Links α) (h : α) (xs : List α) : Prop where
  linked : (h :: xs ++ [h]).IsChain l.Joined
  nodup : (h :: xs).Nodup

def Alone {α : Type} (l : Links α) (a : α) : Prop := l.next a = a ∧ l.prev a = a

section
variable {α : Type} {R S : α → α → Prop} {l l' : Links α} {a b c h x : α} {xs ys pre post : List α}

theorem chain_imp {zs : List α} (chain : zs.IsChain R)
    (imp : ∀ x ∈ zs.dropLast, ∀ y ∈ zs.tail, R x y → S x y) : zs.IsChain S := by
  induction zs with
  | nil => exact .nil
  | cons x zs ih =>
    cases zs with
    | nil => exact .singleton x
    | cons y zs =>
      rw [isChain_cons_cons] at chain ⊢
      refine ⟨imp x (by simp) y (by simp) chain.1, ih chain.2 ?_⟩
      intro u hu v hv
      refine imp u ?_ v (mem_cons_of_mem _ hv)
      rw [dropLast_cons_of_ne_nil (by simp)]
      exact mem_cons_of_mem _ hu

theorem Ring.header_off (ring : Ring l h xs) : h ∉ xs := (nodup_cons.mp ring.nodup).1

theorem Ring.cells (ring : Ring l h xs) : xs.Nodup := (nodup_cons.mp ring.nodup).2

theorem Ring.congr (ring : Ring l h xs)
    (same : ∀ x ∈ h :: xs, l'.next x = l.next x ∧ l'.prev x = l.prev x) : Ring l' h xs := by
  have all : ∀ x ∈ h :: xs ++ [h], x ∈ h :: xs := by
    intro x hx
    simp only [mem_append, mem_cons, not_mem_nil, or_false] at hx ⊢
    tauto
  refine ⟨chain_imp ring.linked ?_, ring.nodup⟩
  intro x hx y hy joined
  have first := same x (all x (dropLast_subset _ hx))
  have second := same y (all y (mem_of_mem_tail hy))
  exact ⟨first.1.trans joined.1, second.2.trans joined.2⟩

theorem ring_nil : Ring l h [] ↔ Alone l h := by
  constructor
  · intro ring
    obtain ⟨joined, -⟩ := isChain_cons_cons.mp (show [h, h].IsChain l.Joined from ring.linked)
    exact joined
  · intro alone
    exact ⟨isChain_cons_cons.mpr ⟨alone, .singleton h⟩, nodup_singleton h⟩

/-- Where a cell is in the ring, with the cells in front of it and behind it. -/
theorem Ring.joined (ring : Ring l h (xs ++ a :: ys)) :
    Joined l (xs.getLastD h) a ∧ Joined l a (ys.headD h) := by
  have linked := ring.linked
  constructor
  · rcases xs.eq_nil_or_concat' with rfl | ⟨zs, p, rfl⟩
    · exact (isChain_cons_cons.mp linked).1
    · have split : h :: (zs ++ [p] ++ a :: ys) ++ [h] =
          (h :: zs) ++ p :: a :: (ys ++ [h]) := by simp
      rw [split, isChain_append_cons_cons] at linked
      simpa [getLastD_concat] using linked.2.1
  · cases ys with
    | nil =>
      have split : h :: (xs ++ [a]) ++ [h] = (h :: xs) ++ a :: h :: [] := by simp
      rw [split, isChain_append_cons_cons] at linked
      exact linked.2.1
    | cons n ys =>
      have split : h :: (xs ++ a :: n :: ys) ++ [h] = (h :: xs) ++ a :: n :: (ys ++ [h]) := by simp
      rw [split, isChain_append_cons_cons] at linked
      exact linked.2.1

theorem Ring.next_header (ring : Ring l h xs) : l.next h = xs.headD h := by
  cases xs with
  | nil => exact (ring_nil.mp ring).1
  | cons x xs => exact (isChain_cons_cons.mp ring.linked).1.1

theorem Ring.prev_header (ring : Ring l h xs) : l.prev h = xs.getLastD h := by
  rcases xs.eq_nil_or_concat' with rfl | ⟨zs, p, rfl⟩
  · exact (ring_nil.mp ring).2
  · have last : Ring l h (zs ++ p :: []) := by simpa using ring
    have joined := last.joined.2
    simpa [getLastD_concat] using joined.2

end

section
variable {α : Type} [DecidableEq α] {l : Links α} {a b h x p : α} {xs ys pre post : List α}

theorem insertAfter_other (away : x ≠ a ∧ x ≠ b ∧ x ≠ l.next b) :
    (l.insertAfter a b).next x = l.next x ∧ (l.insertAfter a b).prev x = l.prev x := by
  simp [insertAfter, update_of_ne, *]

theorem remove_other (away : x ≠ l.prev a ∧ x ≠ l.next a) :
    (l.remove a).next x = l.next x ∧ (l.remove a).prev x = l.prev x := by
  simp [remove, update_of_ne, *]

theorem single_other (away : x ≠ a) :
    (l.single a).next x = l.next x ∧ (l.single a).prev x = l.prev x := by
  simp [single, update_of_ne, away]

theorem single_alone : Alone (l.single a) a := by
  simp [single, Alone]

theorem remove_alone (alone : Alone l a) : l.remove a = l := by
  obtain ⟨next, prev⟩ := alone
  have first : update l.next a a = l.next := by
    simpa only [next] using update_eq_self a l.next
  have second : update l.prev a a = l.prev := by
    simpa only [prev] using update_eq_self a l.prev
  unfold remove
  rw [prev, next, first, second]

theorem chain_insert {c : α} (linked : (pre ++ b :: c :: post).IsChain l.Joined) (before : b ∉ pre)
    (after : b ∉ (c :: post).dropLast) (off : a ∉ pre ++ b :: c :: post) :
    (pre ++ b :: a :: c :: post).IsChain (l.insertAfter a b).Joined := by
  obtain ⟨front, joined, back⟩ := isChain_append_cons_cons.mp linked
  have here : l.next b = c := joined.1
  -- a pair that does not begin at `b` ends in front of `c`
  have kept : ∀ x y, x ≠ b → x ≠ a → y ≠ a → l.Joined x y → (l.insertAfter a b).Joined x y := by
    intro x y away off_x off_y pair
    have off_c : y ≠ c := by
      rintro rfl
      exact away (pair.2.symm.trans joined.2)
    constructor
    · simpa [insertAfter, away, off_x] using pair.1
    · simpa [insertAfter, here, off_y, off_c] using pair.2
  simp only [mem_append, mem_cons, not_or] at off
  obtain ⟨off_pre, off_b, off_c, off_post⟩ := off
  rw [isChain_append_cons_cons, isChain_cons_cons]
  refine ⟨chain_imp front ?_, ?_, ?_, chain_imp back ?_⟩
  · intro x hx y hy pair
    rw [dropLast_concat] at hx
    refine kept x y (fun same => before (same ▸ hx)) (fun same => off_pre (same ▸ hx)) ?_ pair
    rintro rfl
    have := mem_of_mem_tail hy
    simp only [mem_append, mem_singleton] at this
    tauto
  · constructor
    · simp [insertAfter]
    · simp [insertAfter, here, off_c]
  · constructor
    · simp [insertAfter, here, off_b]
    · simp [insertAfter, here]
  · intro x hx y hy pair
    refine kept x y (fun same => after (same ▸ hx)) ?_ ?_ pair
    · rintro rfl
      have := dropLast_subset _ hx
      simp only [mem_cons] at this
      tauto
    · rintro rfl
      tauto

theorem chain_remove {p n : α} (linked : (pre ++ p :: a :: n :: post).IsChain l.Joined)
    (before : p ∉ pre) (after : p ∉ (n :: post).dropLast) (off_pre : a ∉ pre)
    (off_post : a ∉ (n :: post).dropLast) :
    (pre ++ p :: n :: post).IsChain (l.remove a).Joined := by
  obtain ⟨front, joined, rest⟩ := isChain_append_cons_cons.mp linked
  obtain ⟨joined', back⟩ := isChain_cons_cons.mp rest
  have kept : ∀ x y, x ≠ p → x ≠ a → l.Joined x y → (l.remove a).Joined x y := by
    intro x y away off pair
    have off_n : y ≠ n := by
      rintro rfl
      exact off (pair.2.symm.trans joined'.2)
    constructor
    · simpa [remove, joined.2, away] using pair.1
    · simpa [remove, joined'.1, off_n] using pair.2
  rw [isChain_append_cons_cons]
  refine ⟨chain_imp front ?_, ?_, chain_imp back ?_⟩
  · intro x hx y _ pair
    rw [dropLast_concat] at hx
    exact kept x y (fun same => before (same ▸ hx)) (fun same => off_pre (same ▸ hx)) pair
  · simp [remove, Links.Joined, joined.2, joined'.1]
  · intro x hx y _ pair
    exact kept x y (fun same => after (same ▸ hx)) (fun same => off_post (same ▸ hx)) pair

theorem Ring.insert (ring : Ring l h (xs ++ ys)) (off : a ∉ h :: (xs ++ ys)) :
    Ring (l.insertAfter a (xs.getLastD h)) h (xs ++ a :: ys) := by
  have nodup := ring.nodup
  have linked := ring.linked
  simp only [mem_cons, mem_append, not_or] at off
  obtain ⟨off_h, off_xs, off_ys⟩ := off
  obtain ⟨c, post, split⟩ : ∃ c post, ys ++ [h] = c :: post := by
    cases ys with
    | nil => exact ⟨h, [], rfl⟩
    | cons c ys => exact ⟨c, ys ++ [h], rfl⟩
  have last : (c :: post).dropLast = ys := by rw [← split, dropLast_concat]
  have off_post : a ∉ c :: post := by
    rw [← split]
    simp [off_h, off_ys]
  constructor
  · rcases xs.eq_nil_or_concat' with rfl | ⟨zs, b, rfl⟩
    · have shape : h :: ([] ++ ys) ++ [h] = [] ++ h :: c :: post := by simpa using split
      have target : h :: ([] ++ a :: ys) ++ [h] = [] ++ h :: a :: c :: post := by simpa using split
      rw [shape] at linked
      rw [target]
      refine chain_insert linked (by simp) ?_ (by simpa [off_h] using off_post)
      rw [last]
      exact ring.header_off
    have shape : h :: (zs ++ [b] ++ ys) ++ [h] = (h :: zs) ++ b :: c :: post := by
      simpa using split
    have target : h :: (zs ++ [b] ++ a :: ys) ++ [h] = (h :: zs) ++ b :: a :: c :: post := by
      simpa using split
    rw [shape] at linked
    rw [target, getLastD_concat]
    rw [append_assoc, nodup_cons, nodup_append] at nodup
    refine chain_insert linked ?_ ?_ ?_
    · intro mem
      rcases mem_cons.mp mem with rfl | mem
      · exact nodup.1 (by simp)
      · exact nodup.2.2.2 b mem b (by simp) rfl
    · rw [last]
      exact (nodup_cons.mp nodup.2.2.1).1
    · simp only [mem_append, mem_singleton, not_or] at off_xs
      simp only [cons_append, mem_cons, mem_append, not_or]
      simp only [mem_cons, not_or] at off_post
      exact ⟨off_h, off_xs.1, off_xs.2, off_post⟩
  · rw [nodup_cons, nodup_append] at nodup ⊢
    simp only [mem_append, not_or, mem_cons, nodup_cons] at nodup ⊢
    refine ⟨⟨nodup.1.1, Ne.symm off_h, nodup.1.2⟩, nodup.2.1, ⟨off_ys, nodup.2.2.1⟩, ?_⟩
    rintro x hx y (rfl | hy)
    · rintro rfl
      exact off_xs hx
    · exact nodup.2.2.2 x hx y hy

theorem Ring.insert_first (ring : Ring l h xs) (off : a ∉ h :: xs) :
    Ring (l.insertAfter a h) h (a :: xs) :=
  (show Ring l h ([] ++ xs) from ring).insert off

theorem Ring.insert_last (ring : Ring l h xs) (off : a ∉ h :: xs) :
    Ring (l.insertAfter a (l.prev h)) h (xs ++ [a]) := by
  rw [ring.prev_header]
  have whole : Ring l h (xs ++ []) := by simpa using ring
  exact whole.insert (by simpa using off)

theorem Ring.remove (ring : Ring l h (xs ++ a :: ys)) : Ring (l.remove a) h (xs ++ ys) := by
  have nodup := ring.nodup
  have linked := ring.linked
  simp only [nodup_cons, nodup_append, mem_append, mem_cons, not_or] at nodup
  obtain ⟨⟨h_xs, h_a, h_ys⟩, nodup_xs, ⟨a_ys, nodup_ys⟩, apart⟩ := nodup
  have a_xs : a ∉ xs := fun mem => apart a mem a (.inl rfl) rfl
  obtain ⟨n, post, split⟩ : ∃ n post, ys ++ [h] = n :: post := by
    cases ys with
    | nil => exact ⟨h, [], rfl⟩
    | cons n ys => exact ⟨n, ys ++ [h], rfl⟩
  have last : (n :: post).dropLast = ys := by rw [← split, dropLast_concat]
  constructor
  · rcases xs.eq_nil_or_concat' with rfl | ⟨zs, p, rfl⟩
    · have shape : h :: ([] ++ a :: ys) ++ [h] = [] ++ h :: a :: n :: post := by simpa using split
      have target : h :: ([] ++ ys) ++ [h] = [] ++ h :: n :: post := by simpa using split
      rw [shape] at linked
      rw [target]
      refine chain_remove linked (by simp) ?_ (by simp) ?_
      · rw [last]
        exact h_ys
      · rw [last]
        exact a_ys
    · have shape : h :: (zs ++ [p] ++ a :: ys) ++ [h] = (h :: zs) ++ p :: a :: n :: post := by
        simpa using split
      have target : h :: (zs ++ [p] ++ ys) ++ [h] = (h :: zs) ++ p :: n :: post := by
        simpa using split
      rw [shape] at linked
      rw [target]
      simp only [mem_append, mem_singleton, not_or] at h_xs a_xs
      refine chain_remove linked ?_ ?_ ?_ ?_
      · intro mem
        rcases mem_cons.mp mem with rfl | mem
        · exact h_xs.2 rfl
        · have := (nodup_append.mp nodup_xs).2.2 p mem p (by simp)
          exact this rfl
      · rw [last]
        exact fun mem => apart p (by simp) p (.inr mem) rfl
      · simp only [mem_cons, not_or]
        exact ⟨Ne.symm h_a, a_xs.1⟩
      · rw [last]
        exact a_ys
  · simp only [nodup_cons, nodup_append, mem_append, not_or]
    exact ⟨⟨h_xs, h_ys⟩, nodup_xs, nodup_ys, fun x hx y hy => apart x hx y (.inr hy)⟩

/-- The links of a cell that has been taken off still lead to where it was. -/
theorem Ring.back (ring : Ring l h (xs ++ p :: a :: ys)) :
    (l.remove a).prev ((l.remove a).prev a) = xs.getLastD h := by
  have split : xs ++ p :: a :: ys = (xs ++ [p]) ++ a :: ys := by simp
  have shorter : Ring (l.remove a) h (xs ++ p :: ys) := by
    rw [split] at ring
    simpa using ring.remove
  have at_p : (l.remove a).prev p = xs.getLastD h := shorter.joined.1.2
  have at_a : (l.remove a).prev a = p := by
    have before := (split ▸ ring).joined.1.2
    simp [Links.remove, update_apply, before]
  rw [at_a, at_p]

theorem Ring.insert_other (ring : Ring l h (xs ++ ys)) (outside : x ∉ h :: (xs ++ ys))
    (away : x ≠ a) :
    (l.insertAfter a (xs.getLastD h)).next x = l.next x ∧
      (l.insertAfter a (xs.getLastD h)).prev x = l.prev x := by
  have next : l.next (xs.getLastD h) = ys.headD h := by
    rcases xs.eq_nil_or_concat' with rfl | ⟨zs, b, rfl⟩
    · exact ring.next_header
    · rw [getLastD_concat]
      exact (Ring.joined (by simpa using ring)).2.1
  refine insertAfter_other ⟨away, ?_, ?_⟩
  · rintro rfl
    rcases xs.eq_nil_or_concat' with rfl | ⟨zs, b, rfl⟩
    all_goals simp at outside
  · rw [next]
    rintro rfl
    cases ys
    all_goals simp at outside

theorem Ring.remove_other (ring : Ring l h (xs ++ a :: ys)) (outside : x ∉ h :: (xs ++ a :: ys)) :
    (l.remove a).next x = l.next x ∧ (l.remove a).prev x = l.prev x := by
  obtain ⟨before, after⟩ := ring.joined
  refine Rings.remove_other ⟨?_, ?_⟩
  · rw [before.2]
    rintro rfl
    rcases xs.eq_nil_or_concat' with rfl | ⟨zs, b, rfl⟩
    all_goals simp at outside
  · rw [after.1]
    rintro rfl
    cases ys
    all_goals simp at outside

theorem Ring.forward_other (ring : Ring l h (xs ++ p :: a :: ys))
    (outside : x ∉ h :: (xs ++ p :: a :: ys)) :
    ((l.remove a).insertAfter a ((l.remove a).prev ((l.remove a).prev a))).next x = l.next x ∧
      ((l.remove a).insertAfter a ((l.remove a).prev ((l.remove a).prev a))).prev x = l.prev x := by
  have split : xs ++ p :: a :: ys = (xs ++ [p]) ++ a :: ys := by simp
  have shorter : Ring (l.remove a) h (xs ++ p :: ys) := by
    rw [split] at ring
    simpa using ring.remove
  have first := Ring.remove_other (split ▸ ring) (split ▸ outside)
  have second := shorter.insert_other (a := a) (x := x) ?_ ?_
  · rw [ring.back]
    exact ⟨second.1.trans first.1, second.2.trans first.2⟩
  · simp only [mem_cons, mem_append, not_or] at outside ⊢
    tauto
  · rintro rfl
    simp at outside

theorem Ring.find_eq (ring : Ring l h (xs ++ ys)) (test : α → Bool) {fuel : Nat}
    (enough : ys.length < fuel) : l.find h test fuel (ys.headD h) = ys.find? test := by
  induction ys generalizing xs fuel with
  | nil =>
    obtain ⟨fuel, rfl⟩ : ∃ n, fuel = n + 1 := ⟨fuel - 1, by simp at enough; omega⟩
    simp [find]
  | cons a ys ih =>
    obtain ⟨fuel, rfl⟩ : ∃ n, fuel = n + 1 := ⟨fuel - 1, by omega⟩
    have off : a ≠ h := by
      rintro rfl
      exact ring.header_off (by simp)
    have step := ring.joined.2.1
    have further : Ring l h ((xs ++ [a]) ++ ys) := by simpa using ring
    have rest := @ih (xs ++ [a]) further fuel (by simpa using enough)
    rw [headD_cons, List.find?_cons]
    unfold find
    rw [if_neg off, step, rest]
    cases test a
    all_goals rfl

end

/-- Rings that share the link fields and have no cell in common. -/
structure Family {α ι : Type} (l : Links α) (header : ι → α) (xs : ι → List α) : Prop where
  ring : ∀ k, Ring l (header k) (xs k)
  apart : ∀ j k, j ≠ k → (header j :: xs j).Disjoint (header k :: xs k)

section
variable {α ι : Type} [DecidableEq α] [DecidableEq ι] {l l' : Links α} {header : ι → α}
  {xs : ι → List α} {ys zs : List α} {a x : α} {k : ι}

omit [DecidableEq α] in
theorem Family.change (family : Family l header xs) (ring : Ring l' (header k) ys)
    (same : ∀ j, j ≠ k → ∀ x ∈ header j :: xs j, l'.next x = l.next x ∧ l'.prev x = l.prev x)
    (from_here : ∀ x ∈ ys, x ∈ xs k ∨ ∀ j, x ∉ header j :: xs j) :
    Family l' header (update xs k ys) := by
  have away : ∀ j, j ≠ k → (header k :: ys).Disjoint (header j :: xs j) := by
    intro j other x here there
    rcases mem_cons.mp here with rfl | here
    · exact family.apart k j (Ne.symm other) (by simp) there
    · rcases from_here x here with here | new
      · exact family.apart k j (Ne.symm other) (mem_cons_of_mem _ here) there
      · exact new j there
  constructor
  · intro j
    by_cases here : j = k
    · subst here
      simpa using ring
    · rw [update_of_ne here]
      exact (family.ring j).congr (same j here)
  · intro i j other
    by_cases first : i = k
    · subst first
      rw [update_self, update_of_ne (Ne.symm other)]
      exact away j (Ne.symm other)
    · rw [update_of_ne first]
      by_cases second : j = k
      · subst second
        rw [update_self]
        exact fun x there here => away i other here there
      · rw [update_of_ne second]
        exact family.apart i j other

omit [DecidableEq α] [DecidableEq ι] in
theorem Family.congr (family : Family l header xs)
    (same : ∀ k, ∀ x ∈ header k :: xs k, l'.next x = l.next x ∧ l'.prev x = l.prev x) :
    Family l' header xs :=
  ⟨fun k => (family.ring k).congr (same k), family.apart⟩

omit [DecidableEq α] [DecidableEq ι] in
theorem Family.others (family : Family l header xs) {j : ι} (other : j ≠ k)
    (mem : x ∈ header j :: xs j) : x ∉ header k :: xs k :=
  fun here => family.apart j k other mem here

theorem Family.remove (family : Family l header xs) (split : xs k = ys ++ a :: zs) :
    Family (l.remove a) header (update xs k (ys ++ zs)) := by
  have ring := family.ring k
  rw [split] at ring
  refine family.change ring.remove ?_ ?_
  · intro j other x mem
    exact ring.remove_other (split ▸ family.others other mem)
  · intro x mem
    left
    rw [split]
    simp only [mem_append, mem_cons] at mem ⊢
    tauto

omit [DecidableEq α] in
theorem Family.removed (family : Family l header xs) (split : xs k = ys ++ a :: zs) (j : ι) :
    a ∉ header j :: update xs k (ys ++ zs) j := by
  by_cases here : j = k
  · subst here
    have nodup := (family.ring j).nodup
    have shape : header j :: (ys ++ a :: zs) = (header j :: ys) ++ a :: zs := rfl
    rw [split, shape, nodup_middle, nodup_cons] at nodup
    simpa using nodup.1
  · rw [update_of_ne here]
    intro mem
    refine family.others here mem ?_
    simp [split]

theorem Family.insert (family : Family l header xs) (split : xs k = ys ++ zs)
    (off : ∀ j, a ∉ header j :: xs j) :
    Family (l.insertAfter a (ys.getLastD (header k))) header
      (update xs k (ys ++ a :: zs)) := by
  have ring := family.ring k
  rw [split] at ring
  refine family.change (ring.insert (split ▸ off k)) ?_ ?_
  · intro j other x mem
    refine ring.insert_other (split ▸ family.others other mem) ?_
    rintro rfl
    exact off j mem
  · intro x mem
    simp only [mem_append, mem_cons] at mem
    rcases mem with mem | rfl | mem
    · left
      simp [split, mem]
    · exact .inr off
    · left
      simp [split, mem]

theorem Family.forward {p : α} (family : Family l header xs) (split : xs k = ys ++ p :: a :: zs) :
    Family ((l.remove a).insertAfter a ((l.remove a).prev ((l.remove a).prev a))) header
      (update xs k (ys ++ a :: p :: zs)) := by
  have split' : xs k = (ys ++ [p]) ++ a :: zs := by simp [split]
  have ring := family.ring k
  rw [split] at ring
  have back : (l.remove a).prev ((l.remove a).prev a) = ys.getLastD (header k) := ring.back
  have shorter := family.remove split'
  have split'' : update xs k (ys ++ [p] ++ zs) k = ys ++ p :: zs := by simp
  have again := shorter.insert (a := a) split'' ?_
  · rw [back]
    simpa using again
  · have off := family.removed split'
    simpa using off

end

end Rings
