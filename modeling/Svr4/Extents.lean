import Mathlib.Algebra.BigOperators.Group.Finset.Basic
import Mathlib.Data.Fintype.Basic

/- Things that each lie on one run of consecutive blocks of a device. A layout says where
   each thing lies; `none` is a thing without blocks. -/
namespace BlockExtents
open Function Option Finset

/-- A run of consecutive blocks: its first block and how many blocks come after it. -/
structure Extent where
  first : Nat
  more : Nat
  deriving DecidableEq, Repr

namespace Extent

def last (e : Extent) : Nat := e.first + e.more

def Before (a b : Extent) : Prop := a.last < b.first

theorem first_le_last (e : Extent) : e.first ≤ e.last := Nat.le_add_right _ _

theorem Before.asymm {a b : Extent} (before : a.Before b) : ¬ b.Before a := by
  intro after
  have ha := a.first_le_last
  have hb := b.first_le_last
  unfold Before at before after
  omega

end Extent

def blocks : Option Extent → Nat
  | none => 0
  | some e => e.more + 1

variable {ι : Type} {f g : ι → Option Extent} {S : Finset ι} {a : Extent} {k i : ι}

def Apart (f : ι → Option Extent) : Prop :=
  ∀ i j a b, i ≠ j → f i = some a → f j = some b → a.Before b ∨ b.Before a

def Topmost (f : ι → Option Extent) (i : ι) : Prop :=
  ∃ e, f i = some e ∧ ∀ j b, j ≠ i → f j = some b → b.Before e

/-- The thing that ends last, or none of them has blocks. -/
def Top (f : ι → Option Extent) : Option ι → Prop
  | none => ∀ i, f i = none
  | some i => Topmost f i

/-- An extent starts at the floor or below it, or right behind another one. -/
def Supported (floor : Nat) (f : ι → Option Extent) (e : Extent) : Prop :=
  e.first ≤ floor ∨ ∃ j b, f j = some b ∧ b.last + 1 = e.first

def Packed (floor : Nat) (f : ι → Option Extent) : Prop :=
  ∀ i e, f i = some e → Supported floor f e

section Updates
variable [DecidableEq ι] {f : ι → Option Extent} {k : ι} {floor : Nat}

variable {d e : Extent} {i : ι}

theorem update_eq_some {o : Option Extent} (at_i : update f k o i = some a) :
    (i = k ∧ o = some a) ∨ (i ≠ k ∧ f i = some a) := by
  by_cases same : i = k
  · subst same
    rw [update_self] at at_i
    exact .inl ⟨rfl, at_i⟩
  · rw [update_of_ne same] at at_i
    exact .inr ⟨same, at_i⟩

theorem Apart.clear (apart : Apart f) : Apart (update f k none) := by
  intro i j a b ne ha hb
  rcases update_eq_some ha with ⟨_, absurd⟩ | ⟨_, ha⟩
  · cases absurd
  rcases update_eq_some hb with ⟨_, absurd⟩ | ⟨_, hb⟩
  · cases absurd
  exact apart i j a b ne ha hb

theorem Apart.raise (apart : Apart f) (above : ∀ j b, j ≠ k → f j = some b → b.Before e) :
    Apart (update f k (some e)) := by
  intro i j a b ne ha hb
  rcases update_eq_some ha with ⟨rfl, same⟩ | ⟨hi, fa⟩
  · cases same
    rcases update_eq_some hb with ⟨hj, _⟩ | ⟨hj, fb⟩
    · exact absurd hj.symm ne
    · exact .inr (above j b hj fb)
  · rcases update_eq_some hb with ⟨rfl, same⟩ | ⟨hj, fb⟩
    · cases same
      exact .inl (above i a hi fa)
    · exact apart i j a b ne fa fb

theorem topmost_raise (above : ∀ j b, j ≠ k → f j = some b → b.Before e) :
    Topmost (update f k (some e)) k := by
  refine ⟨e, update_self .., ?_⟩
  intro j b ne hb
  rw [update_of_ne ne] at hb
  exact above j b ne hb

theorem Apart.shorten (apart : Apart f) (old : f k = some d) (first : e.first = d.first)
    (more : e.more ≤ d.more) : Apart (update f k (some e)) := by
  have last : e.last ≤ d.last := by
    unfold Extent.last
    omega
  intro i j a b ne ha hb
  unfold Extent.Before
  rcases update_eq_some ha with ⟨rfl, same⟩ | ⟨hi, fa⟩
  · cases same
    rcases update_eq_some hb with ⟨hj, _⟩ | ⟨hj, fb⟩
    · exact absurd hj.symm ne
    · have := apart i j d b ne old fb
      unfold Extent.Before at this
      omega
  · rcases update_eq_some hb with ⟨rfl, same⟩ | ⟨hj, fb⟩
    · cases same
      have := apart i j a d ne fa old
      unfold Extent.Before at this
      omega
    · exact apart i j a b ne fa fb

theorem Topmost.clear_other (top : Topmost f i) (ne : k ≠ i) : Topmost (update f k none) i := by
  obtain ⟨e, at_i, above⟩ := top
  refine ⟨e, by rw [update_of_ne ne.symm, at_i], ?_⟩
  intro j b hj hb
  rcases update_eq_some hb with ⟨_, absurd⟩ | ⟨_, hb⟩
  · cases absurd
  · exact above j b hj hb

theorem Topmost.shorten_other (top : Topmost f i) (ne : k ≠ i) (old : f k = some d)
    (first : e.first = d.first) (more : e.more ≤ d.more) : Topmost (update f k (some e)) i := by
  obtain ⟨t, at_i, above⟩ := top
  refine ⟨t, by rw [update_of_ne ne.symm, at_i], ?_⟩
  intro j b hj hb
  rcases update_eq_some hb with ⟨rfl, same⟩ | ⟨_, hb⟩
  · cases same
    have := above j d hj old
    unfold Extent.Before Extent.last at *
    omega
  · exact above j b hj hb

omit [DecidableEq ι] in
theorem Topmost.not_support (top : Topmost f k) (other : i ≠ k) (at_k : f k = some d)
    (at_i : f i = some e) : d.last + 1 ≠ e.first := by
  obtain ⟨t, at_t, above⟩ := top
  obtain rfl : d = t := some.inj (at_k.symm.trans at_t)
  have := above i e other at_i
  have := e.first_le_last
  have := d.first_le_last
  unfold Extent.Before at *
  omega

theorem Packed.clear_top (packed : Packed floor f) (top : Topmost f k) :
    Packed floor (update f k none) := by
  intro i e at_i
  rcases update_eq_some at_i with ⟨_, absurd⟩ | ⟨hi, old⟩
  · cases absurd
  rcases packed i e old with low | ⟨j, b, at_j, meets⟩
  · exact .inl low
  · have hj : j ≠ k := by
      rintro rfl
      exact top.not_support hi at_j old meets
    exact .inr ⟨j, b, by rw [update_of_ne hj, at_j], meets⟩

theorem Packed.regrow_top (packed : Packed floor f) (top : Topmost f k) (old : f k = some d)
    (first : e.first = d.first) : Packed floor (update f k (some e)) := by
  have others : ∀ i c, f i = some c → Supported floor f c →
      Supported floor (update f k (some e)) c ∨ (∃ b, f k = some b ∧ b.last + 1 = c.first) := by
    rintro i c _ (low | ⟨j, b, at_j, meets⟩)
    · exact .inl (.inl low)
    · by_cases hj : j = k
      · subst hj
        exact .inr ⟨b, at_j, meets⟩
      · exact .inl (.inr ⟨j, b, by rw [update_of_ne hj, at_j], meets⟩)
  intro i c at_i
  rcases update_eq_some at_i with ⟨rfl, same⟩ | ⟨hi, at_i⟩
  · cases same
    rcases others i d old (packed i d old) with supported | ⟨b, at_k, meets⟩
    · unfold Supported at supported ⊢
      rwa [first]
    · obtain rfl : d = b := some.inj (old.symm.trans at_k)
      have := d.first_le_last
      omega
  · rcases others i c at_i (packed i c at_i) with supported | ⟨b, at_k, meets⟩
    · exact supported
    · exact absurd meets (top.not_support hi at_k at_i)

theorem Packed.place (packed : Packed floor f) (empty : f k = none)
    (supported : Supported floor f e) : Packed floor (update f k (some e)) := by
  have carried : ∀ c, Supported floor f c → Supported floor (update f k (some e)) c := by
    rintro c (low | ⟨j, b, at_j, meets⟩)
    · exact .inl low
    · have hj : j ≠ k := by
        rintro rfl
        rw [empty] at at_j
        cases at_j
      exact .inr ⟨j, b, by rw [update_of_ne hj, at_j], meets⟩
  intro i c at_i
  rcases update_eq_some at_i with ⟨rfl, same⟩ | ⟨_, at_i⟩
  · cases same
    exact carried e supported
  · exact carried c (packed i c at_i)

end Updates

/- Blocks in use. -/

def used (S : Finset ι) (f : ι → Option Extent) : Nat := ∑ i ∈ S, blocks (f i)

theorem sum_update [DecidableEq ι] {α : Type} (g : α → Nat) {f : ι → α} (member : k ∈ S) (o : α) :
    ∑ i ∈ S, g (update f k o i) + g (f k) = ∑ i ∈ S, g (f i) + g o := by
  rw [← sum_erase_add S _ member, ← sum_erase_add S (fun i => g (f i)) member, update_self]
  have others : ∑ i ∈ S.erase k, g (update f k o i) = ∑ i ∈ S.erase k, g (f i) := by
    apply sum_congr rfl
    intro i hi
    rw [update_of_ne (ne_of_mem_erase hi)]
  omega

theorem used_update [DecidableEq ι] (member : k ∈ S) (o : Option Extent) :
    used S (update f k o) + blocks (f k) = used S f + blocks o :=
  sum_update blocks member o

/- Packing: things slide down one after the other, in the order they lie in. -/

/-- The same things, as long as before and in the same order. -/
structure Rearranged (f g : ι → Option Extent) : Prop where
  shape : ∀ i, (g i).map Extent.more = (f i).map Extent.more
  order : ∀ i j a b a' b', f i = some a → f j = some b → g i = some a' → g j = some b' →
    a.Before b → a'.Before b'

theorem Rearranged.refl (f : ι → Option Extent) : Rearranged f f := by
  refine ⟨fun _ => rfl, ?_⟩
  intro i j a b a' b' ha hb ha' hb' before
  obtain rfl : a = a' := some.inj (ha.symm.trans ha')
  obtain rfl : b = b' := some.inj (hb.symm.trans hb')
  exact before

variable {g : ι → Option Extent}

theorem Rearranged.image (moved : Rearranged f g) (at_i : f i = some a) :
    ∃ a', g i = some a' ∧ a'.more = a.more := by
  have shape := moved.shape i
  rw [at_i] at shape
  cases at_g : g i with
  | none => rw [at_g] at shape; cases shape
  | some a' =>
    rw [at_g] at shape
    exact ⟨a', rfl, some.inj shape⟩

theorem Rearranged.preimage (moved : Rearranged f g) {a' : Extent} (at_i : g i = some a') :
    ∃ a, f i = some a ∧ a'.more = a.more := by
  have shape := moved.shape i
  rw [at_i] at shape
  cases at_f : f i with
  | none => rw [at_f] at shape; cases shape
  | some a =>
    rw [at_f] at shape
    exact ⟨a, rfl, some.inj shape⟩

theorem Rearranged.trans {f g h : ι → Option Extent} (one : Rearranged f g) (two : Rearranged g h) :
    Rearranged f h := by
  refine ⟨fun i => (two.shape i).trans (one.shape i), ?_⟩
  intro i j a b a'' b'' ha hb ha'' hb'' before
  obtain ⟨a', ha', _⟩ := one.image ha
  obtain ⟨b', hb', _⟩ := one.image hb
  exact two.order i j a' b' a'' b'' ha' hb' ha'' hb'' (one.order i j a b a' b' ha hb ha' hb' before)

theorem Rearranged.apart (moved : Rearranged f g) (apart : Apart f) : Apart g := by
  intro i j a' b' ne ha' hb'
  obtain ⟨a, ha, _⟩ := moved.preimage ha'
  obtain ⟨b, hb, _⟩ := moved.preimage hb'
  exact (apart i j a b ne ha hb).imp (moved.order i j a b a' b' ha hb ha' hb')
    (moved.order j i b a b' a' hb ha hb' ha')

theorem Rearranged.top (moved : Rearranged f g) {o : Option ι} (top : Top f o) : Top g o := by
  cases o with
  | none =>
    intro i
    cases at_g : g i with
    | none => rfl
    | some a' =>
      obtain ⟨a, ha, _⟩ := moved.preimage at_g
      rw [top i] at ha
      cases ha
  | some i =>
    obtain ⟨e, at_i, above⟩ := top
    obtain ⟨e', at_i', _⟩ := moved.image at_i
    refine ⟨e', at_i', ?_⟩
    intro j b' ne hb'
    obtain ⟨b, hb, _⟩ := moved.preimage hb'
    exact moved.order j i b e b' e' hb at_i hb' at_i' (above j b ne hb)

theorem Rearranged.used (moved : Rearranged f g) (S : Finset ι) : used S g = used S f := by
  apply sum_congr rfl
  intro i _
  cases at_f : f i with
  | none =>
    cases at_g : g i with
    | none => rfl
    | some a' =>
      obtain ⟨a, ha, _⟩ := moved.preimage at_g
      rw [at_f] at ha
      cases ha
  | some a =>
    obtain ⟨a', ha', more⟩ := moved.image at_f
    rw [ha']
    simp only [blocks, more]

section Sliding
variable [DecidableEq ι] {f : ι → Option Extent} {k : ι} {c : Extent} {goal floor : Nat}

/-- One thing slides down onto blocks nothing else has. -/
theorem rearranged_slide (at_k : f k = some c) (down : goal ≤ c.first)
    (clear : ∀ i e, f i = some e → e.Before c → e.last < goal) :
    Rearranged f (update f k (some ⟨goal, c.more⟩)) := by
  constructor
  · intro i
    by_cases same : i = k
    · subst same
      rw [update_self, at_k]
      rfl
    · rw [update_of_ne same]
  · intro i j a b a' b' ha hb ha' hb' before
    rcases update_eq_some ha' with ⟨rfl, same⟩ | ⟨hi, ha'⟩
    · cases same
      obtain rfl : c = a := some.inj (at_k.symm.trans ha)
      rcases update_eq_some hb' with ⟨rfl, same⟩ | ⟨hj, hb'⟩
      · obtain rfl : c = b := some.inj (at_k.symm.trans hb)
        exact absurd before before.asymm
      · obtain rfl : b = b' := some.inj (hb.symm.trans hb')
        unfold Extent.Before Extent.last at *
        show goal + c.more < b.first
        omega
    · obtain rfl : a = a' := some.inj (ha.symm.trans ha')
      rcases update_eq_some hb' with ⟨rfl, same⟩ | ⟨hj, hb'⟩
      · cases same
        obtain rfl : c = b := some.inj (at_k.symm.trans hb)
        exact clear i a ha before
      · obtain rfl : b = b' := some.inj (hb.symm.trans hb')
        exact before

def PackedBelow (floor : Nat) (f : ι → Option Extent) (k : ι) : Prop :=
  ∀ c, f k = some c → ∀ i e, f i = some e → e.Before c → Supported floor f e

/-- `k` rests on what lies below it. -/
def PackedTo (floor : Nat) (f : ι → Option Extent) (k : ι) : Prop :=
  ∀ c, f k = some c → ∀ i e, f i = some e → e.Before c ∨ i = k → Supported floor f e

theorem packedTo_slide (apart : Apart f) (below : PackedBelow floor f k) (at_k : f k = some c)
    (down : goal ≤ c.first) (clear : ∀ i e, f i = some e → e.Before c → e.last < goal)
    (rests : goal ≤ floor ∨ ∃ j b, j ≠ k ∧ f j = some b ∧ b.last + 1 = goal) :
    PackedTo floor (update f k (some ⟨goal, c.more⟩)) k := by
  have moved := rearranged_slide at_k down clear
  intro c' at_k' i e at_i lower
  rw [update_self] at at_k'
  cases at_k'
  rcases update_eq_some at_i with ⟨rfl, same⟩ | ⟨hi, at_i⟩
  · cases same
    rcases rests with low | ⟨j, b, hj, at_j, meets⟩
    · exact .inl low
    · exact .inr ⟨j, b, by rw [update_of_ne hj, at_j], meets⟩
  have before : e.Before c := by
    rcases apart i k e c hi at_i at_k with before | after
    · exact before
    · have image : update f k (some ⟨goal, c.more⟩) i = some e := by
        rw [update_of_ne hi, at_i]
      have := moved.order k i c e _ e at_k at_i (update_self ..) image after
      exact absurd (lower.resolve_right hi) this.asymm
  rcases below c at_k i e at_i before with low | ⟨j, b, at_j, meets⟩
  · exact .inl low
  have hj : j ≠ k := by
    rintro rfl
    obtain rfl : c = b := some.inj (at_k.symm.trans at_j)
    have := e.first_le_last
    have := c.first_le_last
    unfold Extent.Before at before
    omega
  exact .inr ⟨j, b, by rw [update_of_ne hj, at_j], meets⟩

omit [DecidableEq ι] in
theorem PackedTo.next {m : ι} {d : Extent} (apart : Apart f) (packed : PackedTo floor f k)
    (at_k : f k = some c) (at_m : f m = some d)
    (nearest : ∀ i e, f i = some e → c.last < e.first → d.first ≤ e.first) :
    PackedBelow floor f m := by
  intro d' at_m' i e at_i before
  obtain rfl : d = d' := some.inj (at_m.symm.trans at_m')
  by_cases same : i = k
  · exact packed c at_k i e at_i (.inr same)
  rcases apart i k e c same at_i at_k with lower | upper
  · exact packed c at_k i e at_i (.inl lower)
  · have far := nearest i e at_i upper
    have := e.first_le_last
    unfold Extent.Before at before
    omega

omit [DecidableEq ι] in
theorem PackedTo.packed (apart : Apart f) (packed : PackedTo floor f k) (at_k : f k = some c)
    (nothing : ∀ i e, f i = some e → ¬ c.last < e.first) : Packed floor f := by
  intro i e at_i
  by_cases same : i = k
  · exact packed c at_k i e at_i (.inr same)
  rcases apart i k e c same at_i at_k with lower | upper
  · exact packed c at_k i e at_i (.inl lower)
  · exact absurd upper (nothing i e at_i)

end Sliding

end BlockExtents
