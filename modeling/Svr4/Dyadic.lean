import Mathlib.Data.Nat.Bitwise
import Mathlib.Tactic.Ring

/- Aligned blocks of power-of-two size: a block of exponent `e` at `x` is the interval
   [x, x + 2^e) with 2^e dividing x. Two blocks that share a point are nested; a block and
   its buddy are the halves of one block of the next size. -/
namespace DyadicBlocks
variable {e f x y a b : Nat}

def Covers (e x a : Nat) : Prop := x ≤ a ∧ a < x + 2 ^ e

instance : Decidable (Covers e x a) := inferInstanceAs (Decidable (_ ∧ _))

theorem covers_self (e x : Nat) : Covers e x x := ⟨le_refl x, Nat.lt_add_of_pos_right (Nat.two_pow_pos e)⟩

theorem covers_iff_div (aligned : 2 ^ e ∣ x) : Covers e x a ↔ a / 2 ^ e = x / 2 ^ e := by
  obtain ⟨i, rfl⟩ := aligned
  have pos := Nat.two_pow_pos e
  rw [Nat.mul_div_cancel_left i pos, Nat.div_eq_iff pos]
  unfold Covers
  rw [mul_comm i]
  constructor
  · intro ⟨low, high⟩
    omega
  · intro ⟨low, high⟩
    omega

theorem div_of_le (le : e ≤ f) (a : Nat) : a / 2 ^ f = a / 2 ^ e / 2 ^ (f - e) := by
  rw [Nat.div_div_eq_div_mul, ← Nat.pow_add, Nat.add_sub_cancel' le]

theorem covers_of_shared (hx : 2 ^ e ∣ x) (hy : 2 ^ f ∣ y) (le : e ≤ f) (ha : Covers e x a)
    (ha' : Covers f y a) (hb : Covers e x b) : Covers f y b := by
  rw [covers_iff_div hx] at ha hb
  rw [covers_iff_div hy] at ha' ⊢
  rw [div_of_le le] at ha' ⊢
  rw [hb, ← ha]
  exact ha'

theorem eq_of_shared (hx : 2 ^ e ∣ x) (hy : 2 ^ e ∣ y) (ha : Covers e x a) (ha' : Covers e y a) :
    x = y := by
  rw [covers_iff_div hx] at ha
  rw [covers_iff_div hy] at ha'
  rw [← Nat.mul_div_cancel' hx, ← Nat.mul_div_cancel' hy, ← ha, ← ha']

theorem dvd_of_le (le : e ≤ f) (aligned : 2 ^ f ∣ x) : 2 ^ e ∣ x :=
  dvd_trans (pow_dvd_pow 2 le) aligned

theorem within_of_shared {low high : Nat} (aligned : 2 ^ e ∣ x) (hlow : 2 ^ e ∣ low)
    (hhigh : 2 ^ e ∣ high) (ha : Covers e x a) (above : low ≤ a) (below : a < high) :
    low ≤ x ∧ x + 2 ^ e ≤ high := by
  obtain ⟨i, rfl⟩ := aligned
  obtain ⟨j, rfl⟩ := hlow
  obtain ⟨k, rfl⟩ := hhigh
  obtain ⟨h1, h2⟩ := ha
  have first : j < i + 1 := by
    apply Nat.lt_of_mul_lt_mul_left (a := 2 ^ e)
    rw [Nat.mul_add, Nat.mul_one]
    omega
  have second : i < k := by
    apply Nat.lt_of_mul_lt_mul_left (a := 2 ^ e)
    omega
  constructor
  · exact Nat.mul_le_mul_left _ (Nat.le_of_lt_succ first)
  · calc 2 ^ e * i + 2 ^ e = 2 ^ e * (i + 1) := by ring
      _ ≤ 2 ^ e * k := Nat.mul_le_mul_left _ second

/-! Buddies -/

def buddy (e x : Nat) : Nat := x ^^^ 2 ^ e

def merged (e x : Nat) : Nat := x.ldiff (2 ^ e)

theorem mul_xor (i e : Nat) : buddy e (2 ^ e * i) = 2 ^ e * (i ^^^ 1) := by
  have shifted := Nat.shiftLeft_xor_distrib (a := i) (b := 1) (i := e)
  rw [Nat.shiftLeft_eq, Nat.shiftLeft_eq, Nat.shiftLeft_eq, Nat.one_mul] at shifted
  rw [buddy, mul_comm, ← shifted, mul_comm]

theorem mul_ldiff (i e : Nat) : merged e (2 ^ e * i) = 2 ^ (e + 1) * (i / 2) := by
  apply Nat.eq_of_testBit_eq
  intro k
  rw [merged, Nat.testBit_ldiff, Nat.testBit_two_pow_mul, Nat.testBit_two_pow_mul,
    Nat.testBit_two_pow]
  rcases lt_trichotomy k e with less | rfl | more
  · simp [Nat.not_le.mpr less, Nat.not_le.mpr (Nat.lt_succ_of_lt less)]
  · simp
  · have next : k - e = k - (e + 1) + 1 := by omega
    simp only [Nat.le_of_lt more, Nat.succ_le_of_lt more, decide_true, Bool.true_and,
      ne_of_lt more, decide_false, Bool.not_false, Bool.and_true]
    rw [next, Nat.testBit_succ]

theorem buddy_cases (aligned : 2 ^ e ∣ x) :
    2 ^ (e + 1) ∣ x ∧ buddy e x = x + 2 ^ e ∧ merged e x = x ∨
    2 ^ e ≤ x ∧ 2 ^ (e + 1) ∣ x - 2 ^ e ∧ buddy e x = x - 2 ^ e ∧ merged e x = x - 2 ^ e := by
  obtain ⟨i, rfl⟩ := aligned
  rw [mul_xor, mul_ldiff]
  rcases Nat.even_or_odd' i with ⟨j, rfl | rfl⟩
  · left
    have even : Even (2 * j) := ⟨j, by omega⟩
    rw [Nat.xor_one_of_even even, Nat.mul_div_cancel_left j (by decide), Nat.pow_succ]
    refine ⟨⟨j, by ring⟩, by ring, by ring⟩
  · right
    have odd : Odd (2 * j + 1) := ⟨j, rfl⟩
    have half : (2 * j + 1) / 2 = j := by omega
    have less : 2 ^ e * (2 * j + 1) - 2 ^ e = 2 ^ e * (2 * j) := by
      rw [Nat.mul_add, Nat.mul_one, Nat.add_sub_cancel]
    rw [Nat.xor_one_of_odd odd, half, less, Nat.add_sub_cancel, Nat.pow_succ]
    refine ⟨Nat.le_mul_of_pos_right _ (by omega), ⟨j, by ring⟩, rfl, by ring⟩

theorem buddy_aligned (aligned : 2 ^ e ∣ x) : 2 ^ e ∣ buddy e x := by
  obtain ⟨i, rfl⟩ := aligned
  rw [mul_xor]
  exact dvd_mul_right _ _

theorem merged_aligned (aligned : 2 ^ e ∣ x) : 2 ^ (e + 1) ∣ merged e x := by
  obtain ⟨i, rfl⟩ := aligned
  rw [mul_ldiff]
  exact dvd_mul_right _ _

theorem buddy_buddy (e x : Nat) : buddy e (buddy e x) = x := by
  unfold buddy
  rw [Nat.xor_assoc, Nat.xor_self, Nat.xor_zero]

theorem merged_buddy (aligned : 2 ^ e ∣ x) : merged e (buddy e x) = merged e x := by
  obtain ⟨i, rfl⟩ := aligned
  rw [mul_xor, mul_ldiff, mul_ldiff]
  congr 1
  rcases Nat.even_or_odd' i with ⟨j, rfl | rfl⟩
  · rw [Nat.xor_one_of_even ⟨j, by omega⟩]
    omega
  · rw [Nat.xor_one_of_odd ⟨j, rfl⟩]
    omega

theorem covers_merged (aligned : 2 ^ e ∣ x) :
    Covers (e + 1) (merged e x) a ↔ Covers e x a ∨ Covers e (buddy e x) a := by
  unfold Covers
  rcases buddy_cases aligned with ⟨-, hb, hm⟩ | ⟨le, -, hb, hm⟩
  · rw [hb, hm, pow_succ]
    omega
  · rw [hb, hm, pow_succ]
    omega

theorem not_covers_both (aligned : 2 ^ e ∣ x) (ha : Covers e x a) : ¬ Covers e (buddy e x) a := by
  unfold Covers at *
  rcases buddy_cases aligned with ⟨-, hb, -⟩ | ⟨le, -, hb, -⟩
  · rw [hb]
    omega
  · rw [hb]
    omega

/-- An aligned stretch that disjoint blocks cover, no larger than itself and no two of them buddies,
is one of them. -/
theorem whole_of_covered {F : Nat → Nat → Prop} (least : Nat) (aligned : ∀ e x, F e x → 2 ^ e ∣ x)
    (bound : ∀ e x, F e x → least ≤ e) (single : ∀ e x, F e x → ¬ F e (buddy e x)) :
    ∀ n x, 2 ^ (least + n) ∣ x →
      (∀ a, Covers (least + n) x a → ∃ e y, F e y ∧ Covers e y a ∧ e ≤ least + n) →
      F (least + n) x := by
  intro n
  induction n with
  | zero =>
    intro x hx covered
    obtain ⟨e, y, hF, hy, le⟩ := covered x (covers_self _ x)
    obtain rfl : e = least := le_antisymm le (bound e y hF)
    obtain rfl := eq_of_shared hx (aligned e y hF) (covers_self _ x) hy
    exact hF
  | succ n ih =>
    intro x hx covered
    by_cases whole : F (least + (n + 1)) x
    · exact whole
    -- every covering block is smaller, so each half is covered and by induction a block
    have half : 2 ^ (least + n) ∣ x := dvd_of_le (by omega) hx
    have low : merged (least + n) x = x ∧ Covers (least + n + 1) x x := by
      refine ⟨?_, covers_self _ x⟩
      rcases buddy_cases half with ⟨-, -, hm⟩ | ⟨le, hd, -, hm⟩
      · exact hm
      · have both : 2 ^ (least + n + 1) ∣ 2 ^ (least + n) := by
          have := Nat.dvd_sub hx hd
          rwa [Nat.sub_sub_self le] at this
        have := Nat.le_of_dvd (Nat.two_pow_pos _) both
        omega
    have smaller : ∀ z, (∀ a, Covers (least + n) z a → Covers (least + (n + 1)) x a) →
        ∀ a, Covers (least + n) z a → ∃ e y, F e y ∧ Covers e y a ∧ e ≤ least + n := by
      intro z inside a ha
      obtain ⟨e, y, hF, hy, le⟩ := covered a (inside a ha)
      refine ⟨e, y, hF, hy, ?_⟩
      rcases lt_or_eq_of_le le with less | rfl
      · omega
      · obtain rfl := eq_of_shared hx (aligned _ y hF) (inside a ha) hy
        exact absurd hF whole
    have union : ∀ a, Covers (least + (n + 1)) x a ↔
        Covers (least + n) x a ∨ Covers (least + n) (buddy (least + n) x) a := by
      intro a
      have := covers_merged (a := a) half
      rwa [low.1] at this
    have first := ih x half (smaller x fun a ha => (union a).mpr (.inl ha))
    have second := ih (buddy (least + n) x) (buddy_aligned half)
      (smaller _ fun a ha => (union a).mpr (.inr ha))
    exact absurd second (single _ _ first)

theorem covers_halves : Covers (e + 1) x a ↔ Covers e x a ∨ Covers e (x + 2 ^ e) a := by
  unfold Covers
  rw [pow_succ]
  omega

theorem not_covers_halves (ha : Covers e x a) : ¬ Covers e (x + 2 ^ e) a := by
  unfold Covers at *
  omega

/-! How often the blocks of a list, as pairs of exponent and place, cover a point -/

def cover (bs : List (Nat × Nat)) (a : Nat) : Nat := bs.countP fun b => Covers b.1 b.2 a

variable {bs cs : List (Nat × Nat)} {b : Nat × Nat}

theorem cover_cons (b : Nat × Nat) (bs : List (Nat × Nat)) (a : Nat) :
    cover (b :: bs) a = cover bs a + cover [b] a := by
  unfold cover
  rw [List.countP_cons, List.countP_singleton]

theorem cover_append (bs cs : List (Nat × Nat)) (a : Nat) :
    cover (bs ++ cs) a = cover bs a + cover cs a := List.countP_append

theorem cover_perm (perm : bs.Perm cs) (a : Nat) : cover bs a = cover cs a := perm.countP_eq _

theorem cover_one (e x a : Nat) : cover [(e, x)] a = if Covers e x a then 1 else 0 := by
  unfold cover
  rw [List.countP_singleton]
  simp

theorem cover_pos (mem : b ∈ bs) (ha : Covers b.1 b.2 a) : 1 ≤ cover bs a :=
  List.countP_pos_iff.mpr ⟨b, mem, decide_eq_true ha⟩

theorem disjoint_of_cover (once : ∀ a, cover bs a ≤ 1) :
    bs.Pairwise fun b c => ∀ a, Covers b.1 b.2 a → ¬ Covers c.1 c.2 a := by
  induction bs with
  | nil => exact List.Pairwise.nil
  | cons b bs ih =>
    have rest : ∀ a, cover bs a ≤ 1 := by
      intro a
      have := once a
      rw [cover_cons] at this
      omega
    refine List.Pairwise.cons ?_ (ih rest)
    intro c mem a hb hc
    have twice := once a
    have other := cover_pos mem hc
    rw [cover_cons, cover_one, if_pos hb] at twice
    omega

end DyadicBlocks
