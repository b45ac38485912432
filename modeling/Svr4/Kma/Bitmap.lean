import Mathlib.Algebra.Order.BigOperators.Group.Finset
import Mathlib.Tactic.IntervalCases
import Svr4.Dyadic
import Svr4.Kma.Allocator

/- The bitmap of a pool. A bit stands for one cell, a piece of the smallest size; a buffer of
   class `e` owns 2^(e - bp_expmin) successive bits of one word. -/
namespace KernelMemory
open DyadicBlocks List Nat Function

structure Shape where
  alignp : Nat
  endp : Nat
  expmin : Nat
  expmax : Nat
deriving DecidableEq

namespace Shape

def word (h : Shape) (a : Nat) : Nat := (a - h.alignp) >>> h.expmax
def index (h : Shape) (a : Nat) : Nat := ((a - h.alignp) >>> h.expmin) &&& 0x1f
def mask (h : Shape) (e x : Nat) : BitVec 32 := fl_mask e >>> h.index x
def cell (h : Shape) (a : Nat) : Nat := (a - h.alignp) / 2 ^ h.expmin

def least (h : Shape) : Nat := if h.expmin = MINSIDX then MINASIDX else MINABIDX
def largest (h : Shape) : Nat := if h.expmin = MINSIDX then MAXASIDX else MAXABIDX

/-- Where the buffers begin: a small pool starts with its own structures and bitmap. -/
def start (h : Shape) : Nat := if h.expmin = MINSIDX then h.alignp + 2 * MAXASMALL else h.alignp

structure Regular (h : Shape) : Prop where
  positive : 0 < h.alignp
  paged : PAGESIZE ∣ h.alignp
  kind : h.endp = h.alignp + SMALLBYTES ∧ h.expmin = MINSIDX ∧ h.expmax = MAXSIDX ∨
    h.endp = h.alignp + BIGBYTES ∧ h.expmin = MINBIDX ∧ h.expmax = MAXBIDX

/-- A buffer of class `e` at `x` as the pool may have it. -/
structure Holds (h : Shape) (e x : Nat) : Prop where
  low : h.least ≤ e
  high : e ≤ h.largest
  aligned : 2 ^ e ∣ x
  after : h.start ≤ x
  before : x + 2 ^ e ≤ h.endp

end Shape

variable {h : Shape} {e x a pool i : Nat}

section
variable (regular : h.Regular)
include regular

theorem Shape.Regular.width : h.expmax = h.expmin + 5 := by
  rcases regular.kind with ⟨-, hmin, hmax⟩ | ⟨-, hmin, hmax⟩ <;> rw [hmin, hmax] <;> rfl

theorem Shape.Regular.classes (low : h.least ≤ e) (high : e ≤ h.largest) :
    h.expmin ≤ e ∧ e ≤ h.expmin + 5 ∧ max_class e = h.largest ∧
      fl_nbits e = 2 ^ (e - h.expmin) ∧ 4 ≤ e ∧ e ≤ 12 := by
  rcases regular.kind with ⟨-, hmin, -⟩ | ⟨-, hmin, -⟩
  · simp only [Shape.least, Shape.largest, hmin, if_true, MINASIDX, MAXASIDX] at low high ⊢
    interval_cases e <;> decide
  · have big : MINBIDX ≠ MINSIDX := by decide
    simp only [Shape.least, Shape.largest, hmin, if_neg big, MINABIDX, MAXABIDX] at low high ⊢
    interval_cases e <;> decide

theorem Shape.Regular.bounds_aligned (high : e ≤ h.largest) :
    2 ^ e ∣ h.alignp ∧ 2 ^ e ∣ h.start ∧ 2 ^ e ∣ h.endp := by
  have page := regular.paged
  suffices top : 2 ^ h.largest ∣ h.alignp ∧ 2 ^ h.largest ∣ h.start ∧ 2 ^ h.largest ∣ h.endp from
    ⟨dvd_of_le high top.1, dvd_of_le high top.2.1, dvd_of_le high top.2.2⟩
  rcases regular.kind with ⟨hend, hmin, -⟩ | ⟨hend, hmin, -⟩
  · simp only [Shape.largest, Shape.start, hend, hmin, if_true, PAGESIZE, MAXASIDX, MAXASMALL,
      SMALLBYTES] at page ⊢
    omega
  · have big : MINBIDX ≠ MINSIDX := by decide
    simp only [Shape.largest, Shape.start, hend, hmin, if_neg big, PAGESIZE, MAXABIDX,
      BIGBYTES] at page ⊢
    omega

theorem Shape.Regular.start_le : h.alignp ≤ h.start ∧ h.start < h.endp := by
  rcases regular.kind with ⟨hend, hmin, -⟩ | ⟨hend, hmin, -⟩
  · simp only [Shape.start, hend, hmin, if_true, MAXASMALL, SMALLBYTES]
    omega
  · have big : MINBIDX ≠ MINSIDX := by decide
    simp only [Shape.start, hend, hmin, if_neg big, BIGBYTES]
    omega

theorem Shape.Holds.within (holds : h.Holds e x) (covered : Covers e x a) :
    h.alignp ≤ a ∧ a < h.endp := by
  have first := regular.start_le.1
  have after := holds.after
  have before := holds.before
  unfold Covers at covered
  omega

end

/-! Cells -/

theorem Shape.Regular.word_eq (regular : h.Regular) (a : Nat) : h.word a = h.cell a / 32 := by
  rw [Shape.word, Shape.cell, Nat.shiftRight_eq_div_pow, regular.width, Nat.pow_add,
    ← Nat.div_div_eq_div_mul]

theorem Shape.index_eq (h : Shape) (a : Nat) : h.index a = h.cell a % 32 := by
  rw [Shape.index, Shape.cell, shiftRight_eq_div_pow]
  exact and_two_pow_sub_one_eq_mod _ 5

section
variable (regular : h.Regular) (holds : h.Holds e x)
include regular holds

theorem Shape.Holds.cells :
    2 ^ (e - h.expmin) ∣ h.cell x ∧ x = h.alignp + 2 ^ h.expmin * h.cell x := by
  have split : 2 ^ e = 2 ^ h.expmin * 2 ^ (e - h.expmin) := by
    rw [← Nat.pow_add, Nat.add_sub_cancel' (regular.classes holds.low holds.high).1]
  obtain ⟨i, hi⟩ := dvd_sub holds.aligned (regular.bounds_aligned holds.high).1
  have above : h.alignp ≤ x := le_trans regular.start_le.1 holds.after
  rw [split, mul_assoc] at hi
  have cell : h.cell x = 2 ^ (e - h.expmin) * i := by
    rw [Shape.cell, hi, Nat.mul_div_cancel_left _ (Nat.two_pow_pos _)]
  rw [cell]
  exact ⟨dvd_mul_right _ _, by omega⟩

theorem Shape.Holds.covers_iff (above : h.alignp ≤ a) :
    Covers e x a ↔ h.cell x ≤ h.cell a ∧ h.cell a < h.cell x + 2 ^ (e - h.expmin) := by
  obtain ⟨-, place⟩ := holds.cells regular
  have pos := Nat.two_pow_pos h.expmin
  have split : 2 ^ e = 2 ^ h.expmin * 2 ^ (e - h.expmin) := by
    rw [← Nat.pow_add, Nat.add_sub_cancel' (regular.classes holds.low holds.high).1]
  have low : h.cell x ≤ h.cell a ↔ 2 ^ h.expmin * h.cell x ≤ a - h.alignp := by
    rw [Shape.cell.eq_def h a, le_div_iff_mul_le pos, mul_comm]
  have high : h.cell a < h.cell x + 2 ^ (e - h.expmin) ↔
      a - h.alignp < 2 ^ h.expmin * h.cell x + 2 ^ e := by
    rw [Shape.cell.eq_def h a, div_lt_iff_lt_mul pos, split, add_mul, mul_comm,
      mul_comm (2 ^ (e - h.expmin))]
  rw [low, high]
  unfold Covers
  omega

theorem Shape.Holds.exponent_le : e - h.expmin ≤ 5 := by
  have := (regular.classes holds.low holds.high).2.1
  omega

theorem Shape.Holds.covers_iff_bits (above : h.alignp ≤ a) : Covers e x a ↔
      h.word a = h.word x ∧ h.index x ≤ h.index a ∧ h.index a < h.index x + 2 ^ (e - h.expmin) := by
  rw [holds.covers_iff regular above, regular.word_eq, regular.word_eq, h.index_eq, h.index_eq]
  have bound := holds.exponent_le regular
  obtain ⟨i, hi⟩ := (holds.cells regular).1
  rw [hi]
  generalize e - h.expmin = k at bound
  interval_cases k <;> omega

theorem Shape.Holds.exists_of_index (low : h.index x ≤ i)
    (high : i < h.index x + 2 ^ (e - h.expmin)) :
    ∃ a, Covers e x a ∧ h.index a = i := by
  obtain ⟨aligned, place⟩ := holds.cells regular
  have pos := Nat.two_pow_pos h.expmin
  have cell : h.cell (x + 2 ^ h.expmin * (i - h.index x)) = h.cell x + (i - h.index x) := by
    rw [Shape.cell, place, Nat.add_assoc, Nat.add_sub_cancel_left, ← Nat.mul_add,
      Nat.mul_div_cancel_left _ pos, ← place]
  refine ⟨x + 2 ^ h.expmin * (i - h.index x), ?_, ?_⟩
  · rw [holds.covers_iff regular (by omega), cell]
    omega
  · rw [h.index_eq] at low high ⊢
    rw [cell, h.index_eq]
    have bound := holds.exponent_le regular
    obtain ⟨j, hj⟩ := aligned
    rw [hj] at low high ⊢
    generalize e - h.expmin = k at bound low high
    interval_cases k <;> omega

end

/-! Masks -/

theorem fl_mask_getMsbD : ∀ e < 13, 3 < e → ∀ i < 32, (fl_mask e).getMsbD i = decide (i < fl_nbits e) := by
  decide

theorem Shape.Holds.mask_getMsbD (regular : h.Regular) (holds : h.Holds e x) (bound : i < 32) :
    (h.mask e x).getMsbD i = decide (h.index x ≤ i ∧ i < h.index x + 2 ^ (e - h.expmin)) := by
  obtain ⟨-, -, -, nbits, least, largest⟩ := regular.classes holds.low holds.high
  rw [Shape.mask, BitVec.getMsbD_ushiftRight, fl_mask_getMsbD e (by omega) (by omega) _ (by omega),
    nbits]
  by_cases before : i < h.index x
  · simp [before, not_le.mpr before]
  · simp only [bound, before, decide_true, decide_false, Bool.not_false, Bool.true_and]
    congr 1
    apply propext
    omega

theorem Shape.index_lt (h : Shape) (a : Nat) : h.index a < 32 := by
  rw [h.index_eq]
  exact mod_lt _ (by decide)

theorem Shape.Holds.covers_iff_mask (regular : h.Regular) (holds : h.Holds e x)
    (above : h.alignp ≤ a) :
    Covers e x a ↔ h.word a = h.word x ∧ (h.mask e x).getMsbD (h.index a) = true := by
  rw [holds.covers_iff_bits regular above, holds.mask_getMsbD regular (h.index_lt a),
    decide_eq_true_iff]

/-! Buddies -/

theorem Shape.Holds.joined (regular : h.Regular) (holds : h.Holds e x) (less : e < max_class e) :
    h.Holds (e + 1) (merged e x) := by
  rw [(regular.classes holds.low holds.high).2.2.1] at less
  obtain ⟨-, first, last⟩ := regular.bounds_aligned (e := e + 1) less
  have shared := (covers_merged holds.aligned).mpr (.inl (covers_self e x))
  have within := within_of_shared (merged_aligned holds.aligned) first last shared holds.after
    (Nat.lt_of_lt_of_le (Nat.lt_add_of_pos_right (Nat.two_pow_pos e)) holds.before)
  exact ⟨le_succ_of_le holds.low, less, merged_aligned holds.aligned, within.1, within.2⟩

theorem Shape.Holds.other (regular : h.Regular) (holds : h.Holds e x) (less : e < max_class e) :
    h.Holds e (buddy e x) := by
  have whole := holds.joined regular less
  have low := (covers_merged holds.aligned).mpr (.inr (covers_self e (buddy e x)))
  have pos := Nat.two_pow_pos e
  have last : Covers e (buddy e x) (buddy e x + (2 ^ e - 1)) := ⟨by omega, by omega⟩
  have high := (covers_merged holds.aligned).mpr (.inr last)
  have after := whole.after
  have before := whole.before
  unfold Covers at low high
  exact ⟨holds.low, holds.high, buddy_aligned holds.aligned, by omega, by omega⟩

theorem toggle_index : ∀ k < 5, ∀ t < 32, (t % 2 ^ (k + 1) = 0 → t ^^^ 2 ^ k = t + 2 ^ k ∧
    t &&& (t ^^^ 2 ^ k) = t) ∧ (t % 2 ^ (k + 1) = 2 ^ k → t ^^^ 2 ^ k = t - 2 ^ k ∧
    t &&& (t ^^^ 2 ^ k) = t - 2 ^ k) := by
  decide

theorem Shape.Holds.buddy_bits (regular : h.Regular) (holds : h.Holds e x)
    (less : e < max_class e) :
    h.word (buddy e x) = h.word x ∧
    h.index (buddy e x) = h.index x ^^^ fl_nbits e ∧
    h.word (merged e x) = h.word x ∧
    h.index (merged e x) = h.index x &&& (h.index x ^^^ fl_nbits e) := by
  obtain ⟨least, -, top, nbits, -, -⟩ := regular.classes holds.low holds.high
  obtain ⟨-, placeb⟩ := (holds.other regular less).cells regular
  obtain ⟨alignedm, placem⟩ := (holds.joined regular less).cells regular
  obtain ⟨-, place⟩ := holds.cells regular
  have bound := (holds.joined regular less).exponent_le regular
  have pos := Nat.two_pow_pos h.expmin
  have next : e + 1 - h.expmin = e - h.expmin + 1 := by omega
  have split : 2 ^ e = 2 ^ h.expmin * 2 ^ (e - h.expmin) := by
    rw [← Nat.pow_add, Nat.add_sub_cancel' least]
  rw [next] at alignedm bound
  rw [nbits, regular.word_eq, regular.word_eq, regular.word_eq, h.index_eq, h.index_eq, h.index_eq]
  have small : e - h.expmin < 5 := by omega
  have toggle := toggle_index (e - h.expmin) small (h.cell x % 32) (mod_lt _ (by decide))
  rcases buddy_cases holds.aligned with ⟨-, hb, hm⟩ | ⟨above, -, hb, hm⟩
  · rw [hm] at alignedm ⊢
    have cellb : h.cell (buddy e x) = h.cell x + 2 ^ (e - h.expmin) := by
      apply Nat.eq_of_mul_eq_mul_left pos
      rw [Nat.mul_add, ← split]
      omega
    rw [cellb]
    obtain ⟨i, hi⟩ := alignedm
    rw [hi] at toggle ⊢
    generalize e - h.expmin = k at small toggle
    interval_cases k <;> norm_num at toggle ⊢ <;> omega
  · have cells : h.cell x = h.cell (merged e x) + 2 ^ (e - h.expmin) ∧
        h.cell (buddy e x) = h.cell (merged e x) := by
      constructor
      · apply Nat.eq_of_mul_eq_mul_left pos
        rw [Nat.mul_add, ← split]
        omega
      · rw [hb, hm]
    rw [cells.2]
    rw [cells.1] at toggle ⊢
    obtain ⟨i, hi⟩ := alignedm
    rw [hi] at toggle ⊢
    generalize e - h.expmin = k at small toggle
    interval_cases k <;> norm_num at toggle ⊢ <;> omega

theorem Shape.Holds.mask_joined (regular : h.Regular) (holds : h.Holds e x)
    (less : e < max_class e) :
    h.mask (e + 1) (merged e x) = h.mask e x ||| h.mask e (buddy e x) := by
  have whole := holds.joined regular less
  have half := holds.other regular less
  apply BitVec.eq_of_getMsbD_eq
  intro i bound
  rw [BitVec.getMsbD_or, whole.mask_getMsbD regular bound, holds.mask_getMsbD regular bound,
    half.mask_getMsbD regular bound, ← Bool.decide_or]
  congr 1
  apply propext
  -- a position of one of the two halves, seen at an address of its own
  constructor
  · intro ⟨low, high⟩
    obtain ⟨a, inside, rfl⟩ := whole.exists_of_index regular low high
    have above := (whole.within regular inside).1
    rcases (covers_merged holds.aligned).mp inside with first | second
    · exact .inl ((holds.covers_iff_bits regular above).mp first).2
    · exact .inr ((half.covers_iff_bits regular above).mp second).2
  · have through : ∀ y, h.Holds e y → (∀ a, Covers e y a → Covers (e + 1) (merged e x) a) →
        h.index y ≤ i ∧ i < h.index y + 2 ^ (e - h.expmin) →
        h.index (merged e x) ≤ i ∧ i < h.index (merged e x) + 2 ^ (e + 1 - h.expmin) := by
      intro y place inside ⟨low, high⟩
      obtain ⟨a, covered, rfl⟩ := place.exists_of_index regular low high
      have above := (place.within regular covered).1
      exact ((whole.covers_iff_bits regular above).mp (inside a covered)).2
    rintro (first | second)
    · exact through x holds (fun a ha => (covers_merged holds.aligned).mpr (.inl ha)) first
    · exact through _ half (fun a ha => (covers_merged holds.aligned).mpr (.inr ha)) second

/-! The bits of a pool -/

def BufPool.shape (P : BufPool) : Shape := ⟨P.bp_alignp, P.hp_endp, P.bp_expmin, P.bp_expmax⟩

def BufPool.bit (P : BufPool) (a : Nat) : Bool :=
  (P.bp_bitmapp (P.shape.word a)).getMsbD (P.shape.index a)

variable {P : BufPool}

@[simp] theorem BufPool.shape_setWord (P : BufPool) (w : Nat) (word : BitVec 32) :
    (P.setWord w word).shape = P.shape := rfl

theorem BufPool.bit_setWord (P : BufPool) (w : Nat) (word : BitVec 32) (a : Nat) :
    (P.setWord w word).bit a =
      if P.shape.word a = w then word.getMsbD (P.shape.index a) else P.bit a := by
  unfold BufPool.bit
  rw [BufPool.shape_setWord]
  simp only [BufPool.setWord, update_apply]
  split <;> rfl

section
variable (regular : P.shape.Regular) (holds : P.shape.Holds e x)
include regular holds

theorem BufPool.bit_or (above : P.shape.alignp ≤ a) :
    (P.setWord (P.shape.word x) (P.bp_bitmapp (P.shape.word x) ||| P.shape.mask e x)).bit a =
      (P.bit a || decide (Covers e x a)) := by
  rw [BufPool.bit_setWord]
  have own := holds.covers_iff_mask regular above
  by_cases same : P.shape.word a = P.shape.word x
  · rw [if_pos same, BitVec.getMsbD_or, BufPool.bit, same]
    simp [own, same]
  · rw [if_neg same]
    simp [own, same]

theorem BufPool.bit_andnot (above : P.shape.alignp ≤ a) :
    (P.setWord (P.shape.word x) (P.bp_bitmapp (P.shape.word x) &&& ~~~P.shape.mask e x)).bit a =
      (P.bit a && !decide (Covers e x a)) := by
  rw [BufPool.bit_setWord]
  have own := holds.covers_iff_mask regular above
  by_cases same : P.shape.word a = P.shape.word x
  · rw [if_pos same, BitVec.getMsbD_and, BitVec.getMsbD_not, BufPool.bit, same]
    simp [own, same, P.shape.index_lt a]
  · rw [if_neg same]
    simp [own, same]

theorem BufPool.and_eq_zero : P.bp_bitmapp (P.shape.word x) &&& P.shape.mask e x = 0 ↔
      ∀ a, Covers e x a → P.bit a = false := by
  have above : ∀ a, Covers e x a → P.shape.alignp ≤ a := fun a ha => (holds.within regular ha).1
  constructor
  · intro zero a ha
    have bits := congrArg (fun w => w.getMsbD (P.shape.index a)) zero
    obtain ⟨same, set⟩ := (holds.covers_iff_mask regular (above a ha)).mp ha
    simp only [BitVec.getMsbD_and, set, Bool.and_true] at bits
    rw [BufPool.bit, same]
    simpa using bits
  · intro clear
    apply BitVec.eq_of_getMsbD_eq
    intro i bound
    rw [BitVec.getMsbD_and, holds.mask_getMsbD regular bound]
    by_cases own : P.shape.index x ≤ i ∧ i < P.shape.index x + 2 ^ (e - P.shape.expmin)
    · obtain ⟨a, ha, rfl⟩ := holds.exists_of_index regular own.1 own.2
      have bit := clear a ha
      rw [BufPool.bit, ((holds.covers_iff_mask regular (above a ha)).mp ha).1] at bit
      simp [bit]
    · simp [own]

end

end KernelMemory

/- Where the buffers of the pools are and what the bitmaps say about them: the invariant of
   the allocator, and what it takes to keep it when a buffer goes from one place to another. -/
namespace KernelMemory
open DyadicBlocks List Nat Function

/-- The buffers on the freelists, those with owners and those in kmem_coalesce, with their pools.
`bit pool a` is the bit of the cell at `a`. -/
@[ext]
structure Layout where
  shapes : Nat → Option Shape
  bit : Nat → Nat → Bool
  bufs : Nat → List FreeBuf
  owned : List (Nat × Nat)
  merges : List Merge

namespace Layout

def free_cover (bufs : Nat → List FreeBuf) (a : Nat) : Nat :=
  ∑ e ∈ Finset.range 13, cover ((bufs e).map fun fb => (e, fb.addr)) a

def hands (merges : List Merge) : List (Nat × Nat) := merges.map fun m => (m.e, m.bufp)

def coverage (l : Layout) (a : Nat) : Nat :=
  cover l.owned a + cover (hands l.merges) a + free_cover l.bufs a

/-- A buffer on its freelist that is not DELAYED and not of the largest class. -/
def Marked (l : Layout) (e x : Nat) : Prop :=
  ∃ pool w mask, ⟨x, .mapp pool w mask⟩ ∈ l.bufs e

/-- The bits that are clear: of marked buffers, and of the buddies that a buffer in kmem_coalesce
has absorbed. -/
def Clear (l : Layout) (a : Nat) : Prop :=
  (∃ e x, l.Marked e x ∧ Covers e x a) ∨
    ∃ m ∈ l.merges, Covers m.e m.bufp a ∧ ¬ Covers m.first.1 m.first.2 a

/-- What `fb_union` may be for a buffer of class `e` in a pool. -/
def UnionOk (h : Shape) (pool e x : Nat) : FbUnion → Prop
  | .DELAYED => e < max_class e
  | .mapp p w mask => e < max_class e ∧ p = pool ∧ w = h.word x ∧ mask = h.mask e x
  | .poolp p => e = max_class e ∧ p = pool

structure FreeOk (shapes : Nat → Option Shape) (e : Nat) (fb : FreeBuf) : Prop where
  placed : ∃ pool h, shapes pool = some h ∧ h.Holds e fb.addr ∧ UnionOk h pool e fb.addr fb.fb_union

/-- The variables of an activation of kmem_coalesce agree with its buffer. -/
structure MergeOk (shapes : Nat → Option Shape) (m : Merge) : Prop where
  placed : ∃ h, shapes m.pool = some h ∧ h.Holds m.e m.bufp ∧
    m.wordp = h.word m.bufp ∧ m.shift = h.index m.bufp ∧ m.mask = h.mask m.e m.bufp
  grown : ∀ a, Covers m.first.1 m.first.2 a → Covers m.e m.bufp a

/-- Pools are regular, named by their start and disjoint. -/
structure Ranges (shapes : Nat → Option Shape) : Prop where
  regular : ∀ pool h, shapes pool = some h → h.Regular ∧ h.alignp = pool
  separate : ∀ pool h pool' h' a, shapes pool = some h → shapes pool' = some h' →
    h.alignp ≤ a → a < h.endp → h'.alignp ≤ a → a < h'.endp → pool = pool'

structure Sound (l : Layout) : Prop extends Ranges l.shapes where
  owned : ∀ b ∈ l.owned, ∃ pool h, l.shapes pool = some h ∧ h.Holds b.1 b.2
  free : ∀ e fb, fb ∈ l.bufs e → FreeOk l.shapes e fb
  merging : ∀ m ∈ l.merges, MergeOk l.shapes m
  once : ∀ a, l.coverage a ≤ 1
  single : ∀ e x, l.Marked e x → ¬ l.Marked e (buddy e x)
  bits : ∀ pool h a, l.shapes pool = some h → h.alignp ≤ a → a < h.endp →
    (l.bit pool a = false ↔ l.Clear a)

/-! Moving a buffer to or from a freelist -/

/-- The lists of `large` are those of `small` with `fb` somewhere on list `e`. -/
def Moved (e : Nat) (fb : FreeBuf) (small large : Nat → List FreeBuf) : Prop :=
  (large e).Perm (fb :: small e) ∧ ∀ f, f ≠ e → large f = small f

variable {l : Layout} {e f x a : Nat} {fb fb' : FreeBuf} {small large : Nat → List FreeBuf}
  {m : Merge} {b : Nat × Nat}

theorem Moved.mem_iff (moved : Moved e fb small large) :
    fb' ∈ large f ↔ f = e ∧ fb' = fb ∨ fb' ∈ small f := by
  by_cases same : f = e
  · subst same
    rw [moved.1.mem_iff, mem_cons]
    simp
  · rw [moved.2 f same]
    simp [same]

theorem Moved.free_cover (moved : Moved e fb small large) (bound : e < 13) (a : Nat) :
    free_cover large a = free_cover small a + cover [(e, fb.addr)] a := by
  have mem : e ∈ Finset.range 13 := Finset.mem_range.mpr bound
  unfold Layout.free_cover
  rw [← Finset.add_sum_erase _ _ mem, ← Finset.add_sum_erase _ _ mem]
  have same : ∀ f ∈ (Finset.range 13).erase e, cover ((large f).map fun fb => (f, fb.addr)) a =
      cover ((small f).map fun fb => (f, fb.addr)) a := by
    intro f hf
    rw [moved.2 f (Finset.ne_of_mem_erase hf)]
  rw [Finset.sum_congr rfl same, cover_perm (moved.1.map fun fb => (e, fb.addr)), map_cons, cover_cons]
  omega

theorem free_cover_pos {bufs : Nat → List FreeBuf} (bound : e < 13) (mem : fb ∈ bufs e)
    (ha : Covers e fb.addr a) : 1 ≤ free_cover bufs a := by
  have listed : (e, fb.addr) ∈ (bufs e).map fun fb => (e, fb.addr) := mem_map.mpr ⟨fb, mem, rfl⟩
  apply le_trans (cover_pos listed ha)
  exact Finset.single_le_sum (f := fun e => cover ((bufs e).map fun fb => (e, fb.addr)) a)
    (fun _ _ => zero_le _) (Finset.mem_range.mpr bound)

theorem hands_cons (m : Merge) (merges : List Merge) :
    hands (m :: merges) = (m.e, m.bufp) :: hands merges := rfl

theorem hand_pos {merges : List Merge} (mem : m ∈ merges) (ha : Covers m.e m.bufp a) :
    1 ≤ cover (hands merges) a :=
  cover_pos (b := (m.e, m.bufp)) (mem_map.mpr ⟨m, mem, rfl⟩) ha

/-! Where nothing is covered twice -/

section
variable (once : l.coverage a ≤ 1)
include once

theorem owned_not_free (hb : b ∈ l.owned) (bound : e < 13) (mem : fb ∈ l.bufs e)
    (ha : Covers b.1 b.2 a) : ¬ Covers e fb.addr a := by
  intro covered
  have first := cover_pos hb ha
  have second := free_cover_pos bound mem covered
  unfold coverage at once
  omega

theorem merge_not_free (hm : m ∈ l.merges) (bound : e < 13) (mem : fb ∈ l.bufs e)
    (ha : Covers m.e m.bufp a) : ¬ Covers e fb.addr a := by
  intro covered
  have first := hand_pos hm ha
  have second := free_cover_pos bound mem covered
  unfold coverage at once
  omega

theorem owned_not_merge (hb : b ∈ l.owned) (hm : m ∈ l.merges) (ha : Covers b.1 b.2 a) :
    ¬ Covers m.e m.bufp a := by
  intro covered
  have first := cover_pos hb ha
  have second := hand_pos hm covered
  unfold coverage at once
  omega

theorem merge_unique {m m' : Merge} (hm : m ∈ l.merges) (hm' : m' ∈ l.merges)
    (ha : Covers m.e m.bufp a) (ha' : Covers m'.e m'.bufp a) : m = m' := by
  obtain ⟨before, after, split⟩ := append_of_mem hm
  have perm : l.merges.Perm (m :: (before ++ after)) := split ▸ perm_middle
  rcases mem_cons.mp (perm.mem_iff.mp hm') with rfl | other
  · rfl
  · exfalso
    have second := hand_pos other ha'
    have counted := cover_perm (perm.map fun m => (m.e, m.bufp)) a
    rw [map_cons, cover_cons, cover_one, if_pos ha] at counted
    unfold coverage hands at once
    unfold hands at second
    omega

end

section
variable (sound : l.Sound)
include sound

theorem Sound.class_lt (mem : fb ∈ l.bufs e) : e < 13 := by
  obtain ⟨pool, h, placed, holds, -⟩ := (sound.free e fb mem).placed
  have := ((sound.regular pool h placed).1.classes holds.low holds.high).2.2.2.2.2
  omega

theorem Sound.class_ge (mem : fb ∈ l.bufs e) : 4 ≤ e := by
  obtain ⟨pool, h, placed, holds, -⟩ := (sound.free e fb mem).placed
  exact ((sound.regular pool h placed).1.classes holds.low holds.high).2.2.2.2.1

theorem Sound.free_unique {fb' : FreeBuf} (mem : fb ∈ l.bufs e) (mem' : fb' ∈ l.bufs e)
    (same : fb.addr = fb'.addr) : fb = fb' := by
  obtain ⟨before, after, split⟩ := append_of_mem mem
  have perm : (l.bufs e).Perm (fb :: (before ++ after)) := split ▸ perm_middle
  rcases mem_cons.mp (perm.mem_iff.mp mem') with rfl | other
  · rfl
  exfalso
  have once := sound.once fb.addr
  have moved : Moved e fb (update l.bufs e (before ++ after)) l.bufs :=
    ⟨by rw [update_self]; exact perm, fun f ne => by rw [update_of_ne ne]⟩
  have first := moved.free_cover (sound.class_lt mem) fb.addr
  have left : fb' ∈ update l.bufs e (before ++ after) e := by
    rw [update_self]
    exact other
  have second := free_cover_pos (sound.class_lt mem) left (covers_self e _)
  rw [← same] at second
  rw [cover_one, if_pos (covers_self e _)] at first
  unfold coverage at once
  omega

theorem Marked.aligned (marked : l.Marked e x) : 2 ^ e ∣ x := by
  obtain ⟨pool, w, mask, mem⟩ := marked
  obtain ⟨_, h, -, holds, -⟩ := (sound.free _ _ mem).placed
  exact holds.aligned

theorem Sound.in_pool (covered : l.coverage a ≠ 0) :
    ∃ pool h, l.shapes pool = some h ∧ h.alignp ≤ a ∧ a < h.endp := by
  have inside : ∀ pool h e x, l.shapes pool = some h → h.Holds e x → Covers e x a →
      ∃ pool h, l.shapes pool = some h ∧ h.alignp ≤ a ∧ a < h.endp := fun pool h e x placed holds ha =>
    ⟨pool, h, placed, holds.within (sound.regular pool h placed).1 ha⟩
  have some_of : ∀ bs, cover bs a ≠ 0 → ∃ b ∈ bs, Covers b.1 b.2 a := by
    intro bs positive
    obtain ⟨b, mem, ha⟩ := countP_pos_iff.mp (pos_of_ne_zero positive)
    exact ⟨b, mem, of_decide_eq_true ha⟩
  by_cases mine : cover l.owned a = 0
  · by_cases hand : cover (hands l.merges) a = 0
    · have free : free_cover l.bufs a ≠ 0 := by
        unfold coverage at covered
        omega
      obtain ⟨e, -, positive⟩ := Finset.exists_ne_zero_of_sum_ne_zero free
      obtain ⟨b, listed, ha⟩ := some_of _ positive
      obtain ⟨fb, mem, rfl⟩ := mem_map.mp listed
      obtain ⟨pool, h, placed, holds, -⟩ := (sound.free e fb mem).placed
      exact inside pool h e fb.addr placed holds ha
    · obtain ⟨b, listed, ha⟩ := some_of _ hand
      obtain ⟨m, mem, rfl⟩ := mem_map.mp listed
      obtain ⟨h, placed, holds, -⟩ := (sound.merging m mem).placed
      exact inside m.pool h _ _ placed holds ha
  · obtain ⟨b, mem, ha⟩ := some_of _ mine
    obtain ⟨pool, h, placed, holds⟩ := sound.owned b mem
    exact inside pool h _ _ placed holds ha

theorem Clear.covered (clear : l.Clear a) : l.coverage a ≠ 0 := by
  unfold coverage
  rcases clear with ⟨e, x, ⟨pool, w, mask, mem⟩, ha⟩ | ⟨m, mem, ha, -⟩
  · have := free_cover_pos (sound.class_lt mem) mem ha
    omega
  · have := hand_pos mem ha
    omega

end

/-! The buddy that kmem_coalesce finds free -/

/-- If no bit of its buddy is set while a buffer is coalesced, the buddy is one marked buffer of its
size. -/
theorem Sound.buddy_marked (sound : l.Sound) (hm : m ∈ l.merges) (less : m.e < max_class m.e)
    (zero : ∀ a, Covers m.e (buddy m.e m.bufp) a → l.bit m.pool a = false) :
    l.Marked m.e (buddy m.e m.bufp) := by
  obtain ⟨h, placed, holds, -⟩ := (sound.merging m hm).placed
  have regular := (sound.regular _ h placed).1
  have other := holds.other regular less
  obtain ⟨-, -, -, -, least, -⟩ := regular.classes holds.low holds.high
  have clear : ∀ a, Covers m.e (buddy m.e m.bufp) a → l.Clear a := by
    intro a ha
    obtain ⟨above, below⟩ := other.within regular ha
    exact (sound.bits m.pool h a placed above below).mp (zero a ha)
  -- what covers a point of the buddy is no larger, or it would cover the hand as well
  have small : ∀ f y a, 2 ^ f ∣ y → Covers m.e (buddy m.e m.bufp) a → Covers f y a →
      ¬ Covers f y m.bufp → f ≤ m.e := by
    intro f y a aligned ha hy disjoint
    apply Nat.le_of_not_lt
    intro more
    have joined := (covers_merged holds.aligned).mpr (.inr ha)
    have hand := (covers_merged holds.aligned).mpr (.inl (covers_self m.e m.bufp))
    exact disjoint (covers_of_shared (merged_aligned holds.aligned) aligned more joined hy hand)
  have covered : ∀ a, Covers m.e (buddy m.e m.bufp) a →
      ∃ f y, l.Marked f y ∧ Covers f y a ∧ f ≤ m.e := by
    intro a ha
    rcases clear a ha with ⟨f, y, marked, hy⟩ | ⟨m', hm', hy, -⟩
    · obtain ⟨pool, w, mask, mem⟩ := id marked
      exact ⟨f, y, marked, hy, small f y a (marked.aligned sound) ha hy (merge_not_free
        (sound.once _) hm (sound.class_lt mem) mem (covers_self _ _))⟩
    -- another merge would have all its bits clear, those of its first buffer too
    exfalso
    obtain ⟨h', -, holds', -⟩ := (sound.merging m' hm').placed
    have different : m' ≠ m := by
      rintro rfl
      exact not_covers_both holds.aligned hy ha
    have le := small m'.e m'.bufp a holds'.aligned ha hy
      fun shared => different (merge_unique (sound.once _) hm' hm shared (covers_self _ _))
    have first := (sound.merging m' hm').grown _ (covers_self _ _)
    have inside := covers_of_shared holds'.aligned other.aligned le hy ha first
    rcases clear _ inside with ⟨f, y, ⟨pool, w, mask, mem⟩, hz⟩ | ⟨m'', hm'', hz, fresh⟩
    · exact merge_not_free (sound.once _) hm' (sound.class_lt mem) mem first hz
    · obtain rfl := merge_unique (sound.once _) hm'' hm' hz first
      exact fresh (covers_self _ _)
  have whole := whole_of_covered (F := l.Marked) 4 (fun e x marked => marked.aligned sound)
    (fun e x ⟨pool, w, mask, mem⟩ => sound.class_ge mem) sound.single (m.e - 4) (buddy m.e m.bufp)
  rw [Nat.add_sub_cancel' least] at whole
  exact whole other.aligned covered

end Layout

end KernelMemory
