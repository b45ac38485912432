import Mathlib.Algebra.Order.Ring.Nat
import Mathlib.Data.List.Pairwise
import Mathlib.Data.List.TakeDrop

/- Images that are written piece by piece and read back, and numbers as their bytes. -/
namespace ByteImages
open List
variable {α : Type} {middle : List α}

def slice (image : List α) (start len : Nat) : List α := (image.drop start).take len

/-- The bytes from `start` on are replaced, `len` of them. -/
def assign (image : List α) (start len : Nat) (bytes : List α) : List α :=
  image.take start ++ bytes ++ image.drop (start + len)

structure Write (α : Type) where
  start : Nat
  len : Nat
  bytes : List α

def lay (image : List α) (ws : List (Write α)) : List α :=
  ws.foldl (fun image w => assign image w.start w.len w.bytes) image

/-- As many bytes are written as are replaced, all inside an image of length `n`. -/
def Write.Fits (n : Nat) (w : Write α) : Prop := w.bytes.length = w.len ∧ w.start + w.len ≤ n

def Write.Apart (v w : Write α) : Prop := v.start + v.len ≤ w.start ∨ w.start + w.len ≤ v.start

section Slices
variable {image bytes : List α} {start len a n i : Nat} {ws : List (Write α)} {w : Write α}

theorem length_slice (within : a + n ≤ image.length) : (slice image a n).length = n := by
  unfold slice
  rw [length_take, length_drop]
  omega

theorem slice_all (image : List α) : slice image 0 image.length = image := by
  unfold slice
  rw [drop_zero, take_length]

theorem slice_slice (within : i + n ≤ len) :
    slice (slice image a len) i n = slice image (a + i) n := by
  unfold slice
  rw [drop_take, drop_drop, take_take, min_eq_left (by omega)]

theorem slice_add (image : List α) (a n m : Nat) :
    slice image a (n + m) = slice image a n ++ slice image (a + n) m := by
  unfold slice
  rw [← drop_drop, ← take_add]

theorem slice_replicate (z : α) (m : Nat) (within : a + n ≤ m) :
    slice (List.replicate m z) a n = List.replicate n z := by
  unfold slice
  rw [drop_replicate, take_replicate, min_eq_left (by omega)]

section
variable (exact_ : bytes.length = len) (fits : start + len ≤ image.length)
include exact_ fits

theorem length_assign : (assign image start len bytes).length = image.length := by
  unfold assign
  rw [length_append, length_append, length_take, length_drop]
  omega

theorem slice_assign (within : i + n ≤ len) :
    slice (assign image start len bytes) (start + i) n = slice bytes i n := by
  unfold slice assign
  have before : (image.take start).length = start := by
    rw [length_take]
    omega
  rw [append_assoc, drop_append, drop_of_length_le (by omega), nil_append,
    before, Nat.add_sub_cancel_left, drop_append_of_le_length (by omega),
    take_append_of_le_length (by rw [length_drop]; omega)]

theorem slice_assign_apart (apart : a + n ≤ start ∨ start + len ≤ a) :
    slice (assign image start len bytes) a n = slice image a n := by
  unfold slice assign
  have before : (image.take start).length = start := by
    rw [length_take]
    omega
  rcases apart with front | back
  · rw [append_assoc, drop_append_of_le_length (by omega), drop_take,
      take_append_of_le_length (by rw [length_take, length_drop]; omega),
      take_take, min_eq_left (by omega)]
  · rw [drop_append, drop_of_length_le (by rw [length_append]; omega),
      nil_append, length_append, before, exact_, drop_drop]
    congr 2
    omega

end

theorem slice_middle (front back : List α) (within : i + n ≤ middle.length) :
    slice (front ++ (middle ++ back)) (front.length + i) n = slice middle i n := by
  unfold slice
  rw [drop_append, drop_of_length_le (by omega), nil_append,
    Nat.add_sub_cancel_left, drop_append_of_le_length (by omega),
    take_append_of_le_length (by rw [length_drop]; omega)]

theorem assign_middle (front back : List α) (within : i + n ≤ middle.length) :
    assign (front ++ (middle ++ back)) (front.length + i) n bytes =
      front ++ (assign middle i n bytes ++ back) := by
  unfold assign
  rw [take_append, take_of_length_le (by omega), Nat.add_sub_cancel_left,
    take_append_of_le_length (by omega), add_assoc, drop_append,
    drop_of_length_le (by omega), nil_append, Nat.add_sub_cancel_left,
    drop_append_of_le_length within]
  simp

theorem assign_assign {front : List α} (inside : start + front.length ≤ image.length)
    (back : List α) :
    assign (assign image start front.length front) (start + front.length) n back =
      assign image start (front.length + n) (front ++ back) := by
  have before : (image.take start ++ front).length = start + front.length := by
    rw [length_append, length_take]
    omega
  unfold assign
  rw [take_append_of_le_length (by omega), take_of_length_le (by omega),
    drop_append, drop_of_length_le (by omega), nil_append, before,
    drop_drop, append_assoc, append_assoc, append_assoc, append_assoc,
    show start + front.length + (start + front.length + n - (start + front.length)) =
      start + (front.length + n) by omega]

theorem length_lay (fits : ∀ w ∈ ws, w.Fits image.length) :
    (lay image ws).length = image.length := by
  induction ws generalizing image with
  | nil => rfl
  | cons w ws ih =>
    have first := fits w (mem_cons_self ..)
    have same := length_assign first.1 first.2
    show (lay (assign image w.start w.len w.bytes) ws).length = _
    rw [ih fun v mem => same.symm ▸ fits v (mem_cons_of_mem w mem), same]

theorem slice_lay_apart (fits : ∀ w ∈ ws, w.Fits image.length)
    (apart : ∀ w ∈ ws, a + n ≤ w.start ∨ w.start + w.len ≤ a) :
    slice (lay image ws) a n = slice image a n := by
  induction ws generalizing image with
  | nil => rfl
  | cons w ws ih =>
    have first := fits w (mem_cons_self ..)
    have same := length_assign first.1 first.2
    show slice (lay (assign image w.start w.len w.bytes) ws) a n = _
    rw [ih (fun v mem => same.symm ▸ fits v (mem_cons_of_mem w mem))
      fun v mem => apart v (mem_cons_of_mem w mem)]
    exact slice_assign_apart first.1 first.2 (apart w (mem_cons_self ..))

/-- What was written is read back where no later write overlaps it. -/
theorem slice_lay_later (earlier : List (Write α)) {later : List (Write α)}
    (fits : ∀ v ∈ earlier ++ w :: later, v.Fits image.length)
    (apart : ∀ v ∈ later, w.start + i + n ≤ v.start ∨ v.start + v.len ≤ w.start + i)
    (within : i + n ≤ w.len) :
    slice (lay image (earlier ++ w :: later)) (w.start + i) n = slice w.bytes i n := by
  have before := length_lay fun v mem => fits v (mem_append_left _ mem)
  have here := fits w (mem_append_right _ (mem_cons_self ..))
  rw [← before] at here
  have same := length_assign here.1 here.2
  have split : lay image (earlier ++ w :: later) =
      lay (assign (lay image earlier) w.start w.len w.bytes) later := foldl_append ..
  rw [split, slice_lay_apart _ apart]
  · exact slice_assign here.1 here.2 within
  · intro v mem
    rw [same, before]
    exact fits v (mem_append_right _ (mem_cons_of_mem w mem))

theorem slice_lay (fits : ∀ w ∈ ws, w.Fits image.length) (apart : ws.Pairwise Write.Apart)
    (mem : w ∈ ws) (within : i + n ≤ w.len) :
    slice (lay image ws) (w.start + i) n = slice w.bytes i n := by
  obtain ⟨earlier, later, rfl⟩ := append_of_mem mem
  refine slice_lay_later earlier fits (fun v in_later => ?_) within
  have separate := (pairwise_cons.mp (pairwise_append.mp apart).2.1).1 v in_later
  unfold Write.Apart at separate
  omega

end Slices

def to_bytes : Nat → Nat → List Nat
  | 0, _ => []
  | n + 1, v => v % 256 :: to_bytes n (v / 256)

def from_bytes : List Nat → Nat
  | [] => 0
  | b :: bs => b + 256 * from_bytes bs

def to_signed (n : Nat) (v : Int) : List Nat := to_bytes n (v % 256 ^ n).toNat

def from_signed (bytes : List Nat) : Int :=
  if 2 * from_bytes bytes < 256 ^ bytes.length then from_bytes bytes
  else from_bytes bytes - 256 ^ bytes.length

@[simp] theorem length_to_bytes (n v : Nat) : (to_bytes n v).length = n := by
  induction n generalizing v with
  | zero => rfl
  | succ n ih =>
    show (to_bytes n (v / 256)).length + 1 = _
    rw [ih]

@[simp] theorem length_to_signed (n : Nat) (v : Int) : (to_signed n v).length = n :=
  length_to_bytes n _

theorem from_to_bytes {n v : Nat} (small : v < 256 ^ n) : from_bytes (to_bytes n v) = v := by
  induction n generalizing v with
  | zero =>
    show 0 = v
    omega
  | succ n ih =>
    show v % 256 + 256 * from_bytes (to_bytes n (v / 256)) = v
    rw [ih (by rw [pow_succ] at small; omega)]
    omega

theorem from_to_signed {n : Nat} {v : Int} (low : -(256 ^ n : Nat) ≤ 2 * v)
    (high : 2 * v < (256 ^ n : Nat)) : from_signed (to_signed n v) = v := by
  unfold from_signed
  rw [length_to_signed]
  unfold to_signed
  obtain ⟨m, m_eq⟩ : ∃ m : Nat, m = 256 ^ n := ⟨_, rfl⟩
  have cast : (256 ^ n : Int) = m := by
    rw [m_eq]
    norm_cast
  rw [cast, ← m_eq]
  have small : (v % m).toNat < 256 ^ n := by
    rw [← m_eq]
    have := Int.emod_lt_of_pos v (show (0 : Int) < m by omega)
    omega
  rw [from_to_bytes small]
  by_cases negative : v < 0
  · rw [← Int.add_emod_right, Int.emod_eq_of_lt (by omega) (by omega), if_neg (by omega)]
    omega
  · rw [Int.emod_eq_of_lt (by omega) (by omega), if_pos (by omega)]
    omega

end ByteImages
