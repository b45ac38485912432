import Mathlib.Data.List.Basic

/- A device as a function from byte offsets to bytes. A transfer reads a stretch into a
   buffer and writes the buffer somewhere else; pouring writes given bytes. -/
namespace ByteMoves
open List
variable {β : Type} {bytes : List β}

def transfer (disk : Nat → β) (src dst len : Nat) : Nat → β :=
  fun x => if dst ≤ x ∧ x < dst + len then disk (x - dst + src) else disk x

def pour (disk : Nat → β) (off : Nat) (bytes : List β) : Nat → β :=
  fun x => if off ≤ x then (bytes[x - off]?).getD (disk x) else disk x

def slice (disk : Nat → β) (off len : Nat) : List β := (List.range len).map fun i => disk (off + i)

variable (disk : Nat → β) (off : Nat) {n : Nat}

@[simp] theorem transfer_zero (src dst : Nat) : transfer disk src dst 0 = disk := by
  funext x
  have : ¬ (dst ≤ x ∧ x < dst + 0) := by omega
  simp only [transfer, if_neg this]

theorem transfer_transfer {src dst a b : Nat} (safe : dst ≤ src ∨ src + a + b ≤ dst) :
    transfer (transfer disk src dst a) (src + a) (dst + a) b = transfer disk src dst (a + b) := by
  funext x
  unfold transfer
  by_cases second : dst + a ≤ x ∧ x < dst + a + b
  · have whole : dst ≤ x ∧ x < dst + (a + b) := by omega
    have kept : ¬ (dst ≤ x - (dst + a) + (src + a) ∧ x - (dst + a) + (src + a) < dst + a) :=
        by omega
    rw [if_pos second, if_neg kept, if_pos whole]
    congr 1
    omega
  · rw [if_neg second]
    by_cases first : dst ≤ x ∧ x < dst + a
    · rw [if_pos first, if_pos (by omega)]
    · rw [if_neg first, if_neg (by omega)]

@[simp] theorem pour_nil : pour disk off [] = disk := by
  funext x
  simp [pour]

theorem pour_pour (as bs : List β) :
    pour (pour disk off as) (off + as.length) bs = pour disk off (as ++ bs) := by
  funext x
  unfold pour
  by_cases low : off ≤ x
  · by_cases high : off + as.length ≤ x
    · rw [if_pos high, if_pos low, if_pos low, getElem?_append_right (by omega),
        getElem?_eq_none (l := as) (by omega), Nat.sub_sub]
      rfl
    · rw [if_neg high, if_pos low, if_pos low, getElem?_append_left (by omega)]
  · rw [if_neg (by omega), if_neg low, if_neg low]

@[simp] theorem length_slice (len : Nat) : (slice disk off len).length = len := by
  simp [slice]

theorem getElem?_slice (len i : Nat) :
    (slice disk off len)[i]? = if i < len then some (disk (off + i)) else none := by
  unfold slice
  by_cases inside : i < len
  · rw [if_pos inside, getElem?_map, getElem?_range inside]
    rfl
  · rw [if_neg inside, getElem?_eq_none]
    simpa using inside

theorem slice_congr {disk disk' : Nat → β} {off off' len : Nat}
    (same : ∀ i < len, disk' (off' + i) = disk (off + i)) :
    slice disk' off' len = slice disk off len := by
  apply map_congr_left
  intro i member
  exact same i (mem_range.mp member)

theorem slice_transfer (src dst len : Nat) (part : n ≤ len) :
    slice (transfer disk src dst len) dst n = slice disk src n := by
  apply slice_congr
  intro i inside
  have here : dst ≤ dst + i ∧ dst + i < dst + len := by omega
  rw [transfer, if_pos here]
  congr 1
  omega

theorem slice_transfer_of_apart {src dst len off : Nat} (apart : off + n ≤ dst ∨ dst + len ≤ off) :
    slice (transfer disk src dst len) off n = slice disk off n := by
  apply slice_congr
  intro i inside
  rw [transfer, if_neg (by omega)]

theorem slice_pour_of_apart {off at_ : Nat} (apart : off + n ≤ at_ ∨ at_ + bytes.length ≤ off) :
    slice (pour disk at_ bytes) off n = slice disk off n := by
  apply slice_congr
  intro i inside
  unfold pour
  split
  · rw [getElem?_eq_none (by omega)]
    rfl
  · rfl

/-- What a file holds after `bytes` were written at `off`: a gap up to there reads as `zero`. -/
def overwrite (zero : β) (old : List β) (off : Nat) (bytes : List β) : List β :=
  if bytes = [] then old
  else old.take off ++ List.replicate (off - old.length) zero ++ bytes ++
    old.drop (off + bytes.length)

/-- Zeroes poured from the end of the old bytes up to `off`, and then the new bytes. -/
theorem slice_overwrite (zero : β) (start len off : Nat) (some_bytes : bytes ≠ [])
    :
    slice (pour (pour disk (start + len) (List.replicate (off - len) zero)) (start + off) bytes)
      start (max len (off + bytes.length)) = overwrite zero (slice disk start len) off bytes := by
  apply ext_getElem?
  intro i
  rw [getElem?_slice, overwrite, if_neg some_bytes, length_slice]
  have size : ((slice disk start len).take off).length = min off len := by simp
  by_cases below : i < off
  · -- the old bytes, then the gap
    rw [append_assoc, getElem?_append_left (by simp; omega), if_pos (by omega)]
    have outside : pour (pour disk (start + len) (replicate (off - len) zero)) (start + off)
        bytes (start + i) = pour disk (start + len) (replicate (off - len) zero)
        (start + i) := by
      rw [pour, if_neg (by omega)]
    rw [outside]
    by_cases old : i < len
    · rw [getElem?_append_left (by omega), getElem?_take_of_lt below, getElem?_slice,
        if_pos old, pour, if_neg (by omega)]
    · rw [getElem?_append_right (by omega), pour, if_pos (by omega),
        getElem?_replicate, getElem?_replicate, size, if_pos (by omega),
        if_pos (by omega)]
      rfl
  have front : ((slice disk start len).take off ++ replicate (off - len) zero).length = off := by
    simp
    omega
  rw [append_assoc, getElem?_append_right (by omega), front]
  by_cases new : i < off + bytes.length
  · have present : i - off < bytes.length := by omega
    have byte := getElem?_eq_getElem present
    rw [getElem?_append_left (by omega), if_pos (by omega), pour, if_pos (by omega)]
    have same : start + i - (start + off) = i - off := by omega
    rw [same, byte]
    rfl
  · rw [getElem?_append_right (by omega), getElem?_drop, getElem?_slice]
    have place : off + bytes.length + (i - off - bytes.length) = i := by omega
    rw [place]
    by_cases old : i < len
    · rw [if_pos (by omega), if_pos old, pour, if_pos (by omega),
        getElem?_eq_none (by omega), pour, if_neg (by omega)]
      rfl
    · rw [if_neg (by omega), if_neg old]

end ByteMoves
