import Svr4.OnesComplement

/- netinet/in_cksum.c: the checksum of a message, block by block. Words are read as i386 reads them.
   The accumulator has 32 bits; an addition that it cannot hold stops the model, as a panic does. -/
namespace InternetChecksum
open OnesComplement List Nat

inductive Trap
  | overflow
  | panic
  deriving DecidableEq

/-- A message block: the address of its first byte, and the bytes up to `b_wptr`. -/
structure Mblk where
  b_rptr : Nat
  data : List UInt8

/-- What is kept from block to block; `fswap` is 0 or ~0 in the source. -/
structure Sum where
  sum : Nat
  fswap : Bool

def add (sum w : Nat) : Except Trap Nat :=
  if sum + w < 2 ^ 32 then .ok (sum + w) else .error .overflow

def fold (sum : Nat) : Nat := (sum &&& 0xffff) + (sum >>> 16)

def swap (sum : Nat) : Nat := ((sum &&& 0xff) <<< 8) ||| (sum >>> 8)

def odd_byte (s : Sum) (w : UInt8) : Except Trap Sum := do
  let sum ← add s.sum w.toNat
  return ⟨swap (fold sum), !s.fswap⟩

/-- `while (nwords--)`, with the bytes that are left. -/
def add_words : Nat → List UInt8 → Except Trap (Nat × List UInt8)
  | sum, w₀ :: w₁ :: w => do add_words (← add sum (w₀.toNat + 256 * w₁.toNat)) w
  | sum, w => .ok (sum, w)

theorem fold_eq (sum : Nat) : fold sum = sum % 65536 + sum / 65536 := by
  unfold fold
  rw [and_two_pow_sub_one_eq_mod sum 16, shiftRight_eq_div_pow]

/-- `while (sum & ~0xffff)` -/
def fold_all (sum : Nat) : Nat := if sum < 65536 then sum else fold_all (fold sum)
  termination_by sum
  decreasing_by rw [fold_eq]; omega

def odd_start (s : Sum) (mp : Mblk) : List UInt8 → Except Trap (Sum × List UInt8)
  | b :: w => if mp.b_rptr % 2 = 1 then do return (← odd_byte s b, w) else .ok (s, b :: w)
  | [] => .ok (s, [])

def odd_end (s : Sum) : List UInt8 → Except Trap Sum
  | b :: _ => odd_byte s b
  | [] => .ok s

/-- One turn of the outer loop, over the `mlen` bytes that it takes from the block. -/
def block (s : Sum) (mp : Mblk) (mlen : Nat) : Except Trap Sum := do
  let (s, w) ← odd_start s mp (mp.data.take mlen)
  let (sum, w) ← add_words s.sum w
  odd_end ⟨fold_all sum, s.fswap⟩ w

/-- `while (mp && len)` -/
def blocks : List Mblk → Nat → Sum → Except Trap (Sum × Nat)
  | [], len, s => .ok (s, len)
  | mp :: rest, len, s =>
    if len = 0 then .ok (s, 0)
    else do
      let mlen := min len mp.data.length
      blocks rest (len - mlen) (← block s mp mlen)

def in_cksum (mp : List Mblk) (len : Nat) : Except Trap Nat := do
  let (s, len) ← blocks mp len ⟨0, false⟩
  if len ≠ 0 then throw .panic
  let sum := if s.fswap then swap s.sum else s.sum
  return (2 ^ 32 - 1 - sum) % 2 ^ 16

def contents (mp : List Mblk) : List UInt8 := mp.flatMap Mblk.data

/-- The little-endian words of some bytes, the last of them padded. -/
def words : List UInt8 → List Nat
  | b₀ :: b₁ :: bs => (b₀.toNat + 256 * b₁.toNat) :: words bs
  | [b] => [b.toNat]
  | [] => []

def checksum (bs : List UInt8) : Nat := 65535 - (words bs).foldl (plus 65536) 0

variable {s : Sum} {total sum n x y : Nat} {f : Bool}

theorem swap_eq (short : sum < 65536) : swap sum = sum % 256 * 256 + sum / 256 := by
  unfold swap
  rw [and_two_pow_sub_one_eq_mod sum 8, shiftRight_eq_div_pow,
    ← shiftLeft_add_eq_or_of_lt (b := sum / 2 ^ 8) (by omega), shiftLeft_eq]

theorem swap_short (short : sum < 65536) : swap sum < 65536 := by
  rw [swap_eq short]
  omega

theorem swap_alike (short : sum < 65536) : Alike 65536 (swap sum) (256 * sum) := by
  rw [swap_eq short]
  exact Alike.swap (show 0 < 256 by decide) sum

theorem fold_all_spec (sum : Nat) : fold_all sum < 65536 ∧ Alike 65536 (fold_all sum) sum := by
  induction sum using fold_all.induct with
  | case1 sum short =>
    rw [fold_all, if_pos short]
    exact ⟨short, .refl _ _⟩
  | case2 sum wide ih =>
    rw [fold_all, if_neg wide]
    refine ⟨ih.1, ih.2.trans ?_⟩
    rw [fold_eq]
    exact Alike.fold (by decide) sum

def turn (f : Bool) (n : Nat) : Nat := if f then 256 * n else n

theorem turn_add (f : Bool) (n m : Nat) : turn f (n + m) = turn f n + turn f m := by
  cases f
  · rfl
  · exact mul_add 256 n m

theorem turn_turn (f : Bool) (n : Nat) : Alike 65536 (turn f (turn f n)) n := by
  cases f
  · exact .refl _ _
  · have twice := Alike.scale (show 0 < 65536 by decide) n
    rwa [show 65536 * n = 256 * (256 * n) by omega] at twice

theorem turn_not (f : Bool) (n : Nat) : Alike 65536 (256 * turn f n) (turn (!f) n) := by
  cases f
  · exact .refl _ _
  · exact turn_turn true n

def weight : Bool → List UInt8 → Nat
  | _, [] => 0
  | f, b :: bs => turn f b.toNat + weight (!f) bs

theorem weight_append (f : Bool) (bs cs : List UInt8) :
    weight f (bs ++ cs) = weight f bs + weight (f ^^ decide (bs.length % 2 = 1)) cs := by
  induction bs generalizing f with
  | nil => simp [weight]
  | cons b bs ih =>
    rw [cons_append, weight, ih, weight, add_assoc]
    congr 2
    rcases mod_two_eq_zero_or_one bs.length with even | odd
    · cases f <;> simp [even, add_mod]
    · cases f <;> simp [odd, add_mod]

theorem words_alike (bs : List UInt8) : (words bs).sum = weight false bs := by
  induction bs using words.induct with
  | case1 b₀ b₁ bs ih =>
    rw [words, sum_cons, ih]
    simp only [weight, turn, Bool.not_false, Bool.not_true, if_true, Bool.false_eq_true, if_false]
    omega
  | case2 b => simp [words, weight, turn]
  | case3 => rfl

theorem words_short (bs : List UInt8) : ∀ w ∈ words bs, w < 65536 := by
  induction bs using words.induct with
  | case1 b₀ b₁ bs ih =>
    intro w mem
    rcases mem_cons.mp mem with rfl | mem
    · have low := b₀.toNat_lt
      have high := b₁.toNat_lt
      omega
    · exact ih w mem
  | case2 b =>
    intro w mem
    rw [words, mem_singleton] at mem
    have low := b.toNat_lt
    omega
  | case3 => simp [words]

/-- The accumulator holds the sum of the bytes before, turned as `fswap` says. -/
structure Holds (s : Sum) (total : Nat) : Prop where
  short : s.sum < 65536
  alike : Alike 65536 s.sum (turn s.fswap total)

theorem turn_plus (alike : Alike 65536 sum (turn f total)) (n : Nat) :
    Alike 65536 (sum + n) (turn f (total + turn f n)) := by
  rw [turn_add]
  exact alike.add (turn_turn f n).symm

theorem Holds.odd_byte (h : Holds s total) (b : UInt8) : ∃ s', odd_byte s b = .ok s' ∧
    s'.fswap = !s.fswap ∧ Holds s' (total + turn s.fswap b.toNat) := by
  have small := b.toNat_lt
  have short := h.short
  have folded : fold (s.sum + b.toNat) < 65536 := by
    rw [fold_eq]
    omega
  refine ⟨⟨swap (fold (s.sum + b.toNat)), !s.fswap⟩, ?_, rfl, swap_short folded, ?_⟩
  · unfold InternetChecksum.odd_byte add
    rw [if_pos (by omega)]
    rfl
  · apply (swap_alike folded).trans
    apply Alike.trans _ (turn_not _ _)
    apply Alike.mul
    rw [fold_eq]
    exact (Alike.fold (by decide) _).trans (turn_plus h.alike _)

theorem add_words_spec (w : List UInt8) (alike : Alike 65536 sum (turn f total))
    (room : sum + 65535 * (w.length / 2) < 2 ^ 32) : ∃ front rest sum',
    add_words sum w = .ok (sum', rest) ∧ w = front ++ rest ∧ front.length % 2 = 0 ∧
      rest.length < 2 ∧ Alike 65536 sum' (turn f (total + weight f front)) := by
  induction w using words.induct generalizing sum total with
  | case1 b₀ b₁ w ih =>
    have low := b₀.toNat_lt
    have high := b₁.toNat_lt
    rw [length_cons, length_cons] at room
    have added : Alike 65536 (sum + (b₀.toNat + 256 * b₁.toNat))
        (turn f (total + (turn f b₀.toNat + turn (!f) b₁.toNat))) := by
      apply (turn_plus alike _).trans
      rw [turn_add f total, turn_add f total]
      apply (Alike.refl _ _).add
      rw [turn_add, turn_add, turn_add]
      apply (Alike.refl _ _).add
      cases f
      · exact .refl _ _
      · exact (turn_turn true _).mul
    obtain ⟨front, rest, sum', run, rfl, even, short, total'⟩ := ih added (by omega)
    refine ⟨b₀ :: b₁ :: front, rest, sum', ?_, rfl, ?_, short, ?_⟩
    · rw [add_words, add, if_pos (by omega)]
      exact run
    · rw [length_cons, length_cons]
      omega
    · rw [weight, weight, Bool.not_not, ← add_assoc (turn f b₀.toNat), ← add_assoc total]
      exact total'
  | case2 b => exact ⟨[], [b], sum, rfl, rfl, rfl, by simp, alike⟩
  | case3 => exact ⟨[], [], sum, rfl, rfl, rfl, by simp, alike⟩

theorem Holds.odd_start (h : Holds s total) (mp : Mblk) (w : List UInt8) : ∃ front rest s',
    odd_start s mp w = .ok (s', rest) ∧ w = front ++ rest ∧
      s'.fswap = (s.fswap ^^ decide (front.length % 2 = 1)) ∧
      Holds s' (total + weight s.fswap front) := by
  cases w with
  | nil => exact ⟨[], [], s, rfl, rfl, by simp, h⟩
  | cons b w =>
    by_cases odd : mp.b_rptr % 2 = 1
    · obtain ⟨s', run, turned, held⟩ := h.odd_byte b
      refine ⟨[b], w, s', ?_, rfl, by simpa using turned, held⟩
      rw [InternetChecksum.odd_start, if_pos odd, run]
      rfl
    · refine ⟨[], b :: w, s, ?_, rfl, by simp, h⟩
      rw [InternetChecksum.odd_start, if_neg odd]

theorem Holds.odd_end (h : Holds s total) {w : List UInt8} (short : w.length < 2) :
    ∃ s', odd_end s w = .ok s' ∧ s'.fswap = (s.fswap ^^ decide (w.length % 2 = 1)) ∧
      Holds s' (total + weight s.fswap w) := by
  cases w with
  | nil => exact ⟨s, rfl, by simp, h⟩
  | cons b w =>
    obtain rfl : w = [] := by
      rw [length_cons] at short
      exact eq_nil_of_length_eq_zero (by omega)
    obtain ⟨s', run, turned, held⟩ := h.odd_byte b
    exact ⟨s', run, by simpa using turned, held⟩

theorem Holds.block (h : Holds s total) (mp : Mblk) {mlen : Nat} (bound : mlen ≤ 65535) :
    ∃ s', block s mp mlen = .ok s' ∧
      s'.fswap = (s.fswap ^^ decide ((mp.data.take mlen).length % 2 = 1)) ∧
      Holds s' (total + weight s.fswap (mp.data.take mlen)) := by
  have length := length_take_le mlen mp.data
  obtain ⟨front, rest, s₁, run₁, split₁, turned₁, held₁⟩ := h.odd_start mp (mp.data.take mlen)
  rw [split₁, length_append] at length
  have short₁ := held₁.short
  obtain ⟨middle, last, sum, run₂, rfl, even, short, alike⟩ :=
    add_words_spec rest held₁.alike (by omega)
  have folded := fold_all_spec sum
  have held₂ : Holds ⟨fold_all sum, s₁.fswap⟩
      (total + weight s.fswap front + weight s₁.fswap middle) :=
    ⟨folded.1, folded.2.trans alike⟩
  obtain ⟨s₃, run₃, turned₃, held₃⟩ := held₂.odd_end short
  refine ⟨s₃, ?_, ?_, ?_⟩
  · unfold InternetChecksum.block
    rw [run₁]
    show (add_words s₁.sum (middle ++ last) >>= _) = _
    rw [run₂]
    exact run₃
  · rw [turned₃, turned₁, split₁]
    rcases mod_two_eq_zero_or_one front.length with p | p <;>
      rcases mod_two_eq_zero_or_one last.length with q | q <;>
        cases s.fswap <;> simp [add_mod, p, q, even]
  · have inner := weight_append s₁.fswap middle last
    rw [even] at inner
    rw [split₁, weight_append, ← turned₁, inner, ← add_assoc, ← add_assoc]
    simpa using held₃

theorem Holds.blocks (h : Holds s total) (mp : List Mblk) {len : Nat} (bound : len ≤ 65535)
    (enough : len ≤ (contents mp).length) :
    ∃ s', blocks mp len s = .ok (s', 0) ∧
      Holds s' (total + weight s.fswap ((contents mp).take len)) := by
  induction mp generalizing s total len with
  | nil =>
    obtain rfl : len = 0 := by simpa [contents] using enough
    exact ⟨s, rfl, h⟩
  | cons mp rest ih =>
    rw [InternetChecksum.blocks]
    by_cases done : len = 0
    · rw [if_pos done, done]
      exact ⟨s, rfl, h⟩
    have cut : contents (mp :: rest) = mp.data ++ contents rest := rfl
    have least : mp.data.take (min len mp.data.length) = mp.data.take len := by
      rw [take_eq_take_iff]
      omega
    rw [cut, length_append] at enough
    obtain ⟨s₁, run, turned, held⟩ := h.block mp (show min len mp.data.length ≤ 65535 by omega)
    obtain ⟨s', left, final⟩ := ih held (show len - min len mp.data.length ≤ 65535 by omega)
      (by omega)
    refine ⟨s', ?_, ?_⟩
    · rw [if_neg done]
      show (InternetChecksum.block s mp (min len mp.data.length) >>= _) = _
      rw [run]
      exact left
    · rw [least] at turned final
      rw [cut, take_append, weight_append, ← turned, ← add_assoc]
      rwa [show len - min len mp.data.length = len - mp.data.length by omega] at final

/-- However a message is cut into blocks and wherever they start, the checksum is that of its first
`len` bytes; nothing overflows or panics. -/
theorem checksum_ignores_layout (mp : List Mblk) (len : Nat) (bound : len ≤ 65535)
    (enough : len ≤ (contents mp).length) :
    in_cksum mp len = .ok (checksum ((contents mp).take len)) := by
  have start : Holds ⟨0, false⟩ 0 := ⟨by decide, .refl _ _⟩
  obtain ⟨s, run, held⟩ := start.blocks mp bound enough
  rw [zero_add] at held
  -- The last exchange undoes the others.
  have turned : Alike 65536 (if s.fswap then swap s.sum else s.sum)
      (weight false ((contents mp).take len)) ∧ (if s.fswap then swap s.sum else s.sum) < 65536 := by
    have alike := held.alike
    cases flag : s.fswap with
    | false =>
      rw [flag] at alike
      exact ⟨alike, held.short⟩
    | true =>
      rw [flag] at alike
      refine ⟨(swap_alike held.short).trans ?_, swap_short held.short⟩
      exact alike.mul.trans (turn_turn true _)
  obtain ⟨short, sums⟩ := foldl_plus (r := 0) (by decide) (words_short ((contents mp).take len))
  rw [zero_add, words_alike] at sums
  have same := (turned.1.trans sums.symm).eq_of_lt turned.2 short
  unfold in_cksum checksum
  rw [run, ← same]
  refine congrArg Except.ok ?_
  omega

theorem checksum_ignores_layout_odd : in_cksum [⟨4097, [1]⟩, ⟨8192, [2, 3]⟩] 3 =
    .ok (checksum [1, 2, 3]) :=
  checksum_ignores_layout [⟨4097, [1]⟩, ⟨8192, [2, 3]⟩] 3 (by decide) (by decide)

section Verified
variable {mp mp' : List Mblk} {pre post bs : List UInt8} {c c' : Nat} {a b a' b' : UInt8}

def word (a b : UInt8) : Nat := a.toNat + 256 * b.toNat

/-- The message starts with these bytes, which the length of a packet can count. -/
def Begins (mp : List Mblk) (bs : List UInt8) : Prop :=
  bs.length ≤ 65535 ∧ bs <+: contents mp

theorem in_cksum_alike (begins : Begins mp bs) : ∃ c ≤ 65535,
    in_cksum mp bs.length = .ok c ∧ Alike 65536 (65535 - c) (weight false bs) := by
  have start : Holds ⟨0, false⟩ 0 := ⟨by decide, .refl _ _⟩
  obtain ⟨s, run, held⟩ := start.blocks mp begins.1 begins.2.length_le
  rw [zero_add, ← prefix_iff_eq_take.mp begins.2] at held
  obtain ⟨short, alike⟩ : (if s.fswap then swap s.sum else s.sum) < 65536 ∧
      Alike 65536 (if s.fswap then swap s.sum else s.sum) (weight false bs) := by
    have alike := held.alike
    cases flag : s.fswap with
    | false =>
      rw [flag] at alike
      exact ⟨held.short, alike⟩
    | true =>
      rw [flag] at alike
      exact ⟨swap_short held.short,
        (swap_alike held.short).trans (alike.mul.trans (turn_turn true _))⟩
  refine ⟨65535 - if s.fswap then swap s.sum else s.sum, sub_le _ _, ?_, ?_⟩
  · unfold in_cksum
    rw [run]
    refine congrArg Except.ok ?_
    omega
  · rwa [Nat.sub_sub_self (le_of_lt_succ short)]

theorem weight_word (even : pre.length % 2 = 0) :
    weight false (pre ++ a :: b :: post) =
      weight false pre + weight false post + word a b := by
  rw [weight_append, even]
  simp only [weight, turn, word, Bool.not_false, Bool.not_true, if_true, Bool.false_eq_true,
    if_false, Bool.xor_false, zero_ne_one, decide_false]
  omega

theorem checksum_of_begins (begins : Begins mp bs) (sent : in_cksum mp bs.length = .ok c) :
    c ≤ 65535 ∧ Alike 65536 (65535 - c) (weight false bs) := by
  obtain ⟨d, small, made, alike⟩ := in_cksum_alike begins
  cases sent.symm.trans made
  exact ⟨small, alike⟩

/-- A checksum that is stored where zeros were makes the check pass. -/
theorem stored_passes (even : pre.length % 2 = 0)
    (blank : Begins mp (pre ++ 0 :: 0 :: post))
    (sent : in_cksum mp (pre ++ 0 :: 0 :: post).length = .ok c)
    (arrived : Begins mp' (pre ++ a :: b :: post)) (stored : word a b = c) :
    in_cksum mp' (pre ++ a :: b :: post).length = .ok 0 := by
  obtain ⟨small, alike⟩ := checksum_of_begins blank sent
  obtain ⟨c', small', made, alike'⟩ := in_cksum_alike arrived
  rw [weight_word even] at alike alike'
  have zeros : word 0 0 = 0 := rfl
  rw [zeros, Nat.add_zero] at alike
  have full : Alike 65536 (weight false pre + weight false post + c) 65535 := by
    constructor
    · have sum := alike.modulo.symm.add_right c
      rwa [Nat.sub_add_cancel small] at sum
    · have zero := alike.zero
      omega
  rw [stored] at alike'
  have same := (alike'.trans full).eq_of_lt (by omega) (by decide)
  rw [made, show c' = 0 by omega]

theorem stored_passes_shifted : in_cksum [⟨4097, [1, 2, 254]⟩, ⟨8192, [253]⟩] 4 = .ok 0 := by
  have blank : Begins [⟨8192, [1, 2, 0, 0]⟩] ([1, 2] ++ 0 :: 0 :: []) := ⟨by decide, [], rfl⟩
  have arrived : Begins [⟨4097, [1, 2, 254]⟩, ⟨8192, [253]⟩] ([1, 2] ++ 254 :: 253 :: []) :=
    ⟨by decide, [], rfl⟩
  have sent : in_cksum [⟨8192, [1, 2, 0, 0]⟩] ([1, 2] ++ 0 :: 0 :: []).length = .ok 65022 := by
    decide +kernel
  have passes := stored_passes (by decide) blank sent arrived (by decide)
  exact passes

/-- Of two messages that differ in one aligned word and both pass, one has 0 there, the other
0xffff. -/
theorem both_pass (even : pre.length % 2 = 0)
    (first : Begins mp (pre ++ a :: b :: post)) (second : Begins mp' (pre ++ a' :: b' :: post))
    (passes : in_cksum mp (pre ++ a :: b :: post).length = .ok 0)
    (passes' : in_cksum mp' (pre ++ a' :: b' :: post).length = .ok 0) :
    word a b = word a' b' ∨ word a b = 0 ∧ word a' b' = 65535 ∨
      word a b = 65535 ∧ word a' b' = 0 := by
  have alike := (checksum_of_begins first passes).2.modulo
  have alike' := (checksum_of_begins second passes').2.modulo
  rw [weight_word even] at alike alike'
  have small := a.toNat_lt
  have small₂ := b.toNat_lt
  have small₃ := a'.toNat_lt
  have small₄ := b'.toNat_lt
  unfold ModEq word at *
  omega

theorem both_pass_ones : word 0 0 = word 255 255 ∨ word 0 0 = 0 ∧ word 255 255 = 65535 ∨
    word 0 0 = 65535 ∧ word 255 255 = 0 :=
  both_pass (by decide : ([255, 255] : List UInt8).length % 2 = 0)
    (⟨by decide, [], rfl⟩ : Begins [⟨8192, [255, 255, 0, 0]⟩] ([255, 255] ++ 0 :: 0 :: []))
    (⟨by decide, [], rfl⟩ : Begins [⟨8192, [255, 255, 255, 255]⟩] ([255, 255] ++ 255 :: 255 :: []))
    (by decide +kernel) (by decide +kernel)

end Verified

end InternetChecksum
