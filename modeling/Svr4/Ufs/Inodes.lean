import Mathlib.Data.BitVec
import Mathlib.Data.Nat.Count

/- fs/ufs/ufs_alloc.c: the inodes of one cylinder group, and how `ialloccg` finds a free one. -/
namespace UfsInodes
open Function Nat

/-- sys/param.h, sys/stat.h -/
def NBBY : Nat := 8
def IFMT : Nat := 0xf000
def IFDIR : Nat := 0x4000

def howmany (x y : Nat) : Nat := (x + (y - 1)) / y

def ifdir (mode : Nat) : Bool := mode &&& IFMT = IFDIR

inductive Panic
  | map_corrupted
  | block_not_in_map
  | range
  deriving DecidableEq

structure Csum where
  cs_nifree : Int
  cs_ndir : Int
  deriving DecidableEq

/-- A cylinder group: the counts of its inodes, the rotor and the map. -/
structure Cg where
  cg_cs : Csum
  cg_irotor : Nat
  cg_iused : Nat → BitVec 8

def isclr (a : Nat → BitVec 8) (i : Nat) : Bool := !(a (i / NBBY)).getLsbD (i % NBBY)

def setbit (a : Nat → BitVec 8) (i : Nat) : Nat → BitVec 8 :=
  update a (i / NBBY) (a (i / NBBY) ||| 1#8 <<< (i % NBBY))

def clrbit (a : Nat → BitVec 8) (i : Nat) : Nat → BitVec 8 :=
  update a (i / NBBY) (a (i / NBBY) &&& ~~~(1#8 <<< (i % NBBY)))

/-- What is left of the `len` bytes when one is found that is not `c`. -/
def skpc (c : BitVec 8) (cp : Nat → BitVec 8) : Nat → Nat → Nat
  | 0, _ => 0
  | len + 1, at_ => if cp at_ = c then skpc c cp len (at_ + 1) else len + 1

def clear_in_byte (g : Cg) (i : Nat) : Except Panic (Nat × Cg) :=
  match (List.range NBBY).find? fun j => !(g.cg_iused i).getLsbD j with
  | some j => .ok (i * NBBY + j, { g with cg_irotor := i * NBBY + j })
  | none => .error .block_not_in_map

/-- From the byte of the rotor to the end of the map, and then from the start. -/
def rotor_scan (fs_ipg : Nat) (g : Cg) : Except Panic (Nat × Cg) :=
  let start := g.cg_irotor / NBBY
  let len := howmany (fs_ipg - g.cg_irotor) NBBY
  let loc := skpc 0xff g.cg_iused len start
  if loc ≠ 0 then clear_in_byte g (start + len - loc)
  else
    let len := start + 1
    let loc := skpc 0xff g.cg_iused len 0
    if loc ≠ 0 then clear_in_byte g (len - loc) else .error .map_corrupted

/-- The place in the group of the inode that `ialloccg` takes. -/
def choose (fs_ipg : Nat) (g : Cg) (ipref : Nat) : Except Panic (Nat × Cg) :=
  if ipref ≠ 0 ∧ isclr g.cg_iused (ipref % fs_ipg) = true then .ok (ipref % fs_ipg, g)
  else rotor_scan fs_ipg g

def Csum.take (c : Csum) (dir : Bool) : Csum where
  cs_nifree := c.cs_nifree - 1
  cs_ndir := if dir then c.cs_ndir + 1 else c.cs_ndir

def Csum.give (c : Csum) (dir : Bool) : Csum where
  cs_nifree := c.cs_nifree + 1
  cs_ndir := if dir then c.cs_ndir - 1 else c.cs_ndir

def Cg.take (g : Cg) (i : Nat) (dir : Bool) : Cg :=
  { g with cg_iused := setbit g.cg_iused i, cg_cs := g.cg_cs.take dir }

def Cg.give (g : Cg) (i : Nat) (dir : Bool) : Cg where
  cg_cs := g.cg_cs.give dir
  cg_irotor := if i < g.cg_irotor then i else g.cg_irotor
  cg_iused := clrbit g.cg_iused i

/-- The counts of a group are those of its map; `dirs` are the places of the inodes that have been
    allocated as directories. -/
structure Cg.Counted (fs_ipg : Nat) (g : Cg) (dirs : Nat → Bool) : Prop where
  nifree : g.cg_cs.cs_nifree = count (fun i => isclr g.cg_iused i = true) fs_ipg
  ndir : g.cg_cs.cs_ndir =
    count (fun i => isclr g.cg_iused i = false ∧ dirs i = true) fs_ipg

section
variable {a : Nat → BitVec 8} {g g' : Cg} {dirs : Nat → Bool} {fs_ipg i j k len ipref : Nat}
  {c : BitVec 8} {p q : Nat → Prop}

theorem mask_bit (byte : j / NBBY = i / NBBY) :
    (1#8 <<< (i % NBBY)).getLsbD (j % NBBY) = decide (j = i) := by
  have masks : ∀ x < 8, ∀ y < 8, (1#8 <<< x).getLsbD y = decide (y = x) := by decide
  unfold NBBY at *
  rw [masks _ (mod_lt _ (by decide)) _ (mod_lt _ (by decide)), decide_eq_decide]
  omega

theorem isclr_setbit : isclr (setbit a i) j = (isclr a j && decide (j ≠ i)) := by
  unfold isclr setbit
  by_cases byte : j / NBBY = i / NBBY
  · rw [byte, update_self, BitVec.getLsbD_or, mask_bit byte, Bool.not_or, decide_not]
  · have apart : j ≠ i := fun same => byte (by rw [same])
    rw [update_of_ne byte, decide_eq_true apart, Bool.and_true]

theorem isclr_clrbit : isclr (clrbit a i) j = (isclr a j || decide (j = i)) := by
  unfold isclr clrbit
  by_cases byte : j / NBBY = i / NBBY
  · have inside : j % NBBY < 8 := mod_lt _ (by decide)
    rw [byte, update_self, BitVec.getLsbD_and, BitVec.getLsbD_not, mask_bit byte,
      decide_eq_true inside, Bool.true_and, Bool.not_and, Bool.not_not]
  · have apart : j ≠ i := fun same => byte (by rw [same])
    rw [update_of_ne byte, decide_eq_false apart, Bool.or_false]

theorem skpc_le (c : BitVec 8) (a : Nat → BitVec 8) (len k : Nat) : skpc c a len k ≤ len := by
  induction len generalizing k with
  | zero => exact le_refl 0
  | succ len ih =>
    rw [skpc]
    split
    · exact le_succ_of_le (ih (k + 1))
    · exact le_refl _

theorem skpc_zero (none : skpc c a len k = 0) (inside : j < len) : a (k + j) = c := by
  induction len generalizing k j with
  | zero => exact absurd inside (not_lt_zero j)
  | succ len ih =>
    rw [skpc] at none
    split at none
    · next here =>
      cases j with
      | zero => exact here
      | succ j =>
        have := ih none (lt_of_succ_lt_succ inside)
        rwa [add_right_comm, add_assoc] at this
    · cases none

theorem skpc_found (some : skpc c a len k ≠ 0) : a (k + (len - skpc c a len k)) ≠ c := by
  induction len generalizing k with
  | zero => exact absurd rfl some
  | succ len ih =>
    rw [skpc] at some ⊢
    split
    · next here =>
      rw [if_pos here] at some
      have rest := ih some
      have := skpc_le c a len (k + 1)
      rwa [show k + (len + 1 - skpc c a len (k + 1)) = k + 1 + (len - skpc c a len (k + 1)) by
        omega]
    · next here =>
      rw [Nat.sub_self]
      exact here

theorem clear_bit {b : BitVec 8} (some : b ≠ 0xff) : ∃ j < 8, b.getLsbD j = false := by
  by_contra none
  have all : ∀ j < 8, b.getLsbD j ≠ false := fun j inside clear => none ⟨j, inside, clear⟩
  apply some
  apply BitVec.eq_of_getLsbD_eq
  intro j inside
  rw [Bool.eq_true_of_not_eq_false (all j inside)]
  have ones : ∀ j < 8, (0xff : BitVec 8).getLsbD j = true := by decide
  exact (ones j inside).symm

theorem clear_in_byte_spec (some : g.cg_iused i ≠ 0xff) :
    ∃ j < 8, isclr g.cg_iused (i * 8 + j) = true ∧
      clear_in_byte g i = .ok (i * 8 + j, { g with cg_irotor := i * 8 + j }) := by
  obtain ⟨j, inside, clear⟩ := clear_bit some
  have found : ((List.range NBBY).find? fun j => !(g.cg_iused i).getLsbD j).isSome := by
    rw [List.find?_isSome]
    exact ⟨j, List.mem_range.mpr inside, by simp [clear]⟩
  obtain ⟨k, first⟩ := Option.isSome_iff_exists.mp found
  have member : k < 8 := List.mem_range.mp (List.mem_of_find?_eq_some first)
  have bit := List.find?_some first
  refine ⟨k, member, ?_, ?_⟩
  · unfold isclr
    rw [show (i * 8 + k) / NBBY = i by unfold NBBY; omega,
      show (i * 8 + k) % NBBY = k by unfold NBBY; omega]
    exact bit
  · unfold clear_in_byte
    rw [first]
    rfl

theorem byte_of_clear (clear : isclr a i = true) : a (i / 8) ≠ 0xff := by
  intro full
  unfold isclr NBBY at clear
  rw [full] at clear
  have ones : ∀ j < 8, (0xff : BitVec 8).getLsbD j = true := by decide
  rw [ones (i % 8) (mod_lt _ (by decide))] at clear
  cases clear

section
variable (whole : 8 ∣ fs_ipg) (rotor : g.cg_irotor < fs_ipg)
  (free : ∃ i < fs_ipg, isclr g.cg_iused i = true)
include whole rotor free

theorem rotor_scan_spec : ∃ i < fs_ipg, isclr g.cg_iused i = true ∧
      rotor_scan fs_ipg g = .ok (i, { g with cg_irotor := i }) := by
  obtain ⟨bytes, rfl⟩ := whole
  obtain ⟨i, inside, clear⟩ := free
  have len : howmany (8 * bytes - g.cg_irotor) NBBY = bytes - g.cg_irotor / 8 := by
    unfold howmany NBBY
    omega
  unfold rotor_scan
  rw [len]
  change ∃ i < 8 * bytes, isclr g.cg_iused i = true ∧
    (if skpc 0xff g.cg_iused (bytes - g.cg_irotor / 8) (g.cg_irotor / 8) ≠ 0 then _ else _) = _
  split
  · next some =>
    have small := skpc_le 0xff g.cg_iused (bytes - g.cg_irotor / 8) (g.cg_irotor / 8)
    obtain ⟨j, bit, clear', found⟩ := clear_in_byte_spec (g := g) (skpc_found some)
    rw [← Nat.add_sub_assoc small] at clear' found
    exact ⟨_, by omega, clear', found⟩
  next none =>
  -- the free inode lies in front of the rotor's byte, or in it
  have early : i / 8 ≤ g.cg_irotor / 8 := by
    by_contra late
    have full := skpc_zero (not_not.mp none)
      (show i / 8 - g.cg_irotor / 8 < bytes - g.cg_irotor / 8 by omega)
    rw [show g.cg_irotor / 8 + (i / 8 - g.cg_irotor / 8) = i / 8 by omega] at full
    exact byte_of_clear clear full
  have some : skpc 0xff g.cg_iused (g.cg_irotor / NBBY + 1) 0 ≠ 0 := by
    intro nothing
    have full := skpc_zero nothing (show i / 8 < g.cg_irotor / NBBY + 1 by unfold NBBY; omega)
    rw [zero_add] at full
    exact byte_of_clear clear full
  have small := skpc_le 0xff g.cg_iused (g.cg_irotor / NBBY + 1) 0
  obtain ⟨j, bit, clear', found⟩ := clear_in_byte_spec (g := g) (skpc_found some)
  rw [zero_add] at clear' found
  rw [if_pos some]
  refine ⟨_, ?_, clear', found⟩
  unfold NBBY at small some ⊢
  omega

theorem choose_spec (ipref : Nat) : ∃ i < fs_ipg, isclr g.cg_iused i = true ∧
      ∃ r < fs_ipg, choose fs_ipg g ipref = .ok (i, { g with cg_irotor := r }) := by
  unfold choose
  split
  · next preferred =>
    exact ⟨_, mod_lt _ (zero_lt_of_lt rotor), preferred.2, g.cg_irotor, rotor, rfl⟩
  · obtain ⟨i, inside, clear, found⟩ := rotor_scan_spec whole rotor free
    exact ⟨i, inside, clear, i, inside, found⟩

end

theorem count_insert [DecidablePred p] [DecidablePred q] {n : Nat} (inside : i < n) (new : q i)
    (old : ¬ p i) (others : ∀ j, j ≠ i → (q j ↔ p j)) :
    count q n = count p n + 1 := by
  have member : i ∉ (Finset.range n).filter p := fun mem => old (Finset.mem_filter.mp mem).2
  rw [count_eq_card_filter_range, count_eq_card_filter_range, ← Finset.card_insert_of_notMem member]
  congr 1
  ext j
  by_cases here : j = i
  · subst here
    simp [inside, new]
  · simp [others j here, here]

theorem count_same [DecidablePred p] [DecidablePred q] (n : Nat) (same : ∀ j, q j ↔ p j) :
    count q n = count p n := by
  congr 1
  funext j
  exact propext (same j)

theorem Cg.Counted.take (counted : g.Counted fs_ipg dirs) (inside : i < fs_ipg)
    (free : isclr g.cg_iused i = true) (dir : Bool) :
    (g.take i dir).Counted fs_ipg (update dirs i dir) := by
  obtain ⟨nifree, ndir⟩ := counted
  constructor
  · show g.cg_cs.cs_nifree - 1 = _
    have fewer : count (fun j => isclr g.cg_iused j = true) fs_ipg =
        count (fun j => isclr (setbit g.cg_iused i) j = true) fs_ipg + 1 := by
      apply count_insert inside free
      · simp [isclr_setbit]
      · intro j other
        simp [isclr_setbit, other]
    change _ = (count (fun j => isclr (setbit g.cg_iused i) j = true) fs_ipg : Int)
    omega
  · show (if dir then g.cg_cs.cs_ndir + 1 else g.cg_cs.cs_ndir) =
      count (fun j => isclr (setbit g.cg_iused i) j = false ∧ update dirs i dir j = true) fs_ipg
    cases dir with
    | true =>
      have more : count (fun j => isclr (setbit g.cg_iused i) j = false ∧
            update dirs i true j = true) fs_ipg =
          count (fun j => isclr g.cg_iused j = false ∧ dirs j = true) fs_ipg + 1 := by
        apply count_insert inside
        · simp [isclr_setbit]
        · simp [free]
        · intro j other
          simp [isclr_setbit, other]
      rw [if_pos rfl, more, ndir]
      rfl
    | false =>
      rw [if_neg (by decide), ndir]
      congr 1
      apply count_same
      intro j
      by_cases here : j = i
      · subst here
        simp [free]
      · simp [isclr_setbit, here]

theorem Cg.Counted.give (counted : g.Counted fs_ipg dirs) (inside : i < fs_ipg)
    (used : isclr g.cg_iused i = false) :
    (g.give i (dirs i)).Counted fs_ipg dirs := by
  obtain ⟨nifree, ndir⟩ := counted
  constructor
  · show g.cg_cs.cs_nifree + 1 = count (fun j => isclr (clrbit g.cg_iused i) j = true) fs_ipg
    have more : count (fun j => isclr (clrbit g.cg_iused i) j = true) fs_ipg =
        count (fun j => isclr g.cg_iused j = true) fs_ipg + 1 := by
      apply count_insert inside
      · simp [isclr_clrbit]
      · simp [used]
      · intro j other
        simp [isclr_clrbit, other]
    rw [more, nifree]
    rfl
  · show (if dirs i then g.cg_cs.cs_ndir - 1 else g.cg_cs.cs_ndir) =
      count (fun j => isclr (clrbit g.cg_iused i) j = false ∧ dirs j = true) fs_ipg
    cases dir : dirs i with
    | true =>
      have fewer : count (fun j => isclr g.cg_iused j = false ∧ dirs j = true) fs_ipg =
          count (fun j => isclr (clrbit g.cg_iused i) j = false ∧ dirs j = true) fs_ipg + 1 := by
        apply count_insert inside ⟨used, dir⟩
        · simp [isclr_clrbit]
        · intro j other
          simp [isclr_clrbit, other]
      rw [if_pos rfl, ndir]
      omega
    | false =>
      rw [if_neg (by decide), ndir]
      congr 1
      apply count_same
      intro j
      by_cases here : j = i
      · subst here
        simp [dir]
      · simp [isclr_clrbit, here]

theorem Cg.Counted.some_free (counted : g.Counted fs_ipg dirs) (some : g.cg_cs.cs_nifree ≠ 0) :
    ∃ i < fs_ipg, isclr g.cg_iused i = true := by
  rw [counted.nifree] at some
  have pos : 0 < count (fun i => isclr g.cg_iused i = true) fs_ipg := by omega
  rw [← count_zero (fun i => isclr g.cg_iused i = true)] at pos
  obtain ⟨i, inside, free⟩ := exists_of_count_lt_count pos
  exact ⟨i, inside.2, free⟩

end

end UfsInodes
