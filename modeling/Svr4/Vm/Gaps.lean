import Mathlib.Algebra.Group.Nat.Defs
import Mathlib.Data.List.Basic

/- vm/vm_as.c: the segments of an address space, and the search for a hole between them. -/
namespace AddressSpace
open Option List

/-- A segment; `seg_alloc` lets none reach the end of the 32-bit addresses. -/
structure Seg where
  s_base : Nat
  s_size : Nat
  positive : 0 < s_size
  below : s_base + s_size < 2 ^ 32

def Seg.stop (s : Seg) : Nat := s.s_base + s.s_size

def Sorted (segs : List Seg) : Prop := segs.Pairwise fun s t => s.stop ≤ t.s_base

structure As where
  a_segs : List Seg
  sorted : Sorted a_segs

/-- The walk of `as_addseg`: the list with `newseg` before the first segment above it. -/
def insert_seg (newseg : Seg) : List Seg → Option (List Seg)
  | [] => some [newseg]
  | seg :: rest =>
    if newseg.s_base < seg.s_base then
      if newseg.stop > seg.s_base then none else some (newseg :: seg :: rest)
    else if newseg.s_base < seg.stop then none
    else (insert_seg newseg rest).map (seg :: ·)

theorem insert_seg_mem {newseg x : Seg} {segs new : List Seg}
    (placed : insert_seg newseg segs = some new) (mem : x ∈ new) : x = newseg ∨ x ∈ segs := by
  induction segs generalizing new with
  | nil =>
    obtain rfl := some.inj placed
    simpa using mem
  | cons seg rest ih =>
    unfold insert_seg at placed
    split_ifs at placed
    · obtain rfl := some.inj placed
      simpa using mem
    · obtain ⟨tail, inserted, rfl⟩ := map_eq_some_iff.mp placed
      rcases mem_cons.mp mem with rfl | later
      · exact .inr (by simp)
      · exact (ih inserted later).imp_right (mem_cons_of_mem _)

theorem insert_seg_sorted {newseg : Seg} {segs new : List Seg} (sorted : Sorted segs)
    (placed : insert_seg newseg segs = some new) : Sorted new := by
  induction segs generalizing new with
  | nil =>
    obtain rfl := some.inj placed
    exact pairwise_singleton _ _
  | cons seg rest ih =>
    obtain ⟨behind, rest_sorted⟩ := pairwise_cons.mp sorted
    unfold insert_seg at placed
    split_ifs at placed with before overlaps within
    · obtain rfl := some.inj placed
      refine pairwise_cons.mpr ⟨fun t mem => ?_, sorted⟩
      rcases mem_cons.mp mem with rfl | later
      · omega
      · have far := behind t later
        unfold Seg.stop at *
        omega
    · obtain ⟨tail, inserted, rfl⟩ := map_eq_some_iff.mp placed
      refine pairwise_cons.mpr ⟨fun t mem => ?_, ih rest_sorted inserted⟩
      rcases insert_seg_mem inserted mem with rfl | old
      · omega
      · exact behind t old

/-- `none` stands for the -1 that refuses an overlap. -/
def as_addseg (as : As) (newseg : Seg) : Option As :=
  match placed : insert_seg newseg as.a_segs with
  | none => none
  | some segs => some ⟨segs, insert_seg_sorted as.sorted placed⟩

def AH_DIR : Nat := 1
def AH_LO : Nat := 0
def AH_CONTAIN : Nat := 2

structure Range where
  basep : Nat
  lenp : Nat
  deriving DecidableEq

structure Request where
  minlen : Nat
  flags : Nat
  addr : Nat

/-- vm_machdep.c; the sum has 32 bits. -/
def valid_va_range (r : Range) (minlen : Nat) : Bool :=
  let hi := (r.basep + r.lenp) % 2 ^ 32
  !(decide (hi < r.basep) || decide (hi - r.basep < minlen))

variable (q : Request) (lobound hibound : Nat) {rest xs : List Seg} {s : Seg} {r' : Range}

def clip (lo hi : Nat) : Range :=
  ⟨max lo lobound, min hi hibound - max lo lobound⟩

def accepts (r : Range) : Bool :=
  valid_va_range r q.minlen && (q.flags &&& AH_CONTAIN == 0 ||
    (decide (r.basep ≤ q.addr) && decide (r.basep + r.lenp > q.addr)))

/-- Return 0 with a gap's part of the range where it will do, else go on with it in `*basep`. -/
def attempt (lo hi : Nat) (next : Range → Except Range Range) : Except Range Range :=
  let r := clip lobound hibound lo hi
  if accepts q r then .ok r else next r

def after_lo (lo hi : Nat) (r : Range) : Except Range Range :=
  let hi := if hi < lo then hibound else hi
  if lo < hibound then attempt q lobound hibound lo hi .error else .error r

/-- The search from low to high, over the segments that are left before it is round. -/
def search_lo (lo hi : Nat) : List Seg → Range → Except Range Range
  | [], r => after_lo q lobound hibound lo hi r
  | seg :: rest, r =>
    let next (r : Range) :=
      if seg.stop < hibound then search_lo seg.stop seg.s_base rest r
      else after_lo q lobound hibound seg.stop seg.s_base r
    if seg.s_base > lobound ∧ seg.s_base > lo then attempt q lobound hibound lo seg.s_base next
    else next r

def after_hi (lo hi : Nat) (r : Range) : Except Range Range :=
  let lo := if lo > hi then lobound else lo
  if hi > lobound then attempt q lobound hibound lo hi .error else .error r

/-- The search from high to low. The first segment of the space ends the list; the loop stops where
    `s_prev` is that one, and from the only segment `s_prev` leads to itself. -/
def search_hi (lo hi : Nat) : List Seg → Range → Except Range Range
  | [], r => after_hi q lobound hibound lo hi r
  | seg :: before, r =>
    let next (r : Range) :=
      if seg.s_base > lobound ∧ 1 < before.length then search_hi seg.stop seg.s_base before r
      else after_hi q lobound hibound seg.stop seg.s_base r
    if seg.stop < hibound ∧ hi > seg.stop then attempt q lobound hibound seg.stop hi next
    else next r

/-- `.ok` is the return of 0; either way the range is what `*basep` and `*lenp` are left with. -/
def as_gap (as : As) (r : Range) : Except Range Range :=
  let lobound := r.basep
  let hibound := (r.basep + r.lenp) % 2 ^ 32
  if lobound > hibound then .error r
  else
    match as.a_segs with
    | [] => if valid_va_range r q.minlen then .ok r else .error r
    | seg :: rest =>
      if q.flags &&& AH_DIR = AH_LO then search_lo q lobound hibound lobound 0 (seg :: rest) r
      else search_hi q lobound hibound 0 hibound (seg :: rest).reverse r

/-- A hole: a longest interval between `start` and `limit` without an address of a segment. -/
structure Hole (start limit : Nat) (segs : List Seg) (lo hi : Nat) : Prop where
  proper : lo < hi
  low : lo = start ∨ ∃ s ∈ segs, lo = s.stop
  high : hi = limit ∨ ∃ s ∈ segs, hi = s.s_base
  free : ∀ s ∈ segs, s.stop ≤ lo ∨ hi ≤ s.s_base

def Roomy (lo hi : Nat) : Prop :=
  q.minlen ≤ hi - lo ∧ (q.flags &&& AH_CONTAIN ≠ 0 → lo ≤ q.addr ∧ q.addr < hi)

def Fits (p : Nat × Nat) : Prop :=
  (p.1 = 0 ∨ p.1 < hibound) ∧ lobound < p.2 ∧ p.1 < p.2 ∧
    Roomy q (max p.1 lobound) (min p.2 hibound)

instance (p : Nat × Nat) : Decidable (Fits q lobound hibound p) := by
  unfold Fits Roomy
  exact inferInstance

variable {q : Request} {lobound hibound start limit lo hi h : Nat} {segs : List Seg} {r : Range}

theorem Seg.base_lt (s : Seg) : s.s_base < s.stop := Nat.lt_add_of_pos_right s.positive

theorem Seg.stop_lt (s : Seg) : s.stop < 2 ^ 32 := s.below

theorem accepts_iff (order : lo ≤ hi) (high : hi < 2 ^ 32) :
    accepts q ⟨lo, hi - lo⟩ = true ↔ Roomy q lo hi := by
  have stop : lo + (hi - lo) = hi := by omega
  unfold accepts valid_va_range Roomy
  rw [stop, Nat.mod_eq_of_lt high]
  simp only [Bool.and_eq_true, Bool.or_eq_true, Bool.not_eq_true', Bool.or_eq_false_iff,
    decide_eq_false_iff_not, decide_eq_true_eq, beq_iff_eq, gt_iff_lt]
  constructor
  · rintro ⟨⟨_, long⟩, holds⟩
    exact ⟨by omega, fun asked => holds.resolve_left asked⟩
  · rintro ⟨long, holds⟩
    refine ⟨by omega, ?_⟩
    by_cases asked : q.flags &&& AH_CONTAIN = 0
    · exact .inl asked
    · exact .inr (holds asked)

def found : Except Range Range → Option Range
  | .ok r => some r
  | .error _ => none

def first (q : Request) (lobound hibound : Nat) (ps : List (Nat × Nat)) : Option Range :=
  (ps.find? fun p => decide (Fits q lobound hibound p)).map fun p =>
    clip lobound hibound p.1 p.2

variable {p : Nat × Nat} {ps : List (Nat × Nat)}

theorem first_hit (ps : List (Nat × Nat)) (fits : Fits q lobound hibound p) :
    first q lobound hibound (p :: ps) = some (clip lobound hibound p.1 p.2) := by
  unfold first
  rw [find?_cons_of_pos (by simpa using fits)]
  rfl

theorem first_miss (ps : List (Nat × Nat)) (misses : ¬Fits q lobound hibound p) :
    first q lobound hibound (p :: ps) = first q lobound hibound ps := by
  unfold first
  rw [find?_cons_of_neg (by simpa using misses)]

theorem first_none (none_fits : ∀ p ∈ ps, ¬Fits q lobound hibound p) :
    first q lobound hibound ps = none := by
  unfold first
  rw [find?_eq_none.mpr (by simpa using none_fits)]
  rfl

theorem found_attempt {next : Range → Except Range Range} (high : hibound < 2 ^ 32)
    (order : lobound ≤ hibound) (meets : (p.1 = 0 ∨ p.1 < hibound) ∧ lobound < p.2 ∧ p.1 < p.2)
    (same_lo : max lo lobound = max p.1 lobound) (same_hi : min hi hibound = min p.2 hibound)
    (later : ∀ r, found (next r) = first q lobound hibound ps) :
    found (attempt q lobound hibound lo hi next) = first q lobound hibound (p :: ps) := by
  have clipped : clip lobound hibound lo hi = clip lobound hibound p.1 p.2 := by
    unfold clip
    rw [same_lo, same_hi]
  have fits_iff : accepts q (clip lobound hibound p.1 p.2) = true ↔ Fits q lobound hibound p := by
    unfold clip Fits
    rw [accepts_iff (by omega) (by omega)]
    exact ⟨fun roomy => ⟨meets.1, meets.2.1, meets.2.2, roomy⟩, fun fits => fits.2.2.2⟩
  unfold attempt
  rw [clipped]
  by_cases fits : Fits q lobound hibound p
  · rw [first_hit ps fits]
    simp only [fits_iff.mpr fits, if_true]
    rfl
  · rw [first_miss ps fits, ← later (clip lobound hibound p.1 p.2)]
    simp only [mt fits_iff.mp fits, if_false, Bool.false_eq_true]

def gaps (start limit : Nat) : List Seg → List (Nat × Nat)
  | [] => [(start, limit)]
  | s :: rest => (start, s.s_base) :: gaps s.stop limit rest

def Within (start limit : Nat) (segs : List Seg) : Prop :=
  start ≤ limit ∧ ∀ s ∈ segs, start ≤ s.s_base ∧ s.stop ≤ limit

theorem Within.behind (within : Within start limit (s :: rest)) (sorted : Sorted (s :: rest)) :
    Within s.stop limit rest :=
  ⟨(within.2 s (by simp)).2, fun t mem =>
    ⟨rel_of_pairwise_cons sorted mem, (within.2 t (by simp [mem])).2⟩⟩

section
variable (within : Within start limit segs) (sorted : Sorted segs)
include within sorted

theorem gaps_from : ∀ p ∈ gaps start limit segs, start ≤ p.1 ∧ p.1 ≤ p.2 := by
  induction segs generalizing start with
  | nil =>
    intro p mem
    obtain rfl := mem_singleton.mp mem
    exact ⟨Nat.le_refl _, within.1⟩
  | cons s rest ih =>
    intro p mem
    have low := (within.2 s (by simp)).1
    rcases mem_cons.mp mem with rfl | later
    · exact ⟨Nat.le_refl _, low⟩
    · have above := ih (within.behind sorted) (Pairwise.of_cons sorted) p later
      have size := s.base_lt
      omega

theorem gaps_sorted : (gaps start limit segs).Pairwise fun p p' => p.2 ≤ p'.1 := by
  induction segs generalizing start with
  | nil => exact pairwise_singleton _ _
  | cons s rest ih =>
    have size := s.base_lt
    refine pairwise_cons.mpr ⟨fun p mem => ?_, ih (within.behind sorted) (Pairwise.of_cons sorted)⟩
    have above := gaps_from (within.behind sorted) (Pairwise.of_cons sorted) p mem
    omega

theorem mem_gaps : (lo < hi ∧ (lo, hi) ∈ gaps start limit segs) ↔ Hole start limit segs lo hi := by
  induction segs generalizing start with
  | nil =>
    constructor
    · rintro ⟨proper, mem⟩
      obtain ⟨rfl, rfl⟩ := Prod.mk.inj (mem_singleton.mp mem)
      exact ⟨proper, .inl rfl, .inl rfl, by simp⟩
    · intro hole
      have low := hole.low
      have high := hole.high
      simp only [not_mem_nil, false_and, exists_false, or_false] at low high
      exact ⟨hole.proper, by simp [gaps, low, high]⟩
  | cons s rest ih =>
    have size := s.base_lt
    have rest_sorted := Pairwise.of_cons sorted
    have behind := within.behind sorted
    have bounds := within.2 s (by simp)
    specialize ih behind rest_sorted
    constructor
    · rintro ⟨proper, mem⟩
      rcases mem_cons.mp mem with here | later
      · obtain ⟨rfl, rfl⟩ := Prod.mk.inj here
        refine ⟨proper, .inl rfl, .inr ⟨s, by simp, rfl⟩, fun t t_mem => .inr ?_⟩
        rcases mem_cons.mp t_mem with rfl | t_mem
        · exact Nat.le_refl _
        · have far := (behind.2 t t_mem).1
          omega
      · have hole := ih.mp ⟨proper, later⟩
        have from_stop := (gaps_from behind rest_sorted _ later).1
        refine ⟨proper, .inr ?_, ?_, fun t t_mem => ?_⟩
        · rcases hole.low with rfl | ⟨t, t_mem, at_stop⟩
          · exact ⟨s, by simp, rfl⟩
          · exact ⟨t, by simp [t_mem], at_stop⟩
        · rcases hole.high with rfl | ⟨t, t_mem, at_base⟩
          · exact .inl rfl
          · exact .inr ⟨t, by simp [t_mem], at_base⟩
        · rcases mem_cons.mp t_mem with rfl | t_mem
          · exact .inl from_stop
          · exact hole.free t t_mem
    · intro hole
      have proper := hole.proper
      refine ⟨proper, ?_⟩
      rcases hole.free s (by simp) with after | before
      · refine mem_cons_of_mem _ (ih.mpr ⟨proper, ?_, ?_, fun t mem => ?_⟩).2
        · rcases hole.low with rfl | ⟨t, mem, at_stop⟩
          · omega
          · rcases mem_cons.mp mem with rfl | mem
            · exact .inl at_stop
            · exact .inr ⟨t, mem, at_stop⟩
        · rcases hole.high with rfl | ⟨t, mem, at_base⟩
          · exact .inl rfl
          · rcases mem_cons.mp mem with rfl | mem
            · omega
            · exact .inr ⟨t, mem, at_base⟩
        · exact hole.free t (mem_cons_of_mem _ mem)
      · have at_start : lo = start := by
          rcases hole.low with rfl | ⟨t, mem, at_stop⟩
          · rfl
          · rcases mem_cons.mp mem with rfl | mem
            · omega
            · have far := (behind.2 t mem).1
              have t_size := t.base_lt
              omega
        have at_base : hi = s.s_base := by
          rcases hole.high with rfl | ⟨t, mem, at_base⟩
          · omega
          · rcases mem_cons.mp mem with rfl | mem
            · exact at_base
            · have far := (behind.2 t mem).1
              omega
        simp [gaps, at_start, at_base]

end

theorem search_lo_eq (high : hibound < 2 ^ 32) (order : lobound ≤ hibound)
    (within : Within start (2 ^ 32) segs) (sorted : Sorted segs)
    (from_lo : lo = start ∧ lo < hibound ∧ h < lo ∨ lo = lobound ∧ start = 0 ∧ segs ≠ []) (r : Range) :
    found (search_lo q lobound hibound lo h segs r) =
      first q lobound hibound (gaps start (2 ^ 32) segs) := by
  induction segs generalizing start lo h r with
  | nil =>
    obtain ⟨rfl, near, below⟩ := from_lo.resolve_right fun other => other.2.2 rfl
    unfold search_lo after_lo
    simp only [if_pos below, if_pos near]
    refine found_attempt high order ⟨.inr near, by simp only; omega, by simp only; omega⟩ rfl
      (by simp only; omega) fun r => (first_none (by simp)).symm
  | cons s rest ih =>
    have size := s.base_lt
    have behind := within.behind sorted
    have rest_sorted := Pairwise.of_cons sorted
    have later : ∀ r, found (if s.stop < hibound then
        search_lo q lobound hibound s.stop s.s_base rest r
        else after_lo q lobound hibound s.stop s.s_base r) =
          first q lobound hibound (gaps s.stop (2 ^ 32) rest) := by
      intro r
      by_cases near : s.stop < hibound
      · rw [if_pos near]
        exact ih behind rest_sorted (.inl ⟨rfl, near, size⟩) r
      · rw [if_neg near, first_none fun p mem fits => ?_]
        · unfold after_lo
          rw [if_neg near]
          rfl
        · have above := (gaps_from behind rest_sorted p mem).1
          have low := fits.1
          omega
    unfold search_lo
    by_cases tried : s.s_base > lobound ∧ s.s_base > lo
    · simp only [if_pos tried]
      refine found_attempt high order ⟨?_, tried.1, ?_⟩ ?_ rfl later <;> simp only <;> omega
    · simp only [if_neg tried]
      rw [later, gaps, first_miss]
      intro fits
      have above := fits.2.1
      have proper := fits.2.2.1
      omega

def falling (limit : Nat) : List Seg → List (Nat × Nat)
  | [] => [(0, limit)]
  | s :: before => (s.stop, limit) :: falling s.s_base before

/-- The gaps that the search from high to low tries: the last one is cut at the second segment. -/
def tried (limit : Nat) : List Seg → List (Nat × Nat)
  | [] => [(0, limit)]
  | s :: before =>
    (s.stop, limit) :: if 1 < before.length then tried s.s_base before else [(0, s.s_base)]

theorem gaps_append (s : Seg) (segs : List Seg) :
    gaps start limit (segs ++ [s]) = gaps start s.s_base segs ++ [(s.stop, limit)] := by
  induction segs generalizing start with
  | nil => rfl
  | cons t rest ih => simp only [cons_append, gaps, ih]

theorem falling_eq (limit : Nat) (segs : List Seg) :
    falling limit segs = (gaps 0 limit segs.reverse).reverse := by
  induction segs generalizing limit with
  | nil => rfl
  | cons s before ih => simp [falling, ih, gaps_append]

theorem tried_below (below : ∀ s ∈ xs, s.stop ≤ limit)
    (sorted : xs.Pairwise fun t s => s.stop ≤ t.s_base) : ∀ p ∈ tried limit xs, p.2 ≤ limit := by
  induction xs generalizing limit with
  | nil => simp [tried]
  | cons s before ih =>
    intro p mem
    obtain ⟨behind, before_sorted⟩ := pairwise_cons.mp sorted
    have size := s.base_lt
    have top := below s (by simp)
    rcases mem_cons.mp mem with rfl | later
    · exact Nat.le_refl _
    · split at later
      · have under := ih behind before_sorted p later
        omega
      · obtain rfl := mem_singleton.mp later
        simp only
        omega

theorem search_hi_eq (high : hibound < 2 ^ 32) (order : lobound ≤ hibound)
    (below : ∀ s ∈ xs, s.stop ≤ limit) (sorted : xs.Pairwise fun t s => s.stop ≤ t.s_base)
    (some_left : xs ≠ []) (reach : lobound < limit) (same : min hi hibound = min limit hibound)
    (r : Range) :
    found (search_hi q lobound hibound lo hi xs r) = first q lobound hibound (tried limit xs) := by
  induction xs generalizing limit lo hi r with
  | nil => exact absurd rfl some_left
  | cons s before ih =>
    obtain ⟨behind, before_sorted⟩ := pairwise_cons.mp sorted
    have size := s.base_lt
    have later : ∀ r, found (if s.s_base > lobound ∧ 1 < before.length then
        search_hi q lobound hibound s.stop s.s_base before r
        else after_hi q lobound hibound s.stop s.s_base r) = first q lobound hibound
            (if 1 < before.length then tried s.s_base before else [(0, s.s_base)]) := by
      intro r
      by_cases near : s.s_base > lobound
      · by_cases two : 1 < before.length
        · rw [if_pos ⟨near, two⟩, if_pos two]
          exact ih behind before_sorted (by rintro rfl; simp at two) near rfl r
        · rw [if_neg (fun both => two both.2), if_neg two]
          unfold after_hi
          simp only [if_pos near, gt_iff_lt, if_pos size]
          exact found_attempt high order ⟨.inl rfl, near, by simp only; omega⟩ (by simp)
            rfl fun r => (first_none (by simp)).symm
      · rw [if_neg (fun both => near both.1), first_none fun p mem fits => ?_]
        · unfold after_hi
          rw [if_neg near]
          rfl
        · have meets := fits.2.1
          split at mem
          · have under := tried_below behind before_sorted p mem
            omega
          · obtain rfl := mem_singleton.mp mem
            exact near meets
    unfold search_hi
    by_cases here : s.stop < hibound ∧ hi > s.stop
    · simp only [if_pos here]
      exact found_attempt high order ⟨.inr here.1, reach, by simp only; omega⟩ rfl same later
    · simp only [if_neg here]
      rw [later, tried, first_miss]
      intro fits
      have low := fits.1
      have proper := fits.2.2.1
      omega

variable {as : As}

theorem As.within (as : As) : Within 0 (2 ^ 32) as.a_segs :=
  ⟨Nat.zero_le _, fun s _ => ⟨Nat.zero_le _, Nat.le_of_lt s.stop_lt⟩⟩

/-- What the search should answer: a range exactly when some hole will do, and then the part within
    the range of the lowest or highest hole that does. -/
structure Right (q : Request) (as : As) (r : Range) : Prop where
  answers : (∃ r', as_gap q as r = .ok r') ↔ ∃ lo hi, Hole 0 (2 ^ 32) as.a_segs lo hi ∧
    Fits q r.basep (r.basep + r.lenp) (lo, hi)
  part : ∀ r', as_gap q as r = .ok r' → ∃ lo hi, Hole 0 (2 ^ 32) as.a_segs lo hi ∧
    Fits q r.basep (r.basep + r.lenp) (lo, hi) ∧ r'.basep = max lo r.basep ∧
    r'.basep + r'.lenp = min hi (r.basep + r.lenp) ∧
    ∀ lo' hi', Hole 0 (2 ^ 32) as.a_segs lo' hi' → Fits q r.basep (r.basep + r.lenp) (lo', hi') →
      if q.flags &&& AH_DIR = AH_LO then lo ≤ lo' else lo' ≤ lo
  apart : ∀ r', as_gap q as r = .ok r' → ∀ s ∈ as.a_segs,
    s.stop ≤ r'.basep ∨ r'.basep + r'.lenp ≤ s.s_base

theorem found_eq_some {e : Except Range Range} : found e = some r' ↔ e = .ok r' := by
  cases e <;> simp [found]

theorem right_of_first
    (run : found (as_gap q as r) = first q r.basep (r.basep + r.lenp) ps)
    (holes : ∀ lo hi, (lo < hi ∧ (lo, hi) ∈ ps) ↔ Hole 0 (2 ^ 32) as.a_segs lo hi)
    (ordered : ps.Pairwise fun p p' =>
      if q.flags &&& AH_DIR = AH_LO then p.1 ≤ p'.1 else p'.1 ≤ p.1) : Right q as r := by
  have chosen : ∀ r', as_gap q as r = .ok r' → ∃ lo hi, Hole 0 (2 ^ 32) as.a_segs lo hi ∧
      Fits q r.basep (r.basep + r.lenp) (lo, hi) ∧ r'.basep = max lo r.basep ∧
      r'.basep + r'.lenp = min hi (r.basep + r.lenp) ∧
      ∀ lo' hi', Hole 0 (2 ^ 32) as.a_segs lo' hi' →
        Fits q r.basep (r.basep + r.lenp) (lo', hi') →
        if q.flags &&& AH_DIR = AH_LO then lo ≤ lo' else lo' ≤ lo := by
    intro r' ok
    rw [found_eq_some.mpr ok] at run
    obtain ⟨⟨lo, hi⟩, hit, rfl⟩ := map_eq_some_iff.mp run.symm
    obtain ⟨fits, front, back, rfl, missed⟩ := find?_eq_some_iff_append.mp hit
    have fits := of_decide_eq_true fits
    have meets := fits.1
    have reach := fits.2.1
    have proper := fits.2.2.1
    refine ⟨lo, hi, (holes lo hi).mp ⟨proper, by simp⟩, fits, rfl, ?_, fun lo' hi' hole fits' => ?_⟩
    · show max lo r.basep + (min hi (r.basep + r.lenp) - max lo r.basep) = _
      omega
    · have mem := ((holes lo' hi').mpr hole).2
      rcases mem_append.mp mem with early | late
      · simpa [fits'] using missed _ early
      · rcases mem_cons.mp late with same | behind
        · obtain ⟨rfl, rfl⟩ := Prod.mk.inj same
          split <;> exact Nat.le_refl _
        · exact rel_of_pairwise_cons (pairwise_append.mp ordered).2.1 behind
  refine ⟨⟨?_, ?_⟩, chosen, ?_⟩
  · rintro ⟨r', ok⟩
    obtain ⟨lo, hi, hole, fits, -⟩ := chosen r' ok
    exact ⟨lo, hi, hole, fits⟩
  · rintro ⟨lo, hi, hole, fits⟩
    have some_hit : (ps.find? fun p =>
        decide (Fits q r.basep (r.basep + r.lenp) p)).isSome = true :=
      find?_isSome.mpr ⟨_, ((holes lo hi).mpr hole).2, by simpa using fits⟩
    obtain ⟨p, hit⟩ := isSome_iff_exists.mp some_hit
    refine ⟨clip r.basep (r.basep + r.lenp) p.1 p.2, found_eq_some.mp ?_⟩
    rw [run, first, hit]
    rfl
  · intro r' ok s mem
    obtain ⟨lo, hi, hole, -, low, high, -⟩ := chosen r' ok
    have clear := hole.free s mem
    omega

theorem holes_of_gaps (as : As) (lo hi : Nat) :
    (lo < hi ∧ (lo, hi) ∈ gaps 0 (2 ^ 32) as.a_segs) ↔ Hole 0 (2 ^ 32) as.a_segs lo hi :=
  mem_gaps as.within as.sorted

theorem right_low (low : q.flags &&& AH_DIR = AH_LO)
    (run : found (as_gap q as r) = first q r.basep (r.basep + r.lenp) (gaps 0 (2 ^ 32) as.a_segs)) :
    Right q as r := by
  refine right_of_first run (holes_of_gaps as) ?_
  refine (gaps_sorted as.within as.sorted).imp_of_mem fun {p p'} mem _ apart => ?_
  rw [if_pos low]
  have proper := (gaps_from as.within as.sorted p mem).2
  omega

theorem right_high (high : q.flags &&& AH_DIR ≠ AH_LO) (run : found (as_gap q as r) =
      first q r.basep (r.basep + r.lenp) (falling (2 ^ 32) as.a_segs.reverse)) :
    Right q as r := by
  rw [falling_eq, reverse_reverse] at run
  refine right_of_first run (fun lo hi => ?_) ?_
  · rw [mem_reverse]
    exact holes_of_gaps as lo hi
  · rw [pairwise_reverse]
    refine (gaps_sorted as.within as.sorted).imp_of_mem fun {p p'} mem _ apart => ?_
    rw [if_neg high]
    have proper := (gaps_from as.within as.sorted p mem).2
    omega

theorem first_append (front back : List (Nat × Nat)) : first q lobound hibound (front ++ back) =
      (first q lobound hibound front).or (first q lobound hibound back) := by
  unfold first
  rw [find?_append]
  cases front.find? fun p => decide (Fits q lobound hibound p) <;> rfl

theorem tried_falling (above : List Seg) (s t : Seg) (limit : Nat)
    (sorted : (above ++ [t, s]).Pairwise fun t s => s.stop ≤ t.s_base) :
    ∃ front, tried limit (above ++ [t, s]) = front ++ [(0, t.s_base)] ∧
      falling limit (above ++ [t, s]) = front ++ [(s.stop, t.s_base), (0, s.s_base)] ∧
      ∀ p ∈ front, t.stop ≤ p.1 := by
  induction above generalizing limit with
  | nil => exact ⟨[(t.stop, limit)], rfl, rfl, by simp⟩
  | cons u above ih =>
    obtain ⟨behind, rest_sorted⟩ := pairwise_cons.mp sorted
    obtain ⟨front, tries, falls, high⟩ := ih u.s_base rest_sorted
    refine ⟨(u.stop, limit) :: front, ?_, ?_, fun p mem => ?_⟩
    · rw [cons_append, tried, if_pos (by simp), tries]
      rfl
    · rw [cons_append, falling, falls]
      rfl
    · have far := behind t (by simp)
      have size := u.base_lt
      rcases mem_cons.mp mem with rfl | later
      · simp only
        omega
      · exact high p later

/-- A segment lies outside of the range; from an empty range it keeps a distance. -/
def Outside (r : Range) (s : Seg) : Prop :=
  s.stop ≤ r.basep ∧ s.stop < r.basep + r.lenp ∨ r.basep < s.s_base ∧ r.basep + r.lenp ≤ s.s_base

/-- What keeps the search from its two mistakes: that an empty space is not asked for an address
    outside of the range, and that a search from high to low does not come down to the second of two
    segments with the first one in the range and enough room below the second. -/
def Spared (q : Request) (segs : List Seg) (r : Range) : Prop :=
  match segs with
  | [] => q.flags &&& AH_CONTAIN ≠ 0 → q.minlen ≤ r.lenp →
      r.basep ≤ q.addr ∧ q.addr < r.basep + r.lenp
  | [_] => True
  | s :: t :: _ => q.flags &&& AH_DIR = AH_LO ∨ Outside r s ∨
      ¬(r.basep < t.s_base ∧ Roomy q r.basep (min t.s_base (r.basep + r.lenp))) ∨
      ∃ lo hi, Hole 0 (2 ^ 32) segs lo hi ∧ t.stop ≤ lo ∧
        Fits q r.basep (r.basep + r.lenp) (lo, hi)

theorem as_gap_low (list : as.a_segs = s :: rest) (nowrap : r.basep + r.lenp < 2 ^ 32)
    (low : q.flags &&& AH_DIR = AH_LO) :
    found (as_gap q as r) = first q r.basep (r.basep + r.lenp) (gaps 0 (2 ^ 32) as.a_segs) := by
  have sorted := as.sorted
  have within := as.within
  unfold as_gap
  rw [Nat.mod_eq_of_lt nowrap]
  simp only [if_neg (Nat.not_lt.mpr (Nat.le_add_right r.basep r.lenp)), gt_iff_lt]
  rw [list] at sorted within ⊢
  simp only [if_pos low]
  exact search_lo_eq nowrap (Nat.le_add_right _ _) within sorted (.inr ⟨rfl, rfl, by simp⟩) r

theorem as_gap_high (list : as.a_segs = s :: rest) (nowrap : r.basep + r.lenp < 2 ^ 32)
    (high : q.flags &&& AH_DIR ≠ AH_LO) :
    found (as_gap q as r) =
      first q r.basep (r.basep + r.lenp) (tried (2 ^ 32) as.a_segs.reverse) := by
  have sorted := pairwise_reverse.mpr as.sorted
  unfold as_gap
  rw [Nat.mod_eq_of_lt nowrap]
  simp only [if_neg (Nat.not_lt.mpr (Nat.le_add_right r.basep r.lenp)), gt_iff_lt]
  rw [list] at sorted ⊢
  simp only [if_neg high]
  exact search_hi_eq nowrap (Nat.le_add_right _ _) (fun t _ => Nat.le_of_lt t.stop_lt) sorted
    (by simp) (by omega) (by omega) r

theorem as_gap_empty (list : as.a_segs = []) (nowrap : r.basep + r.lenp < 2 ^ 32) :
    as_gap q as r = if q.minlen ≤ r.lenp then .ok r else .error r := by
  unfold as_gap valid_va_range
  simp only [Nat.mod_eq_of_lt nowrap]
  rw [if_neg (Nat.not_lt.mpr (Nat.le_add_right r.basep r.lenp)), list]
  by_cases long : q.minlen ≤ r.lenp <;> simp [long]

theorem mem_first (hit : first q lobound hibound ps = some r') :
    ∃ p ∈ ps, Fits q lobound hibound p := by
  obtain ⟨p, found, -⟩ := map_eq_some_iff.mp hit
  exact ⟨p, mem_of_find?_eq_some found, by simpa using find?_some found⟩

section TwoSegments
variable {s t : Seg} {rest : List Seg}

theorem fronts (list : as.a_segs = s :: t :: rest) : ∃ front,
    tried (2 ^ 32) as.a_segs.reverse = front ++ [(0, t.s_base)] ∧
      falling (2 ^ 32) as.a_segs.reverse = front ++ [(s.stop, t.s_base), (0, s.s_base)] ∧
      ∀ p ∈ front, t.stop ≤ p.1 := by
  have sorted := pairwise_reverse.mpr as.sorted
  rw [list] at sorted ⊢
  rw [show (s :: t :: rest).reverse = rest.reverse ++ [t, s] by simp] at sorted ⊢
  exact tried_falling rest.reverse s t (2 ^ 32) sorted

theorem first_below (q : Request) (order : s.stop ≤ t.s_base)
    (spared : Outside r s ∨ ¬(r.basep < t.s_base ∧
      Roomy q r.basep (min t.s_base (r.basep + r.lenp)))) :
    first q r.basep (r.basep + r.lenp) [(0, t.s_base)] =
      first q r.basep (r.basep + r.lenp) [(s.stop, t.s_base), (0, s.s_base)] := by
  have size := s.base_lt
  by_cases fits : Fits q r.basep (r.basep + r.lenp) (0, t.s_base)
  · have room := fits.2.2.2
    have reach := fits.2.1
    rw [first_hit [] fits]
    rcases spared with (below | above) | cramped
    · have same : max s.stop r.basep = r.basep := by omega
      rw [first_hit]
      · simp only [clip, same, Nat.zero_max]
      · refine ⟨.inr below.2, reach, by simp only; omega, ?_⟩
        simp only [same]
        exact room
    · have same : min s.s_base (r.basep + r.lenp) = min t.s_base (r.basep + r.lenp) := by omega
      rw [first_miss, first_hit]
      · simp only [clip, same]
      · refine ⟨.inl rfl, above.1, by simp only; omega, ?_⟩
        simp only [same, Nat.zero_max]
        exact room
      · intro fits
        have near := fits.1
        omega
    · exact absurd ⟨reach, room⟩ cramped
  · rw [first_miss [] fits, first_miss, first_miss]
    · intro smaller
      obtain ⟨-, reach, -, long, holds⟩ := smaller
      refine fits ⟨.inl rfl, by simp only; omega, by simp only; omega, ?_, fun asked => ?_⟩
      · omega
      · omega
    · intro smaller
      obtain ⟨near, reach, -, long, holds⟩ := smaller
      refine fits ⟨.inl rfl, reach, by simp only; omega, ?_, fun asked => ?_⟩
      · omega
      · omega

section
variable (list : as.a_segs = s :: t :: rest) (nowrap : r.basep + r.lenp < 2 ^ 32)
  (high : q.flags &&& AH_DIR ≠ AH_LO)
include list nowrap high

theorem right_of_spared (spared : Spared q as.a_segs r) : Right q as r := by
  obtain ⟨front, tries, falls, above⟩ := fronts list
  have run := as_gap_high list nowrap high
  have order : s.stop ≤ t.s_base := by
    have sorted := as.sorted
    rw [list] at sorted
    exact rel_of_pairwise_cons sorted (by simp)
  apply right_high high
  rw [run, tries, falls, first_append, first_append]
  cases hit : first q r.basep (r.basep + r.lenp) front with
  | some r' => rfl
  | none =>
    apply first_below q order
    rw [list] at spared
    rcases spared with low | outside | cramped | ⟨lo, hi, hole, far, fits⟩
    · exact absurd low high
    · exact .inl outside
    · exact .inr cramped
    · -- A hole above the second segment would have been found before.
      exfalso
      rw [← list] at hole
      have mem := ((holes_of_gaps as lo hi).mpr hole).2
      rw [← mem_reverse, ← reverse_reverse as.a_segs, ← falling_eq, falls] at mem
      have some_hit : (front.find? fun p =>
          decide (Fits q r.basep (r.basep + r.lenp) p)).isSome = true := by
        have t_size := t.base_lt
        rcases mem_append.mp mem with early | late
        · exact find?_isSome.mpr ⟨_, early, by simpa using fits⟩
        · simp only [mem_cons, not_mem_nil, or_false, Prod.mk.injEq] at late
          omega
      obtain ⟨p, found⟩ := isSome_iff_exists.mp some_hit
      rw [first, found] at hit
      cases hit

theorem spared_of_right (right : Right q as r) : Spared q as.a_segs r := by
  obtain ⟨front, tries, falls, above⟩ := fronts list
  have run := as_gap_high list nowrap high
  have size := s.base_lt
  have order : s.stop ≤ t.s_base := by
    have sorted := as.sorted
    rw [list] at sorted
    exact rel_of_pairwise_cons sorted (by simp)
  rw [tries, first_append] at run
  rw [list]
  by_cases room : r.basep < t.s_base ∧ Roomy q r.basep (min t.s_base (r.basep + r.lenp))
  · cases hit : first q r.basep (r.basep + r.lenp) front with
    | some r' =>
      obtain ⟨⟨lo, hi⟩, mem, fits⟩ := mem_first hit
      refine .inr (.inr (.inr ⟨lo, hi, ?_, above _ mem, fits⟩))
      rw [← list]
      apply (holes_of_gaps as lo hi).mp
      refine ⟨fits.2.2.1, ?_⟩
      rw [← mem_reverse, ← reverse_reverse as.a_segs, ← falling_eq, falls]
      exact mem_append_left _ mem
    | none =>
      -- The range up to the second segment is returned, whatever the first one covers of it.
      have fits : Fits q r.basep (r.basep + r.lenp) (0, t.s_base) := by
        refine ⟨.inl rfl, room.1, by simp only; omega, ?_⟩
        exact room.2
      rw [hit, none_or, first_hit [] fits] at run
      obtain ⟨lo, hi, hole, meets, low, stop, -⟩ := right.part _ (found_eq_some.mp run)
      have near := meets.1
      have reach := meets.2.1
      simp only [clip, Nat.zero_max] at low stop near reach
      refine .inr (.inl ?_)
      unfold Outside
      rcases hole.free s (by rw [list]; simp) with after | before
      · left
        omega
      · right
        omega
  · exact .inr (.inr (.inl room))

end

end TwoSegments

/-- The search is right exactly where it is spared its two mistakes. -/
theorem gap_found_iff (q : Request) (as : As) (r : Range) (nowrap : r.basep + r.lenp < 2 ^ 32) :
    Right q as r ↔ Spared q as.a_segs r := by
  match list : as.a_segs with
  | [] =>
    have run := as_gap_empty (q := q) list nowrap
    have only : ∀ lo hi, Hole 0 (2 ^ 32) as.a_segs lo hi ↔ lo = 0 ∧ hi = 2 ^ 32 := by
      intro lo hi
      rw [← holes_of_gaps, list]
      simp only [gaps, mem_singleton, Prod.mk.injEq]
      omega
    have part : max 0 r.basep = r.basep ∧ min (2 ^ 32) (r.basep + r.lenp) = r.basep + r.lenp := by
      omega
    constructor
    · intro right asked long
      rw [if_pos long] at run
      obtain ⟨lo, hi, hole, fits, -⟩ := right.part r run
      obtain ⟨rfl, rfl⟩ := (only lo hi).mp hole
      have inside := fits.2.2.2.2 asked
      rwa [part.1, part.2] at inside
    · intro spared
      have whole : found (as_gap q as r) =
          first q r.basep (r.basep + r.lenp) [(0, 2 ^ 32)] := by
        rw [run]
        by_cases long : q.minlen ≤ r.lenp
        · rw [if_pos long, first_hit]
          · simp only [clip, part.1, part.2, Nat.add_sub_cancel_left]
            rfl
          · refine ⟨.inl rfl, by simp only; omega, by simp, ?_⟩
            simp only [part.1, part.2]
            exact ⟨by omega, fun asked => spared asked long⟩
        · rw [if_neg long, first_miss]
          · rfl
          · intro fits
            have enough := fits.2.2.2.1
            omega
      refine right_of_first whole (fun lo hi => ?_) (pairwise_singleton _ _)
      rw [only]
      simp only [mem_singleton, Prod.mk.injEq]
      omega
  | [s] =>
    refine ⟨fun _ => trivial, fun _ => ?_⟩
    by_cases low : q.flags &&& AH_DIR = AH_LO
    · exact right_low low (as_gap_low list nowrap low)
    · have run := as_gap_high list nowrap low
      refine right_high low ?_
      rw [run, list]
      rfl
  | s :: t :: rest =>
    rw [← list]
    by_cases low : q.flags &&& AH_DIR = AH_LO
    · refine ⟨fun _ => ?_, fun _ => right_low low (as_gap_low list nowrap low)⟩
      rw [list]
      exact .inl low
    · exact ⟨spared_of_right list nowrap low, right_of_spared list nowrap low⟩

theorem page_positive : 0 < 0x1000 := by decide

def twoPages : As :=
  ⟨[⟨0x2000, 0x1000, page_positive, by decide⟩, ⟨0x5000, 0x1000, page_positive, by decide⟩],
    by simp [Sorted, Seg.stop]⟩

theorem gap_found_iff_two : Right ⟨0x1000, AH_LO, 0⟩ twoPages ⟨0x1000, 0x5000⟩ ↔
    Spared ⟨0x1000, AH_LO, 0⟩ twoPages.a_segs ⟨0x1000, 0x5000⟩ :=
  gap_found_iff ⟨0x1000, AH_LO, 0⟩ twoPages ⟨0x1000, 0x5000⟩ (by decide)

/-- From high to low the range below the second segment is returned whole. -/
theorem high_gap_covers_segment : ¬Right ⟨0x1000, 1, 0⟩ twoPages ⟨0x1000, 0x5000⟩ := by
  intro right
  have returned : as_gap ⟨0x1000, 1, 0⟩ twoPages ⟨0x1000, 0x5000⟩ = .ok ⟨0x1000, 0x4000⟩ := by
    decide +kernel
  have apart := right.apart _ returned ⟨0x2000, 0x1000, by decide, by decide⟩ (by simp [twoPages])
  simp [Seg.stop] at apart

end AddressSpace
