import Mathlib.Algebra.Group.Nat.Defs
import Mathlib.Data.List.TakeWhile
import Mathlib.Order.BooleanAlgebra.Set
import Svr4.Runs

/- The resource map of os/malloc.c. A map is one array of (size, address) pairs:
   slot 0 is the header, the entries start at slot 1 and end at the first entry
   of size 0. Words are 32 bits wide. `none` is an access beyond the array. -/
namespace ResourceMap
open LabelledRuns List Nat

def word : Nat := 2 ^ 32

structure MapEnt where
  mSize : Nat
  mAddr : Nat
  deriving DecidableEq, Repr

/-- `slots` is the array from mapstart on; the two header words keep their macro names. -/
structure RMap where
  mapsize : Nat
  mapwant : Nat
  slots : List MapEnt
  deriving DecidableEq, Repr

/-- mapinit(X, y) over an array of `y` zeroed pairs. -/
def mapinit (y : Nat) : RMap := ⟨y - 2, 0, replicate (y - 1) ⟨0, 0⟩⟩

/-- do { bp++; (bp-1)->m_addr = bp->m_addr } while ((bp-1)->m_size = bp->m_size),
    entered with bp at the head of the list. -/
def closeGap : List MapEnt → Option (List MapEnt)
  | _ :: e :: es => if e.mSize = 0 then some (e :: e :: es)
      else (closeGap (e :: es)).map (e :: ·)
  | _ => none

structure AllocScan where
  addr : Nat
  slots : List MapEnt
  emptied : Bool
  deriving DecidableEq, Repr

def firstFit (size : Nat) : List MapEnt → Option AllocScan
  | [] => none
  | e :: es =>
      if e.mSize = 0 then some ⟨0, e :: es, false⟩
      else if size ≤ e.mSize then
        let e' : MapEnt := ⟨e.mSize - size, (e.mAddr + size) % word⟩
        if e'.mSize = 0 then (closeGap (e' :: es)).map fun es' => ⟨e.mAddr, es', true⟩
        else some ⟨e.mAddr, e' :: es, false⟩
      else (firstFit size es).map fun r => { r with slots := e :: r.slots }

def rmalloc (mp : RMap) (size : Nat) : Option (Nat × RMap) :=
  if size = 0 then some (0, mp)
  else (firstFit size mp.slots).map fun r =>
    (r.addr, { mp with slots := r.slots,
                       mapsize := if r.emptied then mp.mapsize + 1 else mp.mapsize })

/-- for (; bp->m_addr<=a && bp->m_size!=0; bp++): the slots before bp and from bp on. -/
def seekAfter (a : Nat) : List MapEnt → Option (List MapEnt × List MapEnt)
  | [] => none
  | e :: es => if e.mAddr ≤ a ∧ e.mSize ≠ 0 then
      (seekAfter a es).map fun r => (e :: r.1, r.2)
    else some ([], e :: es)

/-- while (bp->m_size) { bp++; (bp-1) = bp } -/
def pullDown : List MapEnt → Option (List MapEnt)
  | [] => none
  | [e] => if e.mSize = 0 then some [e] else none
  | e :: f :: fs => if e.mSize = 0 then some (e :: f :: fs)
      else (pullDown (f :: fs)).map (f :: ·)

/-- do { swap (size, a) with *bp; bp++ } while (size = t) -/
def pushUp (size a : Nat) : List MapEnt → Option (List MapEnt)
  | [] => none
  | e :: es => if e.mSize = 0 then some (⟨size, a⟩ :: es)
      else (pushUp e.mSize e.mAddr es).map (⟨size, a⟩ :: ·)

/-- What rmfree leaves: the map, the CE_WARN of a map overflow, and whether the
    sleepers on the map were woken. -/
structure FreeOut where
  mp : RMap
  overflow : Bool
  woken : Bool
  deriving DecidableEq, Repr

def wakeWanters (mp : RMap) : FreeOut :=
  if mp.mapwant ≠ 0 then ⟨{ mp with mapwant := 0 }, false, true⟩ else ⟨mp, false, false⟩

/-- (bp-1)->m_size += size, and the compression when the hole up to bp is closed. -/
def growLeft (mp : RMap) (size a : Nat) (init : List MapEnt) (p bp : MapEnt)
    (rest : List MapEnt) : Option RMap :=
  let p' : MapEnt := { p with mSize := (p.mSize + size) % word }
  if bp.mAddr ≠ 0 ∧ (a + size) % word = bp.mAddr then
    let p'' : MapEnt := { p' with mSize := (p'.mSize + bp.mSize) % word }
    (pullDown (bp :: rest)).map fun tail =>
      { mp with slots := init ++ p'' :: tail, mapsize := mp.mapsize + 1 }
  else some { mp with slots := init ++ p' :: bp :: rest }

/-- The else part of rmfree: join bp from below, or make room for a new entry at bp. -/
def growRightOrInsert (mp : RMap) (size a : Nat) (before : List MapEnt) (bp : MapEnt)
    (rest : List MapEnt) : Option FreeOut :=
  if (a + size) % word = bp.mAddr ∧ bp.mSize ≠ 0 then
    let bp' : MapEnt := ⟨(bp.mSize + size) % word, (bp.mAddr + word - size) % word⟩
    some (wakeWanters { mp with slots := before ++ bp' :: rest })
  else if mp.mapsize = 0 then some ⟨mp, true, false⟩
  else (pushUp size a (bp :: rest)).map fun tail =>
    wakeWanters { mp with slots := before ++ tail, mapsize := mp.mapsize - 1 }

def rmfree (mp : RMap) (size a : Nat) : Option FreeOut :=
  if size = 0 then some ⟨mp, false, false⟩ else
  match seekAfter a mp.slots with
  | none => none
  | some (_, []) => none
  | some (before, bp :: rest) =>
      match before.getLast? with
      | none => growRightOrInsert mp size a before bp rest
      | some p =>
          if (p.mAddr + p.mSize) % word = a then
            (growLeft mp size a before.dropLast p bp rest).map wakeWanters
          else growRightOrInsert mp size a before bp rest

inductive MapOp where
  | rmalloc (size : Nat)
  | rmfree (size a : Nat)
  deriving DecidableEq, Repr

def step (mp : RMap) : MapOp → Option RMap
  | .rmalloc size => (rmalloc mp size).map Prod.snd
  | .rmfree size a => (rmfree mp size a).map FreeOut.mp

def units (l : List MapEnt) : Set Nat :=
  {u | ∃ e ∈ l, e.mAddr ≤ u ∧ u < e.mAddr + e.mSize}

def rangeOf (size a : Nat) : Set Nat := {u | a ≤ u ∧ u < a + size}

def live (mp : RMap) : List MapEnt := mp.slots.takeWhile fun e => e.mSize ≠ 0

def freeUnits (mp : RMap) : Set Nat := units (live mp)

/-- Increasing, disjoint and never adjacent: between two entries lies a unit in use. -/
def Tidy (l : List MapEnt) : Prop :=
  (∀ e ∈ l, 0 < e.mSize ∧ 1 ≤ e.mAddr ∧ e.mAddr + e.mSize ≤ word) ∧
    l.Pairwise fun e f => e.mAddr + e.mSize < f.mAddr

/-- All stale slots behind the end are zero, as a later shift or insertion needs, and one more than
the map has empty slots. -/
structure WellFormed (mp : RMap) : Prop where
  tidy : Tidy (live mp)
  shape : mp.slots = live mp ++ replicate (mp.mapsize + 1) ⟨0, 0⟩

/-- What a caller may do: word-sized arguments, and a range that is not free now. -/
def Legal (mp : RMap) : MapOp → Prop
  | .rmalloc size => size < word
  | .rmfree size a => size < word ∧ 1 ≤ a ∧ a < word ∧ a + size ≤ word ∧
      ∀ u ∈ rangeOf size a, u ∉ freeUnits mp

/-- Lowest-address first fit for a request of at least one unit. -/
structure FirstFit (mp : RMap) (size r : Nat) (mp' : RMap) : Prop where
  fits : ∃ e ∈ live mp, e.mAddr = r ∧ size ≤ e.mSize
  lowest : ∀ f ∈ live mp, f.mAddr < r → f.mSize < size
  inside : rangeOf size r ⊆ freeUnits mp
  taken : freeUnits mp' = freeUnits mp \ rangeOf size r

theorem units_append (l r : List MapEnt) : units (l ++ r) = units l ∪ units r := by
  ext u
  simp only [units, mem_append, Set.mem_ofPred_eq, Set.mem_union]
  constructor
  · rintro ⟨e, he | he, hu⟩
    · exact .inl ⟨e, he, hu⟩
    · exact .inr ⟨e, he, hu⟩
  · rintro (⟨e, he, hu⟩ | ⟨e, he, hu⟩)
    · exact ⟨e, .inl he, hu⟩
    · exact ⟨e, .inr he, hu⟩

theorem units_cons (e : MapEnt) (l : List MapEnt) :
    units (e :: l) = rangeOf e.mSize e.mAddr ∪ units l := by
  ext u
  simp [units, rangeOf]

variable {l rest : List MapEnt} {mp mp' : RMap} {size a : Nat} {ops : List MapOp} {bp : MapEnt}
  {op : MapOp}

theorem tidy_sizes (t : Tidy l) : ∀ e ∈ l, e.mSize ≠ 0 := by
  intro e he
  have := (t.1 e he).1
  omega

theorem tidy_middle {r : List MapEnt} {e : MapEnt} : Tidy (l ++ e :: r) ↔ Tidy (l ++ r) ∧
      (0 < e.mSize ∧ 1 ≤ e.mAddr ∧ e.mAddr + e.mSize ≤ word) ∧
      (∀ f ∈ l, f.mAddr + f.mSize < e.mAddr) ∧ ∀ f ∈ r, e.mAddr + e.mSize < f.mAddr := by
  simp only [Tidy, pairwise_append, pairwise_cons, mem_append, mem_cons]
  constructor
  · rintro ⟨sizes, left, ⟨after, right⟩, cross⟩
    refine ⟨⟨fun f hf => sizes f (by tauto), left, right, fun f hf g hg => cross f hf g (.inr hg)⟩,
      sizes e (by tauto), fun f hf => cross f hf e (.inl rfl), after⟩
  · rintro ⟨⟨sizes, left, right, cross⟩, own, before, after⟩
    refine ⟨?_, left, ⟨after, right⟩, ?_⟩
    · rintro f (hf | rfl | hf)
      · exact sizes f (.inl hf)
      · exact own
      · exact sizes f (.inr hf)
    · rintro f hf g (rfl | hg)
      · exact before f hf
      · exact cross f hf g hg

def Shaped (mp : RMap) (l : List MapEnt) : Prop :=
  Tidy l ∧ mp.slots = l ++ replicate (mp.mapsize + 1) ⟨0, 0⟩

theorem Shaped.live_eq (h : Shaped mp l) : live mp = l := by
  have nonzero := tidy_sizes h.1
  rw [live, h.2, takeWhile_append_of_pos (by simpa using nonzero)]
  simp [replicate_succ]

theorem Shaped.wellFormed (h : Shaped mp l) : WellFormed mp :=
  ⟨by rw [h.live_eq]; exact h.1, by rw [h.live_eq]; exact h.2⟩

theorem mapinit_shaped (c : Nat) : Shaped (mapinit (c + 2)) [] := by
  refine ⟨⟨by simp, by simp⟩, ?_⟩
  simp [mapinit]

theorem closeGap_eq (d : MapEnt) (l : List MapEnt) (k : Nat) (nonzero : ∀ e ∈ l, e.mSize ≠ 0) :
    closeGap (d :: (l ++ replicate (k + 1) ⟨0, 0⟩)) =
      some (l ++ replicate (k + 2) ⟨0, 0⟩) := by
  induction l generalizing d with
  | nil => simp [replicate_succ, closeGap]
  | cons e l ih =>
    have he : e.mSize ≠ 0 := nonzero e (by simp)
    simp [closeGap, he, ih e fun f hf => nonzero f (by simp [hf])]

theorem pullDown_eq (e : MapEnt) (l : List MapEnt) (k : Nat) (he : e.mSize ≠ 0)
    (nonzero : ∀ f ∈ l, f.mSize ≠ 0) :
    pullDown (e :: (l ++ replicate (k + 1) ⟨0, 0⟩)) =
      some (l ++ replicate (k + 2) ⟨0, 0⟩) := by
  induction l generalizing e with
  | nil => cases k <;> simp [replicate_succ, pullDown, he]
  | cons f l ih =>
    have rest := ih f (nonzero f (by simp)) fun g hg => nonzero g (by simp [hg])
    simp [pullDown, he, rest]

theorem pushUp_eq (size a : Nat) (l : List MapEnt) (k : Nat) (nonzero : ∀ e ∈ l, e.mSize ≠ 0) :
    pushUp size a (l ++ replicate (k + 1) ⟨0, 0⟩) =
      some (⟨size, a⟩ :: (l ++ replicate k ⟨0, 0⟩)) := by
  induction l generalizing size a with
  | nil => simp [replicate_succ, pushUp]
  | cons e l ih =>
    have he : e.mSize ≠ 0 := nonzero e (by simp)
    simp [pushUp, he, ih e.mSize e.mAddr fun f hf => nonzero f (by simp [hf])]

theorem seekAfter_eq (a : Nat) (l : List MapEnt) (k : Nat) (t : Tidy l) : ∃ l₁ l₂, l = l₁ ++ l₂ ∧
      seekAfter a (l ++ replicate (k + 1) ⟨0, 0⟩) =
        some (l₁, l₂ ++ replicate (k + 1) ⟨0, 0⟩) ∧
      (∀ e ∈ l₁, e.mAddr ≤ a) ∧ ∀ e ∈ l₂, a < e.mAddr := by
  induction l with
  | nil => exact ⟨[], [], rfl, by simp [replicate_succ, seekAfter], by simp, by simp⟩
  | cons e l ih =>
    have rest : Tidy l := ⟨fun f hf => t.1 f (by simp [hf]), (pairwise_cons.mp t.2).2⟩
    have he : e.mSize ≠ 0 := tidy_sizes t e (by simp)
    by_cases low : e.mAddr ≤ a
    · obtain ⟨l₁, l₂, split, found, before, after⟩ := ih rest
      refine ⟨e :: l₁, l₂, by simp [split], ?_, ?_, after⟩
      · rw [cons_append, seekAfter, if_pos ⟨low, he⟩, found]
        rfl
      · simpa [low] using before
    · refine ⟨[], e :: l, rfl, ?_, by simp, ?_⟩
      · simp [seekAfter, low]
      · intro f hf
        rcases mem_cons.mp hf with rfl | hf
        · omega
        · have := (pairwise_cons.mp t.2).1 f hf
          omega

theorem firstFit_eq (size k : Nat) (pos : 0 < size) (l : List MapEnt) (t : Tidy l) :
    ((∀ e ∈ l, e.mSize < size) ∧ firstFit size (l ++ replicate (k + 1) ⟨0, 0⟩) =
        some ⟨0, l ++ replicate (k + 1) ⟨0, 0⟩, false⟩) ∨
    ∃ l₁ e l₂, l = l₁ ++ e :: l₂ ∧ (∀ f ∈ l₁, f.mSize < size) ∧ size ≤ e.mSize ∧
      firstFit size (l ++ replicate (k + 1) ⟨0, 0⟩) = some
        (if e.mSize = size then ⟨e.mAddr, l₁ ++ l₂ ++ replicate (k + 2) ⟨0, 0⟩, true⟩
         else ⟨e.mAddr, l₁ ++ ⟨e.mSize - size, e.mAddr + size⟩ :: l₂ ++
           replicate (k + 1) ⟨0, 0⟩, false⟩) := by
  induction l with
  | nil => exact .inl ⟨by simp, by simp [replicate_succ, firstFit]⟩
  | cons e l ih =>
    have rest : Tidy l := ⟨fun f hf => t.1 f (by simp [hf]), (pairwise_cons.mp t.2).2⟩
    have he := t.1 e (by simp)
    have nz : e.mSize ≠ 0 := by omega
    by_cases fits : size ≤ e.mSize
    · refine .inr ⟨[], e, l, rfl, by simp, fits, ?_⟩
      by_cases exact_fit : e.mSize = size
      · have gap := fun d => closeGap_eq d l k (tidy_sizes rest)
        subst size
        simp [firstFit, nz, gap]
      · have small : (e.mAddr + size) % word = e.mAddr + size := mod_eq_of_lt (by omega)
        have left : e.mSize - size ≠ 0 := by omega
        simp [firstFit, nz, fits, exact_fit, small, left]
    · have small : e.mSize < size := by omega
      rcases ih rest with ⟨none_fits, found⟩ | ⟨l₁, f, l₂, split, before, fits', found⟩
      · refine .inl ⟨by simpa [small] using none_fits, ?_⟩
        simp [firstFit, nz, fits, found]
      · refine .inr ⟨e :: l₁, f, l₂, by simp [split], by simpa [small] using before, fits', ?_⟩
        rw [cons_append, firstFit, if_neg nz, if_neg fits, found]
        by_cases exact_fit : f.mSize = size <;> simp [exact_fit]

theorem wellFormed_length (w : WellFormed mp) :
    mp.slots.length = mp.mapsize + (live mp).length + 1 := by
  have shape := congrArg length w.shape
  simp only [length_append, length_replicate] at shape
  omega

theorem range_disjoint_units (apart : ∀ e ∈ l, e.mAddr + e.mSize ≤ a ∨ a + size ≤ e.mAddr) :
    units l \ rangeOf size a = units l := by
  ext u
  simp only [units, rangeOf, Set.mem_sdiff, Set.mem_ofPred_eq]
  constructor
  · exact fun h => h.1
  · rintro ⟨e, he, hu⟩
    refine ⟨⟨e, he, hu⟩, ?_⟩
    have := apart e he
    omega

theorem rmalloc_zero (mp : RMap) : rmalloc mp 0 = some (0, mp) := by simp [rmalloc]

theorem rmalloc_spec {size : Nat} (w : WellFormed mp) (pos : 0 < size) :
    ∃ r mp', rmalloc mp size = some (r, mp') ∧ WellFormed mp' ∧
      mp'.slots.length = mp.slots.length ∧
      ((r = 0 ∧ mp' = mp ∧ ∀ e ∈ live mp, e.mSize < size) ∨ FirstFit mp size r mp') := by
  have nz : size ≠ 0 := by omega
  have found := firstFit_eq size mp.mapsize pos (live mp) w.tidy
  rw [← w.shape] at found
  rcases found with ⟨small, found⟩ | ⟨l₁, e, l₂, split, small, fits, found⟩
  · refine ⟨0, mp, ?_, w, rfl, .inl ⟨rfl, rfl, small⟩⟩
    simp [rmalloc, nz, found]
  obtain ⟨rest, own, before, after⟩ := tidy_middle.mp (split ▸ w.tidy)
  have len := wellFormed_length w
  simp only [split, length_append, length_cons] at len
  have lowest : ∀ f ∈ live mp, f.mAddr < e.mAddr → f.mSize < size := by
    intro f hf low
    rw [split] at hf
    rcases mem_append.mp hf with hf | hf
    · exact small f hf
    · rcases mem_cons.mp hf with rfl | hf
      · omega
      · have := after f hf
        omega
  have inside : rangeOf size e.mAddr ⊆ freeUnits mp := by
    intro u hu
    simp only [rangeOf, Set.mem_ofPred_eq] at hu
    exact ⟨e, by simp [split], by omega⟩
  have others : ∀ f ∈ l₁ ++ l₂, f.mAddr + f.mSize ≤ e.mAddr ∨ e.mAddr + size ≤ f.mAddr := by
    intro f hf
    rcases mem_append.mp hf with hf | hf
    · exact .inl (le_of_lt (before f hf))
    · have := after f hf
      exact .inr (by omega)
  -- an entry that fits exactly leaves the map, any other keeps its upper part
  by_cases exact_fit : e.mSize = size
  · let mp' : RMap := { mp with slots := l₁ ++ l₂ ++ replicate (mp.mapsize + 2) ⟨0, 0⟩,
                                mapsize := mp.mapsize + 1 }
    have shaped : Shaped mp' (l₁ ++ l₂) := ⟨rest, rfl⟩
    refine ⟨e.mAddr, mp', by simp [rmalloc, nz, found, exact_fit, mp'], shaped.wellFormed,
      by simp [mp']; omega, .inr ⟨⟨e, by simp [split], rfl, fits⟩, lowest, inside, ?_⟩⟩
    have gone : rangeOf e.mSize e.mAddr \ rangeOf size e.mAddr = ∅ := by
      rw [exact_fit]
      exact Set.sdiff_self
    rw [freeUnits, freeUnits, shaped.live_eq, split, units_append, units_append, units_cons,
      Set.union_sdiff_distrib, Set.union_sdiff_distrib, gone,
      range_disjoint_units fun f hf => others f (by simp [hf]),
      range_disjoint_units fun f hf => others f (by simp [hf]), Set.empty_union]
  · let upper : MapEnt := ⟨e.mSize - size, e.mAddr + size⟩
    let mp' : RMap := { mp with slots := l₁ ++ upper :: l₂ ++ replicate (mp.mapsize + 1) ⟨0, 0⟩ }
    have tidy : Tidy (l₁ ++ upper :: l₂) := by
      refine tidy_middle.mpr ⟨rest, ?_, fun f hf => ?_, fun f hf => ?_⟩
      · simp only [upper]; omega
      · have := before f hf
        simp only [upper]; omega
      · have := after f hf
        simp only [upper]; omega
    have shaped : Shaped mp' (l₁ ++ upper :: l₂) := ⟨tidy, rfl⟩
    refine ⟨e.mAddr, mp', by simp [rmalloc, nz, found, exact_fit, mp', upper],
      shaped.wellFormed, by simp [mp']; omega,
      .inr ⟨⟨e, by simp [split], rfl, fits⟩, lowest, inside, ?_⟩⟩
    have kept : rangeOf e.mSize e.mAddr \ rangeOf size e.mAddr =
        rangeOf upper.mSize upper.mAddr := by
      ext u
      simp only [rangeOf, upper, Set.mem_sdiff, Set.mem_ofPred_eq]
      omega
    rw [freeUnits, freeUnits, shaped.live_eq, split, units_append, units_append, units_cons,
      units_cons, Set.union_sdiff_distrib, Set.union_sdiff_distrib, kept,
      range_disjoint_units fun f hf => others f (by simp [hf]),
      range_disjoint_units fun f hf => others f (by simp [hf])]

@[simp] theorem wakeWanters_slots (mp : RMap) : (wakeWanters mp).mp.slots = mp.slots := by
  unfold wakeWanters
  split <;> rfl

@[simp] theorem wakeWanters_mapsize (mp : RMap) : (wakeWanters mp).mp.mapsize = mp.mapsize := by
  unfold wakeWanters
  split <;> rfl

@[simp] theorem wakeWanters_overflow (mp : RMap) : (wakeWanters mp).overflow = false := by
  unfold wakeWanters
  split <;> rfl

/-- What a caller of rmfree gets: the units, or the warning and nothing else. -/
structure Freed (mp : RMap) (size a : Nat) (out : FreeOut) : Prop where
  wellFormed : WellFormed out.mp
  slots : out.mp.slots.length = mp.slots.length
  lost : out.overflow = true → out.mp = mp
  added : out.overflow = false → freeUnits out.mp = freeUnits mp ∪ rangeOf size a

theorem freed_of_shaped (shaped : Shaped mp' l) (slots : mp'.slots.length = mp.slots.length)
    (added : units l = freeUnits mp ∪ rangeOf size a) :
    Freed mp size a (wakeWanters mp') := by
  have same : Shaped (wakeWanters mp').mp l := ⟨shaped.1, by simpa using shaped.2⟩
  exact ⟨same.wellFormed, by simpa using slots, by simp, fun _ => by
    rw [freeUnits, same.live_eq, added]⟩

theorem rangeOf_join (m n a : Nat) : rangeOf m a ∪ rangeOf n (a + m) = rangeOf (m + n) a := by
  ext u
  simp only [rangeOf, Set.mem_union, Set.mem_ofPred_eq]
  omega

section Freeing
variable {mp : RMap} {size a : Nat} {l₁ l₂ : List MapEnt}

section
variable (w : WellFormed mp) (legal : Legal mp (.rmfree size a)) (pos : 0 < size)
include w legal pos

theorem legal_gap (split : live mp = l₁ ++ l₂) (low : ∀ e ∈ l₁, e.mAddr ≤ a)
    (high : ∀ e ∈ l₂, a < e.mAddr) :
    (∀ e ∈ l₁, e.mAddr + e.mSize ≤ a) ∧ ∀ e ∈ l₂, a + size ≤ e.mAddr := by
  obtain ⟨_, _, _, _, unused⟩ := legal
  constructor
  · intro e he
    by_contra inside
    exact unused a ⟨le_refl a, by omega⟩ ⟨e, by simp [split, he], low e he, by omega⟩
  · intro e he
    by_contra inside
    have start := high e he
    have sized := (w.tidy.1 e (by simp [split, he])).1
    exact unused e.mAddr ⟨by omega, by omega⟩ ⟨e, by simp [split, he], by omega, by omega⟩

/-- The range touches the entry below it and may close the hole to the next one. -/
theorem growLeft_spec {p : MapEnt} (split : live mp = l₁ ++ p :: l₂) (touch : p.mAddr + p.mSize = a)
    (after : ∀ e ∈ l₂, a + size ≤ e.mAddr)
    (here : l₂ ++ replicate (mp.mapsize + 1) ⟨0, 0⟩ = bp :: rest) :
    ∃ mp', growLeft mp size a l₁ p bp rest = some mp' ∧ Freed mp size a (wakeWanters mp') := by
  obtain ⟨_, _, _, top, _⟩ := legal
  obtain ⟨apart, own, before, _⟩ := tidy_middle.mp (split ▸ w.tidy)
  have len := wellFormed_length w
  simp only [split, length_append, length_cons] at len
  have joined : rangeOf p.mSize p.mAddr ∪ rangeOf size a = rangeOf (p.mSize + size) p.mAddr := by
    rw [← touch, rangeOf_join]
  have psize : (p.mSize + size) % word = p.mSize + size := mod_eq_of_lt (by omega)
  cases l₂ with
  | nil =>
    obtain ⟨rfl, rfl⟩ : bp = ⟨0, 0⟩ ∧ rest = replicate mp.mapsize ⟨0, 0⟩ := by
      simpa [replicate_succ, eq_comm] using here
    let p' : MapEnt := ⟨p.mSize + size, p.mAddr⟩
    refine ⟨{ mp with slots := l₁ ++ p' :: ⟨0, 0⟩ :: replicate mp.mapsize ⟨0, 0⟩ },
      by simp [growLeft, psize, p'], ?_⟩
    refine freed_of_shaped (l := l₁ ++ [p']) ⟨tidy_middle.mpr ⟨apart, ?_, before, by simp⟩, ?_⟩ ?_ ?_
    · simp only [p']; omega
    · simp [replicate_succ]
    · simp only [length_append, length_cons, length_replicate]
      simp at len
      omega
    · rw [freeUnits, split, units_append, units_append, units_cons, units_cons, ← joined]
      ac_rfl
  | cons e l₂ =>
    obtain ⟨rfl, rfl⟩ : e = bp ∧ l₂ ++ replicate (mp.mapsize + 1) ⟨0, 0⟩ = rest := by
      simpa using here
    obtain ⟨apart', eown, ebefore, eafter⟩ := tidy_middle.mp apart
    have gap := after e (by simp)
    have nz : e.mAddr ≠ 0 := by omega
    have asize : (a + size) % word = a + size := mod_eq_of_lt (by omega)
    by_cases closes : a + size = e.mAddr
    · let p' : MapEnt := ⟨p.mSize + size + e.mSize, p.mAddr⟩
      have total : (p.mSize + size + e.mSize) % word = p.mSize + size + e.mSize :=
        mod_eq_of_lt (by omega)
      have esmall : e.mAddr % word = e.mAddr := by rw [← closes]; exact asize
      have pulled := pullDown_eq e l₂ mp.mapsize (by omega)
        fun f hf => tidy_sizes apart' f (by simp [hf])
      refine ⟨{ mp with slots := l₁ ++ p' :: (l₂ ++ replicate (mp.mapsize + 2) ⟨0, 0⟩),
                        mapsize := mp.mapsize + 1 },
        by simp [growLeft, psize, nz, closes, esmall, total, pulled, p'], ?_⟩
      refine freed_of_shaped (l := l₁ ++ p' :: l₂)
        ⟨tidy_middle.mpr ⟨apart', ?_, before, fun f hf => ?_⟩, by simp⟩ ?_ ?_
      · simp only [p']; omega
      · have := eafter f hf
        simp only [p']; omega
      · simp only [length_append, length_cons, length_replicate] at len ⊢
        omega
      · have whole : rangeOf p'.mSize p'.mAddr =
            rangeOf (p.mSize + size) p.mAddr ∪ rangeOf e.mSize e.mAddr := by
          rw [show e.mAddr = p.mAddr + (p.mSize + size) by omega, rangeOf_join]
        rw [freeUnits, split, units_append, units_append, units_cons, units_cons, units_cons,
          whole, ← joined]
        ac_rfl
    · let p' : MapEnt := ⟨p.mSize + size, p.mAddr⟩
      refine ⟨{ mp with slots := l₁ ++ p' :: e :: (l₂ ++ replicate (mp.mapsize + 1) ⟨0, 0⟩) },
        by simp [growLeft, psize, asize, closes, p'], ?_⟩
      refine freed_of_shaped (l := l₁ ++ p' :: e :: l₂)
        ⟨tidy_middle.mpr ⟨apart, ?_, before, fun f hf => ?_⟩, by simp⟩ ?_ ?_
      · simp only [p']; omega
      · have := after f hf
        have : a + size ≠ f.mAddr := by
          rcases mem_cons.mp hf with rfl | hf
          · exact closes
          · have := eafter f hf
            omega
        simp only [p']; omega
      · simp only [length_append, length_cons, length_replicate] at len ⊢
        omega
      · rw [freeUnits, split, units_append, units_append, units_cons, units_cons p, ← joined]
        ac_rfl

/-- Nothing ends where the range starts: it joins the next entry, or gets its own. -/
theorem growRightOrInsert_spec (split : live mp = l₁ ++ l₂)
    (before : ∀ e ∈ l₁, e.mAddr + e.mSize < a) (after : ∀ e ∈ l₂, a + size ≤ e.mAddr)
    (here : l₂ ++ replicate (mp.mapsize + 1) ⟨0, 0⟩ = bp :: rest) :
    ∃ out, growRightOrInsert mp size a l₁ bp rest = some out ∧ Freed mp size a out := by
  obtain ⟨_, base, _, top, _⟩ := legal
  have len := wellFormed_length w
  have tidy := w.tidy
  rw [split] at tidy
  simp only [split, length_append] at len
  by_cases joins : (a + size) % word = bp.mAddr ∧ bp.mSize ≠ 0
  · cases l₂ with
    | nil =>
      obtain ⟨rfl, rfl⟩ : bp = ⟨0, 0⟩ ∧ rest = replicate mp.mapsize ⟨0, 0⟩ := by
        simpa [replicate_succ, eq_comm] using here
      simp at joins
    | cons e l₂ =>
      obtain ⟨rfl, rfl⟩ : e = bp ∧ l₂ ++ replicate (mp.mapsize + 1) ⟨0, 0⟩ = rest := by
        simpa using here
      obtain ⟨apart, own, _, eafter⟩ := tidy_middle.mp tidy
      have gap := after e (by simp)
      have asize : (a + size) % word = a + size := mod_eq_of_lt (by omega)
      have start : a + size = e.mAddr := by rw [← asize]; exact joins.1
      have esize : (e.mSize + size) % word = e.mSize + size := mod_eq_of_lt (by omega)
      have eaddr : (e.mAddr + word - size) % word = a := by
        rw [show e.mAddr + word - size = a + word by omega, add_mod_right]
        exact mod_eq_of_lt (by omega)
      let e' : MapEnt := ⟨e.mSize + size, a⟩
      refine ⟨_, by simp [growRightOrInsert, joins, esize, eaddr]; rfl, ?_⟩
      refine freed_of_shaped (l := l₁ ++ e' :: l₂)
        ⟨tidy_middle.mpr ⟨apart, ?_, before, fun f hf => ?_⟩, by simp [e']⟩ ?_ ?_
      · simp only [e']; omega
      · have := eafter f hf
        simp only [e']; omega
      · simp only [length_append, length_cons, length_replicate] at len ⊢
        omega
      · have whole : rangeOf e'.mSize e'.mAddr = rangeOf size a ∪ rangeOf e.mSize e.mAddr := by
          rw [← start, rangeOf_join, Nat.add_comm size]
        rw [freeUnits, split, units_append, units_append, units_cons, units_cons, whole]
        ac_rfl
  · by_cases full : mp.mapsize = 0
    · exact ⟨⟨mp, true, false⟩, by simp [growRightOrInsert, joins, full], w, rfl, by simp, by simp⟩
    obtain ⟨k, hk⟩ : ∃ k, mp.mapsize = k + 1 := ⟨mp.mapsize - 1, by omega⟩
    have pushed := pushUp_eq size a l₂ mp.mapsize fun e he => tidy_sizes tidy e (by simp [he])
    have behind : ∀ e ∈ l₂, a + size < e.mAddr := by
      intro e he
      have gap := after e he
      have room := (tidy.1 e (by simp [he])).2.2
      have sized := (tidy.1 e (by simp [he])).1
      have asize : (a + size) % word = a + size := mod_eq_of_lt (by omega)
      cases l₂ with
      | nil => simp at he
      | cons f l₂ =>
        obtain ⟨rfl, -⟩ : f = bp ∧ _ := by simpa using here
        have first := after f (by simp)
        rcases mem_cons.mp he with rfl | he
        · omega
        · have := (tidy_middle.mp tidy).2.2.2 e he
          omega
    refine ⟨wakeWanters { mp with
        slots := l₁ ++ ⟨size, a⟩ :: (l₂ ++ replicate mp.mapsize ⟨0, 0⟩),
        mapsize := mp.mapsize - 1 },
      by rw [growRightOrInsert, if_neg joins, if_neg full, ← here, pushed]; rfl, ?_⟩
    refine freed_of_shaped (l := l₁ ++ ⟨size, a⟩ :: l₂)
      ⟨tidy_middle.mpr ⟨tidy, ⟨pos, base, top⟩, before, behind⟩, by simp [hk]⟩ ?_ ?_
    · simp only [length_append, length_cons, length_replicate]
      omega
    · rw [freeUnits, split, units_append, units_append, units_cons]
      ac_rfl

end

end Freeing

theorem rmfree_spec (w : WellFormed mp) (legal : Legal mp (.rmfree size a)) :
    ∃ out, rmfree mp size a = some out ∧ Freed mp size a out := by
  by_cases pos : size = 0
  · subst pos
    refine ⟨⟨mp, false, false⟩, by simp [rmfree], w, rfl, by simp, fun _ => ?_⟩
    have empty : rangeOf 0 a = ∅ := by
      ext u
      simp [rangeOf]
    rw [empty, Set.union_empty]
  obtain ⟨l₁, l₂, split, found, low, high⟩ := seekAfter_eq a (live mp) mp.mapsize w.tidy
  rw [← w.shape] at found
  obtain ⟨before, after⟩ := legal_gap w legal (by omega) split low high
  obtain ⟨bp, rest, here⟩ : ∃ bp rest, l₂ ++ replicate (mp.mapsize + 1) ⟨0, 0⟩ = bp :: rest := by
    cases l₂ <;> simp [replicate_succ]
  rw [here] at found
  rcases eq_nil_or_concat l₁ with rfl | ⟨init, p, rfl⟩
  · obtain ⟨out, run, freed⟩ :=
      growRightOrInsert_spec w legal (by omega) split (by simp) after here
    exact ⟨out, by simpa [rmfree, pos, found] using run, freed⟩
  have inside := before p (by simp)
  have psmall : (p.mAddr + p.mSize) % word = p.mAddr + p.mSize :=
    mod_eq_of_lt (by have := legal.2.2.1; omega)
  by_cases touch : p.mAddr + p.mSize = a
  · obtain ⟨mp', run, freed⟩ := growLeft_spec w legal (by omega)
      (by simpa using split) touch after here
    refine ⟨wakeWanters mp', ?_, freed⟩
    have asmall : a % word = a := mod_eq_of_lt legal.2.2.1
    simp [rmfree, pos, found, touch, asmall, run]
  have apart : ∀ e ∈ init.concat p, e.mAddr + e.mSize < a := by
    intro e he
    rw [concat_eq_append] at he split
    rcases mem_append.mp he with he | he
    · have order := (tidy_middle.mp (by simpa [split] using w.tidy)).2.2.1 e he
      omega
    · obtain rfl : e = p := by simpa using he
      omega
  obtain ⟨out, run, freed⟩ := growRightOrInsert_spec w legal (by omega) split apart after here
  exact ⟨out, by simpa [rmfree, pos, found, psmall, touch] using run, freed⟩

theorem step_wellFormed (w : WellFormed mp) (legal : Legal mp op) (run : step mp op = some mp') :
    WellFormed mp' ∧ mp'.slots.length = mp.slots.length := by
  cases op with
  | rmalloc size =>
    rcases Nat.eq_zero_or_pos size with rfl | pos
    · obtain rfl : mp = mp' := by simpa [step, rmalloc_zero] using run
      exact ⟨w, rfl⟩
    · obtain ⟨r, mp₁, run₁, w₁, len, _⟩ := rmalloc_spec w pos
      obtain rfl : mp₁ = mp' := by simpa [step, run₁] using run
      exact ⟨w₁, len⟩
  | rmfree size a =>
    obtain ⟨out, run₁, freed⟩ := rmfree_spec w legal
    obtain rfl : out.mp = mp' := by simpa [step, run₁] using run
    exact ⟨freed.wellFormed, freed.slots⟩

theorem step_total (w : WellFormed mp) (legal : Legal mp op) : ∃ mp', step mp op = some mp' := by
  cases op with
  | rmalloc size =>
    rcases Nat.eq_zero_or_pos size with rfl | pos
    · exact ⟨mp, by simp [step, rmalloc_zero]⟩
    · obtain ⟨r, mp₁, run₁, _⟩ := rmalloc_spec w pos
      exact ⟨mp₁, by simp [step, run₁]⟩
  | rmfree size a =>
    obtain ⟨out, run₁, _⟩ := rmfree_spec w legal
    exact ⟨out.mp, by simp [step, run₁]⟩

theorem legal_run_total (w : WellFormed mp) (legal : Guarded step Legal mp ops) :
    ∃ mp', exec step mp ops = some mp' := by
  induction ops generalizing mp with
  | nil => exact ⟨mp, rfl⟩
  | cons op ops ih =>
    obtain ⟨next, first⟩ := step_total w legal.1
    obtain ⟨last, rest⟩ := ih (step_wellFormed w legal.1 first).1 (legal.2 next first)
    exact ⟨last, exec_cons_eq_some.mpr ⟨next, first, rest⟩⟩

theorem run_wellFormed {c : Nat} (legal : Guarded step Legal (mapinit (c + 2)) ops)
    (run : exec step (mapinit (c + 2)) ops = some mp) :
    WellFormed mp ∧ mp.slots.length = c + 1 := by
  refine exec_invariant (fun mp => WellFormed mp ∧ mp.slots.length = c + 1)
    (fun s op t inv ok one => ?_) ⟨(mapinit_shaped c).wellFormed, by simp [mapinit]⟩ legal run
  obtain ⟨w, len⟩ := step_wellFormed inv.1 ok one
  exact ⟨w, by omega⟩

/-- After any legal run on an array of `c + 2` pairs: the run stayed inside, the map is well formed,
no capacity is lost, and the next rmalloc or rmfree does what it is for. -/
theorem resource_map_is_free_set (c : Nat) (ops : List MapOp)
    (legal : Guarded step Legal (mapinit (c + 2)) ops) :
    ∃ mp, exec step (mapinit (c + 2)) ops = some mp ∧ WellFormed mp ∧
      mp.mapsize + (live mp).length = c ∧
      rmalloc mp 0 = some (0, mp) ∧
      (∀ size, 0 < size → size < word → ∃ r mp', rmalloc mp size = some (r, mp') ∧
        ((r = 0 ∧ mp' = mp ∧ ∀ e ∈ live mp, e.mSize < size) ∨ FirstFit mp size r mp')) ∧
      ∀ size a, Legal mp (.rmfree size a) →
        ∃ out, rmfree mp size a = some out ∧ Freed mp size a out := by
  obtain ⟨mp, run⟩ := legal_run_total (mapinit_shaped c).wellFormed legal
  obtain ⟨w, len⟩ := run_wellFormed legal run
  refine ⟨mp, run, w, ?_, rmalloc_zero mp, fun size pos _ => ?_, fun size a ok => rmfree_spec w ok⟩
  · have := wellFormed_length w
    omega
  · obtain ⟨r, mp', alloc, _, _, result⟩ := rmalloc_spec w pos
    exact ⟨r, mp', alloc, result⟩

theorem resource_map_is_free_set_run :
    ∃ mp, exec step (mapinit (1 + 2)) [.rmfree 4 8, .rmalloc 3] = some mp ∧ WellFormed mp ∧
      mp.mapsize + (live mp).length = 1 := by
  have legal : Guarded step Legal (mapinit (1 + 2)) [.rmfree 4 8, .rmalloc 3] := by
    refine ⟨⟨by decide, by decide, by decide, by decide, fun u _ free => ?_⟩, fun t _ =>
      ⟨by simp [Legal, word], fun _ _ => trivial⟩⟩
    have empty : freeUnits (mapinit (1 + 2)) = ∅ := by
      rw [freeUnits, (mapinit_shaped 1).live_eq]
      simp [units]
    rw [empty] at free
    exact free
  obtain ⟨mp, run, w, cap, _⟩ := resource_map_is_free_set 1 [.rmfree 4 8, .rmalloc 3] legal
  exact ⟨mp, run, w, cap⟩

/-- A request for no units is answered by 0, although an entry could hold it. -/
theorem rmalloc_zero_refused :
    ∃ mp r mp', exec step (mapinit (1 + 2)) [.rmfree 4 8] = some mp ∧
      rmalloc mp 0 = some (r, mp') ∧
      ¬ ((r = 0 ∧ mp' = mp ∧ ∀ e ∈ live mp, e.mSize < 0) ∨ FirstFit mp 0 r mp') := by
  refine ⟨⟨0, 0, [⟨4, 8⟩, ⟨0, 0⟩]⟩, 0, ⟨0, 0, [⟨4, 8⟩, ⟨0, 0⟩]⟩, by decide, by decide, ?_⟩
  rintro (⟨_, _, small⟩ | fit)
  · exact absurd (small ⟨4, 8⟩ (by decide)) (by decide)
  · obtain ⟨e, he, zero, _⟩ := fit.fits
    have only : e = ⟨4, 8⟩ := by simpa [live] using he
    simp [only] at zero

end ResourceMap
