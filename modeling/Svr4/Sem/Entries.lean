import Mathlib.Algebra.BigOperators.Group.List.Basic
import Mathlib.Algebra.GroupWithZero.Nat
import Mathlib.Algebra.Ring.Int.Defs
import Svr4.Sem.Semaphores

/- The entries of one undo structure: sorted, one for a semaphore, none of them zero. -/
namespace Semaphores
open List

variable {info : SemInfo} {ents lo hi : List Undo} {e : Undo} {val aoe : Int} {id num i n : Nat}

def Undo.Before (id num : Nat) (e : Undo) : Prop := e.un_id < id ∨ e.un_id = id ∧ e.un_num < num
def Undo.At (id num : Nat) (e : Undo) : Prop := e.un_id = id ∧ e.un_num = num
def Undo.After (id num : Nat) (e : Undo) : Prop := id < e.un_id ∨ id = e.un_id ∧ num < e.un_num

instance (id num : Nat) (e : Undo) : Decidable (e.At id num) :=
  inferInstanceAs (Decidable (_ ∧ _))

def Within (info : SemInfo) (aoe : Int) : Prop := -(info.semaem : Int) ≤ aoe ∧ aoe ≤ info.semaem

structure EntsOk (info : SemInfo) (ents : List Undo) : Prop where
  sorted : ents.Pairwise fun e f => e.Before f.un_id f.un_num
  few : ents.length ≤ info.semume
  small : ∀ e ∈ ents, e.un_aoe ≠ 0 ∧ Within info e.un_aoe

def adjustment (id num : Nat) (ents : List Undo) : Int :=
  (ents.map fun e => if e.At id num then e.un_aoe else 0).sum

@[simp] theorem adjustment_cons : adjustment id num (e :: ents) =
    (if e.At id num then e.un_aoe else 0) + adjustment id num ents := by
  simp [adjustment]

@[simp] theorem adjustment_append : adjustment id num (lo ++ hi) =
    adjustment id num lo + adjustment id num hi := by
  simp [adjustment]

/-! Short arithmetic -/

theorem outside_iff : Undos.outside info aoe = false ↔ Within info aoe := by
  unfold Undos.outside Within
  rw [Bool.or_eq_false_iff, decide_eq_false_iff_not, decide_eq_false_iff_not]
  omega

theorem toShort_eq {x : Int} (low : -32768 ≤ x) (high : x ≤ 32767) : toShort x = x := by
  unfold toShort
  rw [Int.bmod_def]
  split <;> omega

theorem toShort_within (within : Within info val) : toShort val = val := by
  have bound := info.aem_le
  unfold Within at within
  exact toShort_eq (by omega) (by omega)

theorem toShort_sub (first : Within info aoe) (second : Within info val)
    (fits : Within info (toShort (aoe - val))) : toShort (aoe - val) = aoe - val := by
  have bound := info.aem_le
  unfold Within at first second fits
  by_cases edge : aoe - val = 32768
  · rw [edge] at fits
    have wrapped : toShort 32768 = -32768 := by decide
    omega
  · exact toShort_eq (by omega) (by omega)

theorem toShort_restored (first : Within info aoe) (second : Within info val) :
    toShort (toShort (aoe - val) + val) = aoe := by
  have bound := info.aem_le
  unfold Within at first second
  by_cases edge : aoe - val = 32768
  · rw [edge, show toShort 32768 = -32768 by decide]
    obtain rfl : aoe = 16384 := by omega
    obtain rfl : val = -16384 := by omega
    decide
  · have plain : toShort (aoe - val) = aoe - val := toShort_eq (by omega) (by omega)
    rw [plain, Int.sub_add_cancel]
    exact toShort_eq (by omega) (by omega)

/-! The search -/

theorem before_iff : Undo.before id num e = true ↔ e.Before id num := by
  simp [Undo.before, Undo.Before]

theorem trichotomy (id num : Nat) (e : Undo) (not_before : ¬ e.Before id num) (not_at : ¬ e.At id num) :
    e.After id num := by
  unfold Undo.Before at not_before
  unfold Undo.At at not_at
  unfold Undo.After
  omega

theorem search_between (before : ∀ e ∈ lo, e.Before id num) (after : ∀ e ∈ hi, e.After id num) :
    search id num (lo ++ hi) = (lo, none, hi) := by
  have all : ∀ e ∈ lo, Undo.before id num e = true := fun e mem => before_iff.mpr (before e mem)
  unfold search
  rw [dropWhile_append_of_pos all, takeWhile_append_of_pos all]
  cases hi with
  | nil => simp
  | cons e hi =>
    have later := after e mem_cons_self
    have not_before : ¬ Undo.before id num e = true := by
      rw [before_iff]
      unfold Undo.Before
      unfold Undo.After at later
      omega
    have not_at : ¬ (e.un_id = id ∧ e.un_num = num) := by
      unfold Undo.After at later
      omega
    rw [dropWhile_cons_of_neg not_before, takeWhile_cons_of_neg not_before]
    dsimp only
    rw [if_neg not_at, append_nil]

theorem search_at (before : ∀ e ∈ lo, e.Before id num) (here : e.At id num) :
    search id num (lo ++ e :: hi) = (lo, some e, hi) := by
  have all : ∀ e ∈ lo, Undo.before id num e = true := fun e mem => before_iff.mpr (before e mem)
  have not_before : ¬ Undo.before id num e = true := by
    rw [before_iff]
    unfold Undo.Before
    unfold Undo.At at here
    omega
  unfold search
  rw [dropWhile_append_of_pos all, takeWhile_append_of_pos all,
    dropWhile_cons_of_neg not_before, takeWhile_cons_of_neg not_before]
  dsimp only
  rw [if_pos (show e.un_id = id ∧ e.un_num = num from here), append_nil]

theorem Undo.Before.after {f : Undo} (less : e.Before f.un_id f.un_num)
    (here : e.At id num ∨ e.After id num) : f.After id num := by
  unfold Undo.Before at less
  unfold Undo.At Undo.After at here
  unfold Undo.After
  omega

theorem split_at (id num : Nat) (sorted : ents.Pairwise fun e f => e.Before f.un_id f.un_num) :
    ∃ lo hi, (∀ e ∈ lo, e.Before id num) ∧ (∀ e ∈ hi, e.After id num) ∧
      (ents = lo ++ hi ∨ ∃ e, e.At id num ∧ ents = lo ++ e :: hi) := by
  induction ents with
  | nil => exact ⟨[], [], nofun, nofun, .inl rfl⟩
  | cons e ents ih =>
    obtain ⟨least, rest⟩ := pairwise_cons.mp sorted
    by_cases before : e.Before id num
    · obtain ⟨lo, hi, low, high, parts⟩ := ih rest
      refine ⟨e :: lo, hi, ?_, high, ?_⟩
      · intro f mem
        rcases mem_cons.mp mem with rfl | mem
        · exact before
        · exact low f mem
      · rcases parts with rfl | ⟨f, here, rfl⟩
        · exact .inl rfl
        · exact .inr ⟨f, here, rfl⟩
    · by_cases here : e.At id num
      · exact ⟨[], ents, nofun, fun f mem => (least f mem).after (.inl here),
          .inr ⟨e, here, rfl⟩⟩
      · have later := trichotomy id num e before here
        refine ⟨[], e :: ents, nofun, ?_, .inl rfl⟩
        intro f mem
        rcases mem_cons.mp mem with rfl | mem
        · exact later
        · exact (least f mem).after (.inr later)

theorem adjustment_zero (off : ∀ e ∈ ents, ¬ e.At id num) : adjustment id num ents = 0 := by
  induction ents with
  | nil => rfl
  | cons e ents ih =>
    rw [adjustment_cons, if_neg (off e mem_cons_self),
      ih fun f mem => off f (mem_cons_of_mem _ mem)]
    rfl

theorem Undo.Before.not_at (before : e.Before id num) : ¬ e.At id num := by
  unfold Undo.Before at before
  unfold Undo.At
  omega

theorem sorted_between (sorted : (lo ++ hi).Pairwise fun e f => e.Before f.un_id f.un_num)
    (before : ∀ e ∈ lo, e.Before id num) (after : ∀ e ∈ hi, e.After id num) (here : e.At id num) :
    (lo ++ e :: hi).Pairwise fun e f => e.Before f.un_id f.un_num := by
  obtain ⟨first, second, across⟩ := pairwise_append.mp sorted
  refine pairwise_append.mpr ⟨first, pairwise_cons.mpr ⟨?_, second⟩, ?_⟩
  · intro f mem
    have later := after f mem
    unfold Undo.After at later
    unfold Undo.At at here
    unfold Undo.Before
    omega
  · intro f mem g mem'
    rcases mem_cons.mp mem' with rfl | mem'
    · obtain ⟨rfl, rfl⟩ := here
      exact before f mem
    · exact across f mem g mem'

/-! What semaoe does to the entries -/

def change (info : SemInfo) (ents : List Undo) (val : Int) (id num : Nat) : Option Errno × List Undo :=
  match search id num ents with
  | (lo, none, hi) =>
      if info.semume ≤ ents.length then (some .EINVAL, ents)
      else (none, lo ++ ⟨toShort (-val), num, id⟩ :: hi)
  | (lo, some e, hi) =>
      let aoe := toShort (e.un_aoe - val)
      if Undos.outside info aoe then
        (some .ERANGE, lo ++ { e with un_aoe := toShort (aoe + val) } :: hi)
      else if aoe = 0 then (none, lo ++ hi)
      else (none, lo ++ { e with un_aoe := aoe } :: hi)

theorem change_between (info : SemInfo) (val : Int) (before : ∀ e ∈ lo, e.Before id num)
    (after : ∀ e ∈ hi, e.After id num) : change info (lo ++ hi) val id num = if info.semume ≤ (lo ++ hi).length then
      (some .EINVAL, lo ++ hi) else (none, lo ++ ⟨toShort (-val), num, id⟩ :: hi) := by
  unfold change
  rw [search_between before after]

theorem change_at (info : SemInfo) (val : Int) (before : ∀ e ∈ lo, e.Before id num)
    (here : e.At id num) : change info (lo ++ e :: hi) val id num =
      if Undos.outside info (toShort (e.un_aoe - val)) then
        (some .ERANGE, lo ++ ⟨toShort (toShort (e.un_aoe - val) + val), e.un_num, e.un_id⟩ :: hi)
      else if toShort (e.un_aoe - val) = 0 then (none, lo ++ hi)
      else (none, lo ++ ⟨toShort (e.un_aoe - val), e.un_num, e.un_id⟩ :: hi) := by
  unfold change
  rw [search_at before here]

theorem change_ok (id num : Nat) (ok : EntsOk info ents) (within : Within info val) (nonzero : val ≠ 0) :
    EntsOk info (change info ents val id num).2 ∧
      ((change info ents val id num).1 ≠ none → (change info ents val id num).2 = ents) ∧
      ((change info ents val id num).1 = none → ∀ i n, adjustment i n (change info ents val id num).2 =
        adjustment i n ents - if i = id ∧ n = num then val else 0) := by
  obtain ⟨lo, hi, before, after, rfl | ⟨e, here, rfl⟩⟩ := split_at id num ok.sorted
  · have minus : toShort (-val) = -val := by
      have bound := info.aem_le
      unfold Within at within
      exact toShort_eq (by omega) (by omega)
    rw [change_between info val before after]
    split
    · exact ⟨ok, fun _ => rfl, nofun⟩
    rename_i room
    refine ⟨⟨?_, ?_, ?_⟩, nofun, ?_⟩
    · exact sorted_between ok.sorted before after ⟨rfl, rfl⟩
    · rw [length_append, length_cons]
      rw [length_append] at room
      omega
    · intro f mem
      rcases mem_append.mp mem with mem | mem
      · exact ok.small f (mem_append_left _ mem)
      · rcases mem_cons.mp mem with rfl | mem
        · change toShort (-val) ≠ 0 ∧ Within info (toShort (-val))
          rw [minus]
          unfold Within at within ⊢
          omega
        · exact ok.small f (mem_append_right _ mem)
    · intro _ i n
      have at_new : Undo.At i n ⟨-val, num, id⟩ ↔ i = id ∧ n = num :=
        ⟨fun same => ⟨same.1.symm, same.2.symm⟩, fun same => ⟨same.1.symm, same.2.symm⟩⟩
      rw [minus]
      simp only [adjustment_append, adjustment_cons, at_new]
      split <;> omega
  · have mine := ok.small e (mem_append_right _ mem_cons_self)
    have at_iff : ∀ i n, e.At i n ↔ i = id ∧ n = num := by
      intro i n
      obtain ⟨rfl, rfl⟩ := here
      exact ⟨fun same => ⟨same.1.symm, same.2.symm⟩, fun same => ⟨same.1.symm, same.2.symm⟩⟩
    -- an entry with another value in its place
    have replaced : ∀ aoe, aoe ≠ 0 → Within info aoe →
        EntsOk info (lo ++ { e with un_aoe := aoe } :: hi) := by
      intro aoe other fits
      refine ⟨?_, ?_, ?_⟩
      · have shape : (lo ++ { e with un_aoe := aoe } :: hi).map (fun e => (e.un_id, e.un_num)) =
            (lo ++ e :: hi).map fun e => (e.un_id, e.un_num) := by simp
        have keys : ∀ l : List Undo, l.Pairwise (fun e f => e.Before f.un_id f.un_num) ↔
            (l.map fun e => (e.un_id, e.un_num)).Pairwise
              fun a b => a.1 < b.1 ∨ a.1 = b.1 ∧ a.2 < b.2 := by
          intro l
          rw [pairwise_map]
          rfl
        rw [keys, shape, ← keys]
        exact ok.sorted
      · have few := ok.few
        simp only [length_append, length_cons] at few ⊢
        exact few
      · intro f mem
        rcases mem_append.mp mem with mem | mem
        · exact ok.small f (mem_append_left _ mem)
        · rcases mem_cons.mp mem with rfl | mem
          · exact ⟨other, fits⟩
          · exact ok.small f (mem_append_right _ (mem_cons_of_mem _ mem))
    rw [change_at info val before here]
    split
    · rw [toShort_restored mine.2 within]
      exact ⟨ok, fun _ => rfl, nofun⟩
    rename_i near
    rw [Bool.not_eq_true, outside_iff] at near
    have exact_sub := toShort_sub mine.2 within near
    split
    · refine ⟨⟨?_, ?_, ?_⟩, nofun, ?_⟩
      · exact ok.sorted.sublist ((List.Sublist.refl lo).append (sublist_cons_self e hi))
      · have few := ok.few
        simp only [length_append, length_cons] at few ⊢
        omega
      · intro f mem
        apply ok.small f
        rcases mem_append.mp mem with mem | mem
        · exact mem_append_left _ mem
        · exact mem_append_right _ (mem_cons_of_mem _ mem)
      · intro _ i n
        simp only [adjustment_append, adjustment_cons, at_iff]
        split <;> omega
    · rename_i other
      refine ⟨replaced _ other near, nofun, ?_⟩
      intro _ i n
      have at_new : Undo.At i n ⟨e.un_aoe - val, e.un_num, e.un_id⟩ ↔ i = id ∧ n = num := at_iff i n
      rw [exact_sub]
      simp only [adjustment_append, adjustment_cons, at_iff, at_new]
      split <;> omega

theorem change_back (ok : EntsOk info ents) (within : Within info val)
    (done : (change info ents val id num).1 = none) :
    change info (change info ents val id num).2 (-val) id num = (none, ents) := by
  have bound := info.aem_le
  have minus : toShort (-val) = -val := by
    unfold Within at within
    exact toShort_eq (by omega) (by omega)
  obtain ⟨lo, hi, before, after, rfl | ⟨e, here, rfl⟩⟩ := split_at id num ok.sorted
  · have forth := change_between info val before after
    rw [forth] at done
    split at done
    · exact nomatch done
    rename_i room
    have zero : Undos.outside info 0 = false := by
      rw [outside_iff]
      unfold Within
      omega
    rw [forth, if_neg room]
    rw [minus, change_at info (-val) before ⟨rfl, rfl⟩]
    rw [show -val - -val = 0 by omega, show toShort 0 = 0 by decide, zero, if_neg (by decide),
      if_pos rfl]
  · have forth : change info (lo ++ e :: hi) val id num = _ := change_at info val before here
    have mine := ok.small e (mem_append_right _ mem_cons_self)
    have few := ok.few
    rw [forth] at done
    split at done
    · exact nomatch done
    rename_i near
    have close := near
    rw [Bool.not_eq_true, outside_iff] at close
    have exact_sub := toShort_sub mine.2 within close
    rw [forth, if_neg near]
    by_cases zero : toShort (e.un_aoe - val) = 0
    · -- the entry is inserted again
      have same : (⟨val, num, id⟩ : Undo) = e := by
        rw [exact_sub] at zero
        obtain ⟨aoe, num', id'⟩ := e
        obtain ⟨rfl, rfl⟩ := here
        congr 1
        dsimp only at zero
        omega
      rw [length_append, length_cons] at few
      rw [if_pos zero]
      rw [change_between info (-val) before after, if_neg (by rw [length_append]; omega),
        Int.neg_neg, toShort_within within, same]
    · rw [if_neg zero]
      have back : change info (lo ++ ⟨toShort (e.un_aoe - val), e.un_num, e.un_id⟩ :: hi) (-val) id
          num = _ := change_at info (-val) before here
      rw [back]
      rw [exact_sub, show e.un_aoe - val - -val = e.un_aoe by omega, toShort_within mine.2,
        if_neg (by rw [outside_iff.mpr mine.2]; decide), if_neg mine.1]

end Semaphores
