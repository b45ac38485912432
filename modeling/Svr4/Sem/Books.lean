import Mathlib.Algebra.BigOperators.Intervals
import Mathlib.Data.List.GetD
import Svr4.Sem.Clearing

/- The books of the adjustments: placement of the undo structures, their entries, and the sum of
   a semaphore's value and of all adjust values for it. -/
namespace Semaphores
open Function LabelledRuns List Nat

variable {info : SemInfo} {s t : Sem} {ents : List Undo} {id num low high slot nproc : Nat}
  {alter read : Bool}

/-! The invariant -/

def Sem.Names (info : SemInfo) (s : Sem) (id num c : Nat) : Prop :=
  ∃ k, semconv info s id = some k ∧ num < (s.sema k).sem_nsems ∧ c = (s.sema k).sem_base + num

def Sem.Has (info : SemInfo) (s : Sem) (k c : Nat) : Prop :=
  k < info.semmni ∧ (s.sema k).alloc = true ∧ (s.sema k).sem_base ≤ c ∧
    c < (s.sema k).sem_base + (s.sema k).sem_nsems

instance (info : SemInfo) (s : Sem) (k c : Nat) : Decidable (s.Has info k c) :=
  inferInstanceAs (Decidable (_ ∧ _))

/-- Placement and shape of the undo structures, what their entries name, and the balance. -/
structure UndoBooks (info : SemInfo) (nproc : Nat) (s : Sem) : Prop where
  undos : ∃ free active, s.undos.Ok info free active
  named : ∀ x, ∀ e ∈ s.undos.un_ent x, ∃ c, s.Names info e.un_id e.un_num c
  balance : ∀ id num c, s.Names info id num c → s.skipped c = false →
    s.semval c + ∑ p ∈ Finset.range nproc, s.undos.adjust p id num = s.net c

structure Kept (info : SemInfo) (nproc : Nat) (s : Sem) : Prop where
  sound : s.Sound info
  named : ∀ p id num, s.undos.adjust p id num ≠ 0 → ∃ c, s.Names info id num c
  balance : ∀ id num c, s.Names info id num c → s.skipped c = false →
    s.semval c + ∑ p ∈ Finset.range nproc, s.undos.adjust p id num = s.net c
  disjoint : ∀ k j c, s.Has info k c → s.Has info j c → k = j
  unused : ∀ c, (∀ k, ¬ s.Has info k c) → s.semval c = 0
  asleep : ∀ p w, s.asleep p = some w → w.sp = w.semid % info.semmni

variable {e : Undo} {ops : List Sembuf} {nsems k c : Nat}

theorem semconv_eq_some : semconv info s id = some k ↔
    k = id % info.semmni ∧ (s.sema k).alloc = true ∧ id / info.semmni = (s.sema k).seq := by
  unfold semconv
  dsimp only
  constructor
  · intro found
    split at found
    · exact nomatch found
    · rename_i valid
      obtain rfl := Option.some.inj found
      simp only [not_or, Bool.not_eq_false, ne_eq, not_not] at valid
      exact ⟨rfl, valid⟩
  · rintro ⟨rfl, alloc, seq⟩
    rw [if_neg]
    simp [alloc, seq]

theorem semconv_inj {id' : Nat} (one : semconv info s id = some k)
    (other : semconv info s id' = some k) : id = id' := by
  obtain ⟨rem, -, seq⟩ := semconv_eq_some.mp one
  obtain ⟨rem', -, seq'⟩ := semconv_eq_some.mp other
  rw [← div_add_mod id info.semmni, ← div_add_mod id' info.semmni, ← rem, ← rem', seq, seq']

theorem semconv_lt (found : semconv info s id = some k) : k < info.semmni := by
  rw [(semconv_eq_some.mp found).1]
  exact mod_lt _ info.mni_pos

theorem semconv_has (found : semconv info s id = some k) (low : (s.sema k).sem_base ≤ c)
    (high : c < (s.sema k).sem_base + (s.sema k).sem_nsems) : s.Has info k c :=
  ⟨semconv_lt found, (semconv_eq_some.mp found).2.1, low, high⟩

theorem Sem.Names.has (names : s.Names info id num c) :
    ∃ k, semconv info s id = some k ∧ s.Has info k c := by
  obtain ⟨k, found, small, rfl⟩ := names
  exact ⟨k, found, semconv_has found (by omega) (by omega)⟩

theorem Kept.names_inj {id' num' : Nat} (kept : Kept info nproc s) (one : s.Names info id num c)
    (other : s.Names info id' num' c) : id = id' ∧ num = num' := by
  obtain ⟨k, found, has⟩ := one.has
  obtain ⟨k', found', has'⟩ := other.has
  obtain rfl := kept.disjoint k k' c has has'
  obtain ⟨j, here, -, place⟩ := one
  obtain ⟨j', here', -, place'⟩ := other
  obtain rfl := Option.some.inj (here.symm.trans found)
  obtain rfl := Option.some.inj (here'.symm.trans found')
  exact ⟨semconv_inj found found', by omega⟩

theorem adjustment_ne_zero (ok : EntsOk info ents) (mem : e ∈ ents) :
    adjustment e.un_id e.un_num ents ≠ 0 := by
  obtain ⟨lo, hi, rfl⟩ := append_of_mem mem
  obtain ⟨-, later, across⟩ := pairwise_append.mp ok.sorted
  obtain ⟨after, -⟩ := pairwise_cons.mp later
  have low : adjustment e.un_id e.un_num lo = 0 := by
    apply adjustment_zero
    intro f early
    exact (across f early e mem_cons_self).not_at
  have high : adjustment e.un_id e.un_num hi = 0 := by
    apply adjustment_zero
    rintro f late ⟨same, same'⟩
    have order := after f late
    unfold Undo.Before at order
    omega
  rw [adjustment_append, adjustment_cons, low, high, if_pos ⟨rfl, rfl⟩]
  have := (ok.small e mem).1
  omega

theorem Kept.books (kept : Kept info nproc s) : UndoBooks info nproc s := by
  obtain ⟨free, active, ok⟩ := kept.sound.undos
  refine ⟨kept.sound.undos, ?_, kept.balance⟩
  intro x e mem
  -- only an attached structure has entries
  have attached : ∃ p, s.undos.sem_undo p = some x := by
    by_contra unattached
    rw [ok.empty x fun p here => unattached ⟨p, here⟩] at mem
    exact nomatch mem
  obtain ⟨p, here⟩ := attached
  apply kept.named p
  rw [adjust_attached here]
  exact adjustment_ne_zero (ok.entries x) mem

theorem start_kept (info : SemInfo) (nproc : Nat) : Kept info nproc (start info) := by
  have nowhere : ∀ k c, ¬ (start info).Has info k c := fun k c has => nomatch has.2.1
  refine ⟨start_sound info, ?_, ?_, fun k _ c has => absurd has (nowhere k c), fun _ _ => rfl, nofun⟩
  · intro p id num nonzero
    exact absurd rfl nonzero
  · intro id num c names
    obtain ⟨k, -, has⟩ := names.has
    exact absurd has (nowhere k c)

/-! semget and semctl -/

theorem fresh_iff {base : Nat} (fits : fresh info s base nsems = true) (has : s.Has info k c) :
    ¬ (base ≤ c ∧ c < base + nsems) := by
  unfold fresh at fits
  simp only [Bool.and_eq_true, all_eq_true, mem_range] at fits
  obtain ⟨bound, alloc, low, high⟩ := has
  have := fits.2 k bound
  simp only [alloc, Bool.not_true, Bool.false_or, Bool.or_eq_true, decide_eq_true_eq] at this
  omega

theorem semget_kept {sp base : Nat} (kept : Kept info nproc s)
    (taken : semget info s sp nsems base = some t) : Kept info nproc t := by
  unfold semget at taken
  split at taken
  · rename_i guard
    obtain rfl := Option.some.inj taken
    obtain ⟨bound, unalloc, -, -, fits⟩ := guard
    have here : update s.sema sp ⟨true, (s.sema sp).seq, base, nsems⟩ sp =
        ⟨true, (s.sema sp).seq, base, nsems⟩ := update_self ..
    have there : ∀ k, k ≠ sp → update s.sema sp ⟨true, (s.sema sp).seq, base, nsems⟩ k = s.sema k :=
      fun k other => update_of_ne other ..
    -- the other sets are as they were
    have has_iff : ∀ k c, Sem.Has info { s.reset base (base + nsems) fun _ => 0 with
        sema := update s.sema sp ⟨true, (s.sema sp).seq, base, nsems⟩ } k c ↔
        s.Has info k c ∨ k = sp ∧ base ≤ c ∧ c < base + nsems := by
      intro k c
      by_cases same : k = sp
      · subst same
        unfold Sem.Has
        dsimp only
        rw [here]
        simp [bound, unalloc]
      · unfold Sem.Has
        dsimp only
        rw [there k same]
        simp [same]
    have names_old : ∀ {id num c}, s.Names info id num c →
        Sem.Names info { s.reset base (base + nsems) fun _ => 0 with
          sema := update s.sema sp ⟨true, (s.sema sp).seq, base, nsems⟩ } id num c := by
      intro id num c names
      obtain ⟨k, found, small, place⟩ := names
      obtain ⟨rem, alloc, seq⟩ := semconv_eq_some.mp found
      have other : k ≠ sp := by
        rintro rfl
        exact nomatch unalloc.symm.trans alloc
      refine ⟨k, semconv_eq_some.mpr ⟨rem, ?_, ?_⟩, ?_, ?_⟩ <;> dsimp only <;> rw [there k other] <;>
        assumption
    have names_new : ∀ {id num c}, Sem.Names info { s.reset base (base + nsems) fun _ => 0 with
          sema := update s.sema sp ⟨true, (s.sema sp).seq, base, nsems⟩ } id num c →
        s.Names info id num c ∨ base ≤ c ∧ c < base + nsems ∧ ∀ c', ¬ s.Names info id num c' := by
      intro id num c names
      obtain ⟨k, found, small, place⟩ := names
      obtain ⟨rem, alloc, seq⟩ := semconv_eq_some.mp found
      dsimp only at alloc seq small place
      by_cases same : k = sp
      · right
        subst same
        rw [here] at small place
        dsimp only at small place
        refine ⟨by omega, by omega, ?_⟩
        rintro c' ⟨j, found', -, -⟩
        obtain ⟨rem', alloc', -⟩ := semconv_eq_some.mp found'
        rw [rem', ← rem, unalloc] at alloc'
        exact nomatch alloc'
      · left
        rw [there k same] at alloc seq small place
        exact ⟨k, semconv_eq_some.mpr ⟨rem, alloc, seq⟩, small, place⟩
    refine ⟨⟨kept.sound.undos, kept.sound.values⟩, ?_, ?_, ?_, ?_, kept.asleep⟩
    · intro p id num nonzero
      obtain ⟨c, names⟩ := kept.named p id num nonzero
      exact ⟨c, names_old names⟩
    · intro id num c names counted
      have inside : ∀ {c}, s.Names info id num c → ¬ (base ≤ c ∧ c < base + nsems) := by
        intro c names
        obtain ⟨k, -, has⟩ := names.has
        exact fresh_iff fits has
      unfold Sem.reset at counted ⊢
      dsimp only at counted ⊢
      rcases names_new names with names | ⟨low, high, unnamed⟩
      · rw [if_neg (inside names)] at counted ⊢
        exact kept.balance id num c names counted
      -- a new semaphore: no process can have an entry for it
      have zero : s.semval c = 0 := by
        apply kept.unused
        intro k has
        exact fresh_iff fits has ⟨low, high⟩
      have none : ∀ p ∈ Finset.range nproc, s.undos.adjust p id num = 0 := by
        intro p _
        by_contra nonzero
        obtain ⟨c', names'⟩ := kept.named p id num nonzero
        exact unnamed c' names'
      rw [if_pos ⟨low, high⟩, zero, Finset.sum_eq_zero none]
      rfl
    · intro k j c one other
      rcases (has_iff k c).mp one with first | ⟨rfl, new⟩
      · rcases (has_iff j c).mp other with second | ⟨rfl, new⟩
        · exact kept.disjoint k j c first second
        · exact absurd new (fresh_iff fits first)
      · rcases (has_iff j c).mp other with second | ⟨rfl, -⟩
        · exact absurd new (fresh_iff fits second)
        · rfl
    · intro c outside
      apply kept.unused
      intro k has
      exact outside k ((has_iff k c).mpr (.inl has))
  · exact nomatch taken

theorem Kept.same_sets (kept : Kept info nproc s) (sema : t.sema = s.sema) (sound : t.Sound info)
    (named : ∀ p i n, t.undos.adjust p i n ≠ 0 → s.undos.adjust p i n ≠ 0)
    (balance : ∀ i n c, s.Names info i n c → t.skipped c = false →
      t.semval c + ∑ p ∈ Finset.range nproc, t.undos.adjust p i n = t.net c)
    (unused : ∀ c, (∀ k, ¬ s.Has info k c) → t.semval c = 0)
    (asleep : ∀ p w, t.asleep p = some w → w.sp = w.semid % info.semmni) : Kept info nproc t := by
  have names_iff : ∀ i n c, t.Names info i n c ↔ s.Names info i n c := by
    intro i n c
    unfold Sem.Names semconv
    rw [sema]
  have has_iff : ∀ j c, t.Has info j c ↔ s.Has info j c := by
    intro j c
    unfold Sem.Has
    rw [sema]
  refine ⟨sound, fun p i n nonzero => ?_, fun i n c names => balance i n c ((names_iff i n c).mp names),
    ?_, ?_, asleep⟩
  · obtain ⟨c, names⟩ := kept.named p i n (named p i n nonzero)
    exact ⟨c, (names_iff i n c).mpr names⟩
  · intro k j c one other
    exact kept.disjoint k j c ((has_iff k c).mp one) ((has_iff j c).mp other)
  · exact fun c outside => unused c fun k has => outside k ((has_iff k c).mpr has)

/-- What semctl does: it clears the adjust values of the semaphores low to high of a set, whose
values are the new start. -/
structure SetTo (info : SemInfo) (s : Sem) (k id low high : Nat) (value : Nat → Int) (t : Sem) :
    Prop where
  found : semconv info s id = some k
  sema : t.sema = s.sema
  asleep : t.asleep = s.asleep
  undos : t.undos = semunrm info s.undos id low high
  semval : ∀ c, (t.semval c : Int) =
    if (s.sema k).sem_base + low ≤ c ∧ c ≤ (s.sema k).sem_base + high ∧ s.Has info k c then value c
    else s.semval c
  net : ∀ c, t.net c =
    if (s.sema k).sem_base + low ≤ c ∧ c ≤ (s.sema k).sem_base + high ∧ s.Has info k c then value c
    else s.net c
  skipped : ∀ c, t.skipped c =
    if (s.sema k).sem_base + low ≤ c ∧ c ≤ (s.sema k).sem_base + high ∧ s.Has info k c then false
    else s.skipped c
  fits : ∀ c, value c ≤ info.semvmx

theorem SetTo.kept {k : Nat} {value : Nat → Int} (set : SetTo info s k id low high value t)
    (kept : Kept info nproc s) : Kept info nproc t := by
  obtain ⟨free, active, ok⟩ := kept.sound.undos
  obtain ⟨⟨active', ok'⟩, adjust⟩ := semunrm_ok ok id low high
  rw [← set.undos] at ok' adjust
  -- the entries that go are those of the semaphores that are set
  have covers : ∀ {i n c}, s.Names info i n c → (i = id ∧ low ≤ n ∧ n ≤ high ↔
      (s.sema k).sem_base + low ≤ c ∧ c ≤ (s.sema k).sem_base + high ∧ s.Has info k c) := by
    intro i n c names
    obtain ⟨k', found', has'⟩ := names.has
    obtain ⟨j, here, small, rfl⟩ := names
    obtain rfl := Option.some.inj (here.symm.trans found')
    constructor
    · rintro ⟨rfl, above, below⟩
      obtain rfl := Option.some.inj (here.symm.trans set.found)
      exact ⟨by omega, by omega, has'⟩
    · rintro ⟨above, below, has⟩
      obtain rfl := kept.disjoint j k _ has' has
      exact ⟨semconv_inj here set.found, by omega, by omega⟩
  refine kept.same_sets set.sema ⟨⟨free, active', ok'⟩, ?_⟩ (fun p i n nonzero => ?_)
    (fun i n c names counted => ?_) (fun c outside => ?_) ?_
  · intro c
    have now := set.semval c
    have fits := set.fits c
    have before := kept.sound.values c
    split at now <;> omega
  · rw [adjust] at nonzero
    split at nonzero
    · exact absurd rfl nonzero
    · exact nonzero
  · rw [set.skipped] at counted
    rw [set.semval, set.net]
    simp only [adjust]
    by_cases mine : i = id ∧ low ≤ n ∧ n ≤ high
    · simp only [if_pos mine, if_pos ((covers names).mp mine), Finset.sum_const_zero, add_zero]
    · have off := mt (covers names).mpr mine
      rw [if_neg off] at counted
      simp only [if_neg mine, if_neg off]
      exact kept.balance i n c names counted
  · have now := set.semval c
    rw [if_neg fun all => outside k all.2.2] at now
    have zero := kept.unused c outside
    omega
  · rw [set.asleep]
    exact kept.asleep

theorem setval_kept {arg : Nat} (kept : Kept info nproc s)
    (taken : setval info s id num arg = some t) : Kept info nproc t := by
  obtain ⟨k, found, taken⟩ := Option.bind_eq_some_iff.mp taken
  dsimp only at taken
  split at taken
  · have vmx := info.vmx_le
    have one : ∀ c, ((s.sema k).sem_base + num ≤ c ∧ c ≤ (s.sema k).sem_base + num ∧ s.Has info k c) ↔
        c = (s.sema k).sem_base + num := by
      intro c
      constructor
      · rintro ⟨above, below, -⟩
        omega
      · rintro rfl
        exact ⟨le_refl _, le_refl _, semconv_has found (by omega) (by omega)⟩
    have range : ∀ c, ((s.sema k).sem_base + num ≤ c ∧ c < (s.sema k).sem_base + num + 1) ↔
        c = (s.sema k).sem_base + num := by omega
    refine SetTo.kept (?_ : SetTo info s k id num num (fun _ => arg) t) kept
    rw [← Option.some.inj taken]
    refine ⟨found, rfl, rfl, rfl, fun c => ?_, fun c => ?_, fun c => ?_, fun _ => by omega⟩
    · dsimp only
      rw [if_congr (one c) rfl rfl, update_apply]
      split
      · exact toUshort_eq (by omega) (by omega)
      · rfl
    · unfold Sem.reset
      dsimp only
      rw [if_congr (one c) rfl rfl, if_congr (range c) rfl rfl]
    · unfold Sem.reset
      dsimp only
      rw [if_congr (one c) rfl rfl, if_congr (range c) rfl rfl]
  · exact nomatch taken

theorem setall_copied_kept {semvals : List Nat} (kept : Kept info nproc s)
    (found : semconv info s id = some k) : Kept info nproc (setall_copied info s id k semvals) := by
  unfold setall_copied
  split
  · rename_i valid
    have all : ∀ c, ((s.sema k).sem_base + 0 ≤ c ∧
        c ≤ (s.sema k).sem_base + (s.sema k).sem_nsems ∧ s.Has info k c) ↔
        (s.sema k).sem_base ≤ c ∧ c < (s.sema k).sem_base + (s.sema k).sem_nsems := by
      intro c
      constructor
      · rintro ⟨-, -, has⟩
        exact ⟨has.2.2.1, has.2.2.2⟩
      · rintro ⟨above, below⟩
        exact ⟨above, le_of_lt below, semconv_has found above below⟩
    have fits : ∀ i, semvals.getD i 0 ≤ info.semvmx := by
      intro i
      by_cases inside : i < semvals.length
      · rw [getD_eq_getElem _ _ inside]
        exact valid _ (getElem_mem inside)
      · rw [getD_eq_default _ _ (not_lt.mp inside)]
        exact zero_le _
    refine SetTo.kept (?_ : SetTo info s k id 0 (s.sema k).sem_nsems
      (fun c => semvals.getD (c - (s.sema k).sem_base) 0) _) kept
    refine ⟨found, rfl, rfl, rfl, fun c => ?_, fun c => ?_, fun c => ?_,
      fun _ => Int.ofNat_le.mpr (fits _)⟩
    · dsimp only
      rw [if_congr (all c) rfl rfl]
      split <;> rfl
    · unfold Sem.reset
      rw [if_congr (all c) rfl rfl]
    · unfold Sem.reset
      rw [if_congr (all c) rfl rfl]
  · exact kept

theorem rmid_kept (kept : Kept info nproc s) (taken : rmid info s id = some t) :
    Kept info nproc t := by
  obtain ⟨k, found, rfl⟩ := Option.map_eq_some_iff.mp taken
  obtain ⟨free, active, ok⟩ := kept.sound.undos
  obtain ⟨⟨active', ok'⟩, adjust⟩ := semunrm_ok ok id 0 (s.sema k).sem_nsems
  dsimp only
  generalize removed : (if INT16_MAX < id + info.semmni then 0 else (s.sema k).seq + 1) = seq
  have here : update s.sema k { s.sema k with alloc := false, seq := seq } k =
      { s.sema k with alloc := false, seq := seq } := update_self ..
  have there : ∀ j, j ≠ k →
      update s.sema k { s.sema k with alloc := false, seq := seq } j = s.sema j :=
    fun j other => update_of_ne other ..
  -- the sets that are left
  have has_iff : ∀ j c, Sem.Has info { s with
      undos := semunrm info s.undos id 0 (s.sema k).sem_nsems
      semval := fun c => if (s.sema k).sem_base ≤ c ∧ c < (s.sema k).sem_base + (s.sema k).sem_nsems
        then 0 else s.semval c
      sema := update s.sema k { s.sema k with alloc := false, seq := seq } } j c ↔
      j ≠ k ∧ s.Has info j c := by
    intro j c
    unfold Sem.Has
    dsimp only
    by_cases same : j = k
    · subst same
      rw [here]
      simp
    · rw [there j same]
      simp [same]
  have names_iff : ∀ i n c, Sem.Names info { s with
      undos := semunrm info s.undos id 0 (s.sema k).sem_nsems
      semval := fun c => if (s.sema k).sem_base ≤ c ∧ c < (s.sema k).sem_base + (s.sema k).sem_nsems
        then 0 else s.semval c
      sema := update s.sema k { s.sema k with alloc := false, seq := seq } } i n c ↔
      i ≠ id ∧ s.Names info i n c := by
    intro i n c
    unfold Sem.Names
    simp only [semconv_eq_some]
    constructor
    · rintro ⟨j, ⟨rem, alloc, number⟩, small, place⟩
      have other : j ≠ k := by
        rintro rfl
        rw [here] at alloc
        exact nomatch alloc
      rw [there j other] at alloc number small place
      refine ⟨?_, j, ⟨rem, alloc, number⟩, small, place⟩
      rintro rfl
      exact other (rem.trans (semconv_eq_some.mp found).1.symm)
    · rintro ⟨differs, j, ⟨rem, alloc, number⟩, small, place⟩
      have other : j ≠ k := by
        rintro rfl
        exact differs (semconv_inj (semconv_eq_some.mpr ⟨rem, alloc, number⟩) found)
      refine ⟨j, ?_⟩
      rw [there j other]
      exact ⟨⟨rem, alloc, number⟩, small, place⟩
  have not_in : ∀ {j c}, j ≠ k → s.Has info j c →
      ¬ ((s.sema k).sem_base ≤ c ∧ c < (s.sema k).sem_base + (s.sema k).sem_nsems) := by
    rintro j c other has ⟨above, below⟩
    exact other (kept.disjoint j k c has (semconv_has found above below))
  refine ⟨⟨⟨free, active', ok'⟩, ?_⟩, ?_, ?_, ?_, ?_, kept.asleep⟩
  · intro c
    have := kept.sound.values c
    dsimp only
    split <;> omega
  · intro p i n nonzero
    rw [adjust] at nonzero
    split at nonzero
    · exact absurd rfl nonzero
    · rename_i stays
      obtain ⟨c, names⟩ := kept.named p i n nonzero
      refine ⟨c, (names_iff i n c).mpr ⟨?_, names⟩⟩
      rintro rfl
      obtain ⟨j, found', small, -⟩ := names
      obtain rfl := Option.some.inj (found'.symm.trans found)
      exact stays ⟨rfl, zero_le _, le_of_lt small⟩
  · intro i n c names counted
    obtain ⟨other, names⟩ := (names_iff i n c).mp names
    obtain ⟨j, found', has⟩ := names.has
    have apart : j ≠ k := by
      rintro rfl
      exact other (semconv_inj found' found)
    simp only [adjust, if_neg (not_in apart has), other, false_and, if_false]
    exact kept.balance i n c names counted
  · intro j j' c one other
    exact kept.disjoint j j' c ((has_iff j c).mp one).2 ((has_iff j' c).mp other).2
  · intro c outside
    dsimp only
    split
    · rfl
    · rename_i off
      apply kept.unused
      intro j has
      refine outside j ((has_iff j c).mpr ⟨?_, has⟩)
      rintro rfl
      exact off has.2.2

/-! semexit -/

def place (info : SemInfo) (s : Sem) (e : Undo) : Option Nat :=
  (semconv info s e.un_id).map fun k => (s.sema k).sem_base + e.un_num

def due (info : SemInfo) (s : Sem) (c : Nat) (ents : List Undo) : Int :=
  (ents.map fun e => if place info s e = some c then e.un_aoe else 0).sum

/-- The adjustments are made, but for those that are skipped. -/
structure Adjusted (info : SemInfo) (s : Sem) (ents : List Undo) (t : Sem) : Prop where
  sema : t.sema = s.sema
  undos : t.undos = s.undos
  asleep : t.asleep = s.asleep
  net : t.net = s.net
  values : ∀ c, t.semval c ≤ info.semvmx
  counted : ∀ c, t.skipped c = false →
    s.skipped c = false ∧ (t.semval c : Int) = s.semval c + due info s c ents
  others : ∀ c, (∀ e ∈ ents, place info s e ≠ some c) → t.semval c = s.semval c

theorem Adjusted.place_eq (adjusted : Adjusted info s ents t) :
    place info t e = place info s e := by
  unfold place semconv
  rw [adjusted.sema]

theorem semexit_one_ok (adjusted : Adjusted info s ents t) :
    Adjusted info s (e :: ents) (semexit_one info t e) := by
  have same : place info t e = place info s e := adjusted.place_eq
  have cons : ∀ c, due info s c (e :: ents) =
      (if place info s e = some c then e.un_aoe else 0) + due info s c ents :=
    fun c => sum_cons
  have vmx := info.vmx_le
  unfold semexit_one
  unfold place at same
  cases found : semconv info t e.un_id with
  | none =>
    rw [found] at same
    have off : place info s e = none := same.symm
    refine { adjusted with counted := ?_, others := ?_ }
    · intro c zero
      rw [cons, off, if_neg nofun, zero_add]
      exact adjusted.counted c zero
    · intro c away
      exact adjusted.others c fun f mem => away f (mem_cons_of_mem _ mem)
  | some k =>
    rw [found] at same
    have spot : place info s e = some ((t.sema k).sem_base + e.un_num) := same.symm
    dsimp only
    split
    · -- skipped
      refine { adjusted with counted := ?_, others := ?_ }
      · intro c zero
        dsimp only at zero
        have other : c ≠ (t.sema k).sem_base + e.un_num := by
          rintro rfl
          rw [update_self] at zero
          exact nomatch zero
        rw [update_of_ne other] at zero
        have differs : place info s e ≠ some c := fun here =>
          other (Option.some.inj (here.symm.trans spot))
        rw [cons, if_neg differs, zero_add]
        exact adjusted.counted c zero
      · intro c away
        exact adjusted.others c fun f mem => away f (mem_cons_of_mem _ mem)
    · have value : ∀ c, ((update t.semval ((t.sema k).sem_base + e.un_num)
          (toUshort (t.semval ((t.sema k).sem_base + e.un_num) + e.un_aoe)) c : Nat) : Int) =
          t.semval c + if place info s e = some c then e.un_aoe else 0 := by
        intro c
        rw [spot, update_apply]
        by_cases here : c = (t.sema k).sem_base + e.un_num
        · rw [if_pos here, if_pos (congrArg some here.symm), toUshort_eq (by omega) (by omega), here]
        · rw [if_neg here, if_neg fun eq => here (Option.some.inj eq).symm, add_zero]
      refine { adjusted with values := ?_, counted := ?_, others := ?_ }
      · intro c
        dsimp only
        rw [update_apply]
        split
        · have fitting := value ((t.sema k).sem_base + e.un_num)
          rw [update_self, if_pos spot] at fitting
          omega
        · exact adjusted.values c
      · intro c zero
        obtain ⟨before, now⟩ := adjusted.counted c zero
        refine ⟨before, ?_⟩
        rw [value, cons, now]
        omega
      · intro c away
        have differs := away e mem_cons_self
        have now := value c
        rw [if_neg differs, add_zero] at now
        have before := adjusted.others c fun f mem => away f (mem_cons_of_mem _ mem)
        dsimp only
        omega

theorem semexit_loop_ok (sound : s.Sound info) (ents : List Undo) :
    Adjusted info s ents (semexit_loop info s ents) := by
  induction ents with
  | nil =>
    refine ⟨rfl, rfl, rfl, rfl, sound.values, ?_, fun _ _ => rfl⟩
    intro c zero
    exact ⟨zero, (add_zero _).symm⟩
  | cons e ents ih => exact semexit_one_ok ih

theorem Kept.due_eq (kept : Kept info nproc s) (names : s.Names info id num c)
    (named : ∀ e ∈ ents, ∃ c, s.Names info e.un_id e.un_num c) :
    due info s c ents = adjustment id num ents := by
  unfold due adjustment
  congr 1
  apply map_congr_left
  intro e mem
  obtain ⟨d, there⟩ := named e mem
  have place_e : place info s e = some d := by
    obtain ⟨k, found, -, rfl⟩ := there
    unfold place
    rw [found]
    rfl
  refine if_congr ?_ rfl rfl
  rw [place_e]
  constructor
  · intro same
    obtain rfl := Option.some.inj same
    obtain ⟨rfl, rfl⟩ := kept.names_inj names there
    exact ⟨rfl, rfl⟩
  · rintro ⟨rfl, rfl⟩
    obtain ⟨k, found, -, rfl⟩ := names
    obtain ⟨j, found', -, rfl⟩ := there
    obtain rfl := Option.some.inj (found.symm.trans found')
    rfl

theorem sum_adjust {f g : Nat → Int} {d : Int} (inside : slot < nproc)
    (change : ∀ p, g p = f p - if p = slot then d else 0) :
    ∑ p ∈ Finset.range nproc, g p = ∑ p ∈ Finset.range nproc, f p - d := by
  have each : ∀ p ∈ Finset.range nproc, g p = f p - if p = slot then d else 0 := fun p _ => change p
  rw [Finset.sum_congr rfl each, Finset.sum_sub_distrib, Finset.sum_ite_eq',
    if_pos (Finset.mem_range.mpr inside)]

theorem semexit_kept (kept : Kept info nproc s) (inside : slot < nproc) :
    Kept info nproc (semexit info s slot) := by
  unfold semexit
  obtain ⟨free, active, ok⟩ := kept.sound.undos
  cases here : s.undos.sem_undo slot with
  | none => exact kept
  | some x =>
    have adjusted := semexit_loop_ok kept.sound (s.undos.un_ent x)
    obtain ⟨⟨active', ok'⟩, adjust⟩ := release_ok ok here
    have named : ∀ e ∈ s.undos.un_ent x, ∃ c, s.Names info e.un_id e.un_num c := kept.books.named x
    dsimp only
    generalize semexit_loop info s (s.undos.un_ent x) = t at adjusted ⊢
    refine kept.same_sets adjusted.sema ⟨⟨_, active', ok'⟩, adjusted.values⟩
      (fun p i n nonzero => ?_) (fun i n c names counted => ?_) (fun c outside => ?_) ?_
    · rw [adjust] at nonzero
      split at nonzero
      · exact absurd rfl nonzero
      · exact nonzero
    · obtain ⟨before, now⟩ := adjusted.counted c counted
      have old := kept.balance i n c names before
      have moved : ∀ p, (s.undos.release info slot x).adjust p i n =
          s.undos.adjust p i n - if p = slot then adjustment i n (s.undos.un_ent x) else 0 := by
        intro p
        rw [adjust]
        by_cases same : p = slot
        · rw [if_pos same, if_pos same, same, adjust_attached here, sub_self]
        · rw [if_neg same, if_neg same, sub_zero]
      rw [sum_adjust inside moved, now, kept.due_eq names named, adjusted.net]
      omega
    · have away : ∀ e ∈ s.undos.un_ent x, place info s e ≠ some c := by
        intro e mem here'
        obtain ⟨d, there⟩ := named e mem
        obtain ⟨k, -, has⟩ := there.has
        obtain ⟨j, found, -, rfl⟩ := there
        unfold place at here'
        rw [found] at here'
        obtain rfl := Option.some.inj here'
        exact outside k has
      rw [adjusted.others c away]
      exact kept.unused c outside
    · rw [adjusted.asleep]
      exact kept.asleep

/-! semop -/

theorem sum_ops_outside (within : ∀ op ∈ ops, op.sem_num < nsems) (beyond : nsems ≤ num) :
    sum_ops num ops = 0 := by
  apply sum_eq_zero
  intro v mem
  obtain ⟨op, listed, rfl⟩ := mem_map.mp mem
  have small := within op listed
  rw [if_neg (by omega)]

theorem sum_undo_outside (within : ∀ op ∈ ops, op.sem_num < nsems) (beyond : nsems ≤ num) :
    sum_undo num ops = 0 := by
  apply sum_eq_zero
  intro v mem
  obtain ⟨op, listed, rfl⟩ := mem_map.mp mem
  have small := within op listed
  rw [if_neg (by omega)]

theorem Kept.like (kept : Kept info nproc s) (sound : t.Sound info) (sema : t.sema = s.sema)
    (semval : t.semval = s.semval) (adjust : ∀ p i n, t.undos.adjust p i n = s.undos.adjust p i n)
    (net : t.net = s.net) (skipped : t.skipped = s.skipped)
    (asleep : ∀ p w, t.asleep p = some w → w.sp = w.semid % info.semmni) : Kept info nproc t := by
  refine kept.same_sets sema sound (fun p i n nonzero => ?_) (fun i n c names counted => ?_)
    (fun c outside => ?_) asleep
  · rwa [adjust] at nonzero
  · simp only [adjust]
    rw [semval, net]
    exact kept.balance i n c names (skipped ▸ counted)
  · rw [semval]
    exact kept.unused c outside

theorem wake_kept (kept : Kept info nproc s) (slot : Nat) : Kept info nproc (s.wake slot) := by
  refine kept.like ⟨kept.sound.undos, kept.sound.values⟩ rfl rfl (fun _ _ _ => rfl) rfl rfl ?_
  intro p w sleeps
  unfold Sem.wake at sleeps
  dsimp only at sleeps
  rw [update_apply] at sleeps
  split at sleeps
  · cases sleeps
  · exact kept.asleep p w sleeps

theorem rest_kept {w : Sleeper} (kept : Kept info nproc s) (slot : Nat)
    (index : w.sp = w.semid % info.semmni) : Kept info nproc (s.rest slot w) := by
  refine kept.like ⟨kept.sound.undos, kept.sound.values⟩ rfl rfl (fun _ _ _ => rfl) rfl rfl ?_
  intro p w' sleeps
  unfold Sem.rest at sleeps
  dsimp only at sleeps
  rw [update_apply] at sleeps
  split at sleeps
  · obtain rfl := Option.some.inj sleeps
    exact index
  · exact kept.asleep p w' sleeps

theorem semop_check_kept (kept : Kept info nproc s) (found : semconv info s id = some k)
    (within : ∀ op ∈ ops, op.sem_num < (s.sema k).sem_nsems) (inside : slot < nproc) :
    Kept info nproc (semop_check info s slot id k ops).2 := by
  obtain ⟨sound, frame, failed, performed⟩ := semop_pass_ok kept.sound slot id (s.sema k).sem_base ops
  unfold semop_check
  rcases result : semop_pass info s slot id (s.sema k).sem_base ops with ⟨out, t⟩
  rw [result] at sound frame failed performed
  dsimp only at sound frame failed performed
  cases out with
  | error e =>
    have same := failed nofun
    exact kept.like sound frame.sema same.semval same.adjust frame.net frame.skipped
      fun p w sleeps => kept.asleep p w (frame.asleep ▸ sleeps)
  | sleep =>
    have same := failed nofun
    refine rest_kept (kept.like sound frame.sema same.semval same.adjust frame.net frame.skipped ?_)
      slot (semconv_eq_some.mp found).1
    exact fun p w sleeps => kept.asleep p w (frame.asleep ▸ sleeps)
  | done =>
    have all := performed rfl
    have names_iff : ∀ i n c, (t.account (s.sema k).sem_base ops).Names info i n c ↔
        s.Names info i n c := by
      intro i n c
      unfold Sem.Names semconv Sem.account
      rw [frame.sema]
    have has_iff : ∀ j c, (t.account (s.sema k).sem_base ops).Has info j c ↔ s.Has info j c := by
      intro j c
      unfold Sem.Has Sem.account
      rw [frame.sema]
    have off : ∀ c, ¬ s.Has info k c → (s.sema k).sem_base ≤ c →
        (s.sema k).sem_nsems ≤ c - (s.sema k).sem_base := by
      intro c away above
      by_contra below
      exact away (semconv_has found above (by omega))
    refine ⟨{ sound with }, ?_, ?_, ?_, ?_, ?_⟩
    · intro p i n nonzero
      change t.undos.adjust p i n ≠ 0 at nonzero
      rw [all.adjust] at nonzero
      by_cases before : s.undos.adjust p i n = 0
      · -- a new entry
        have mine : p = slot ∧ i = id := by
          by_contra other
          rw [if_neg other, before] at nonzero
          exact nonzero rfl
        obtain ⟨rfl, rfl⟩ := mine
        have small : n < (s.sema k).sem_nsems := by
          by_contra beyond
          rw [before, sum_undo_outside within (not_lt.mp beyond)] at nonzero
          exact nonzero (by simp)
        exact ⟨_, (names_iff i n _).mpr ⟨k, found, small, rfl⟩⟩
      · obtain ⟨c, names⟩ := kept.named p i n before
        exact ⟨c, (names_iff i n c).mpr names⟩
    · intro i n c names counted
      rw [names_iff] at names
      change t.skipped c = false at counted
      rw [frame.skipped] at counted
      have old := kept.balance i n c names counted
      have moved : ∀ p, t.undos.adjust p i n =
          s.undos.adjust p i n - if p = slot then (if i = id then sum_undo n ops else 0) else 0 := by
        intro p
        rw [all.adjust]
        by_cases same : p = slot <;> simp [same]
      change (t.semval c : Int) + ∑ p ∈ Finset.range nproc, t.undos.adjust p i n =
        if (s.sema k).sem_base ≤ c then
          t.net c + (sum_ops (c - (s.sema k).sem_base) ops - sum_undo (c - (s.sema k).sem_base) ops)
        else t.net c
      rw [sum_adjust inside moved, frame.net, ← old]
      by_cases mine : i = id
      · subst mine
        obtain ⟨j, found', small, rfl⟩ := names
        obtain rfl := Option.some.inj (found'.symm.trans found)
        rw [if_pos rfl, if_pos (Nat.le_add_right _ n), all.semval, Nat.add_sub_cancel_left]
        omega
      rw [if_neg mine]
      have away : ¬ s.Has info k c := by
        intro has
        obtain ⟨j, found', has'⟩ := names.has
        obtain rfl := kept.disjoint j k c has' has
        exact mine (semconv_inj found' found)
      by_cases above : (s.sema k).sem_base ≤ c
      · have far := off c away above
        have value := all.semval (c - (s.sema k).sem_base)
        rw [sum_ops_outside within far, Nat.add_sub_cancel' above] at value
        rw [if_pos above, sum_ops_outside within far, sum_undo_outside within far]
        omega
      · rw [if_neg above, all.others c (not_le.mp above), sub_zero]
    · intro j j' c one other
      exact kept.disjoint j j' c ((has_iff j c).mp one) ((has_iff j' c).mp other)
    · intro c outside
      have zero := kept.unused c fun j has => outside j ((has_iff j c).mpr has)
      change t.semval c = 0
      by_cases above : (s.sema k).sem_base ≤ c
      · have far := off c (fun has => outside k ((has_iff k c).mpr has)) above
        have value := all.semval (c - (s.sema k).sem_base)
        rw [sum_ops_outside within far, Nat.add_sub_cancel' above] at value
        omega
      · rw [all.others c (not_le.mp above), zero]
    · change ∀ p w, t.asleep p = some w → w.sp = w.semid % info.semmni
      rw [frame.asleep]
      exact kept.asleep

theorem verify_none {sp : SemidDs} (passes : verify sp alter read ops = none) :
    ∀ op ∈ ops, op.sem_num < sp.sem_nsems := by
  induction ops with
  | nil =>
    intro op mem
    exact nomatch mem
  | cons op ops ih =>
    unfold verify at passes
    by_cases denied : (if op.sem_op = 0 then read else alter) = false
    · rw [if_pos denied] at passes
      exact nomatch passes
    rw [if_neg denied] at passes
    by_cases large : sp.sem_nsems ≤ op.sem_num
    · rw [if_pos large] at passes
      exact nomatch passes
    · rw [if_neg large] at passes
      intro op' mem
      rcases mem_cons.mp mem with rfl | mem
      · exact not_le.mp large
      · exact ih passes op' mem

theorem semop_kept (kept : Kept info nproc s) (slot id nsops : Nat) :
    Kept info nproc (semop info s slot id nsops).2 := by
  unfold semop
  cases found : semconv info s id with
  | none => exact kept
  | some k =>
    dsimp only
    split
    · exact kept
    · exact rest_kept kept slot (semconv_eq_some.mp found).1

theorem semop_copied_kept (kept : Kept info nproc s) (found : semconv info s id = some k)
    (inside : slot < nproc) :
    Kept info nproc (semop_copied info s slot id k ops alter read).2 := by
  unfold semop_copied
  cases checked : verify (s.sema k) alter read ops with
  | some e => exact kept
  | none => exact semop_check_kept kept found (verify_none checked) inside

theorem semop_again_kept {w : Sleeper} (kept : Kept info nproc s) (slot : Nat)
    (index : w.sp = w.semid % info.semmni) : Kept info nproc (semop_again info s slot w).2 := by
  unfold semop_again
  cases semconv info s w.semid with
  | none => exact kept
  | some k => exact rest_kept kept slot index

/-! Runs -/

theorem step_kept {l : Label} (kept : Kept info nproc s) (guard : InRange info s l)
    (taken : step info nproc s l = some t) : Kept info nproc t := by
  cases l with
  | semget sp nsems base => exact semget_kept kept taken
  | setval id num arg => exact setval_kept kept taken
  | setall slot id =>
    obtain ⟨-, taken⟩ := Option.ite_none_right_eq_some.mp taken
    obtain ⟨k, found, rfl⟩ := Option.map_eq_some_iff.mp taken
    exact rest_kept kept slot (semconv_eq_some.mp found).1
  | stored slot semvals =>
    obtain ⟨w, sleeps, taken⟩ := Option.bind_eq_some_iff.mp taken
    obtain ⟨-, taken⟩ := Option.ite_none_right_eq_some.mp taken
    obtain rfl := Option.some.inj taken
    exact setall_copied_kept (wake_kept kept slot) (guard w sleeps)
  | rmid id => exact rmid_kept kept taken
  | semop slot id nsops =>
    obtain ⟨-, taken⟩ := Option.ite_none_right_eq_some.mp taken
    obtain rfl := Option.some.inj taken
    exact semop_kept kept slot id nsops
  | copied slot ops alter read =>
    obtain ⟨w, sleeps, taken⟩ := Option.bind_eq_some_iff.mp taken
    obtain ⟨⟨inside, -⟩, taken⟩ := Option.ite_none_right_eq_some.mp taken
    obtain ⟨found, within⟩ := guard w sleeps
    cases place : w.place with
    | first =>
      rw [place] at taken
      obtain rfl := Option.some.inj taken
      exact semop_copied_kept (wake_kept kept slot) found inside
    | again =>
      rw [place] at taken
      obtain rfl := Option.some.inj taken
      exact semop_check_kept (wake_kept kept slot) found (within place) inside
    | waits =>
      rw [place] at taken
      cases taken
    | setall =>
      rw [place] at taken
      cases taken
  | again slot =>
    obtain ⟨w, sleeps, taken⟩ := Option.bind_eq_some_iff.mp taken
    obtain ⟨-, taken⟩ := Option.ite_none_right_eq_some.mp taken
    obtain rfl := Option.some.inj taken
    exact semop_again_kept (wake_kept kept slot) slot (kept.asleep slot w sleeps)
  | leave slot =>
    obtain ⟨w, -, rfl⟩ := Option.map_eq_some_iff.mp taken
    exact wake_kept kept slot
  | semexit slot =>
    obtain ⟨⟨inside, -⟩, taken⟩ := Option.ite_none_right_eq_some.mp taken
    obtain rfl := Option.some.inj taken
    exact semexit_kept kept inside

/-- The books are in order after every run in which copyin finds the sets as they were checked. -/
theorem undo_books (info : SemInfo) (nproc : Nat) {ls : List Label}
    (guarded : Guarded (step info nproc) (InRange info) (start info) ls)
    (run : exec (step info nproc) (start info) ls = some t) : UndoBooks info nproc t :=
  (exec_invariant (Kept info nproc) (fun _ _ _ => step_kept) (start_kept info nproc) guarded run).books

instance (s : Sem) : ∀ l, Decidable (InRange info s l)
  | .stored slot _ =>
      inferInstanceAs (Decidable (∀ w ∈ s.asleep slot, semconv info s w.semid = some w.sp))
  | .copied slot ops _ _ =>
      inferInstanceAs (Decidable (∀ w ∈ s.asleep slot, semconv info s w.semid = some w.sp ∧
        (w.place = .again → ∀ op ∈ ops, op.sem_num < (s.sema w.sp).sem_nsems)))
  | .semget .. | .setval .. | .setall .. | .rmid .. | .semop .. | .again .. | .leave ..
  | .semexit .. => inferInstanceAs (Decidable True)

def turns (num : Nat) : List Label :=
  [.semget 0 2 0, .setall 1 0, .stored 1 [0, 0], .semop 0 0 1,
    .copied 0 [⟨0, -1, false, false, short_minus_one⟩] true true, .again 0,
    .copied 0 [⟨num, 1, true, false, short_one⟩] true true]

theorem undo_books_turns : ∃ t, exec (step mtune 1) (start mtune) (turns 1) = some t ∧
    t.undos.un_ent 0 = [⟨-1, 1, 0⟩] ∧ UndoBooks mtune 1 t := by
  have final : (exec (step mtune 1) (start mtune) (turns 1)).map (fun t => t.undos.un_ent 0) =
      some [⟨-1, 1, 0⟩] := by decide +kernel
  obtain ⟨t, run, entry⟩ := Option.map_eq_some_iff.mp final
  exact ⟨t, run, entry, undo_books mtune 1 (by decide +kernel) run⟩

/-- The set is removed while copyin waits for a page. -/
def removed : List Label :=
  [.semget 0 2 0, .semop 0 0 1, .rmid 0, .semget 0 2 0,
    .copied 0 [⟨1, 1, true, false, short_one⟩] true true]

/-- The number is not checked again, and an entry names a semaphore the set does not have; nor is
the set, and an entry names one that is gone. -/
theorem entry_names_nothing :
    (∃ t, exec (step mtune 1) (start mtune) (turns 5) = some t ∧ ¬ UndoBooks mtune 1 t) ∧
      ∃ t, exec (step mtune 1) (start mtune) removed = some t ∧ ¬ UndoBooks mtune 1 t := by
  constructor
  · have final : (exec (step mtune 1) (start mtune) (turns 5)).map
        (fun t => (t.undos.un_ent 0, (t.sema 0).sem_nsems)) = some ([⟨-1, 5, 0⟩], 2) := by
      decide +kernel
    obtain ⟨t, run, result⟩ := Option.map_eq_some_iff.mp final
    obtain ⟨entry, small⟩ := Prod.mk.inj result
    refine ⟨t, run, fun books => ?_⟩
    obtain ⟨c, k, found, inside, -⟩ := books.named 0 ⟨-1, 5, 0⟩ (entry ▸ mem_singleton_self _)
    obtain rfl : k = 0 := (semconv_eq_some.mp found).1
    rw [small] at inside
    exact absurd inside (by decide)
  · have final : (exec (step mtune 1) (start mtune) removed).map
        (fun t => (t.undos.un_ent 0, semconv mtune t 0)) = some ([⟨-1, 1, 0⟩], none) := by
      decide +kernel
    obtain ⟨t, run, result⟩ := Option.map_eq_some_iff.mp final
    obtain ⟨entry, gone⟩ := Prod.mk.inj result
    refine ⟨t, run, fun books => ?_⟩
    obtain ⟨c, k, found, -⟩ := books.named 0 ⟨-1, 1, 0⟩ (entry ▸ mem_singleton_self _)
    cases gone.symm.trans found

/-- Every value is one that semctl could set, no two sets share a semaphore, and what belongs to no
set is 0. -/
theorem values_kept (info : SemInfo) (nproc : Nat) {ls : List Label}
    (guarded : Guarded (step info nproc) (InRange info) (start info) ls)
    (run : exec (step info nproc) (start info) ls = some t) :
    (∀ c, t.semval c ≤ info.semvmx) ∧ (∀ k j c, t.Has info k c → t.Has info j c → k = j) ∧
      (∀ c, (∀ k, ¬ t.Has info k c) → t.semval c = 0) := by
  have kept := exec_invariant (Kept info nproc) (fun _ _ _ => step_kept) (start_kept info nproc)
    guarded run
  exact ⟨kept.sound.values, kept.disjoint, kept.unused⟩

theorem values_kept_turns : ∃ t, exec (step mtune 1) (start mtune) (turns 1) = some t ∧
    ∀ c, t.semval c ≤ 32767 := by
  have made : (exec (step mtune 1) (start mtune) (turns 1)).isSome = true := by decide +kernel
  obtain ⟨t, run⟩ := Option.isSome_iff_exists.mp made
  exact ⟨t, run, (values_kept mtune 1 (by decide +kernel) run).1⟩

end Semaphores
