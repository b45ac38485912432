import Mathlib.Algebra.Group.Nat.Defs
import Mathlib.Data.List.Basic

/- page_get_aligned of vm_page.c, called without P_CANWAIT. Page structures are numbered
   by their place in memory; a chunk of the pool is a row of them. -/
namespace AlignedPages

structure Pageac where
  num : Nat
  firstpfn : Nat
  firstpp : Nat

def Pageac.endpp (pap : Pageac) : Nat := pap.firstpp + pap.num

structure Pool where
  pageahead : List Pageac
  p_free : Nat → Bool
  freemem : Nat
  dma_freemem : Nat
  max_page_get : Nat
  dma_max_page_get : Nat
  minpagefree : Nat
  dma_check_on : Bool
  dma_limit_pp : Nat

structure Flags where
  P_DMA : Bool
  P_NORESOURCELIM : Bool

def btopr (bytes : Nat) : Nat := (bytes + 4095) % 2 ^ 32 / 4096

def PAGNUM (x : Nat) : Nat := x / 4096

/-- A page outside the pool is a panic. -/
def page_pptonum (s : Pool) (pp : Nat) : Option Nat :=
  (s.pageahead.find? fun pap => pap.firstpp ≤ pp ∧ pp < pap.endpp).map
    fun pap => pap.firstpfn + (pp - pap.firstpp)

def ALIGNED_PP (s : Pool) (align_mask align_val pp : Nat) : Bool :=
  (page_pptonum s pp).any fun pfn => pfn &&& PAGNUM align_mask = PAGNUM align_val

def DMA_PP (s : Pool) (pp : Nat) : Bool := pp ≤ s.dma_limit_pp

def dmacheck (s : Pool) (flags : Flags) : Bool := s.dma_check_on && flags.P_DMA

section Scan
variable (p_free aligned : Nat → Bool)

/-- The inner loop, where `n` pages are wanted: `ok` is `goto found_pages`, and otherwise
    the loop is left at the page that does not go on the run. -/
def extend : Nat → Nat → Except Nat Nat
  | 0, pp => .ok pp
  | n + 1, pp =>
    if !aligned pp then .error pp
    else if n = 0 then .ok (pp + 1)
    else if p_free (pp + 1) then extend n (pp + 1)
    else .error (pp + 1)

/-- The loop over the pages of a chunk; each turn moves `pp` on. -/
def scan (dmaable : Nat → Bool) (npages endpp : Nat) : Nat → Nat → Option Nat
  | 0, _ => none
  | turns + 1, pp =>
    if endpp < pp + npages then none
    else if !p_free pp then scan dmaable npages endpp turns (pp + 1)
    else if !dmaable (pp + npages - 1) then none
    else match extend p_free aligned npages pp with
      | .ok pp => some pp
      | .error pp => scan dmaable npages endpp turns (pp + 1)

end Scan

/-- The smallest request that is refused. -/
def limit (s : Pool) (flags : Flags) : Nat :=
  if dmacheck s flags then s.dma_max_page_get else s.max_page_get

def available (s : Pool) (flags : Flags) : Nat :=
  if dmacheck s flags then s.dma_freemem else s.freemem

def reqfree (s : Pool) (npages : Nat) (flags : Flags) (sched : Bool) : Nat :=
  if flags.P_NORESOURCELIM || sched then npages else npages + s.minpagefree

def take (s : Pool) (npages : Nat) (flags : Flags) (pp : Nat) : Pool :=
  { s with
    freemem := s.freemem - npages
    dma_freemem := if dmacheck s flags then s.dma_freemem - npages else s.dma_freemem
    p_free := fun q => s.p_free q && !decide (pp ≤ q ∧ q < pp + npages) }

/-- The first page and the pool behind the call, or NULL. `sched` is curproc == proc_sched. -/
def page_get_aligned (s : Pool) (bytes align_mask align_val : Nat) (flags : Flags) (sched : Bool) :
    Option (Nat × Pool) :=
  let npages := btopr bytes
  if limit s flags ≤ npages then none
  else if available s flags < reqfree s npages flags sched then none
  else
    let found := s.pageahead.findSome? fun pap =>
      scan s.p_free (ALIGNED_PP s align_mask align_val) (fun pp => !dmacheck s flags || DMA_PP s pp)
        npages pap.endpp (pap.num + 1) pap.firstpp
    found.map fun pp => (pp - npages, take s npages flags (pp - npages))

/-- What a request is for: free pages in a row in one chunk, the first of them aligned and
    the last one DMA-able where that is asked for. -/
structure Run (s : Pool) (npages align_mask align_val : Nat) (flags : Flags) (pp : Nat) : Prop where
  chunk : ∃ pap ∈ s.pageahead, pap.firstpp ≤ pp ∧ pp + npages ≤ pap.endpp
  free : ∀ i < npages, s.p_free (pp + i) = true
  aligned : ALIGNED_PP s align_mask align_val pp = true
  dma : dmacheck s flags = true → DMA_PP s (pp + npages - 1) = true

def Satisfied (s : Pool) (bytes align_mask align_val : Nat) (flags : Flags) (sched : Bool) : Prop :=
  match page_get_aligned s bytes align_mask align_val flags sched with
  | some (pp, _) => Run s (btopr bytes) align_mask align_val flags pp
  | none => ∀ pp, ¬ Run s (btopr bytes) align_mask align_val flags pp

section Loops
variable {p_free aligned dmaable : Nat → Bool} {npages endpp : Nat}

theorem extend_ok {n pp e : Nat} (found : extend p_free aligned n pp = .ok e) :
    e = pp + n ∧ ∀ i < n, aligned (pp + i) = true ∧ (0 < i → p_free (pp + i) = true) := by
  induction n generalizing pp with
  | zero =>
    simp only [extend, Except.ok.injEq] at found
    exact ⟨found.symm, fun i low => absurd low (Nat.not_lt_zero i)⟩
  | succ n ih =>
    rw [extend] at found
    split at found
    · cases found
    rename_i first
    rw [Bool.not_eq_true, Bool.not_eq_false'] at first
    split at found
    · rename_i last
      subst last
      cases found
      refine ⟨rfl, fun i low => ?_⟩
      obtain rfl : i = 0 := by omega
      exact ⟨first, fun pos => absurd pos (Nat.lt_irrefl 0)⟩
    · split at found
      · rename_i next
        obtain ⟨length, rest⟩ := ih found
        refine ⟨by omega, fun i low => ?_⟩
        cases i with
        | zero => exact ⟨first, fun pos => absurd pos (Nat.lt_irrefl 0)⟩
        | succ j =>
          rw [show pp + (j + 1) = pp + 1 + j by omega]
          obtain ⟨good, free⟩ := rest j (by omega)
          refine ⟨good, fun _ => ?_⟩
          by_cases start : j = 0
          · rw [start]
            exact next
          · exact free (Nat.pos_of_ne_zero start)
      · cases found

theorem extend_error {n pp q : Nat} (left : extend p_free aligned n pp = .error q) :
    pp ≤ q ∧ q < pp + n ∧ (aligned q = false ∨ p_free q = false) := by
  induction n generalizing pp with
  | zero => cases left
  | succ n ih =>
    rw [extend] at left
    split at left
    · rename_i first
      cases left
      exact ⟨Nat.le_refl _, by omega, .inl (by simpa using first)⟩
    split at left
    · cases left
    · split at left
      · obtain ⟨low, high, bad⟩ := ih left
        exact ⟨by omega, by omega, bad⟩
      · rename_i used
        cases left
        exact ⟨by omega, by omega, .inr (by simpa using used)⟩

structure Good (p_free aligned dmaable : Nat → Bool) (npages endpp q : Nat) : Prop where
  inside : q + npages ≤ endpp
  pages : ∀ i < npages, aligned (q + i) = true ∧ p_free (q + i) = true
  dma : dmaable (q + npages - 1) = true

theorem scan_some {turns pp e : Nat}
    (found : scan p_free aligned dmaable npages endpp turns pp = some e) :
    ∃ q, e = q + npages ∧ pp ≤ q ∧ Good p_free aligned dmaable npages endpp q := by
  induction turns generalizing pp with
  | zero => cases found
  | succ turns ih =>
    have later : ∀ {r}, pp ≤ r → scan p_free aligned dmaable npages endpp turns (r + 1) = some e →
        ∃ q, e = q + npages ∧ pp ≤ q ∧ Good p_free aligned dmaable npages endpp q := by
      intro r order rest
      obtain ⟨q, length, from_r, good⟩ := ih rest
      exact ⟨q, length, by omega, good⟩
    rw [scan] at found
    split at found
    · cases found
    split at found
    · exact later (Nat.le_refl pp) found
    rename_i free
    split at found
    · cases found
    rename_i dma
    split at found
    · rename_i stop run
      cases found
      obtain ⟨length, pages⟩ := extend_ok run
      refine ⟨pp, length, Nat.le_refl pp, by omega, fun i low => ⟨(pages i low).1, ?_⟩,
        by simpa using dma⟩
      by_cases start : i = 0
      · rw [start]
        simpa using free
      · exact (pages i low).2 (Nat.pos_of_ne_zero start)
    · rename_i stop run
      exact later (extend_error run).1 found

theorem scan_none (pos : 0 < npages) (falling : ∀ p q, p ≤ q → dmaable q = true → dmaable p = true)
    {turns pp : Nat} (enough : endpp < pp + turns)
    (none_found : scan p_free aligned dmaable npages endpp turns pp = none) {q : Nat}
    (ahead : pp ≤ q) : ¬ Good p_free aligned dmaable npages endpp q := by
  induction turns generalizing pp with
  | zero =>
    intro good
    have := good.inside
    omega
  | succ turns ih =>
    intro good
    have inside := good.inside
    rw [scan] at none_found
    split at none_found
    · omega
    split at none_found
    · rename_i used
      by_cases here : q = pp
      · have first := (good.pages 0 pos).2
        rw [here, Nat.add_zero] at first
        simp [first] at used
      · exact ih (by omega) none_found (by omega) good
    split at none_found
    · rename_i beyond
      have := falling (pp + npages - 1) _ (by omega) good.dma
      simp [this] at beyond
    split at none_found
    · cases none_found
    rename_i stop left
    obtain ⟨low, high, bad⟩ := extend_error left
    by_cases past : stop < q
    · exact ih (by omega) none_found (by omega) good
    · -- the run would hold the page at which the loop was left
      have page := good.pages (stop - q) (by omega)
      rw [show q + (stop - q) = stop by omega] at page
      rcases bad with bad | bad
      · exact Bool.noConfusion (bad.symm.trans page.1)
      · exact Bool.noConfusion (bad.symm.trans page.2)

end Loops

variable {s : Pool} {bytes align_mask align_val : Nat} {flags : Flags} {sched : Bool}

def Found (s : Pool) (npages align_mask align_val : Nat) (flags : Flags) (pp : Nat) : Prop :=
  Run s npages align_mask align_val flags pp ∧
    ∀ i < npages, ALIGNED_PP s align_mask align_val (pp + i) = true

theorem found_iff {npages pp : Nat} (pos : 0 < npages) :
    Found s npages align_mask align_val flags pp ↔ ∃ pap ∈ s.pageahead, pap.firstpp ≤ pp ∧
      Good s.p_free (ALIGNED_PP s align_mask align_val)
        (fun pp => !dmacheck s flags || DMA_PP s pp) npages pap.endpp pp := by
  constructor
  · rintro ⟨run, aligned⟩
    obtain ⟨pap, mem, low, high⟩ := run.chunk
    refine ⟨pap, mem, low, high, fun i small => ⟨aligned i small, run.free i small⟩, ?_⟩
    cases check : dmacheck s flags with
    | false => rfl
    | true => exact run.dma check
  · rintro ⟨pap, mem, low, good⟩
    refine ⟨⟨⟨pap, mem, low, good.inside⟩, fun i small => (good.pages i small).2,
      (good.pages 0 pos).1, fun check => ?_⟩, fun i small => (good.pages i small).1⟩
    simpa [check] using good.dma

theorem get_some {r : Nat × Pool} (pos : 0 < btopr bytes)
    (got : page_get_aligned s bytes align_mask align_val flags sched = some r) :
    btopr bytes < limit s flags ∧ Found s (btopr bytes) align_mask align_val flags r.1 := by
  unfold page_get_aligned at got
  simp only at got
  split at got
  · cases got
  split at got
  · cases got
  · obtain ⟨e, found, rfl⟩ := Option.map_eq_some_iff.mp got
    obtain ⟨pap, mem, found⟩ := List.exists_of_findSome?_eq_some found
    obtain ⟨q, rfl, low, good⟩ := scan_some found
    refine ⟨by omega, (found_iff pos).mpr ⟨pap, mem, ?_⟩⟩
    rw [Nat.add_sub_cancel]
    exact ⟨low, good⟩

theorem get_none (pos : 0 < btopr bytes)
    (enough : reqfree s (btopr bytes) flags sched ≤ available s flags)
    (small : btopr bytes < limit s flags)
    (got : page_get_aligned s bytes align_mask align_val flags sched = none) (pp : Nat) :
    ¬ Found s (btopr bytes) align_mask align_val flags pp := by
  intro found
  obtain ⟨pap, mem, low, good⟩ := (found_iff pos).mp found
  unfold page_get_aligned at got
  rw [if_neg (Nat.not_le.mpr small), if_neg (Nat.not_lt.mpr enough)] at got
  have missed := List.findSome?_eq_none_iff.mp (Option.map_eq_none_iff.mp got) pap mem
  refine scan_none pos (fun p q order dma => ?_) ?_ missed low good
  · cases check : dmacheck s flags with
    | false => rfl
    | true =>
      simp only [check, Bool.not_true, Bool.false_or, DMA_PP, decide_eq_true_eq] at dma ⊢
      omega
  · show pap.firstpp + pap.num < pap.firstpp + (pap.num + 1)
    omega

/-- With enough free pages a request is satisfied whenever it can be, if and only if there is
    no run for it, or it is below the limit and all pages of some run are aligned. -/
theorem satisfied_iff (s : Pool) (bytes align_mask align_val : Nat) (flags : Flags) (sched : Bool)
    (pos : 0 < btopr bytes) (enough : reqfree s (btopr bytes) flags sched ≤ available s flags) :
    Satisfied s bytes align_mask align_val flags sched ↔
      ((∃ pp, Run s (btopr bytes) align_mask align_val flags pp) →
        btopr bytes < limit s flags ∧
          ∃ pp, Run s (btopr bytes) align_mask align_val flags pp ∧
            ∀ i < btopr bytes, ALIGNED_PP s align_mask align_val (pp + i) = true) := by
  unfold Satisfied
  split
  · rename_i pp s' got
    obtain ⟨small, found⟩ := get_some pos got
    exact iff_of_true found.1 fun _ => ⟨small, pp, found⟩
  · rename_i got
    constructor
    · rintro nowhere ⟨pp, run⟩
      exact absurd run (nowhere pp)
    · intro condition pp run
      obtain ⟨small, q, found⟩ := condition ⟨pp, run⟩
      exact get_none pos enough small got q found

def four_pages : Pool :=
  ⟨[⟨4, 8, 0⟩], fun _ => true, 4, 0, 4, 0, 0, false, 0⟩

theorem satisfied_iff_two_pages :
    Satisfied four_pages 8192 8192 0 ⟨false, false⟩ false := by
  refine (satisfied_iff four_pages 8192 8192 0 ⟨false, false⟩ false (by decide) (by decide)).mpr ?_
  refine fun _ => ⟨by decide, 0, ⟨⟨⟨4, 8, 0⟩, by simp [four_pages], by decide, by decide⟩,
    fun _ _ => rfl, by decide, fun check => by cases check⟩, by decide⟩

/-- Two pages that start at an even page number are refused: the second number is odd. -/
theorem aligned_pair_refused :
    reqfree four_pages (btopr 8192) ⟨false, false⟩ false ≤ available four_pages ⟨false, false⟩ ∧
      ¬ Satisfied four_pages 8192 4096 0 ⟨false, false⟩ false := by
  refine ⟨by decide, fun satisfied => ?_⟩
  exact satisfied 0 ⟨⟨⟨4, 8, 0⟩, by simp [four_pages], by decide, by decide⟩, fun _ _ => rfl,
    by decide, fun check => by cases check⟩

end AlignedPages
