import Svr4.Counting
import Svr4.Runs
import Svr4.Shm.Segments

/- os/shm.c: how long the anon map of a shared segment lives. -/
namespace ShmSegments
open Function Counting LabelledRuns List Option

def acct (seg : Seg) : Segacct := ⟨seg.s_base, seg.s_size, seg.amp⟩

/-- The mappings of an address space are sorted and apart from each other. -/
structure Apart (segs : List Seg) : Prop where
  sorted : segs.Pairwise fun x y => x.s_base + x.s_size ≤ y.s_base
  size : ∀ x ∈ segs, 0 < x.s_size

def Sorted (list : List Segacct) : Prop := list.Pairwise fun x y => x.sa_addr < y.sa_addr

section
variable {segs rest : List Seg} {list : List Segacct} {x seg : Seg} {sap r : Segacct} {addr a : Nat}

theorem Apart.tail (apart : Apart (x :: segs)) : Apart segs :=
  ⟨apart.sorted.of_cons, fun y mem => apart.size y (mem_cons_of_mem x mem)⟩

theorem Apart.head (apart : Apart (x :: segs)) {y : Seg} (mem : y ∈ segs) :
    x.s_base + x.s_size ≤ y.s_base :=
  rel_of_pairwise_cons apart.sorted mem

theorem Apart.left (apart : Apart (segs ++ rest)) : Apart segs :=
  ⟨(pairwise_append.mp apart.sorted).1, fun x mem => apart.size x (mem_append_left rest mem)⟩

theorem sorted_acct (apart : Apart segs) : Sorted (segs.map acct) := by
  refine pairwise_map.mpr (apart.sorted.imp_of_mem fun {x y} mem _ before => ?_)
  have := apart.size x mem
  show x.s_base < y.s_base
  omega

theorem acct_alloc : (seg_alloc segs seg).map acct = sa_add (segs.map acct) (acct seg) :=
  map_orderedInsert _ _ acct segs seg (fun _ _ => Iff.rfl) fun _ _ => Iff.rfl

theorem mem_alloc : x ∈ seg_alloc segs seg ↔ x = seg ∨ x ∈ segs := mem_orderedInsert _

theorem as_gap_cons (gap : as_gap (x :: segs) seg.s_base seg.s_size = true) :
    overlaps seg.s_base seg.s_size x = false ∧ as_gap segs seg.s_base seg.s_size = true := by
  unfold as_gap at gap
  rw [all_cons, Bool.and_eq_true, Bool.not_eq_true'] at gap
  exact gap

theorem apart_cases (apart : overlaps seg.s_base seg.s_size x = false) :
    x.s_base + x.s_size ≤ seg.s_base ∨ seg.s_base + seg.s_size ≤ x.s_base := by
  unfold overlaps at apart
  rw [decide_eq_false_iff_not] at apart
  omega

theorem apart_alloc (apart : Apart segs) (gap : as_gap segs seg.s_base seg.s_size = true)
    (size : 0 < seg.s_size) : Apart (seg_alloc segs seg) := by
  induction segs with
  | nil => exact ⟨pairwise_singleton _ _, by simpa [seg_alloc] using size⟩
  | cons x segs ih =>
    obtain ⟨free, gap⟩ := as_gap_cons gap
    have some := apart.size x mem_cons_self
    have inner := ih apart.tail gap
    unfold seg_alloc at inner ⊢
    rw [orderedInsert_cons]
    split
    · next first =>
      -- the new mapping is the first
      have before : seg.s_base + seg.s_size ≤ x.s_base := by
        rcases apart_cases free with low | high
        · omega
        · exact high
      refine ⟨pairwise_cons.mpr ⟨fun y mem => ?_, apart.sorted⟩, fun y mem => ?_⟩
      · rcases mem_cons.mp mem with rfl | behind
        · exact before
        · have := apart.head behind
          omega
      · rcases mem_cons.mp mem with rfl | old
        · exact size
        · exact apart.size y old
    · next later =>
      have behind : x.s_base + x.s_size ≤ seg.s_base := by
        rcases apart_cases free with low | high
        · exact low
        · omega
      refine ⟨pairwise_cons.mpr ⟨fun y mem => ?_, inner.sorted⟩, fun y mem => ?_⟩
      · rcases mem_alloc.mp mem with rfl | old
        · exact behind
        · exact apart.head old
      · rcases mem_cons.mp mem with rfl | old
        · exact some
        · exact inner.size y old

theorem unmap_alloc (gap : as_gap segs seg.s_base seg.s_size = true) (size : 0 < seg.s_size) :
    as_unmap (seg_alloc segs seg) seg.s_base seg.s_size = segs := by
  have whole : overlaps seg.s_base seg.s_size seg = true := by
    exact decide_eq_true (by omega)
  induction segs with
  | nil => simp [seg_alloc, as_unmap, whole]
  | cons x segs ih =>
    obtain ⟨free, gap⟩ := as_gap_cons gap
    have inner := ih gap
    have others : as_unmap segs seg.s_base seg.s_size = segs := by
      exact filter_eq_self.mpr (all_eq_true.mp gap)
    unfold as_unmap seg_alloc at *
    rw [orderedInsert_cons]
    split
    · simp [whole, free, others]
    · simp [free, inner]

theorem acct_unmap (apart : Apart segs) (mem : seg ∈ segs) :
    (as_unmap segs seg.s_base seg.s_size).map acct = sa_del (segs.map acct) seg.s_base := by
  induction segs with
  | nil => cases mem
  | cons x segs ih =>
    have some := apart.size x mem_cons_self
    unfold as_unmap sa_del at *
    rw [map_cons, eraseP_cons, filter_cons]
    rcases mem_cons.mp mem with rfl | behind
    · have whole : overlaps seg.s_base seg.s_size seg = true := by
        exact decide_eq_true (by omega)
      have others : segs.filter (fun y => !overlaps seg.s_base seg.s_size y) = segs := by
        refine filter_eq_self.mpr fun y mem => ?_
        have := apart.head mem
        unfold overlaps
        simpa using .inr this
      simp [whole, others, acct]
    · have before := apart.head behind
      have free : overlaps seg.s_base seg.s_size x = false := by
        exact decide_eq_false (by omega)
      have skipped : ¬ seg.s_base ≤ (acct x).sa_addr := by
        show ¬ seg.s_base ≤ x.s_base
        omega
      simp [free, skipped, ih apart.tail behind]

theorem mem_of_find (found : sa_find list addr = some sap) : sap ∈ list ∧ sap.sa_addr = addr := by
  have at_addr := find?_some found
  exact ⟨mem_of_find?_eq_some found, by simpa using at_addr⟩

theorem find_of_mem (mem : sap ∈ list) : ∃ r, sa_find list sap.sa_addr = some r := by
  refine isSome_iff_exists.mp (find?_isSome.mpr ⟨sap, mem, ?_⟩)
  exact decide_eq_true rfl

theorem del_perm (sorted : Sorted list) (mem : sap ∈ list) :
    list.Perm (sap :: sa_del list sap.sa_addr) := by
  induction list with
  | nil => cases mem
  | cons r list ih =>
    unfold sa_del at *
    rw [eraseP_cons]
    rcases mem_cons.mp mem with rfl | behind
    · simp
    · have before : r.sa_addr < sap.sa_addr := rel_of_pairwise_cons sorted behind
      have skipped : ¬ sap.sa_addr ≤ r.sa_addr := by omega
      simp only [skipped, decide_false, cond_false]
      exact ((ih sorted.of_cons behind).cons r).trans (Perm.swap _ _ _)

theorem del_sorted (sorted : Sorted list) : Sorted (sa_del list addr) :=
  Pairwise.sublist eraseP_sublist sorted

theorem add_last (sorted : Sorted (list ++ [sap])) : sa_add list sap = list ++ [sap] := by
  induction list with
  | nil => rfl
  | cons r list ih =>
    have before : r.sa_addr < sap.sa_addr := rel_of_pairwise_cons sorted (by simp)
    have inner := ih sorted.of_cons
    unfold sa_add at *
    rw [orderedInsert_cons, if_neg (by omega), inner]
    rfl

theorem alloc_last (apart : Apart (segs ++ [seg])) : seg_alloc segs seg = segs ++ [seg] := by
  induction segs with
  | nil => rfl
  | cons x segs ih =>
    have before : x.s_base + x.s_size ≤ seg.s_base := apart.head (by simp)
    have some := apart.size x mem_cons_self
    have inner := ih apart.tail
    unfold seg_alloc at *
    rw [orderedInsert_cons, if_neg (by omega), inner]
    rfl

def maps (segs : List Seg) (a : Nat) : Nat := segs.countP fun seg => seg.amp = a

def recs (list : List Segacct) (a : Nat) : Nat := list.countP fun sap => sap.sa_amp = a

theorem maps_cons : maps (seg :: segs) a = maps segs a + one (seg.amp = a) := by
  simp [maps, one, countP_cons]

theorem recs_cons : recs (sap :: list) a = recs list a + one (sap.sa_amp = a) := by
  simp [recs, one, countP_cons]

theorem maps_alloc : maps (seg_alloc segs seg) a = maps segs a + one (seg.amp = a) := by
  rw [← maps_cons]
  exact (perm_orderedInsert _ seg segs).countP_eq _

theorem recs_add : recs (sa_add list sap) a = recs list a + one (sap.sa_amp = a) := by
  rw [← recs_cons]
  exact (perm_orderedInsert _ sap list).countP_eq _

theorem recs_del (sorted : Sorted list) (mem : sap ∈ list) :
    recs list a = recs (sa_del list sap.sa_addr) a + one (sap.sa_amp = a) := by
  rw [← recs_cons]
  exact (del_perm sorted mem).countP_eq _

theorem maps_unmap {len : Nat} : maps segs a =
    maps (as_unmap segs addr len) a + maps (segs.filter (overlaps addr len)) a := by
  unfold maps as_unmap
  rw [countP_eq_countP_filter_add _ _ (overlaps addr len), add_comm]

theorem maps_pos (mem : seg ∈ segs) : 0 < maps segs seg.amp :=
  countP_pos_iff.mpr ⟨seg, mem, by simp⟩

theorem recs_pos (mem : sap ∈ list) : 0 < recs list sap.sa_amp :=
  countP_pos_iff.mpr ⟨sap, mem, by simp⟩

theorem mem_of_maps (some : 0 < maps segs a) : ∃ seg ∈ segs, seg.amp = a := by
  obtain ⟨seg, mem, same⟩ := countP_pos_iff.mp some
  exact ⟨seg, mem, by simpa using same⟩

end

/-- The reference count of a map with `n` references; the map itself has one more, and is gone when
    it is not referred to. -/
def Counted (o : Option AnonMap) (n : Nat) : Prop :=
  match o with
  | none => n = 0
  | some m => m.refcnt = n + 1

section
variable {amps : Nat → Option AnonMap} {refs refs' : Nat → Nat} {amp : Nat} {segs : List Seg}

theorem counted_hold (counted : ∀ a, Counted (amps a) (refs a)) (live : 0 < refs amp)
    (more : ∀ a, refs' a = refs a + one (amp = a)) :
    ∀ a, Counted (hold amps amp a) (refs' a) := by
  intro a
  have here := counted a
  have more := more a
  unfold hold
  by_cases same : amp = a
  · subst same
    rw [update_self]
    rw [one_true rfl] at more
    unfold Counted at here ⊢
    cases found : amps amp with
    | none =>
      rw [found] at here
      exact absurd here (by omega)
    | some m =>
      rw [found] at here
      show m.refcnt + 1 = refs' amp + 1
      omega
  · rw [update_of_ne (Ne.symm same)]
    rw [one_false same] at more
    rw [more]
    exact here

theorem counted_unhold {last : Nat} (low : last ≤ 1) (counted : ∀ a, Counted (amps a) (refs a))
    (less : ∀ a, refs a = refs' a + one (amp = a)) :
    ∀ a, Counted (unhold amps amp last a) (refs' a) := by
  intro a
  have here := counted a
  have less := less a
  unfold unhold
  by_cases same : amp = a
  · subst same
    rw [update_self]
    rw [one_true rfl] at less
    unfold Counted at here ⊢
    cases found : amps amp with
    | none =>
      rw [found] at here
      exact absurd here (by omega)
    | some m =>
      rw [found] at here
      show match (if m.refcnt - 1 = last then none else some { m with refcnt := m.refcnt - 1 }) with
        | none => refs' amp = 0
        | some m => m.refcnt = refs' amp + 1
      split
      · next freed =>
        split at freed
        · omega
        · cases freed
      · next kept =>
        split at kept
        · cases kept
        · cases kept
          show m.refcnt - 1 = refs' amp + 1
          omega
  · rw [update_of_ne (Ne.symm same)]
    rw [one_false same] at less
    rw [← add_zero (refs' a), ← less]
    exact here

theorem counted_unmap {addr len : Nat} (counted : ∀ a, Counted (amps a) (refs a))
    (less : ∀ a, refs a = refs' a + maps (segs.filter (overlaps addr len)) a) :
    ∀ a, Counted (unmap_amps amps segs addr len a) (refs' a) := by
  unfold unmap_amps
  generalize segs.filter (overlaps addr len) = gone at less ⊢
  induction gone generalizing amps refs with
  | nil =>
    intro a
    rw [show refs' a = refs a from (less a).symm]
    exact counted a
  | cons seg gone ih =>
    have first : ∀ a, Counted (unhold amps seg.amp 0 a) (refs' a + maps gone a) := by
      refine counted_unhold (Nat.zero_le 1) counted fun a => ?_
      rw [less a, maps_cons, add_assoc]
    exact ih first fun a => rfl

theorem settled_unhold (counted : ∀ a, Counted (amps a) (refs a))
    (settled : ∀ a, amps a ≠ none → 0 < refs a) (less : ∀ a, refs a = refs' a + one (amp = a)) :
    ∀ a, unhold amps amp 1 a ≠ none → 0 < refs' a := by
  intro a live
  have here := counted a
  have less := less a
  unfold unhold at live
  by_cases same : amp = a
  · subst same
    rw [update_self] at live
    rw [one_true rfl] at less
    cases found : amps amp with
    | none =>
      rw [found] at live
      exact absurd rfl live
    | some m =>
      rw [found] at here live
      unfold Counted at here
      refine pos_of_ne_zero fun last => live ?_
      exact if_pos (show m.refcnt - 1 = 1 by omega)
  · rw [update_of_ne (Ne.symm same)] at live
    rw [one_false same] at less
    rw [← add_zero (refs' a), ← less]
    exact settled a live

theorem unhold_none {last a : Nat} (free : amps a = none) : unhold amps amp last a = none := by
  unfold unhold
  by_cases same : a = amp
  · subst same
    rw [update_self, free]
    rfl
  · rw [update_of_ne same]
    exact free

theorem unmap_none {addr len a : Nat} (free : amps a = none) :
    unmap_amps amps segs addr len a = none := by
  unfold unmap_amps
  generalize segs.filter (overlaps addr len) = gone
  induction gone generalizing amps with
  | nil => exact free
  | cons seg gone ih => exact ih (unhold_none free)

end

section
variable {nproc : Nat} {s s' : Sys nproc} {p q c : Fin nproc} {sp : Fin SHMMNI} {a : Nat}
  {h : ShmidDs nproc} {r : Proc nproc} {amps : Nat → Option AnonMap} {tight : Bool}
  {list : List Segacct} {segs : List Seg}

@[simp] theorem put_self : (s.put p r).procs p = r := by simp [Sys.put]

@[simp] theorem put_ne (other : q ≠ p) : (s.put p r).procs q = s.procs q := by
  simp [Sys.put, other]

@[simp] theorem put_shmem : (s.put p r).shmem = s.shmem := rfl

@[simp] theorem putShm_self : (s.putShm sp h).shmem sp = h := by simp [Sys.putShm]

@[simp] theorem putShm_ne {sp' : Fin SHMMNI} (other : sp' ≠ sp) :
    (s.putShm sp h).shmem sp' = s.shmem sp' := by
  simp [Sys.putShm, other]

@[simp] theorem putShm_procs : (s.putShm sp h).procs = s.procs := rfl

def own (q : Proc nproc) (a : Nat) : Nat := maps q.a_segs a + recs q.p_segacct a

def refs (s : Sys nproc) (a : Nat) : Nat := identifiers s a + ∑ p, own (s.procs p) a

theorem refs_eq (s : Sys nproc) (a : Nat) :
    refs s a = identifiers s a + mappings s a + records s a := by
  unfold refs own mappings records maps recs
  rw [Finset.sum_add_distrib, add_assoc]

theorem own_le : own (s.procs p) a ≤ refs s a :=
  (term_le (f := fun p => own (s.procs p) a) (Finset.mem_univ p)).trans
    (Nat.le_add_left _ _)

theorem own_two_le (other : q ≠ p) : own (s.procs q) a + own (s.procs p) a ≤ refs s a := by
  rw [← Finset.sum_pair (f := fun p => own (s.procs p) a) other]
  exact (Finset.sum_le_sum_of_subset (Finset.subset_univ _)).trans (Nat.le_add_left _ _)

theorem identifiers_pos (shm_amp : (s.shmem sp).shm_amp = some a) : 0 < identifiers s a := by
  have here := term_le (f := fun sp => if (s.shmem sp).shm_amp = some a then 1 else 0)
    (Finset.mem_univ sp)
  simp only [shm_amp, if_true] at here
  exact here

theorem refs_change (same : identifiers s' a = identifiers s a)
    (others : ∀ q, q ≠ p → own (s'.procs q) a = own (s.procs q) a) :
    refs s' a + own (s.procs p) a = refs s a + own (s'.procs p) a := by
  have change := sum_change (f := fun q => own (s'.procs q) a)
    (g := fun q => own (s.procs q) a) (Finset.mem_univ p) fun q _ other => others q other
  unfold refs
  omega

theorem identifiers_change (others : ∀ sp', sp' ≠ sp → s'.shmem sp' = s.shmem sp') :
    identifiers s' a + one ((s.shmem sp).shm_amp = some a) =
      identifiers s a + one ((s'.shmem sp).shm_amp = some a) :=
  sum_change (f := fun sp => one ((s'.shmem sp).shm_amp = some a))
    (g := fun sp => one ((s.shmem sp).shm_amp = some a)) (Finset.mem_univ sp)
    fun sp' _ other => congrArg (fun h => one (h.shm_amp = some a)) (others sp' other)

theorem refs_header (others : ∀ sp', sp' ≠ sp → s'.shmem sp' = s.shmem sp')
    (owned : ∀ q, own (s'.procs q) a = own (s.procs q) a) :
    refs s' a + one ((s.shmem sp).shm_amp = some a) =
      refs s a + one ((s'.shmem sp).shm_amp = some a) := by
  have change := identifiers_change (a := a) others
  unfold refs
  rw [Finset.sum_congr rfl fun q _ => owned q]
  omega

theorem header_refs (shm_amp : (s.shmem sp).shm_amp = some a) : 0 < refs s a :=
  Nat.add_pos_left (identifiers_pos shm_amp) _

theorem identifiers_same (same : ∀ sp, (s'.shmem sp).shm_amp = (s.shmem sp).shm_amp) :
    identifiers s' a = identifiers s a := by
  unfold identifiers
  simp only [same]

def Listed (tight : Bool) (list : List Segacct) (segs : List Seg) : Prop :=
  list.Sublist (segs.map acct) ∧ (tight = true → list = segs.map acct)

structure Kept (tight : Bool) (q : Proc nproc) : Prop where
  listed : Listed tight q.p_segacct q.a_segs
  number : q.u_nshmseg = q.p_segacct.length

theorem Kept.go {d : Doing nproc} (kept : Kept tight r) : Kept tight { r with doing := d } :=
  { kept with }

/-- What the process `p` with the record `q` knows of the rest while it is at a place. -/
def Phase (tight : Bool) (s : Sys nproc) (p : Fin nproc) (q : Proc nproc) : Doing nproc → Prop
  | .unused => q.a_segs = [] ∧ q.p_segacct = []
  | .embryo _ => True
  | .idle | .exiting => Kept tight q
  | .creating sp size => Kept tight q ∧ 0 < size ∧
      (s.shmem sp).locked = some p ∧ (s.shmem sp).shm_amp = none
  | .mapping sp addr size => Kept tight q ∧ 0 < size ∧ as_gap q.a_segs addr size = true ∧
      (s.shmem sp).locked = some p ∧ (s.shmem sp).shm_amp ≠ none
  | .recording sp addr size => q.u_nshmseg = q.p_segacct.length ∧
      (s.shmem sp).locked = some p ∧ ∃ amp, (s.shmem sp).shm_amp = some amp ∧
        Listed tight (sa_add q.p_segacct ⟨addr, size, amp⟩) q.a_segs
  | .unmapping addr _ => Kept tight q ∧ ∃ sap ∈ q.p_segacct, sap.sa_addr = addr
  | .unmapped addr _ => q.u_nshmseg = q.p_segacct.length ∧
      (∃ sap ∈ q.p_segacct, sap.sa_addr = addr) ∧ Listed tight (sa_del q.p_segacct addr) q.a_segs
  | .copying cp rest => Kept tight q ∧ (s.procs cp).doing = .embryo p ∧
      (s.procs cp).p_segacct = [] ∧ (s.procs cp).a_segs ++ rest = q.a_segs
  | .accounting cp rest => Kept tight q ∧ (s.procs cp).doing = .embryo p ∧
      (s.procs cp).a_segs = q.a_segs ∧ (s.procs cp).u_nshmseg = q.u_nshmseg ∧
      (s.procs cp).p_segacct ++ rest = q.p_segacct
  | .freeing cp => (cp = p ∧ q.p_segacct = [] ∧ Listed tight [] q.a_segs) ∨
      (Kept tight q ∧ (s.procs cp).doing = .embryo p ∧ (s.procs cp).p_segacct = [] ∧
        ∀ seg ∈ (s.procs cp).a_segs, seg ∈ q.a_segs)

/-- A process that is not still to be made, or to be started. -/
def Doing.acts : Doing nproc → Bool
  | .unused | .embryo _ => false
  | _ => true

def Sized (amps : Nat → Option AnonMap) : Prop := ∀ a m, amps a = some m → 0 < m.size

theorem Sized.hold (sized : Sized amps) (amp : Nat) : Sized (hold amps amp) := by
  intro a m found
  unfold ShmSegments.hold at found
  by_cases same : a = amp
  · subst same
    rw [update_self, map_eq_some_iff] at found
    obtain ⟨m, old, rfl⟩ := found
    exact sized a m old
  · rw [update_of_ne same] at found
    exact sized a m found

theorem Sized.unhold (sized : Sized amps) (amp last : Nat) : Sized (unhold amps amp last) := by
  intro a m found
  unfold ShmSegments.unhold at found
  by_cases same : a = amp
  · subst same
    rw [update_self, bind_eq_some_iff] at found
    obtain ⟨m, old, kept⟩ := found
    split at kept
    · cases kept
    · cases kept
      exact sized a m old
  · rw [update_of_ne same] at found
    exact sized a m found

theorem Sized.unmap (sized : Sized amps) (segs : List Seg) (addr len : Nat) :
    Sized (unmap_amps amps segs addr len) := by
  unfold unmap_amps
  generalize segs.filter (overlaps addr len) = gone
  induction gone generalizing amps with
  | nil => exact sized
  | cons seg gone ih => exact ih (sized.unhold seg.amp 0)

theorem hold_none {amp : Nat} (free : amps a = none) : hold amps amp a = none := by
  unfold hold
  by_cases same : a = amp
  · subst same
    rw [update_self, free]
    rfl
  · rw [update_of_ne same]
    exact free

structure Proper (tight : Bool) (s : Sys nproc) (p : Fin nproc) (q : Proc nproc) : Prop where
  apart : Apart q.a_segs
  sorted : Sorted q.p_segacct
  aiocount : q.p_aiocount = 0
  phase : Phase tight s p q q.doing

/-- A header that is in use refers to a map while it is not locked. -/
structure Header (h : ShmidDs nproc) : Prop where
  free : h.alloc = false → h.shm_amp = none ∧ h.locked = none
  used : h.alloc = true → h.locked = none → h.shm_amp ≠ none

theorem Header.unlock (header : Header h) (used : h.shm_amp ≠ none) :
    Header ({ h with locked := none } : ShmidDs nproc) :=
  ⟨fun free => absurd (header.free free).1 used, fun _ _ => used⟩

theorem putShm_others (mine : (s.shmem sp).locked = none ∨ (s.shmem sp).locked = some p)
    (sp' : Fin SHMMNI) (q : Fin nproc) (locked : (s.shmem sp').locked = some q) (other : q ≠ p) :
    (s.putShm sp h).shmem sp' = s.shmem sp' := by
  refine putShm_ne fun this => ?_
  rw [this] at locked
  rcases mine with free | own
  · rw [free] at locked
    cases locked
  · rw [own] at locked
    exact other (some.inj locked).symm

theorem putShm_forall {P : ShmidDs nproc → Prop} (here : P h) (others : ∀ sp, P (s.shmem sp))
    (sp' : Fin SHMMNI) : P ((s.putShm sp h).shmem sp') := by
  by_cases this : sp' = sp
  · subst this
    rw [putShm_self]
    exact here
  · rw [putShm_ne this]
    exact others sp'

theorem putShm_amp (same : h.shm_amp = (s.shmem sp).shm_amp) (sp' : Fin SHMMNI) :
    ((s.putShm sp h).shmem sp').shm_amp = (s.shmem sp').shm_amp := by
  by_cases this : sp' = sp
  · subst this
    rw [putShm_self, same]
  · rw [putShm_ne this]

/-- `tight` is whether no unmapping has failed. -/
structure Held (tight : Bool) (s : Sys nproc) : Prop where
  counted : ∀ a, Counted (s.amps a) (refs s a)
  settled : tight = true → ∀ a, s.amps a ≠ none → 0 < refs s a
  sizes : Sized s.amps
  headers : ∀ sp, Header (s.shmem sp)
  unique : ∀ sp sp' a, (s.shmem sp).shm_amp = some a → (s.shmem sp').shm_amp = some a → sp = sp'
  proper : ∀ p, Proper tight s p (s.procs p)

theorem Held.phase (held : Held tight s) {d : Doing nproc} (doing : (s.procs p).doing = d) :
    Phase tight s p (s.procs p) d :=
  doing ▸ (held.proper p).phase

/-- A step of a process that touches only itself, a child it makes, and headers no other has locked
-/
theorem Held.others (held : Held tight s) (acts : (s.procs p).doing.acts = true)
    (child : c = p ∨ (s.procs c).doing = .embryo p ∨ (s.procs c).doing = .unused)
    (others : ∀ q, q ≠ p → q ≠ c → s'.procs q = s.procs q)
    (shm : ∀ sp q, (s.shmem sp).locked = some q → q ≠ p → s'.shmem sp = s.shmem sp)
    (here : Proper tight s' p (s'.procs p)) (there : c ≠ p → Proper tight s' c (s'.procs c))
    (q : Fin nproc) : Proper tight s' q (s'.procs q) := by
  by_cases this : q = p
  · exact this ▸ here
  by_cases that : q = c
  · exact that ▸ there fun same => this (that.trans same)
  -- a child of another process
  have kin : ∀ cp, (s.procs cp).doing = .embryo q → s'.procs cp = s.procs cp := by
    intro cp embryo
    have young : (s.procs cp).doing.acts = false := embryo ▸ rfl
    refine others cp (fun same => ?_) fun same => ?_
    · rw [same, acts] at young
      cases young
    · subst same
      rcases child with rfl | kin | unused
      · rw [acts] at young
        cases young
      · rw [kin] at embryo
        exact this (Doing.embryo.inj embryo).symm
      · rw [unused] at embryo
        cases embryo
  obtain ⟨apart, sorted, aiocount, phase⟩ := held.proper q
  rw [others q this that]
  refine ⟨apart, sorted, aiocount, ?_⟩
  generalize (s.procs q).doing = d at phase ⊢
  cases d with
  | unused | embryo | idle | exiting | unmapping | unmapped => exact phase
  | creating sp size =>
    rw [Phase, shm sp q phase.2.2.1 this]
    exact phase
  | mapping sp addr size =>
    rw [Phase, shm sp q phase.2.2.2.1 this]
    exact phase
  | recording sp addr size =>
    rw [Phase, shm sp q phase.2.1 this]
    exact phase
  | copying cp rest | accounting cp rest =>
    rw [Phase, kin cp phase.2.1]
    exact phase
  | freeing cp =>
    rcases phase with own | other
    · exact .inl own
    · refine .inr ?_
      rw [kin cp other.2.1]
      exact other

theorem Listed.add (listed : Listed tight list segs) (apart : Apart segs) (seg : Seg) :
    Listed tight (sa_add list (acct seg)) (seg_alloc segs seg) := by
  unfold Listed
  rw [acct_alloc]
  refine ⟨?_, fun exact_ => by rw [listed.2 exact_]⟩
  exact listed.1.orderedInsert_sublist _ ((sorted_acct apart).imp le_of_lt)

theorem Listed.stray {seg : Seg} (listed : Listed false list segs) :
    Listed false list (seg_alloc segs seg) := by
  refine ⟨listed.1.trans ?_, fun never => by cases never⟩
  rw [acct_alloc]
  exact sublist_orderedInsert _ _

theorem Listed.del {sap : Segacct} (listed : Listed tight list segs) (apart : Apart segs)
    (mem : sap ∈ list) :
    Listed tight (sa_del list sap.sa_addr) (as_unmap segs sap.sa_addr sap.sa_len) := by
  obtain ⟨seg, mapped, rfl⟩ := mem_map.mp (listed.1.subset mem)
  have same := acct_unmap apart mapped
  unfold Listed
  rw [show as_unmap segs (acct seg).sa_addr (acct seg).sa_len =
    as_unmap segs seg.s_base seg.s_size from rfl, same]
  exact ⟨listed.1.eraseP, fun exact_ => congrArg (sa_del · seg.s_base) (listed.2 exact_)⟩

theorem Listed.forgotten {addr : Nat} (listed : Listed false list segs) :
    Listed false (sa_del list addr) segs :=
  ⟨eraseP_sublist.trans listed.1, fun never => by cases never⟩

end

end ShmSegments
