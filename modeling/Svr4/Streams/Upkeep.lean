import Mathlib.Algebra.BigOperators.Group.List.Basic
import Mathlib.Data.List.Perm.Subperm
import Svr4.RankedLists
import Svr4.Streams.Queues

/- What holds between the routines of a queue, and how it survives one message more or less. -/
namespace StreamQueues
open DoublyLinked RankedLists List

/-- The place of a message in the order of a queue: high priority before all bands. -/
def Mblk.rank (m : Mblk) : Nat := if QPCTL ≤ m.db_type.val then 256 else m.b_band

def Mblk.size (m : Mblk) : Nat := m.sizes.sum

structure Flow.Right (f : Flow) (n : Nat) : Prop where
  room : 0 < f.hiwat
  count : f.count = n
  full : f.full = true ↔ f.hiwat ≤ f.count

structure Qband.Shows (b : Qband) (l : List Nat) (n : Nat) : Prop where
  first : b.qb_first = l.head?
  last : b.qb_last = l.getLast?
  flow : b.Right n

namespace Queue

def rank (q : Queue) (a : Nat) : Nat := (q.message a).rank

def inBand (q : Queue) (band : Nat) (l : List Nat) : List Nat :=
  l.filter fun a => (q.message a).b_band.val = band

def total (q : Queue) (band : Nat) (l : List Nat) : Nat :=
  ((q.inBand band l).map fun a => (q.message a).size).sum

structure Fits (q : Queue) (a : Nat) : Prop where
  known : a < q.nmblk
  high : QPCTL ≤ (q.message a).db_type.val → (q.message a).b_band = 0
  band : (q.message a).b_band.val ≤ q.q_nband

structure Ok (q : Queue) (l : List Nat) : Prop where
  links : q.list.Holds l
  fits : ∀ a ∈ l, q.Fits a
  sorted : Sorted q.rank l
  flow : q.flow.Right (q.total 0 l)
  bands : ∀ i, 0 < i → i ≤ q.q_nband → (q.q_bandp i).Shows (q.inBand i l) (q.total i l)

/-- The pointers and the counts are those of the messages `l`, in whatever order these are. -/
structure Exact (q : Queue) (l : List Nat) : Prop where
  links : q.list.Holds l
  fits : ∀ a ∈ l, q.Fits a
  flow : q.flow.Right (q.total 0 l)
  bands : ∀ i, 0 < i → i ≤ q.q_nband → (q.q_bandp i).Shows (q.inBand i l) (q.total i l)

theorem Ok.exact {q : Queue} {l : List Nat} (ok : q.Ok l) : q.Exact l :=
  { ok with }

theorem Exact.ok {q : Queue} {l : List Nat} (books : q.Exact l) (sorted : Sorted q.rank l) :
    q.Ok l :=
  { books with sorted }

end Queue

theorem foldl_add (sizes : List Nat) (n : Nat) :
    sizes.foldl (fun c size => c + size) n = n + sizes.sum := by
  induction sizes generalizing n with
  | nil => rfl
  | cons size sizes ih => rw [foldl_cons, ih, sum_cons, add_assoc]

theorem foldl_sub (sizes : List Nat) (n : Nat) :
    sizes.foldl (fun c size => c - size) n = n - sizes.sum := by
  induction sizes generalizing n with
  | nil => rfl
  | cons size sizes ih => rw [foldl_cons, ih, sum_cons, Nat.sub_sub]

theorem Flow.Right.charge {f : Flow} {n m : Nat} (right : f.Right n) (sizes : List Nat)
    (grown : m = sizes.sum + n) : (f.charge sizes).Right m := by
  refine ⟨right.room, ?_, ?_⟩
  · change sizes.foldl (fun c size => c + size) f.count = m
    rw [foldl_add, right.count, grown, add_comm]
  · unfold Flow.charge
    rw [foldl_add]
    simp only [Bool.or_eq_true, decide_eq_true_eq, right.full]
    omega

theorem Flow.Right.discharge {f : Flow} {n m : Nat} (right : f.Right n) (sizes : List Nat)
    (shrunk : n = sizes.sum + m) : (f.discharge sizes).Right m := by
  refine ⟨right.room, ?_, ?_⟩
  · change sizes.foldl (fun c size => c - size) f.count = m
    rw [foldl_sub, right.count, shrunk, Nat.add_sub_cancel_left]
  · unfold Flow.discharge
    rw [foldl_sub]
    simp only [Bool.and_eq_true, Bool.not_eq_true', decide_eq_false_iff_not, right.full]
    omega

theorem Flow.right_cleared {f : Flow} (room : 0 < f.hiwat) :
    ({ f with count := 0, full := false } : Flow).Right 0 :=
  ⟨room, rfl, by simp; omega⟩

namespace Queue
variable {q t : Queue} {l l' us vs : List Nat} {a i : Nat} {band : Fin 256}

theorem inBand_append : q.inBand i (us ++ vs) = q.inBand i us ++ q.inBand i vs :=
  filter_append us vs

theorem inBand_cons_same (here : (q.message a).b_band.val = i) :
    q.inBand i (a :: vs) = a :: q.inBand i vs := filter_cons_of_pos (by simpa using here)

theorem inBand_cons_other (other : (q.message a).b_band.val ≠ i) :
    q.inBand i (a :: vs) = q.inBand i vs := filter_cons_of_neg (by simpa using other)

theorem total_middle_same (here : (q.message a).b_band.val = i) :
    q.total i (us ++ a :: vs) = (q.message a).size + q.total i (us ++ vs) := by
  unfold total
  rw [inBand_append, inBand_append, inBand_cons_same here]
  simp only [map_append, map_cons, sum_append, sum_cons]
  omega

theorem inBand_middle_other (other : (q.message a).b_band.val ≠ i) :
    q.inBand i (us ++ a :: vs) = q.inBand i (us ++ vs) := by
  rw [inBand_append, inBand_append, inBand_cons_other other]

theorem inBand_eq_ranked (fits : ∀ a ∈ l, q.Fits a) (pos : 0 < i) (small : i < 256) :
    q.inBand i l = ranked q.rank i l := by
  apply filter_congr
  intro a mem
  unfold rank Mblk.rank
  by_cases ctl : QPCTL ≤ (q.message a).db_type.val
  · rw [if_pos ctl, (fits a mem).high ctl]
    simp only [Fin.val_zero, decide_eq_decide]
    omega
  · rw [if_neg ctl]

theorem total_message (same : t.message = q.message) : t.total i l = q.total i l := by
  unfold total inBand
  rw [same]

theorem inBand_message (same : t.message = q.message) : t.inBand i l = q.inBand i l := by
  unfold inBand
  rw [same]

theorem rank_message (same : t.message = q.message) : t.rank = q.rank := by
  unfold rank
  rw [same]

/-- An operation on one message of this band has changed `l` to `l'`. -/
structure Turned (q t : Queue) (band : Fin 256) (l' : List Nat) : Prop where
  links : t.list.Holds l'
  message : t.message = q.message
  nmblk : t.nmblk = q.nmblk
  q_nband : t.q_nband = q.q_nband
  normal : band = 0 → t.q_bandp = q.q_bandp ∧ t.flow.Right (q.total 0 l')
  banded : band ≠ 0 → t.flow = q.flow ∧ ∃ qbp : Qband,
    t.q_bandp = Function.update q.q_bandp band qbp ∧
    qbp.Shows (q.inBand band l') (q.total band l')

theorem Turned.fits (turned : q.Turned t band l') (fits : q.Fits a) : t.Fits a := by
  obtain ⟨known, high, inside⟩ := fits
  refine ⟨?_, ?_, ?_⟩
  · rwa [turned.nmblk]
  · rwa [turned.message]
  · rwa [turned.message, turned.q_nband]

theorem Exact.turned (books : q.Exact l) (fits : ∀ a ∈ l', q.Fits a)
    (others : ∀ i, i ≠ band.val → q.inBand i l' = q.inBand i l) (turned : q.Turned t band l') :
    t.Exact l' := by
  have same := turned.message
  have totals : ∀ i, i ≠ band.val → q.total i l' = q.total i l := by
    intro i other
    unfold total
    rw [others i other]
  refine ⟨turned.links, fun a mem => turned.fits (fits a mem), ?_, ?_⟩
  · rw [total_message same]
    by_cases zero : band = 0
    · exact (turned.normal zero).2
    · have other : 0 ≠ band.val := fun eq => zero (Fin.ext eq.symm)
      rw [(turned.banded zero).1, totals 0 other]
      exact books.flow
  · intro i pos inside
    rw [turned.q_nband] at inside
    rw [inBand_message same, total_message same]
    by_cases zero : band = 0
    · have other : i ≠ band.val := by rw [zero]; exact ne_of_gt pos
      rw [(turned.normal zero).1, others i other, totals i other]
      exact books.bands i pos inside
    obtain ⟨-, qbp, bands, shows⟩ := turned.banded zero
    rw [bands]
    by_cases here : i = band.val
    · subst here
      rw [Function.update_self]
      exact shows
    · rw [Function.update_of_ne here, others i here, totals i here]
      exact books.bands i pos inside

theorem Fits.qband_eq (fits : q.Fits a) :
    q.qband (q.message a).b_band = some (q.q_bandp (q.message a).b_band) := if_pos fits.band

theorem Exact.length_le (books : q.Exact l) : l.length ≤ q.nmblk := by
  have few := (subperm_of_subset books.links.nodup fun a mem =>
    mem_range.mpr (books.fits a mem).known).length_le
  rwa [length_range] at few

theorem Ok.length_le (ok : q.Ok l) : l.length ≤ q.nmblk := ok.exact.length_le

theorem rank_ctl (ctl : QPCTL ≤ (q.message a).db_type.val) : q.rank a = 256 := if_pos ctl

theorem rank_norm (norm : ¬QPCTL ≤ (q.message a).db_type.val) :
    q.rank a = (q.message a).b_band := if_neg norm

theorem rank_le : q.rank a ≤ 256 := by
  unfold rank Mblk.rank
  split <;> omega

theorem ctl_of_rank (top : 256 ≤ q.rank a) : QPCTL ≤ (q.message a).db_type.val := by
  by_contra norm
  rw [rank_norm norm] at top
  exact absurd (q.message a).b_band.isLt (Nat.not_lt_of_le top)

theorem Fits.norm (fits : q.Fits a) (banded : (q.message a).b_band ≠ 0) :
    ¬QPCTL ≤ (q.message a).db_type.val := fun ctl => banded (fits.high ctl)

end Queue
end StreamQueues
