import Svr4.Streams.Puts

/- What a queue is for: a line of messages in descending order of rank. -/
namespace StreamQueues
open Function RankedLists List

/-- High priority messages are in band 0. -/
def Mblk.settled (m : Mblk) : Mblk := if m.queclass = QPCTL then { m with b_band := 0 } else m

/-- The messages in line, what is in them, and how many bands have been used so far. -/
structure Line where
  messages : List Nat
  message : Nat → Mblk
  bands : Nat

namespace Line

def settle (x : Line) (bp supply : Nat) : Line × Bool :=
  let m := (x.message bp).settled
  let bands := max x.bands (min m.b_band (x.bands + supply))
  ({ x with message := update x.message bp m, bands := bands },
    decide (m.b_band.val ≤ bands))

/-- In line behind the messages of the same rank. -/
def putq (x : Line) (bp supply : Nat) : Line × Bool :=
  match x.settle bp supply with
  | (x, true) => ({ x with
      messages := insertBack (fun a => (x.message a).rank) bp x.messages }, true)
  | (x, false) => (x, false)

/-- In line in front of the messages of the same rank. -/
def putbq (x : Line) (bp supply : Nat) : Line × Bool :=
  match x.settle bp supply with
  | (x, true) => ({ x with
      messages := insertFront (fun a => (x.message a).rank) bp x.messages }, true)
  | (x, false) => (x, false)

def rmvq (x : Line) (mp : Nat) : Line := { x with messages := x.messages.erase mp }

def getq (x : Line) : Line × Option Nat :=
  match x.messages.find? fun a => !(x.message a).noget with
  | some bp => (x.rmvq bp, some bp)
  | none => (x, none)

def flush (x : Line) (drop : Mblk → Bool) : Line × List Nat :=
  ({ x with messages := x.messages.filter fun a => !drop (x.message a) },
    x.messages.filter fun a => drop (x.message a))

def flushq (x : Line) (flag : Bool) : Line × List Nat :=
  x.flush fun m => flag || datamsg m.db_type

/-- High priority messages are no part of any band here. -/
def flushband (x : Line) (pri : Fin 256) (flag : Bool) : Line × List Nat :=
  x.flush fun m => decide (m.b_band = pri) && decide (m.db_type.val < QPCTL) &&
    (flag || datamsg m.db_type)

end Line

def Queue.line (q : Queue) (l : List Nat) : Line := ⟨l, q.message, q.q_nband⟩

end StreamQueues

/- `putq` and `putbq` as a whole: band allocation, list, counts. -/
namespace StreamQueues
open Function DoublyLinked RankedLists List

namespace Queue
variable {q t : Queue} {l us vs : List Nat} {a b bp i band n : Nat} {d : DList Nat} {b : Qband}

theorem addBands_same (band supply : Nat) : (q.addBands band supply).1.list = q.list ∧
    (q.addBands band supply).1.message = q.message ∧
    (q.addBands band supply).1.flow = q.flow ∧ (q.addBands band supply).1.nmblk = q.nmblk := by
  induction supply generalizing q with
  | zero => exact ⟨rfl, rfl, rfl, rfl⟩
  | succ supply ih =>
    unfold addBands
    split
    · exact ih
    · exact ⟨rfl, rfl, rfl, rfl⟩

theorem addBands_bands (band supply : Nat) : (q.addBands band supply).1.q_nband =
      max q.q_nband (min band (q.q_nband + supply)) ∧
    (q.addBands band supply).2 = decide (band ≤ q.q_nband + supply) := by
  induction supply generalizing q with
  | zero =>
    refine ⟨?_, rfl⟩
    change q.q_nband = _
    omega
  | succ supply ih =>
    unfold addBands
    split
    · obtain ⟨bands, result⟩ := ih (q := { q with
        q_bandp := update q.q_bandp (q.q_nband + 1)
          { count := 0, hiwat := q.flow.hiwat, lowat := q.flow.lowat, full := false,
            qb_first := none, qb_last := none }
        q_nband := q.q_nband + 1 })
      rw [bands, result]
      refine ⟨?_, decide_eq_decide.mpr ?_⟩ <;> dsimp only <;> omega
    · refine ⟨?_, ?_⟩
      · dsimp only
        omega
      · exact (decide_eq_true (by omega)).symm

theorem inBand_absent (fits : ∀ a ∈ l, q.Fits a) (above : q.q_nband < i) : q.inBand i l = [] := by
  apply filter_eq_nil_iff.mpr
  intro a mem
  have := (fits a mem).band
  simp only [decide_eq_true_eq]
  omega

theorem Exact.addBands_ok (books : q.Exact l) (band supply : Nat) :
    (q.addBands band supply).1.Exact l := by
  induction supply generalizing q with
  | zero => exact books
  | succ supply ih =>
    unfold addBands
    split
    · refine ih ⟨books.links, fun a mem => ?_, books.flow, ?_⟩
      · obtain ⟨known, high, inside⟩ := books.fits a mem
        exact ⟨known, high, Nat.le_succ_of_le inside⟩
      · intro i pos inside
        by_cases new : i = q.q_nband + 1
        · subst new
          have absent := inBand_absent books.fits (Nat.lt_succ_self q.q_nband)
          dsimp only
          rw [update_self]
          change Qband.Shows _ (q.inBand _ l) (((q.inBand _ l).map _).sum)
          rw [absent]
          exact ⟨rfl, rfl, Flow.right_cleared (f := q.flow) books.flow.room⟩
        · dsimp only
          rw [update_of_ne new]
          exact books.bands i pos (by dsimp only at inside; omega)
    · exact books

theorem Fits.congr (fits : q.Fits a) (message : t.message a = q.message a)
    (nmblk : t.nmblk = q.nmblk) (bands : q.q_nband ≤ t.q_nband) : t.Fits a := by
  obtain ⟨known, high, inside⟩ := fits
  refine ⟨?_, ?_, ?_⟩
  · rwa [nmblk]
  · rwa [message]
  · rw [message]
    exact Nat.le_trans inside bands

theorem inBand_congr (same : ∀ x ∈ l, t.message x = q.message x) : t.inBand i l = q.inBand i l := by
  apply filter_congr
  intro x mem
  simp only [same x mem]

theorem total_congr (same : ∀ x ∈ l, t.message x = q.message x) : t.total i l = q.total i l := by
  unfold total
  rw [inBand_congr same]
  congr 1
  apply map_congr_left
  intro x mem
  rw [same x (mem_filter.mp mem).1]

theorem Exact.congr (books : q.Exact l) (links : t.list.Holds l)
    (same : ∀ x ∈ l, t.message x = q.message x) (nmblk : t.nmblk = q.nmblk)
    (q_nband : t.q_nband = q.q_nband) (flow : t.flow = q.flow) (q_bandp : t.q_bandp = q.q_bandp) :
    t.Exact l := by
  refine ⟨links, fun x mem => (books.fits x mem).congr (same x mem) nmblk q_nband.ge, ?_, ?_⟩
  · rw [total_congr same, flow]
    exact books.flow
  · intro i pos inside
    rw [inBand_congr same, total_congr same, q_bandp]
    exact books.bands i pos (q_nband ▸ inside)

theorem sorted_congr (sorted : Sorted q.rank l) (same : ∀ x ∈ l, t.message x = q.message x) :
    Sorted t.rank l := by
  refine sorted.congr fun x mem => ?_
  unfold rank
  rw [same x mem]

theorem Ok.congr (ok : q.Ok l) (links : t.list.Holds l) (same : ∀ x ∈ l, t.message x = q.message x)
    (nmblk : t.nmblk = q.nmblk) (q_nband : t.q_nband = q.q_nband) (flow : t.flow = q.flow)
    (q_bandp : t.q_bandp = q.q_bandp) : t.Ok l :=
  (ok.exact.congr links same nmblk q_nband flow q_bandp).ok (sorted_congr ok.sorted same)

theorem sane_eq (q : Queue) (bp supply : Nat) :
    (q.sane bp supply).1.line l = ((q.line l).settle bp supply).1 ∧
    (q.sane bp supply).2 = ((q.line l).settle bp supply).2 ∧
    (q.sane bp supply).1.list = q.list ∧ (q.sane bp supply).1.nmblk = q.nmblk := by
  unfold sane Line.settle line
  dsimp only
  by_cases ctl : (q.message bp).queclass = QPCTL
  · have settled : (q.message bp).settled = { q.message bp with b_band := 0 } := if_pos ctl
    rw [if_pos ctl, settled]
    refine ⟨?_, ?_, rfl, rfl⟩ <;> simp
  have settled : (q.message bp).settled = q.message bp := if_neg ctl
  rw [if_neg ctl, settled, update_eq_self]
  by_cases banded : (q.message bp).b_band ≠ 0
  · rw [if_pos banded]
    obtain ⟨list, message, -, nmblk⟩ := addBands_same (q := q) (q.message bp).b_band supply
    obtain ⟨bands, result⟩ := addBands_bands (q := q) (q.message bp).b_band supply
    rw [list, message, nmblk, bands, result]
    refine ⟨rfl, decide_eq_decide.mpr ?_, rfl, rfl⟩
    omega
  · rw [if_neg banded, Classical.not_not.mp banded]
    refine ⟨?_, ?_, rfl, rfl⟩ <;> simp

theorem sane_message (off : bp ∉ l) (supply : Nat) :
    ∀ x ∈ l, (q.sane bp supply).1.message x = q.message x := by
  intro x mem
  have other : x ≠ bp := by
    rintro rfl
    exact off mem
  unfold sane
  dsimp only
  split
  · exact update_of_ne other _ _
  · split
    · rw [(addBands_same _ _).2.1]
    · rfl

theorem Exact.sane_ok (books : q.Exact l) (off : bp ∉ l) (supply : Nat) :
    (q.sane bp supply).1.Exact l := by
  have same := sane_message (q := q) off supply
  unfold sane at same ⊢
  dsimp only at same ⊢
  split at same
  · rename_i ctl
    rw [if_pos ctl]
    exact books.congr books.links same rfl rfl rfl rfl
  · rename_i norm
    rw [if_neg norm]
    split
    · exact books.addBands_ok _ _
    · exact books

theorem Ok.sane_ok (ok : q.Ok l) (off : bp ∉ l) (supply : Nat) : (q.sane bp supply).1.Ok l :=
  (ok.exact.sane_ok off supply).ok (sorted_congr ok.sorted (sane_message off supply))

theorem sane_fits (known : bp < q.nmblk) (supply : Nat) (fine : (q.sane bp supply).2 = true) :
    (q.sane bp supply).1.Fits bp := by
  have settled := sane_eq (l := []) q bp supply
  obtain ⟨line, result, -, nmblk⟩ := settled
  rw [result] at fine
  have message : (q.sane bp supply).1.message = _ := congrArg Line.message line
  have bands : (q.sane bp supply).1.q_nband = _ := congrArg Line.bands line
  have here : (q.sane bp supply).1.message bp = (q.message bp).settled := by
    rw [message]
    exact update_self _ _ _
  refine ⟨?_, ?_, ?_⟩
  · rwa [nmblk]
  · rw [here]
    unfold Mblk.settled
    split
    · exact fun _ => rfl
    · rename_i norm
      exact fun ctl => absurd (Mblk.queclass_eq.mpr ctl) norm
  · rw [here, bands]
    exact of_decide_eq_true fine

theorem Ok.sane_run (ok : q.Ok l) (off : bp ∉ l) (known : bp < q.nmblk) (supply : Nat) :
    ∃ q₁ fine, q.sane bp supply = (q₁, fine) ∧
      (q.line l).settle bp supply = (q₁.line l, fine) ∧ q₁.Ok l ∧
      (fine = true → q₁.Fits bp) ∧ q₁.list = q.list ∧ q₁.nmblk = q.nmblk := by
  obtain ⟨line, result, list, nmblk⟩ := sane_eq (l := l) q bp supply
  exact ⟨_, _, rfl, Prod.ext line.symm result.symm, ok.sane_ok off supply,
    sane_fits known supply, list, nmblk⟩

section Enter
variable (fits : q.Fits bp) {d : DList Nat} (links : d.Holds (us ++ bp :: vs)) (f : Qband → Qband)
  (flow : ∀ b, (f b).toFlow = b.toFlow.charge (q.message bp).sizes)
  (first : (q.message bp).b_band ≠ 0 → (f (q.q_bandp (q.message bp).b_band)).qb_first =
    (q.inBand (q.message bp).b_band (us ++ bp :: vs)).head?)
  (last : (q.message bp).b_band ≠ 0 → (f (q.q_bandp (q.message bp).b_band)).qb_last =
    (q.inBand (q.message bp).b_band (us ++ bp :: vs)).getLast?)
include fits links flow first last

theorem Exact.enter_ok (books : q.Exact (us ++ vs)) :
    ∃ t, q.enter bp d f = some t ∧ t.Exact (us ++ bp :: vs) ∧ t.list = d ∧
      t.message = q.message ∧ t.q_nband = q.q_nband ∧ t.nmblk = q.nmblk := by
  have grown : q.total (q.message bp).b_band (us ++ bp :: vs) =
      (q.message bp).size + q.total (q.message bp).b_band (us ++ vs) := total_middle_same rfl
  have all_fit : ∀ x ∈ us ++ bp :: vs, q.Fits x := fun x mem => by
    have cases : x = bp ∨ x ∈ us ++ vs := by
      simp only [mem_append, mem_cons] at mem ⊢
      tauto
    rcases cases with rfl | mem
    · exact fits
    · exact books.fits x mem
  have others : ∀ i, i ≠ (q.message bp).b_band.val →
      q.inBand i (us ++ bp :: vs) = q.inBand i (us ++ vs) := fun i other =>
    inBand_middle_other (Ne.symm other)
  unfold enter
  by_cases zero : (q.message bp).b_band = 0
  · rw [if_pos zero]
    refine ⟨_, rfl, books.turned all_fit others ⟨links, rfl, rfl, rfl, fun _ => ?_, ?_⟩,
      rfl, rfl, rfl, rfl⟩
    · rw [zero] at grown
      exact ⟨rfl, books.flow.charge _ grown⟩
    · exact fun banded => absurd zero banded
  · rw [if_neg zero, fits.qband_eq]
    have pos : 0 < (q.message bp).b_band.val := Nat.pos_of_ne_zero fun eq => zero (Fin.ext eq)
    have shows := books.bands _ pos fits.band
    refine ⟨_, rfl, books.turned all_fit others ⟨links, rfl, rfl, rfl, ?_, fun _ => ?_⟩,
      rfl, rfl, rfl, rfl⟩
    · exact fun eq => absurd eq zero
    · refine ⟨rfl, _, rfl, first zero, last zero, ?_⟩
      rw [flow]
      exact shows.flow.charge _ grown

theorem Ok.enter_ok (ok : q.Ok (us ++ vs)) (front : ∀ x ∈ us, q.rank bp ≤ q.rank x)
    (back : ∀ x ∈ vs, q.rank x ≤ q.rank bp) :
    ∃ t, q.enter bp d f = some t ∧ t.Ok (us ++ bp :: vs) ∧ t.list = d ∧
      t.message = q.message ∧ t.q_nband = q.q_nband ∧ t.nmblk = q.nmblk := by
  obtain ⟨t, entered, books, list, message, frame⟩ :=
    Exact.enter_ok fits links f flow first last ok.exact
  have sorted := ok.sorted.middle front back
  rw [← rank_message message] at sorted
  exact ⟨t, entered, books.ok sorted, list, message, frame⟩

end Enter

theorem PutBack.block (put : q.PutBack bp l d us vs) (ok : q.Ok l) (fits : q.Fits bp)
    (banded : (q.message bp).b_band ≠ 0) :
    q.inBand (q.message bp).b_band (us ++ bp :: vs) = q.inBand (q.message bp).b_band l ++ [bp] := by
  have norm : ¬QPCTL ≤ (q.message bp).db_type.val := fun ctl => banded (fits.high ctl)
  have pos : 0 < (q.message bp).b_band.val := Nat.pos_of_ne_zero fun zero => banded (Fin.ext zero)
  have fits_vs : ∀ x ∈ vs, q.Fits x := fun x mem => by
    apply ok.fits
    rw [put.split]
    exact mem_append_right _ mem
  have none_behind : q.inBand (q.message bp).b_band vs = [] := by
    rw [inBand_eq_ranked fits_vs pos (q.message bp).b_band.isLt, ← rank_norm norm]
    exact ranked_none fun x mem => (put.back x mem).ne
  rw [put.split, inBand_append, inBand_append, inBand_cons_same rfl, none_behind, append_nil]

theorem PutFront.block (put : q.PutFront bp l d us vs) (ok : q.Ok l) (fits : q.Fits bp)
    (banded : (q.message bp).b_band ≠ 0) :
    q.inBand (q.message bp).b_band (us ++ bp :: vs) = bp :: q.inBand (q.message bp).b_band l := by
  have norm : ¬QPCTL ≤ (q.message bp).db_type.val := fun ctl => banded (fits.high ctl)
  have pos : 0 < (q.message bp).b_band.val := Nat.pos_of_ne_zero fun zero => banded (Fin.ext zero)
  have fits_us : ∀ x ∈ us, q.Fits x := fun x mem => by
    apply ok.fits
    rw [put.split]
    exact mem_append_left _ mem
  have none_before : q.inBand (q.message bp).b_band us = [] := by
    rw [inBand_eq_ranked fits_us pos (q.message bp).b_band.isLt, ← rank_norm norm]
    exact ranked_none fun x mem => (put.front x mem).ne'
  rw [put.split, inBand_append, inBand_append, inBand_cons_same rfl, none_before, nil_append,
    nil_append]

theorem Exact.putqBand_ends (books : q.Exact l) (shows : b.Shows (q.inBand band l) n) (bp : Nat) :
    (q.putqBand bp b).qb_first = (q.inBand band l ++ [bp]).head? ∧
      (q.putqBand bp b).qb_last = (q.inBand band l ++ [bp]).getLast? := by
  rw [head?_append, getLast?_concat, ← shows.first]
  refine ⟨?_, rfl⟩
  unfold putqBand
  by_cases first : q.list.first = none ∨ b.qb_first = none
  · have none_here : b.qb_first = none := by
      rcases first with empty | none_here
      · rw [shows.first, books.empty empty]
        rfl
      · exact none_here
    rw [if_pos first, none_here]
    rfl
  · obtain ⟨f, some_here⟩ := Option.ne_none_iff_exists'.mp (not_or.mp first).2
    rw [if_neg first, some_here]
    rfl

theorem Exact.putbqBand_ends (books : q.Exact l) (shows : b.Shows (q.inBand band l) n) (bp : Nat) :
    (q.putbqBand bp b).qb_first = (bp :: q.inBand band l).head? ∧
      (q.putbqBand bp b).qb_last = (bp :: q.inBand band l).getLast? := by
  refine ⟨rfl, ?_⟩
  unfold putbqBand
  by_cases first : q.list.first = none ∨ b.qb_first = none
  · have none_here : q.inBand band l = [] := by
      rcases first with empty | none_here
      · rw [books.empty empty]
        rfl
      · exact head?_eq_none_iff.mp (shows.first.symm.trans none_here)
    rw [if_pos first, none_here]
    rfl
  · have some_here := (not_or.mp first).2
    rw [shows.first] at some_here
    obtain ⟨x, xs, block⟩ := exists_cons_of_ne_nil fun none_here =>
      some_here (head?_eq_none_iff.mpr none_here)
    rw [if_neg first, shows.last, block, getLast?_cons_cons]

theorem Ok.putq_ok (ok : q.Ok l) (off : bp ∉ l) (known : bp < q.nmblk) (supply : Nat) :
    ∃ t, q.putq bp supply = some (t, ((q.line l).putq bp supply).2) ∧
      t.Ok ((q.line l).putq bp supply).1.messages ∧
      t.line ((q.line l).putq bp supply).1.messages = ((q.line l).putq bp supply).1 ∧
      t.nmblk = q.nmblk ∧ ∀ x, x ∉ l → x ≠ bp → t.list.next x = q.list.next x := by
  obtain ⟨q₁, fine, pair, settled, ok, fits, list, nmblk⟩ := ok.sane_run off known supply
  unfold putq Line.putq
  rw [pair, settled]
  cases fine with
  | false => exact ⟨q₁, rfl, ok, rfl, nmblk, fun x _ _ => by rw [list]⟩
  | true =>
    have fits := fits rfl
    obtain ⟨d, us, vs, linked, put⟩ := ok.putqLink_ok fits off
    obtain rfl := put.split
    have shows := fun banded : (q₁.message bp).b_band ≠ 0 => ok.bands (q₁.message bp).b_band
      (Nat.pos_of_ne_zero fun zero => banded (Fin.ext zero)) fits.band
    obtain ⟨t, entered, t_ok, t_list, t_message, t_nband, t_nmblk⟩ :=
      Ok.enter_ok fits put.links (q₁.putqBand bp) (fun _ => rfl)
        (fun banded => put.block ok fits banded ▸ (ok.exact.putqBand_ends (shows banded) bp).1)
        (fun banded => put.block ok fits banded ▸ (ok.exact.putqBand_ends (shows banded) bp).2)
        ok put.front fun x mem => (put.back x mem).le
    have place : insertBack (fun a => ((q₁.line (us ++ vs)).message a).rank) bp
        (q₁.line (us ++ vs)).messages = us ++ bp :: vs := insertBack_eq put.front put.back
    dsimp only
    rw [linked, place]
    dsimp only [Option.bind_eq_bind, Option.bind_some]
    rw [entered]
    refine ⟨t, rfl, t_ok, ?_, t_nmblk.trans nmblk, ?_⟩
    · unfold line
      rw [t_message, t_nband]
    · intro x outside other
      rw [t_list, put.frame x outside other, list]

theorem Ok.putbq_ok (ok : q.Ok l) (off : bp ∉ l) (known : bp < q.nmblk) (supply : Nat) :
    ∃ t, q.putbq bp supply = some (t, ((q.line l).putbq bp supply).2) ∧
      t.Ok ((q.line l).putbq bp supply).1.messages ∧
      t.line ((q.line l).putbq bp supply).1.messages = ((q.line l).putbq bp supply).1 ∧
      t.nmblk = q.nmblk := by
  obtain ⟨q₁, fine, pair, settled, ok, fits, -, nmblk⟩ := ok.sane_run off known supply
  unfold putbq Line.putbq
  rw [pair, settled]
  cases fine with
  | false => exact ⟨q₁, rfl, ok, rfl, nmblk⟩
  | true =>
    have fits := fits rfl
    obtain ⟨d, us, vs, linked, put⟩ := ok.putbqLink_ok fits off
    obtain rfl := put.split
    have shows := fun banded : (q₁.message bp).b_band ≠ 0 => ok.bands (q₁.message bp).b_band
      (Nat.pos_of_ne_zero fun zero => banded (Fin.ext zero)) fits.band
    obtain ⟨t, entered, t_ok, -, t_message, t_nband, t_nmblk⟩ :=
      Ok.enter_ok fits put.links (q₁.putbqBand bp) (fun _ => rfl)
        (fun banded => put.block ok fits banded ▸ (ok.exact.putbqBand_ends (shows banded) bp).1)
        (fun banded => put.block ok fits banded ▸ (ok.exact.putbqBand_ends (shows banded) bp).2)
        ok (fun x mem => (put.front x mem).le) put.back
    have place : insertFront (fun a => ((q₁.line (us ++ vs)).message a).rank) bp
        (q₁.line (us ++ vs)).messages = us ++ bp :: vs := insertFront_eq put.front put.back
    dsimp only
    rw [linked, place]
    dsimp only [Option.bind_eq_bind, Option.bind_some]
    rw [entered]
    refine ⟨t, rfl, t_ok, ?_, t_nmblk.trans nmblk⟩
    unfold line
    rw [t_message, t_nband]

end Queue
end StreamQueues
