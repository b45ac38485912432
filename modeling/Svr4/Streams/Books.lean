import Svr4.Streams.Queueing
import Svr4.Streams.Sides

/- `insq`, which takes the place of a message from its caller and finds the ends of the band by
   looking at the neighbours. -/
namespace StreamQueues
open Function DoublyLinked RankedLists Blocks LabelledRuns List Option Bool

namespace Queue
variable {q t : Queue} {l us vs xs ys zs : List Nat} {a b e p mp i : Nat} {emp : Option Nat}

def Beside (q : Queue) (l : List Nat) (emp : Option Nat) (mp : Nat) : Prop :=
  (q.message mp).queclass = QNORM → (q.message mp).b_band ≠ 0 →
    q.inBand (q.message mp).b_band l = [] ∨ ∃ e, emp = some e ∧
      ((q.message e).b_band = (q.message mp).b_band ∨
        ∃ b_prev, q.list.prev e = some b_prev ∧ (q.message b_prev).b_band = (q.message mp).b_band)

theorem forced_sane (q : Queue) (mp supply : Nat) : q.sane mp supply =
    (if ((q.forced mp).message mp).b_band ≠ 0 then
      (q.forced mp).addBands ((q.forced mp).message mp).b_band supply
    else (q.forced mp, true)) := by
  unfold sane forced
  dsimp only
  split
  · have zero : (update q.message mp { q.message mp with b_band := 0 } mp).b_band = 0 := by
      rw [update_self]
    exact (if_neg (not_not.mpr zero)).symm
  · rfl

theorem queclass_norm {m : Mblk} : m.queclass = QNORM ↔ ¬QPCTL ≤ m.db_type.val := by
  unfold Mblk.queclass QPCTL QNORM
  split <;> simp [*]

theorem badord_congr (list : t.list = q.list) (message : t.message = q.message) :
    t.badord emp mp = q.badord emp mp := by
  unfold badord
  rw [list, message]

theorem sane_forced (q : Queue) (mp supply : Nat) : (q.sane mp supply).1.list = (q.forced mp).list ∧
    (q.sane mp supply).1.message = (q.forced mp).message := by
  rw [forced_sane]
  split
  · obtain ⟨list, message, -⟩ := addBands_same (q := q.forced mp)
      ((q.forced mp).message mp).b_band supply
    exact ⟨list, message⟩
  · exact ⟨rfl, rfl⟩

theorem insq_eq (q : Queue) (emp : Option Nat) (mp supply : Nat) : q.insq emp mp supply =
    if (q.sane mp supply).1.badord emp mp then some (q.forced mp, false)
    else match q.sane mp supply with
      | (q, false) => some (q, false)
      | (q, true) => (q.enter mp (q.insqLink emp mp) (q.insqBand emp mp)).bind fun q =>
        some (q, true) := by
  obtain ⟨list, message⟩ := sane_forced q mp supply
  rw [badord_congr list message, forced_sane]
  rfl

structure Placed (q : Queue) (us vs : List Nat) (mp : Nat) : Prop where
  behind : ∀ e, vs.head? = some e → ¬QPCTL ≤ (q.message mp).db_type.val →
    (q.message e).b_band ≤ (q.message mp).b_band
  between : ∀ e b_prev, vs.head? = some e → us.getLast? = some b_prev →
    ¬QPCTL ≤ (q.message b_prev).db_type.val →
    ¬QPCTL ≤ (q.message mp).db_type.val ∧ (q.message mp).b_band ≤ (q.message b_prev).b_band

theorem Exact.placed (books : q.Exact (us ++ vs)) (fine : q.badord vs.head? mp = false) :
    q.Placed us vs mp := by
  unfold badord at fine
  cases vs with
  | nil => exact ⟨nofun, nofun⟩
  | cons e vs =>
    rw [head?_cons] at fine
    dsimp only at fine
    rw [books.links.prev_eq, or_eq_false_iff, decide_eq_false_iff_not, queclass_norm] at fine
    obtain ⟨order, above⟩ := fine
    refine ⟨?_, ?_⟩
    · rintro e ⟨⟩ norm
      exact Fin.not_lt.mp fun less => order ⟨norm, less⟩
    · rintro e b_prev ⟨⟩ last norm
      rw [last] at above
      dsimp only at above
      rw [decide_eq_true (Nat.lt_of_not_le norm), Bool.true_and, Bool.or_eq_false_iff,
        decide_eq_false_iff_not, decide_eq_false_iff_not, Mblk.queclass_eq] at above
      exact ⟨above.1, Fin.not_lt.mp above.2⟩

theorem Exact.insqLink_ok (books : q.Exact (us ++ vs)) (off : mp ∉ us ++ vs) :
    (q.insqLink vs.head? mp).Holds (us ++ mp :: vs) := by
  cases vs with
  | cons e vs => exact books.links.insertBefore_ok off
  | nil =>
    unfold insqLink
    rw [head?_nil]
    rw [books.links.last]
    cases last : (us ++ []).getLast? with
    | none =>
      obtain rfl : us = [] := by simpa using last
      exact books.links.single_ok
    | some tmp =>
      have linked := books.links.tackOn_ok last off
      rwa [append_nil] at linked

theorem Booked.insq_side (booked : q.Booked (us ++ vs)) (placed : q.Placed us vs mp) (pos : 0 < i)
    (other : i ≠ (q.message mp).b_band.val) :
    (∀ x ∈ us, q.ofBand i x = false) ∨ ∀ x ∈ vs, q.ofBand i x = false := by
  cases vs with
  | nil => exact .inr nofun
  | cons e vs =>
    cases here : q.ofBand i e with
    | false => exact booked.side_of pos here
    | true =>
      rcases eq_nil_or_concat us with rfl | ⟨us, b_prev, rfl⟩
      · exact .inl nofun
      rw [concat_eq_append] at booked placed ⊢
      cases there : q.ofBand i b_prev with
      | false =>
        rw [← append_cons] at booked
        have sides := (booked.together i pos).apart there
        rcases sides with front | back
        · refine .inl fun x mem => ?_
          rcases mem_append.mp mem with early | late
          · exact front x early
          · rwa [mem_singleton.mp late]
        · rw [back e mem_cons_self] at here
          exact absurd here false_ne_true
      | true =>
        -- the band of the message would be the one it splits
        have e_band : (q.message e).b_band.val = i := of_decide_eq_true here
        have prev_band : (q.message b_prev).b_band.val = i := of_decide_eq_true there
        have norm : ¬QPCTL ≤ (q.message b_prev).db_type.val := fun ctl => by
          have zero := (booked.fits b_prev (by simp)).high ctl
          rw [zero] at prev_band
          exact absurd prev_band pos.ne
        obtain ⟨mp_norm, upper⟩ := placed.between e b_prev rfl getLast?_concat norm
        have lower := placed.behind e rfl mp_norm
        omega

theorem insqBand_new (q : Queue) (emp : Option Nat) (mp : Nat) {qbp : Qband}
    (new : qbp.qb_first = none) :
    (q.insqBand emp mp qbp).qb_first = some mp ∧ (q.insqBand emp mp qbp).qb_last = some mp :=
  ⟨if_pos (.inl new), if_pos new⟩

theorem head?_middle (some_here : xs ≠ []) : (xs ++ ys).head? = (xs ++ zs).head? := by
  cases xs with
  | nil => exact absurd rfl some_here
  | cons x xs => rfl

theorem getLast?_middle (some_here : zs ≠ []) : (xs ++ zs).getLast? = (ys ++ zs).getLast? := by
  obtain ⟨ws, w, rfl⟩ := (eq_nil_or_concat zs).resolve_left some_here
  rw [concat_eq_append, ← append_assoc, ← append_assoc, getLast?_concat, getLast?_concat]

theorem Booked.insqBand_ends (booked : q.Booked (us ++ vs)) (fits : q.Fits mp)
    (banded : (q.message mp).b_band ≠ 0) (beside : q.Beside (us ++ vs) vs.head? mp) :
    (q.insqBand vs.head? mp (q.q_bandp (q.message mp).b_band)).qb_first =
        (q.inBand (q.message mp).b_band (us ++ mp :: vs)).head? ∧
      (q.insqBand vs.head? mp (q.q_bandp (q.message mp).b_band)).qb_last =
        (q.inBand (q.message mp).b_band (us ++ mp :: vs)).getLast? ∧
      Together (q.ofBand (q.message mp).b_band) (us ++ mp :: vs) := by
  have together := booked.together _ (band_pos banded)
  have shows := booked.bands _ (band_pos banded) fits.band
  have first := shows.first
  have last := shows.last
  rw [inBand_append] at first last
  rw [inBand_append, inBand_cons_same rfl]
  rcases beside (queclass_norm.mpr (fits.norm banded)) banded with absent | ⟨e, emp_eq, near⟩
  · rw [inBand_append] at absent
    obtain ⟨no_front, no_back⟩ := append_eq_nil_iff.mp absent
    rw [no_front, no_back] at first ⊢
    obtain ⟨first_eq, last_eq⟩ := insqBand_new q vs.head? mp first
    exact ⟨first_eq, last_eq, together_insert_new (inBand_nil.mp no_front) (inBand_nil.mp no_back)⟩
  obtain ⟨vs, rfl⟩ := head?_eq_some_iff.mp emp_eq
  unfold insqBand
  rw [head?_cons]
  dsimp only
  by_cases e_band : (q.message e).b_band = (q.message mp).b_band
  · have e_here : q.ofBand (q.message mp).b_band e = true :=
      decide_eq_true (congrArg Fin.val e_band)
    rw [inBand_cons_same (congrArg Fin.val e_band)] at first last ⊢
    have some_first : (q.q_bandp (q.message mp).b_band).qb_first ≠ none := by
      rw [first]
      simp
    have bottom : (q.inBand (q.message mp).b_band us ++ mp :: e :: q.inBand (q.message mp).b_band
        vs).getLast? = (q.inBand (q.message mp).b_band us ++ e :: q.inBand (q.message mp).b_band
        vs).getLast? := by
      rw [append_cons]
      exact getLast?_middle (cons_ne_nil _ _)
    refine ⟨?_, ?_, together.insert_front e_here ofBand_self⟩
    · by_cases front : q.inBand (q.message mp).b_band us = []
      · have at_first : (q.q_bandp (q.message mp).b_band).qb_first = some e := by
          rw [first, front]
          rfl
        rw [if_pos (.inr at_first), front]
        rfl
      have not_first : ¬(q.q_bandp (q.message mp).b_band).qb_first = some e := by
        obtain ⟨x, xs, block⟩ := exists_cons_of_ne_nil front
        rw [first, block]
        intro same
        obtain rfl : x = e := some.inj same
        have x_mem : x ∈ us := (mem_filter.mp (block ▸ mem_cons_self)).1
        exact (nodup_append.mp booked.links.nodup).2.2 x x_mem x mem_cons_self rfl
      rw [if_neg (not_or.mpr ⟨some_first, not_first⟩), first]
      exact head?_middle front
    · rw [if_neg some_first, if_neg (not_not.mpr e_band), ite_self, last, bottom]
  · have e_other : q.ofBand (q.message mp).b_band e = false :=
      ofBand_other fun same => e_band (Fin.ext same)
    obtain ⟨b_prev, prev_eq, prev_band⟩ := near.resolve_left e_band
    rw [booked.links.prev_eq] at prev_eq
    have prev_mem := mem_of_getLast? prev_eq
    have prev_here : q.ofBand (q.message mp).b_band b_prev = true :=
      decide_eq_true (congrArg Fin.val prev_band)
    have front : q.inBand (q.message mp).b_band us ≠ [] :=
      ne_nil_of_mem (mem_filter.mpr ⟨prev_mem, prev_here⟩)
    have back : q.inBand (q.message mp).b_band vs = [] := by
      rcases together.apart e_other with none_front | none_back
      · rw [none_front b_prev prev_mem] at prev_here
        exact absurd prev_here false_ne_true
      · exact inBand_nil.mpr none_back
    have e_gone : q.inBand (q.message mp).b_band (e :: vs) = [] := by
      rw [inBand_cons_other fun same => e_band (Fin.ext same), back]
    rw [e_gone] at first last ⊢
    obtain ⟨x, xs, block⟩ := exists_cons_of_ne_nil front
    have not_first : ¬(q.q_bandp (q.message mp).b_band).qb_first = some e := by
      rw [first, block]
      intro same
      obtain rfl : x = e := some.inj same
      have x_mem := (mem_filter.mp (show x ∈ q.inBand (q.message mp).b_band us by
        rw [block]; exact mem_cons_self)).2
      rw [show decide _ = q.ofBand (q.message mp).b_band x from rfl, e_other] at x_mem
      exact false_ne_true x_mem
    have some_first : (q.q_bandp (q.message mp).b_band).qb_first ≠ none := by
      rw [first, block]
      exact some_ne_none x
    refine ⟨?_, ?_, ?_⟩
    · rw [if_neg (not_or.mpr ⟨some_first, not_first⟩), first]
      exact head?_middle front
    · rw [if_neg some_first, if_neg not_first, if_pos e_band, getLast?_concat]
    · obtain ⟨ws, rfl⟩ := getLast?_eq_some_iff.mp prev_eq
      rw [← append_cons] at together
      have joined := together.insert_back prev_here (ofBand_self (a := mp))
      rwa [append_cons] at joined

end Queue
end StreamQueues

/- When `insq` keeps the books of a queue, and queues on which it always does. -/
namespace StreamQueues
open Function DoublyLinked RankedLists Blocks LabelledRuns List

namespace Queue
variable {q t : Queue} {l us vs : List Nat} {a e mp i : Nat} {emp : Option Nat} {d : DList Nat}
  {f : Qband → Qband} {fine : Bool} {supply : Nat}

theorem enter_band (fits : q.Fits mp) (banded : (q.message mp).b_band ≠ 0)
    (entered : q.enter mp d f = some t) :
    t.q_bandp (q.message mp).b_band = f (q.q_bandp (q.message mp).b_band) ∧
      t.message = q.message ∧ t.q_nband = q.q_nband := by
  unfold enter at entered
  rw [if_neg banded, fits.qband_eq] at entered
  obtain rfl := Option.some.inj entered
  exact ⟨update_self _ _ _, rfl, rfl⟩

theorem Fits.enter_total (fits : q.Fits mp) (d : DList Nat) (f : Qband → Qband) :
    ∃ t, q.enter mp d f = some t ∧ t.nmblk = q.nmblk := by
  unfold enter
  dsimp only
  split
  · exact ⟨_, rfl, rfl⟩
  · rw [fits.qband_eq]
    exact ⟨_, rfl, rfl⟩

theorem beside_sane (q : Queue) (l : List Nat) (emp : Option Nat) (mp supply : Nat) :
    (q.sane mp supply).1.Beside l emp mp ↔ q.Beside l emp mp := by
  obtain ⟨list, message⟩ := sane_forced q mp supply
  by_cases ctl : (q.message mp).queclass = QPCTL
  · have zero : ((q.sane mp supply).1.message mp).b_band = 0 := by
      rw [message]
      unfold forced
      rw [if_pos ctl]
      simp
    constructor
    · intro _ norm
      exact absurd (Mblk.queclass_eq.mp ctl) (queclass_norm.mp norm)
    · exact fun _ _ banded => absurd zero banded
  · have same : q.forced mp = q := if_neg ctl
    rw [same] at list message
    unfold Beside
    rw [inBand_message message, list, message]

theorem Booked.insq_cases (booked : q.Booked (us ++ vs)) (off : mp ∉ us ++ vs)
    (known : mp < q.nmblk) (supply : Nat) : ∃ t fine, q.insq vs.head? mp supply = some (t, fine) ∧
      t.nmblk = q.nmblk ∧ (fine = false → t.Booked (us ++ vs)) ∧ (fine = true →
        (q.sane mp supply).1.Booked (us ++ vs) ∧ (q.sane mp supply).1.Fits mp ∧
        (q.sane mp supply).1.Placed us vs mp ∧
        (q.sane mp supply).1.enter mp ((q.sane mp supply).1.insqLink vs.head? mp)
          ((q.sane mp supply).1.insqBand vs.head? mp) = some t) := by
  have sane_booked := booked.sane_ok off supply
  have sane_fits := sane_fits known supply
  have nmblk := (sane_eq (l := us ++ vs) q mp supply).2.2.2
  obtain ⟨list, message⟩ := sane_forced q mp supply
  rw [insq_eq]
  cases rejected : (q.sane mp supply).1.badord vs.head? mp with
  | true =>
    refine ⟨_, false, if_pos rfl, ?_, fun _ => ?_, nofun⟩
    · unfold forced
      dsimp only
      split <;> rfl
    · have same := sane_message (q := q) off supply
      rw [message] at same
      unfold forced at same ⊢
      dsimp only at same ⊢
      split
      · rename_i ctl
        rw [if_pos ctl] at same
        exact booked.congr booked.links same rfl rfl rfl rfl
      · exact booked
  | false =>
    rw [if_neg Bool.false_ne_true]
    cases pair : q.sane mp supply with
    | mk q₁ fine =>
    rw [pair] at sane_booked sane_fits nmblk rejected
    replace booked : q₁.Booked (us ++ vs) := sane_booked
    cases fine with
    | false => exact ⟨q₁, false, rfl, nmblk, fun _ => booked, nofun⟩
    | true =>
      have fits : q₁.Fits mp := sane_fits rfl
      have placed : q₁.Placed us vs mp := booked.toExact.placed rejected
      obtain ⟨t, entered, t_nmblk⟩ := fits.enter_total (q₁.insqLink vs.head? mp)
        (q₁.insqBand vs.head? mp)
      dsimp only
      rw [entered]
      exact ⟨t, true, rfl, t_nmblk.trans nmblk, nofun, fun _ => ⟨booked, fits, placed, rfl⟩⟩

theorem Booked.insq_enter (booked : q.Booked (us ++ vs)) (off : mp ∉ us ++ vs) (fits : q.Fits mp)
    (placed : q.Placed us vs mp) (beside : q.Beside (us ++ vs) vs.head? mp)
    (entered : q.enter mp (q.insqLink vs.head? mp) (q.insqBand vs.head? mp) = some t) :
    t.Booked (us ++ mp :: vs) := by
  have ends := fun banded => booked.insqBand_ends fits banded beside
  obtain ⟨u, taken, books, -, message, -⟩ := Exact.enter_ok fits (booked.toExact.insqLink_ok off)
    (q.insqBand vs.head? mp) (fun _ => rfl) (fun banded => (ends banded).1)
    (fun banded => (ends banded).2.1) booked.toExact
  obtain rfl := Option.some.inj (taken.symm.trans entered)
  refine books.booked message fun i pos => ?_
  by_cases here : i = (q.message mp).b_band.val
  · subst here
    exact (ends fun zero => by rw [zero] at pos; exact absurd pos (lt_irrefl 0)).2.2
  · exact (booked.together i pos).insert_other (ofBand_other (Ne.symm here))
      (booked.insq_side placed pos here)

theorem Exact.insq_last (books : q.Exact (us ++ vs)) (off : mp ∉ us ++ vs) (fits : q.Fits mp)
    (astray : ¬q.Beside (us ++ vs) vs.head? mp)
    (entered : q.enter mp (q.insqLink vs.head? mp) (q.insqBand vs.head? mp) = some t)
    (right : t.Exact (us ++ mp :: vs)) : ∃ e vs', vs = e :: vs' ∧
      (q.message mp).b_band ≠ 0 ∧ q.inBand (q.message mp).b_band (us ++ vs) ≠ [] ∧
      q.inBand (q.message mp).b_band vs = [] ∧ q.ofBand (q.message mp).b_band e = false ∧
      ∀ p, us.getLast? = some p → q.ofBand (q.message mp).b_band p = false := by
  unfold Beside at astray
  push Not at astray
  obtain ⟨-, banded, some_here, far⟩ := astray
  obtain ⟨band, message, nband⟩ := enter_band fits banded entered
  have shows := books.bands _ (band_pos banded) fits.band
  have after := (right.bands _ (band_pos banded) (nband ▸ fits.band)).last
  rw [band, inBand_message message, inBand_append, inBand_cons_same rfl] at after
  obtain ⟨x, xs, block⟩ := exists_cons_of_ne_nil some_here
  have first : (q.q_bandp (q.message mp).b_band).qb_first = some x := by
    rw [shows.first, block]
    rfl
  have some_first : ¬(q.q_bandp (q.message mp).b_band).qb_first = none := by
    rw [first]
    exact Option.some_ne_none x
  have x_here := mem_filter.mp (show x ∈ q.inBand (q.message mp).b_band (us ++ vs) by
    rw [block]; exact mem_cons_self)
  cases vs with
  | nil =>
    have kept : (q.insqBand none mp (q.q_bandp (q.message mp).b_band)).qb_last =
        (q.q_bandp (q.message mp).b_band).qb_last := by
      unfold insqBand
      rw [if_neg some_first, if_neg some_first]
    rw [head?_nil, kept, shows.last] at after
    have mp_last : (q.inBand (q.message mp).b_band (us ++ [])).getLast? = some mp :=
      after.trans getLast?_concat
    exact absurd (mem_filter.mp (mem_of_getLast? mp_last)).1 off
  | cons e vs =>
    obtain ⟨e_other, prev_other⟩ := far e rfl
    have e_out : q.ofBand (q.message mp).b_band e = false :=
      ofBand_other fun same => e_other (Fin.ext same)
    refine ⟨e, vs, rfl, banded, some_here, ?_, e_out, ?_⟩
    · have not_first : ¬(q.q_bandp (q.message mp).b_band).qb_first = some e := by
        rw [first]
        intro same
        obtain rfl : x = e := Option.some.inj same
        rw [show decide _ = q.ofBand (q.message mp).b_band x from rfl, e_out] at x_here
        exact absurd x_here.2 Bool.false_ne_true
      have moved : (q.insqBand (some e) mp (q.q_bandp (q.message mp).b_band)).qb_last =
          some mp := by
        unfold insqBand
        dsimp only
        rw [if_neg some_first, if_neg not_first, if_pos e_other]
      rw [head?_cons, moved] at after
      by_contra some_behind
      obtain ⟨ws, w, back⟩ := (eq_nil_or_concat _).resolve_left some_behind
      rw [concat_eq_append] at back
      rw [back, ← cons_append, ← append_assoc, getLast?_concat] at after
      obtain rfl : mp = w := Option.some.inj after
      have mem : mp ∈ q.inBand (q.message mp).b_band (e :: vs) := by
        rw [back]
        simp
      exact off (mem_append_right _ (mem_filter.mp mem).1)
    · intro p last
      rw [← books.links.prev_eq] at last
      exact ofBand_other fun same => prev_other p last (Fin.ext same)

theorem Booked.insq_needs (booked : q.Booked (us ++ vs)) (off : mp ∉ us ++ vs) (fits : q.Fits mp)
    (entered : q.enter mp (q.insqLink vs.head? mp) (q.insqBand vs.head? mp) = some t)
    (right : t.Booked (us ++ mp :: vs)) : q.Beside (us ++ vs) vs.head? mp := by
  by_contra astray
  obtain ⟨e, vs', rfl, banded, some_here, no_back, -, prev_out⟩ :=
    booked.toExact.insq_last off fits astray entered right.toExact
  have message := (enter_band fits banded entered).2.1
  have together := right.together _ (band_pos banded)
  rw [ofBand_message message] at together
  have front := together.last_eq ofBand_self
  have no_front : q.inBand (q.message mp).b_band us = [] := by
    rw [← getLast?_eq_none_iff, inBand_eq_filter, front]
    cases last : us.getLast? with
    | none => rfl
    | some p => simp [Option.filter_some, prev_out p last]
  rw [inBand_append, no_front, no_back] at some_here
  exact some_here rfl

theorem Ok.insq_needs (ok : q.Ok (us ++ vs)) (off : mp ∉ us ++ vs) (fits : q.Fits mp)
    (placed : q.Placed us vs mp)
    (entered : q.enter mp (q.insqLink vs.head? mp) (q.insqBand vs.head? mp) = some t)
    (right : t.Exact (us ++ mp :: vs)) : q.Beside (us ++ vs) vs.head? mp := by
  by_contra astray
  obtain ⟨e, vs', rfl, banded, some_here, no_back, -, prev_out⟩ :=
    ok.exact.insq_last off fits astray entered right
  rw [inBand_append, no_back, append_nil] at some_here
  obtain ⟨x, xs, block⟩ := exists_cons_of_ne_nil some_here
  have x_here := mem_filter.mp (show x ∈ q.inBand (q.message mp).b_band us by
    rw [block]; exact mem_cons_self)
  have x_band : (q.message x).b_band.val = (q.message mp).b_band.val := of_decide_eq_true x_here.2
  have x_norm := (ok.fits x (mem_append_left _ x_here.1)).norm fun zero => banded
    (Fin.ext (x_band.symm.trans (congrArg Fin.val zero)))
  obtain ⟨p, last⟩ : ∃ p, us.getLast? = some p :=
    ⟨_, getLast?_eq_some_getLast (ne_nil_of_mem x_here.1)⟩
  -- the message in front of `emp` would be below the band of the new one
  have below := Sorted.above_last (pairwise_append.mp ok.sorted).1 last x_here.1
  have norm : ¬QPCTL ≤ (q.message p).db_type.val := fun ctl => by
    rw [rank_ctl ctl] at below
    exact x_norm (ctl_of_rank below)
  have above := (placed.between e p rfl last norm).2
  rw [rank_norm x_norm, rank_norm norm, x_band] at below
  have out := prev_out p last
  rw [ofBand, decide_eq_false_iff_not] at out
  exact out (le_antisymm below above)

end Queue

inductive Call where
  | putq (bp supply : Nat)
  | putbq (bp supply : Nat)
  | getq
  | rmvq (mp : Nat)
  | insq (emp : Option Nat) (mp supply : Nat)
  /-- Anything may happen to a message that is not on the queue. -/
  | outside (a : Nat) (next prev : Option Nat) (m : Mblk)

namespace Queue
variable {q t : Queue} {l us vs : List Nat} {mp supply : Nat} {c : Call}

/-- A message is put on one queue at a time, and `rmvq` and `insq` are given a message of their
    queue. -/
def Allows (q : Queue) : Call → Prop
  | .putq bp _ | .putbq bp _ => bp < q.nmblk ∧ bp ∉ q.messages
  | .getq => True
  | .rmvq mp => mp ∈ q.messages
  | .insq emp mp _ => mp < q.nmblk ∧ mp ∉ q.messages ∧ ∀ e, emp = some e → e ∈ q.messages
  | .outside a _ _ _ => a ∉ q.messages

def after (q : Queue) : Call → Option Queue
  | .putq bp supply => (q.putq bp supply).map Prod.fst
  | .putbq bp supply => (q.putbq bp supply).map Prod.fst
  | .getq => q.getq.map Prod.fst
  | .rmvq mp => q.rmvq mp
  | .insq emp mp supply => (q.insq emp mp supply).map Prod.fst
  | .outside a next prev m =>
      some { q with
        list := { q.list with
          next := update q.list.next a next
          prev := update q.list.prev a prev }
        message := update q.message a m }

instance (q : Queue) (c : Call) : Decidable (q.Allows c) :=
  match c with
  | .putq bp _ | .putbq bp _ => inferInstanceAs (Decidable (bp < q.nmblk ∧ bp ∉ q.messages))
  | .getq => inferInstanceAs (Decidable True)
  | .rmvq mp => inferInstanceAs (Decidable (mp ∈ q.messages))
  | .insq none mp _ =>
      decidable_of_iff (mp < q.nmblk ∧ mp ∉ q.messages)
        ⟨fun h => ⟨h.1, h.2, nofun⟩, fun h => ⟨h.1, h.2.1⟩⟩
  | .insq (some e) mp _ =>
      decidable_of_iff (mp < q.nmblk ∧ mp ∉ q.messages ∧ e ∈ q.messages)
        ⟨fun h => ⟨h.1, h.2.1, fun _ same => Option.some.inj same ▸ h.2.2⟩,
          fun h => ⟨h.1, h.2.1, h.2.2 e rfl⟩⟩
  | .outside a _ _ _ => inferInstanceAs (Decidable (a ∉ q.messages))

/-- `none` for what the callers never do, and for a NULL pointer that is followed. -/
def call (q : Queue) (c : Call) : Option Queue := if q.Allows c then q.after c else none

/-- `insq` is given a message next to one of its band. -/
def Tracks (q : Queue) : Call → Prop
  | .insq emp mp _ => q.Beside q.messages emp mp
  | _ => True

theorem Exact.messages_eq (books : q.Exact l) : q.messages = l := by
  unfold messages
  rw [books.links.first]
  exact books.links.forward.walk_eq books.length_le

theorem place_of {emp : Option Nat} (mem : ∀ e, emp = some e → e ∈ l) :
    ∃ us vs, l = us ++ vs ∧ emp = vs.head? := by
  cases emp with
  | none => exact ⟨l, [], (append_nil l).symm, rfl⟩
  | some e =>
    obtain ⟨us, vs, split⟩ := append_of_mem (mem e rfl)
    exact ⟨us, e :: vs, split, rfl⟩

theorem Booked.called (booked : q.Booked q.messages) (tracks : q.Tracks c)
    (taken : q.call c = some t) : t.Booked t.messages := by
  have done : ∀ {t : Queue} {l : List Nat}, t.Booked l → t.Booked t.messages := by
    intro t l here
    rwa [here.toExact.messages_eq]
  unfold call at taken
  by_cases allowed : q.Allows c
  swap
  · rw [if_neg allowed] at taken
    exact nomatch taken
  rw [if_pos allowed] at taken
  cases c with
  | putq bp supply =>
    obtain ⟨u, fine, l, put, here, -⟩ := booked.putq_ok allowed.2 allowed.1 supply
    change (q.putq bp supply).map Prod.fst = some t at taken
    rw [put] at taken
    obtain rfl := Option.some.inj taken
    exact done here
  | putbq bp supply =>
    obtain ⟨u, fine, l, put, here, -⟩ := booked.putbq_ok allowed.2 allowed.1 supply
    change (q.putbq bp supply).map Prod.fst = some t at taken
    rw [put] at taken
    obtain rfl := Option.some.inj taken
    exact done here
  | getq =>
    obtain ⟨u, got, here, -⟩ := booked.getq_ok
    change q.getq.map Prod.fst = some t at taken
    rw [got] at taken
    obtain rfl := Option.some.inj taken
    exact done here
  | rmvq mp =>
    obtain ⟨u, removed, here, -⟩ := booked.rmvq_line allowed
    obtain rfl := Option.some.inj (removed.symm.trans taken)
    exact done here
  | insq emp mp supply =>
    obtain ⟨known, off, mem⟩ := allowed
    change q.Beside q.messages emp mp at tracks
    obtain ⟨us, vs, split, rfl⟩ := place_of mem
    rw [split] at booked off tracks
    obtain ⟨u, fine, inserted, -, rejected, accepted⟩ := booked.insq_cases off known supply
    change (q.insq vs.head? mp supply).map Prod.fst = some t at taken
    rw [inserted] at taken
    obtain rfl := Option.some.inj taken
    cases fine with
    | false => exact done (rejected rfl)
    | true =>
      obtain ⟨here, fits, placed, entered⟩ := accepted rfl
      have beside := (beside_sane q _ _ mp supply).mpr tracks
      exact done (here.insq_enter off fits placed beside entered)
  | outside a next prev m =>
    have other : ∀ x ∈ q.messages, x ≠ a := fun x mem same => allowed (same ▸ mem)
    obtain rfl := Option.some.inj taken
    refine done (l := q.messages) (booked.congr ?_ ?_ rfl rfl rfl rfl)
    · exact booked.links.congr rfl rfl fun x mem =>
        ⟨update_of_ne (other x mem) _ _, update_of_ne (other x mem) _ _⟩
    · exact fun x mem => update_of_ne (other x mem) _ _

end Queue

/-- After `insq` has accepted a message, pointers and counts are exact, and stay so in later calls,
iff a banded message came next to one of its band, or is the only one of it. -/
theorem insq_keeps_books {q t : Queue} {us vs : List Nat} {mp supply : Nat}
    (booked : q.Booked (us ++ vs)) (off : mp ∉ us ++ vs) (known : mp < q.nmblk)
    (accepted : q.insq vs.head? mp supply = some (t, true)) :
    (t.Booked (us ++ mp :: vs) ↔ q.Beside (us ++ vs) vs.head? mp) ∧
    (q.Ok (us ++ vs) →
      (t.Exact (us ++ mp :: vs) ↔ q.Beside (us ++ vs) vs.head? mp)) ∧
    (q.Beside (us ++ vs) vs.head? mp → ∀ calls, Guarded Queue.call Queue.Tracks t calls →
      Throughout Queue.call (fun u => u.Booked u.messages) t calls) := by
  obtain ⟨u, fine, inserted, -, -, entering⟩ := booked.insq_cases off known supply
  obtain ⟨rfl, rfl⟩ := Prod.mk.inj (Option.some.inj (inserted.symm.trans accepted))
  obtain ⟨here, fits, placed, entered⟩ := entering rfl
  have same := Queue.beside_sane q (us ++ vs) vs.head? mp supply
  have enough : q.Beside (us ++ vs) vs.head? mp → u.Booked (us ++ mp :: vs) := fun beside =>
    here.insq_enter off fits placed (same.mpr beside) entered
  refine ⟨⟨fun right => ?_, enough⟩, fun ok => ⟨fun right => ?_, fun beside =>
    (enough beside).toExact⟩, fun beside calls guarded => ?_⟩
  · exact same.mp (here.insq_needs off fits entered right)
  · exact same.mp ((ok.sane_ok off supply).insq_needs off fits placed entered right)
  · have start : u.Booked u.messages := by
      rw [(enough beside).toExact.messages_eq]
      exact enough beside
    exact throughout_of_guarded (fun u => u.Booked u.messages) (fun _ right => right)
      (fun _ _ _ right tracks taken => right.called tracks taken) start guarded

theorem fourMessages_put : ∃ q, fourMessages.putq 0 9 = some (q, true) ∧ q.Ok [0] := by
  have start : fourMessages.Ok [] := Machine.new_ok ⟨rfl, rfl, rfl, rfl, rfl⟩ (by decide)
  have off : 0 ∉ ([] : List Nat) := not_mem_nil
  obtain ⟨q, put, ok, -⟩ := start.putq_ok off (by decide) 9
  exact ⟨q, put, ok⟩

/-- Put in front of the only message of its band, a message becomes the first of it. -/
theorem insq_keeps_books_front : ∃ q t : Queue, q.Ok [0] ∧ q.insq (some 0) 1 9 = some (t, true) ∧
    t.Booked [1, 0] ∧
    Throughout Queue.call (fun u => u.Booked u.messages) t [.getq, .putq 2 9] := by
  obtain ⟨q, put, ok⟩ := fourMessages_put
  have ran : (fourMessages.putq 0 9).bind (fun r => (r.1.insq (some 0) 1 9).map fun s =>
      (s.2, (r.1.message 0).b_band.val, (r.1.message 1).b_band.val, decide (1 < r.1.nmblk))) =
      some (true, 3, 3, true) := by decide +kernel
  rw [put] at ran
  obtain ⟨⟨t, fine⟩, inserted, seen⟩ := Option.map_eq_some_iff.mp ran
  obtain ⟨rfl, band, band', known⟩ : fine = true ∧ (q.message 0).b_band.val = 3 ∧
      (q.message 1).b_band.val = 3 ∧ decide (1 < q.nmblk) = true := by simpa using seen
  have beside : q.Beside ([] ++ [0]) [0].head? 1 := fun _ _ =>
    .inr ⟨0, rfl, .inl (Fin.ext (band.trans band'.symm))⟩
  have booked : q.Booked ([] ++ [0]) := ok.booked
  have placed := inserted
  obtain ⟨books, -, later⟩ := insq_keeps_books booked (by decide) (of_decide_eq_true known) placed
  refine ⟨q, t, ok, inserted, books.mpr beside, later beside _ ⟨trivial, fun _ _ => ?_⟩⟩
  exact ⟨trivial, fun _ _ => trivial⟩

/-- A message of the last band put at the end is not taken for its last one, and the next `getq`
leaves the band without messages, though one is queued. -/
theorem insq_end_stale : ∃ q t u : Queue, q.Ok [0] ∧ q.insq none 1 9 = some (t, true) ∧
    t.messages = [0, 1] ∧ (t.q_bandp 3).qb_last = some 0 ∧ ¬t.Exact [0, 1] ∧
    t.getq = some (u, some 0) ∧ u.messages = [1] ∧ (u.q_bandp 3).qb_first = none := by
  obtain ⟨q, put, ok⟩ := fourMessages_put
  have ran : (fourMessages.putq 0 9).bind (fun r => (r.1.insq none 1 9).map fun s =>
      (s.2, s.1.messages, (s.1.q_bandp 3).qb_last, s.1.q_nband, (s.1.message 1).b_band.val)) =
      some (true, [0, 1], some 0, 3, 3) := by decide +kernel
  have more : (fourMessages.putq 0 9).bind (fun r => (r.1.insq none 1 9).bind fun s =>
      s.1.getq.map fun u => (u.2, u.1.messages, (u.1.q_bandp 3).qb_first)) =
      some (some 0, [1], none) := by decide +kernel
  rw [put] at ran more
  obtain ⟨⟨t, fine⟩, inserted, seen⟩ := Option.map_eq_some_iff.mp ran
  obtain ⟨rfl, messages, last, bands, band⟩ : fine = true ∧ t.messages = [0, 1] ∧
      (t.q_bandp 3).qb_last = some 0 ∧ t.q_nband = 3 ∧ (t.message 1).b_band.val = 3 := by
    simpa using seen
  rw [Option.bind_some, inserted] at more
  obtain ⟨⟨u, out⟩, got, gone⟩ := Option.map_eq_some_iff.mp more
  obtain ⟨rfl, rest, first⟩ : out = some 0 ∧ u.messages = [1] ∧ (u.q_bandp 3).qb_first = none := by
    simpa using gone
  refine ⟨q, t, u, ok, inserted, messages, last, fun right => ?_, got, rest, first⟩
  have shows := (right.bands 3 (by decide) bands.ge).last
  have split : ([0, 1] : List Nat) = [0] ++ [1] := rfl
  rw [last, split, Queue.inBand_append, Queue.inBand_cons_same band, getLast?_append] at shows
  exact absurd shows (by simp [Queue.inBand])

end StreamQueues
