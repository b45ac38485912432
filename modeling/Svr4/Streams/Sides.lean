import Svr4.Streams.Departures

/- `putq` and `putbq` keep the bands together, also where high priority messages stand behind
   others. -/
namespace StreamQueues
open DoublyLinked Blocks List Option

namespace Queue
variable {q t : Queue} {l us vs hs ms : List Nat} {a b c bp i : Nat} {d : DList Nat}

/-- A message has been linked between `us` and `vs`, beside the bands of others; no other cell is
written to. -/
structure PutIn (q : Queue) (bp : Nat) (l : List Nat) (d : DList Nat) (us vs : List Nat) :
    Prop where
  split : l = us ++ vs
  links : d.Holds (us ++ bp :: vs)
  side : ∀ i, 0 < i → i ≠ (q.message bp).b_band.val →
    (∀ x ∈ us, q.ofBand i x = false) ∨ ∀ x ∈ vs, q.ofBand i x = false
  own : (q.message bp).b_band ≠ 0 → Together (q.ofBand (q.message bp).b_band) (us ++ bp :: vs)
  frame : ∀ x, x ∉ l → x ≠ bp → d.next x = q.list.next x

theorem PutIn.together (put : q.PutIn bp l d us vs) (booked : q.Booked l) :
    ∀ i, 0 < i → Together (q.ofBand i) (us ++ bp :: vs) := by
  intro i pos
  by_cases here : i = (q.message bp).b_band.val
  · subst here
    refine put.own fun zero => ?_
    rw [zero] at pos
    exact absurd pos (Nat.lt_irrefl 0)
  · have together := booked.together i pos
    rw [put.split] at together
    exact together.insert_other (ofBand_other (Ne.symm here)) (put.side i pos here)

theorem Booked.side_of (booked : q.Booked (us ++ c :: vs)) (pos : 0 < i)
    (other : q.ofBand i c = false) : (∀ x ∈ us, q.ofBand i x = false) ∨
      ∀ x ∈ c :: vs, q.ofBand i x = false := by
  rcases (booked.together i pos).apart other with front | back
  · exact .inl front
  · refine .inr fun x mem => ?_
    rcases mem_cons.mp mem with rfl | mem
    · exact other
    · exact back x mem

theorem ctl_ofBand (fits : q.Fits a) (ctl : QPCTL ≤ (q.message a).db_type.val) (pos : 0 < i) :
    q.ofBand i a = false := by
  apply ofBand_other
  rw [fits.high ctl]
  exact pos.ne

theorem Booked.walk_side (booked : q.Booked (hs ++ (ms ++ c :: vs))) {p : Nat → Bool}
    (high : ∀ x ∈ hs, QPCTL ≤ (q.message x).db_type.val)
    (pass : ∀ x ∈ ms, p (q.message x).b_band = true) (fail : p (q.message c).b_band = false)
    (pos : 0 < i) :
    (∀ x ∈ hs ++ ms, q.ofBand i x = false) ∨ ∀ x ∈ c :: vs, q.ofBand i x = false := by
  cases here : q.ofBand i c with
  | false =>
    rw [← append_assoc] at booked
    exact booked.side_of pos here
  | true =>
    have band : (q.message c).b_band.val = i := of_decide_eq_true here
    refine .inl fun x mem => ?_
    rcases mem_append.mp mem with early | late
    · exact ctl_ofBand (booked.fits x (mem_append_left _ early)) (high x early) pos
    · refine ofBand_other fun same => ?_
      have passed := pass x late
      rw [same, ← band, fail] at passed
      exact Bool.false_ne_true passed

theorem Booked.put_last (booked : q.Booked l) (off : bp ∉ l) (last : l.getLast? = some b)
    (new : (q.message bp).b_band ≠ 0 → q.inBand (q.message bp).b_band l = []) :
    q.PutIn bp l (q.list.tackOn bp b) l [] := by
  refine ⟨(append_nil l).symm, booked.links.tackOn_ok last off, ?_, ?_, ?_⟩
  · exact fun _ _ _ => .inr nofun
  · exact fun banded => together_insert_new (inBand_nil.mp (new banded)) nofun
  · exact fun x outside other => booked.links.tackOn_frame last outside other

theorem Booked.put_walked (booked : q.Booked (hs ++ (ms ++ c :: vs)))
    (off : bp ∉ hs ++ (ms ++ c :: vs)) {p : Nat → Bool}
    (high : ∀ x ∈ hs, QPCTL ≤ (q.message x).db_type.val)
    (pass : ∀ x ∈ ms, p (q.message x).b_band = true) (fail : p (q.message c).b_band = false)
    (new : (q.message bp).b_band ≠ 0 →
      q.inBand (q.message bp).b_band (hs ++ (ms ++ c :: vs)) = []) :
    q.PutIn bp (hs ++ (ms ++ c :: vs)) (q.list.insertBefore bp c) (hs ++ ms) (c :: vs) := by
  have split : hs ++ (ms ++ c :: vs) = (hs ++ ms) ++ c :: vs := (append_assoc hs ms _).symm
  refine ⟨split, ?_, fun i pos _ => booked.walk_side high pass fail pos, fun banded => ?_, ?_⟩
  · have links := booked.links
    rw [split] at links off
    exact links.insertBefore_ok off
  · have absent := inBand_nil.mp (new banded)
    rw [split] at absent
    exact together_insert_new (fun x mem => absent x (mem_append_left _ mem))
      fun x mem => absent x (mem_append_right _ mem)
  · intro x outside other
    have links := booked.links
    rw [split] at links outside
    exact links.insertBefore_frame outside other

section
variable (booked : q.Booked l)
include booked

theorem Booked.putq_here (fits : q.Fits bp) (off : bp ∉ l) :
    ∃ d us vs, q.putqLink bp = some d ∧ q.PutIn bp l d us vs ∧ ((q.message bp).b_band ≠ 0 →
      q.inBand (q.message bp).b_band vs = []) := by
  have books := booked.toExact
  unfold putqLink
  by_cases empty : q.list.first = none
  · obtain rfl := books.empty empty
    rw [if_pos empty]
    refine ⟨_, [], [], rfl, ⟨rfl, books.links.single_ok, fun _ _ _ => .inl nofun,
      fun _ => together_insert_new nofun nofun, fun x _ other => ?_⟩, fun _ => rfl⟩
    rw [DList.single_eq empty, DList.pushFront_next, if_neg other]
  rw [if_neg empty]
  obtain ⟨b, last, last_eq⟩ := books.last_of_first empty
  by_cases zero : (q.message bp).b_band = 0
  · have unbanded : (q.message bp).b_band ≠ 0 → q.inBand (q.message bp).b_band l = [] :=
      fun banded => absurd zero banded
    rw [if_pos zero, last_eq]
    dsimp only [bind_eq_bind, bind_some]
    by_cases tack : (q.message bp).queclass ≤ (q.message b).queclass
    · rw [if_pos tack]
      exact ⟨_, l, [], rfl, booked.put_last off last unbanded, fun _ => rfl⟩
    rw [if_neg tack]
    have ctl : QPCTL ≤ (q.message bp).db_type.val := by
      by_contra norm
      exact tack (Mblk.queclass_le.mpr fun ctl => absurd ctl norm)
    have tests : (fun t => decide ((q.message bp).queclass ≤ (q.message t).queclass)) =
        fun t => decide (QPCTL ≤ (q.message t).db_type.val) := funext fun x => by
      rw [decide_eq_decide, Mblk.queclass_le]
      exact ⟨fun both => both ctl, fun here _ => here⟩
    have norm_b : ¬QPCTL ≤ (q.message b).db_type.val := fun here =>
      tack (Mblk.queclass_le.mpr fun _ => here)
    obtain ⟨hs, ms, c, vs, first, rfl, high, pass, fail, head, -, walk, -⟩ :=
      books.walk (fun _ => false) last norm_b rfl
    -- the second loop would not move
    obtain rfl : ms = [] := eq_nil_iff_forall_not_mem.mpr fun x mem =>
      absurd (pass x mem) Bool.false_ne_true
    obtain rfl : c = first := some.inj head
    rw [tests, walk]
    exact ⟨_, _, _, rfl, booked.put_walked (p := fun _ => false) off high nofun rfl unbanded,
      fun banded => absurd zero banded⟩
  · rw [if_neg zero, fits.qband_eq]
    dsimp only [bind_eq_bind, bind_some]
    have shows := books.bands _ (band_pos zero) fits.band
    cases known : (q.q_bandp (q.message bp).b_band).qb_first with
    | some f =>
      have some_first := shows.first.symm.trans known
      obtain ⟨b, b_last⟩ : ∃ b, (q.inBand (q.message bp).b_band l).getLast? = some b := by
        cases block : q.inBand (q.message bp).b_band l with
        | nil => rw [block] at some_first; exact nomatch some_first
        | cons x xs => exact ⟨_, getLast?_eq_some_getLast (cons_ne_nil x xs)⟩
      rw [shows.last, b_last]
      have b_mem := mem_filter.mp (mem_of_getLast? b_last)
      obtain ⟨us, vs, rfl⟩ := append_of_mem b_mem.1
      have here : q.ofBand (q.message bp).b_band b = true := b_mem.2
      have none_behind : q.inBand (q.message bp).b_band vs = [] := by
        by_contra some_behind
        obtain ⟨x, x_last⟩ : ∃ x, (q.inBand (q.message bp).b_band vs).getLast? = some x :=
          ⟨_, getLast?_eq_some_getLast some_behind⟩
        rw [inBand_append, inBand_cons_same (of_decide_eq_true here), getLast?_append,
          getLast?_cons, x_last] at b_last
        obtain rfl : x = b := some.inj b_last
        have x_mem : x ∈ vs := (mem_filter.mp (mem_of_getLast? x_last)).1
        exact (nodup_cons.mp (nodup_append.mp books.links.nodup).2.1).1 x_mem
      refine ⟨_, us ++ [b], vs, rfl, ⟨by simp, ?_, ?_, fun _ => ?_, ?_⟩, fun _ => none_behind⟩
      · have links := books.links.insertAfter_ok off
        rwa [append_cons] at links
      · intro i pos other
        have b_other : q.ofBand i b = false := ofBand_other fun same => other
          (same.symm.trans (of_decide_eq_true here))
        rcases (booked.together i pos).apart b_other with front | back
        · refine .inl fun x mem => ?_
          rcases mem_append.mp mem with early | late
          · exact front x early
          · rwa [mem_singleton.mp late]
        · exact .inr back
      · have joined := (booked.together _ (band_pos zero)).insert_back here ofBand_self
        rwa [append_cons] at joined
      · exact fun x outside other => DList.insertAfter_frame outside other
    | none =>
      have absent : q.inBand (q.message bp).b_band l = [] :=
        head?_eq_none_iff.mp (shows.first.symm.trans known)
      rw [last_eq]
      dsimp only [bind_some]
      by_cases tack : (q.message bp).queclass < (q.message b).queclass ∨
          (q.message bp).b_band ≤ (q.message b).b_band
      · rw [if_pos tack]
        exact ⟨_, l, [], rfl, booked.put_last off last fun _ => absent, fun _ => rfl⟩
      rw [if_neg tack]
      obtain ⟨class_b, band_b⟩ := not_or.mp tack
      have norm_b := norm_last (fits.norm zero) class_b
      obtain ⟨hs, ms, c, vs, first, rfl, high, pass, fail, -, -, walk, again⟩ :=
        books.walk (fun n => decide ((q.message bp).b_band.val ≤ n)) last norm_b
          (decide_eq_false band_b)
      have found : DList.skipWhile q.list.next (fun t => decide ((q.message bp).b_band ≤
          (q.message t).b_band)) q.nmblk (some first) = some c := again
      rw [walk]
      dsimp only [bind_some]
      rw [found]
      refine ⟨_, _, _, rfl, booked.put_walked (p := fun n =>
        decide ((q.message bp).b_band.val ≤ n)) off high pass fail fun _ => absent, fun _ => ?_⟩
      rw [← append_assoc, inBand_append] at absent
      exact (append_eq_nil_iff.mp absent).2

theorem Booked.putbq_among (off : bp ∉ l) (norm : ¬QPCTL ≤ (q.message bp).db_type.val)
    (empty : q.list.first ≠ none)
    (new : (q.message bp).b_band ≠ 0 → q.inBand (q.message bp).b_band l = []) :
    ∃ d us vs, q.putbqAmong bp = some d ∧ q.PutIn bp l d us vs ∧
      ((q.message bp).b_band ≠ 0 → q.inBand (q.message bp).b_band us = []) := by
  have books := booked.toExact
  obtain ⟨b, last, last_eq⟩ := books.last_of_first empty
  unfold putbqAmong
  rw [last_eq]
  dsimp only [bind_eq_bind, bind_some]
  by_cases tack : (q.message bp).queclass < (q.message b).queclass ∨
      (q.message bp).b_band < (q.message b).b_band
  · rw [if_pos tack]
    exact ⟨_, l, [], rfl, booked.put_last off last new, new⟩
  rw [if_neg tack]
  obtain ⟨class_b, band_b⟩ := not_or.mp tack
  have norm_b := norm_last norm class_b
  obtain ⟨hs, ms, c, vs, first, rfl, high, pass, fail, -, -, walk, again⟩ :=
    books.walk (fun n => decide ((q.message bp).b_band.val < n)) last norm_b
      (decide_eq_false band_b)
  have found : DList.skipWhile q.list.next (fun t => decide ((q.message bp).b_band <
      (q.message t).b_band)) q.nmblk (some first) = some c := again
  rw [walk]
  dsimp only [bind_some]
  rw [found]
  refine ⟨_, _, _, rfl, booked.put_walked (p := fun n =>
    decide ((q.message bp).b_band.val < n)) off high pass fail new, fun banded => ?_⟩
  have absent := new banded
  rw [← append_assoc, inBand_append] at absent
  exact (append_eq_nil_iff.mp absent).1

theorem Booked.putbq_here (fits : q.Fits bp) (off : bp ∉ l) :
    ∃ d us vs, q.putbqLink bp = some d ∧ q.PutIn bp l d us vs ∧ ((q.message bp).b_band ≠ 0 →
      q.inBand (q.message bp).b_band us = []) := by
  have books := booked.toExact
  unfold putbqLink
  by_cases front : q.list.first = none ∨ (q.message bp).queclass = QPCTL
  · rw [if_pos front]
    refine ⟨_, [], l, rfl, ⟨rfl, books.links.pushFront_ok off, fun _ _ _ => .inl nofun,
      fun banded => ?_, fun x _ other => ?_⟩, fun _ => rfl⟩
    · rcases front with empty | ctl
      · rw [books.empty empty]
        exact together_insert_new nofun nofun
      · exact absurd (fits.high (Mblk.queclass_eq.mp ctl)) banded
    · rw [DList.pushFront_next, if_neg other]
  rw [if_neg front]
  obtain ⟨empty, class_bp⟩ := not_or.mp front
  have norm : ¬QPCTL ≤ (q.message bp).db_type.val := fun ctl => class_bp (Mblk.queclass_eq.mpr ctl)
  by_cases banded : (q.message bp).b_band ≠ 0
  · rw [if_pos banded, fits.qband_eq]
    have shows := books.bands _ (band_pos banded) fits.band
    rw [bind_eq_bind, bind_some]
    cases known : (q.q_bandp (q.message bp).b_band).qb_first with
    | some b =>
      have head := shows.first.symm.trans known
      have b_mem := mem_filter.mp (mem_of_head? head)
      obtain ⟨us, vs, rfl⟩ := append_of_mem b_mem.1
      have here : q.ofBand (q.message bp).b_band b = true := b_mem.2
      have none_before : q.inBand (q.message bp).b_band us = [] := by
        by_contra some_before
        obtain ⟨x, xs, block⟩ := exists_cons_of_ne_nil some_before
        rw [inBand_append, block] at head
        obtain rfl : x = b := some.inj head
        have x_mem : x ∈ us := (mem_filter.mp (block ▸ mem_cons_self)).1
        exact (nodup_append.mp books.links.nodup).2.2 x x_mem x mem_cons_self rfl
      refine ⟨_, us, b :: vs, rfl, ⟨rfl, books.links.insertBefore_ok off, ?_, fun _ =>
        (booked.together _ (band_pos banded)).insert_front here ofBand_self,
        fun _ outside other => books.links.insertBefore_frame outside other⟩, fun _ => none_before⟩
      intro i pos other
      exact booked.side_of pos (ofBand_other fun same => other
        (same.symm.trans (of_decide_eq_true here)))
    | none =>
      exact booked.putbq_among off norm empty fun _ =>
        head?_eq_none_iff.mp (shows.first.symm.trans known)
  · rw [if_neg banded]
    exact booked.putbq_among off norm empty fun here => absurd here banded

theorem Booked.entered (put : q.PutIn bp l d us vs) (books : t.Exact (us ++ bp :: vs))
    (same : t.message = q.message) :
    t.Booked (us ++ bp :: vs) := books.booked same (put.together booked)

theorem Booked.putq_fits (fits : q.Fits bp) (off : bp ∉ l) :
    ∃ d us vs t, l = us ++ vs ∧ q.putqLink bp = some d ∧ q.enter bp d (q.putqBand bp) = some t ∧
      t.Booked (us ++ bp :: vs) ∧ t.message = q.message ∧ t.q_nband = q.q_nband ∧
      t.nmblk = q.nmblk ∧ ∀ x, x ∉ l → x ≠ bp → t.list.next x = q.list.next x := by
  obtain ⟨d, us, vs, linked, put, none_behind⟩ := booked.putq_here fits off
  obtain rfl := put.split
  have shows := fun banded : (q.message bp).b_band ≠ 0 =>
    booked.bands (q.message bp).b_band (band_pos banded) fits.band
  have block : (q.message bp).b_band ≠ 0 → q.inBand (q.message bp).b_band (us ++ bp :: vs) =
      q.inBand (q.message bp).b_band (us ++ vs) ++ [bp] := fun banded => by
    rw [inBand_append, inBand_append, inBand_cons_same rfl, none_behind banded, append_nil]
  obtain ⟨t, entered, books, list, message, nband, nmblk⟩ :=
    Exact.enter_ok fits put.links (q.putqBand bp) (fun _ => rfl)
      (fun banded => block banded ▸ (booked.toExact.putqBand_ends (shows banded) bp).1)
      (fun banded => block banded ▸ (booked.toExact.putqBand_ends (shows banded) bp).2)
      booked.toExact
  exact ⟨d, us, vs, t, rfl, linked, entered, booked.entered put books message, message, nband,
    nmblk, fun x outside other => by rw [list, put.frame x outside other]⟩

theorem Booked.sane_run (off : bp ∉ l) (known : bp < q.nmblk) (supply : Nat) :
    ∃ q₁ fine, q.sane bp supply = (q₁, fine) ∧ q₁.Booked l ∧
      (fine = true → q₁.Fits bp) ∧ q₁.nmblk = q.nmblk :=
  ⟨_, _, rfl, booked.sane_ok off supply, sane_fits known supply,
    (sane_eq (l := l) q bp supply).2.2.2⟩

theorem Booked.putq_ok (off : bp ∉ l) (known : bp < q.nmblk) (supply : Nat) :
    ∃ t fine l', q.putq bp supply = some (t, fine) ∧ t.Booked l' ∧ t.nmblk = q.nmblk := by
  obtain ⟨q₁, fine, pair, booked, fits, nmblk⟩ := booked.sane_run off known supply
  unfold putq
  rw [pair]
  cases fine with
  | false => exact ⟨q₁, false, l, rfl, booked, nmblk⟩
  | true =>
    obtain ⟨d, us, vs, t, rfl, linked, entered, here, -, -, t_nmblk, -⟩ :=
      booked.putq_fits (fits rfl) off
    dsimp only
    rw [linked]
    dsimp only [bind_eq_bind, bind_some]
    rw [entered]
    exact ⟨t, true, _, rfl, here, t_nmblk.trans nmblk⟩

end

theorem Fits.sane_eq (fits : q.Fits bp) : q.sane bp 0 = (q, true) := by
  unfold sane
  dsimp only
  split
  · rename_i ctl
    rw [← fits.high (Mblk.queclass_eq.mp ctl), Function.update_eq_self]
  · split
    · exact Prod.ext rfl (decide_eq_true fits.band)
    · rfl

theorem Booked.putq_back (booked : q.Booked l) (fits : q.Fits bp) (off : bp ∉ l) :
    ∃ t l', q.putq bp 0 = some (t, true) ∧ t.Booked l' ∧ l'.Perm (bp :: l) ∧
      t.message = q.message ∧ t.q_nband = q.q_nband ∧ t.nmblk = q.nmblk ∧
      ∀ x, x ∉ l → x ≠ bp → t.list.next x = q.list.next x := by
  obtain ⟨d, us, vs, t, rfl, linked, entered, here, same⟩ := booked.putq_fits fits off
  unfold putq
  rw [fits.sane_eq]
  dsimp only
  rw [linked]
  dsimp only [bind_eq_bind, bind_some]
  rw [entered]
  exact ⟨t, _, rfl, here, perm_middle, same⟩

theorem Booked.putbq_ok (booked : q.Booked l) (off : bp ∉ l) (known : bp < q.nmblk) (supply : Nat) :
    ∃ t fine l', q.putbq bp supply = some (t, fine) ∧ t.Booked l' ∧ t.nmblk = q.nmblk := by
  obtain ⟨q₁, fine, pair, booked, fits, nmblk⟩ := booked.sane_run off known supply
  unfold putbq
  rw [pair]
  cases fine with
  | false => exact ⟨q₁, false, l, rfl, booked, nmblk⟩
  | true =>
    have fits := fits rfl
    obtain ⟨d, us, vs, linked, put, none_before⟩ := booked.putbq_here fits off
    obtain rfl := put.split
    have shows := fun banded : (q₁.message bp).b_band ≠ 0 =>
      booked.bands (q₁.message bp).b_band (band_pos banded) fits.band
    have block : (q₁.message bp).b_band ≠ 0 → q₁.inBand (q₁.message bp).b_band (us ++ bp :: vs) =
        bp :: q₁.inBand (q₁.message bp).b_band (us ++ vs) := fun banded => by
      rw [inBand_append, inBand_append, inBand_cons_same rfl, none_before banded, nil_append,
        nil_append]
    obtain ⟨t, entered, books, -, message, -, t_nmblk⟩ :=
      Exact.enter_ok fits put.links (q₁.putbqBand bp) (fun _ => rfl)
        (fun banded => block banded ▸ (booked.toExact.putbqBand_ends (shows banded) bp).1)
        (fun banded => block banded ▸ (booked.toExact.putbqBand_ends (shows banded) bp).2)
        booked.toExact
    dsimp only
    rw [linked]
    dsimp only [bind_eq_bind, bind_some]
    rw [entered]
    exact ⟨t, true, _, rfl, booked.entered put books message, t_nmblk.trans nmblk⟩

end Queue
end StreamQueues
