import Svr4.Streams.Departures

/- `flushq` and `flushband` free the messages they should and leave the others in line. -/
namespace StreamQueues
open DoublyLinked RankedLists List Option Nat

namespace Queue
variable {q t : Queue} {l us vs : List Nat} {a b mp i fuel : Nat} {drop : Mblk → Bool}

theorem Ok.cleared_ok (ok : q.Ok l) : q.cleared.Ok [] := by
  refine ⟨DList.holds_nil rfl rfl, nofun, Pairwise.nil, ?_, ?_⟩
  · exact Flow.right_cleared ok.flow.room
  · intro i pos inside
    exact ⟨rfl, rfl, Flow.right_cleared (ok.bands i pos inside).flow.room⟩

theorem Fits.putq_eq (fits : q.Fits a) : (q.line l).putq a 0 =
    ({ q.line l with messages := insertBack q.rank a l }, true) := by
  have settled : (q.message a).settled = q.message a := by
    unfold Mblk.settled
    split
    · rename_i ctl
      rw [← fits.high (Mblk.queclass_eq.mp ctl)]
    · rfl
  have band := fits.band
  have same : (q.line l).settle a 0 = (q.line l, true) := by
    unfold Line.settle line
    dsimp only
    rw [settled, Function.update_eq_self, Nat.add_zero, Nat.max_eq_left (Nat.min_le_right _ _),
      decide_eq_true band]
  unfold Line.putq
  rw [same]
  rfl

theorem Ok.flushLoop_ok (drop : Mblk → Bool) {rest kept : List Nat} (ok : q.Ok kept)
    (forward : DList.Forward q.list.next rest) (enough : rest.length ≤ fuel)
    (fits : ∀ a ∈ rest, q.Fits a) (nodup : (kept ++ rest).Nodup)
    (sorted : Sorted q.rank (kept ++ rest)) :
    ∃ t, flushLoop drop fuel q rest.head? = some (t, rest.filter fun a => drop (q.message a)) ∧
      t.Ok (kept ++ rest.filter fun a => !drop (q.message a)) ∧ t.message = q.message ∧
      t.q_nband = q.q_nband ∧ t.nmblk = q.nmblk := by
  induction rest generalizing fuel q kept with
  | nil =>
    refine ⟨q, ?_, ?_, rfl, rfl, rfl⟩
    · cases fuel <;> rfl
    · rwa [filter_nil, append_nil]
  | cons mp rest ih =>
    obtain ⟨next, forward⟩ := forward
    obtain ⟨fuel, rfl⟩ := exists_eq_add_one_of_ne_zero (ne_of_gt (zero_lt_of_lt enough))
    have enough : rest.length ≤ fuel := le_of_succ_le_succ enough
    have fits_rest : ∀ a ∈ rest, q.Fits a := fun a mem => fits a (mem_cons_of_mem _ mem)
    have mp_fits := fits mp mem_cons_self
    have shorter : (kept ++ rest).Sublist (kept ++ mp :: rest) :=
      (sublist_cons_self mp rest).append_left kept
    rw [head?_cons]
    unfold flushLoop
    rw [next]
    cases dropped : drop (q.message mp) with
    | true =>
      obtain ⟨t, looped, t_ok, t_message, t_nband, t_nmblk⟩ :=
        ih ok forward enough fits_rest (nodup.sublist shorter) (Pairwise.sublist shorter sorted)
      rw [if_pos rfl, looped, filter_cons_of_pos (p := fun a => drop (q.message a)) dropped,
        filter_cons_of_neg (by simp [dropped])]
      exact ⟨t, rfl, t_ok, t_message, t_nband, t_nmblk⟩
    | false =>
      have off : mp ∉ kept := fun early =>
        (nodup_append.mp nodup).2.2 mp early mp mem_cons_self rfl
      have off_rest : mp ∉ rest := (nodup_cons.mp (nodup_append.mp nodup).2.1).1
      obtain ⟨s, put, s_ok, s_line, s_nmblk, frame⟩ := ok.putq_ok off mp_fits.known 0
      have above : ∀ x ∈ kept, q.rank mp ≤ q.rank x := fun x mem =>
        (pairwise_append.mp sorted).2.2 x mem mp mem_cons_self
      have place : insertBack q.rank mp kept = kept ++ [mp] := by
        have last : insertBack q.rank mp (kept ++ []) = kept ++ [mp] := insertBack_eq above nofun
        rwa [append_nil] at last
      rw [mp_fits.putq_eq, place] at put s_ok s_line
      have s_message : s.message = q.message := congrArg Line.message s_line
      have s_nband : s.q_nband = q.q_nband := congrArg Line.bands s_line
      have joined : kept ++ mp :: rest = kept ++ [mp] ++ rest := append_cons kept mp rest
      rw [joined] at nodup sorted
      have s_forward : DList.Forward s.list.next rest := forward.congr fun x mem =>
        frame x (fun early => (nodup_append.mp nodup).2.2 x (mem_append_left _ early) x mem
          rfl) fun same => off_rest (same ▸ mem)
      obtain ⟨t, looped, t_ok, t_message, t_nband, t_nmblk⟩ := ih s_ok s_forward enough
          (fun x mem => (fits_rest x mem).congr (congrFun s_message x) s_nmblk s_nband.ge) nodup
          (by rwa [rank_message s_message])
      rw [if_neg Bool.false_ne_true, put, filter_cons_of_neg (by simp [dropped]),
        filter_cons_of_pos (by simp [dropped])]
      dsimp only [bind_eq_bind, bind_some]
      rw [looped, s_message]
      refine ⟨t, rfl, ?_, t_message.trans s_message, t_nband.trans s_nband, t_nmblk.trans s_nmblk⟩
      rwa [s_message, ← append_cons] at t_ok

theorem Ok.flush_ok (ok : q.Ok l) (drop : Mblk → Bool) : ∃ t,
    flushLoop drop q.nmblk q.cleared q.list.first = some (t, ((q.line l).flush drop).2) ∧
      t.Ok ((q.line l).flush drop).1.messages ∧
      t.line ((q.line l).flush drop).1.messages = ((q.line l).flush drop).1 ∧
      t.nmblk = q.nmblk := by
  have fits : ∀ a ∈ l, q.cleared.Fits a := fun a mem =>
    (ok.fits a mem).congr rfl rfl (le_refl _)
  obtain ⟨t, looped, t_ok, t_message, t_nband, t_nmblk⟩ :=
    ok.cleared_ok.flushLoop_ok drop ok.links.forward ok.length_le fits ok.links.nodup ok.sorted
  rw [ok.links.first]
  refine ⟨t, looped, t_ok, ?_, t_nmblk⟩
  unfold line Line.flush
  rw [t_message, t_nband]
  rfl

theorem Ok.flushq_ok (ok : q.Ok l) (flag : Bool) : ∃ t,
    q.flushq flag = some (t, ((q.line l).flushq flag).2) ∧
      t.Ok ((q.line l).flushq flag).1.messages ∧
      t.line ((q.line l).flushq flag).1.messages = ((q.line l).flushq flag).1 ∧
      t.nmblk = q.nmblk := ok.flush_ok _

theorem Ok.bandLoop_ok (drop : Mblk → Bool) {front rest tail : List Nat}
    (ok : q.Ok (front ++ rest ++ tail)) (enough : rest.length ≤ fuel) :
    ∃ t, bandLoop drop tail.head? fuel q (rest ++ tail).head? =
        some (t, tail.head?, rest.filter fun a => drop (q.message a)) ∧
      t.Ok (front ++ (rest.filter fun a => !drop (q.message a)) ++ tail) ∧
      t.message = q.message ∧ t.q_nband = q.q_nband ∧ t.nmblk = q.nmblk := by
  induction rest generalizing fuel q front with
  | nil =>
    refine ⟨q, ?_, ok, rfl, rfl, rfl⟩
    unfold bandLoop
    exact if_pos rfl
  | cons mp rest ih =>
    obtain ⟨fuel, rfl⟩ := exists_eq_add_one_of_ne_zero (ne_of_gt (zero_lt_of_lt enough))
    have enough : rest.length ≤ fuel := le_of_succ_le_succ enough
    have split : front ++ mp :: rest ++ tail = front ++ mp :: (rest ++ tail) := by simp
    have not_last : ¬some mp = tail.head? := by
      intro same
      obtain ⟨more, rfl⟩ := head?_eq_some_iff.mp same.symm
      have nodup := ok.links.nodup
      simp [nodup_append] at nodup
    rw [split] at ok
    have next := ok.links.next_eq
    rw [cons_append, head?_cons]
    unfold bandLoop
    rw [if_neg not_last]
    dsimp only
    rw [next]
    cases dropped : drop (q.message mp) with
    | true =>
      obtain ⟨s, removed, s_ok, s_message, s_nband, s_nmblk⟩ := ok.rmvq_ok
      rw [← append_assoc] at s_ok
      obtain ⟨t, looped, t_ok, t_message, t_nband, t_nmblk⟩ := ih s_ok enough
      rw [if_pos rfl, removed]
      dsimp only [bind_eq_bind, bind_some]
      rw [looped, s_message, filter_cons_of_pos (p := fun a => drop (q.message a)) dropped,
        filter_cons_of_neg (by simp [dropped])]
      rw [s_message] at t_ok
      exact ⟨t, rfl, t_ok, t_message.trans s_message, t_nband.trans s_nband, t_nmblk.trans s_nmblk⟩
    | false =>
      rw [append_cons, ← append_assoc] at ok
      obtain ⟨t, looped, t_ok, t_message, t_nband, t_nmblk⟩ := ih ok enough
      rw [if_neg Bool.false_ne_true, looped, filter_cons_of_neg (by simp [dropped]),
        filter_cons_of_pos (by simp [dropped]), append_cons]
      exact ⟨t, rfl, t_ok, t_message, t_nband, t_nmblk⟩

theorem flush_congr {drop drop' : Mblk → Bool}
    (same : ∀ a ∈ l, drop (q.message a) = drop' (q.message a)) :
    (q.line l).flush drop = (q.line l).flush drop' := by
  have kept : (l.filter fun a => !drop (q.message a)) = l.filter fun a => !drop' (q.message a) :=
    filter_congr fun a mem => by rw [same a mem]
  have freed : (l.filter fun a => drop (q.message a)) = l.filter fun a => drop' (q.message a) :=
    filter_congr same
  unfold Line.flush line
  rw [kept, freed]

theorem flush_none (spared : ∀ a ∈ l, drop (q.message a) = false) :
    (q.line l).flush drop = (q.line l, []) := by
  have kept : (l.filter fun a => !drop (q.message a)) = l := by
    apply filter_eq_self.mpr
    intro a mem
    rw [spared a mem]
    rfl
  have freed : (l.filter fun a => drop (q.message a)) = [] := by
    apply filter_eq_nil_iff.mpr
    intro a mem
    rw [spared a mem]
    exact Bool.false_ne_true
  unfold Line.flush line
  rw [kept, freed]

theorem flush_block {ms : List Nat} (before : ∀ a ∈ us, drop (q.message a) = false)
    (behind : ∀ a ∈ vs, drop (q.message a) = false) :
    (q.line (us ++ ms ++ vs)).flush drop = ({ q.line (us ++ ms ++ vs) with
        messages := us ++ (ms.filter fun a => !drop (q.message a)) ++ vs },
        ms.filter fun a => drop (q.message a)) := by
  have front := flush_none (q := q) before
  have back := flush_none (q := q) behind
  unfold Line.flush line at *
  have front_kept := congrArg (fun pair => pair.1.messages) front
  have front_freed := congrArg Prod.snd front
  have back_kept := congrArg (fun pair => pair.1.messages) back
  have back_freed := congrArg Prod.snd back
  dsimp only at front_kept front_freed back_kept back_freed
  rw [filter_append, filter_append, filter_append, filter_append, front_kept,
    front_freed, back_kept, back_freed, nil_append, append_nil]

theorem Ok.flushBand_block (ok : q.Ok l) (drop : Mblk → Bool) {pri : Fin 256} (banded : pri ≠ 0)
    (inside : pri.val ≤ q.q_nband)
    (other : ∀ a ∈ l, (q.message a).b_band ≠ pri → drop (q.message a) = false) : ∃ t, (do
      let qbp ← q.qband pri
      match qbp.qb_first with
      | none => some (q, [])
      | some mp => do
        let last := if some mp = qbp.qb_last then q.list.next mp else qbp.qb_last
        let (q, mp', freed) ← bandLoop drop last q.nmblk q (some mp)
        match mp' with
        | none => some (q, freed)
        | some mp =>
          if drop (q.message mp) then do
            let q ← q.rmvq mp
            some (q, freed ++ [mp])
          else some (q, freed)) = some (t, ((q.line l).flush drop).2) ∧
      t.Ok ((q.line l).flush drop).1.messages ∧
      t.line ((q.line l).flush drop).1.messages = ((q.line l).flush drop).1 ∧
      t.nmblk = q.nmblk := by
  have pos : 0 < pri.val := Nat.pos_of_ne_zero fun zero => banded (Fin.ext zero)
  have shows := ok.bands pri pos inside
  rw [inBand_eq_ranked ok.fits pos pri.isLt] at shows
  have found : q.qband pri = some (q.q_bandp pri) := if_pos inside
  have band_rank : ∀ a ∈ l, (q.message a).b_band = pri → q.rank a = pri := by
    intro a mem here
    have norm := (ok.fits a mem).norm (by rwa [here])
    rw [rank_norm norm, here]
  obtain ⟨us, vs, split, above, below⟩ := ok.sorted.ranked_block pri
  generalize ranked q.rank pri l = block at split shows
  subst split
  have before : ∀ a ∈ us, drop (q.message a) = false := fun a mem =>
    have mem' : a ∈ us ++ block ++ vs := by simp [mem]
    other a mem' fun here => absurd (band_rank a mem' here) (above a mem).ne'
  have behind : ∀ a ∈ vs, drop (q.message a) = false := fun a mem =>
    have mem' : a ∈ us ++ block ++ vs := by simp [mem]
    other a mem' fun here => absurd (band_rank a mem' here) (below a mem).ne
  have long := ok.length_le
  rw [length_append, length_append] at long
  rw [found, flush_block before behind]
  dsimp only [bind_eq_bind, bind_some]
  rcases eq_nil_or_concat block with rfl | ⟨ws, z, rfl⟩
  · rw [shows.first]
    refine ⟨q, rfl, ?_, rfl, rfl⟩
    simpa using ok
  rw [concat_eq_append] at *
  cases ws with
  | nil =>
    -- the only message in the band
    have first : (q.q_bandp pri).qb_first = some z := shows.first
    have last : (q.q_bandp pri).qb_last = some z := shows.last
    have next : q.list.next z = vs.head? := by
      have whole : q.list.Holds (us ++ z :: vs) := by simpa using ok.links
      exact whole.next_eq
    have enough : [z].length ≤ q.nmblk := by
      simp only [nil_append, length_singleton] at long ⊢
      omega
    obtain ⟨t, looped, t_ok, t_message, t_nband, t_nmblk⟩ := ok.bandLoop_ok drop enough
    rw [first, last]
    dsimp only
    have start : ([z] ++ vs).head? = some z := rfl
    rw [if_pos rfl, next, ← start]
    dsimp only [nil_append] at looped ⊢
    rw [looped]
    dsimp only [bind_some]
    refine ⟨t, ?_, t_ok, ?_, t_nmblk⟩
    · cases head : vs.head? with
      | none => rfl
      | some x =>
        dsimp only
        rw [t_message, behind x (mem_of_head? head)]
        rfl
    · unfold line
      rw [t_message, t_nband]
  | cons m ws =>
    have first : (q.q_bandp pri).qb_first = some m := shows.first
    have last : (q.q_bandp pri).qb_last = some z := shows.last.trans getLast?_concat
    have apart : ¬some m = some z := by
      rintro ⟨⟩
      have nodup := ok.links.nodup
      simp [nodup_append] at nodup
    have joined : us ++ (m :: ws ++ [z]) ++ vs = us ++ (m :: ws) ++ (z :: vs) := by simp
    have enough : (m :: ws).length ≤ q.nmblk := by
      rw [length_append] at long
      omega
    have whole := ok
    rw [joined] at whole
    obtain ⟨s, looped, s_ok, s_message, s_nband, s_nmblk⟩ := whole.bandLoop_ok drop enough
    rw [first, last]
    dsimp only
    rw [if_neg apart]
    have start : (m :: ws ++ z :: vs).head? = some m := rfl
    rw [start, head?_cons] at looped
    rw [looped]
    dsimp only [bind_some]
    rw [s_message, filter_append, filter_append]
    cases dropped : drop (q.message z) with
    | true =>
      obtain ⟨t, removed, t_ok, t_message, t_nband, t_nmblk⟩ := s_ok.rmvq_ok
      rw [if_pos rfl, removed,
        filter_cons_of_pos (p := fun a => drop (q.message a)) (l := []) dropped,
        filter_cons_of_neg (p := fun a => !drop (q.message a)) (l := []) (by simp [dropped]),
        filter_nil, filter_nil, append_nil]
      refine ⟨t, rfl, t_ok, ?_, t_nmblk.trans s_nmblk⟩
      unfold line
      rw [t_message, t_nband, s_message, s_nband]
    | false =>
      rw [if_neg Bool.false_ne_true,
        filter_cons_of_neg (p := fun a => drop (q.message a)) (l := []) (by simp [dropped]),
        filter_cons_of_pos (p := fun a => !drop (q.message a)) (l := []) (by simp [dropped]),
        filter_nil, filter_nil, append_nil]
      refine ⟨s, rfl, ?_, ?_, s_nmblk⟩
      · simpa using s_ok
      · unfold line
        rw [s_message, s_nband]

theorem Ok.flushband_ok (ok : q.Ok l) (pri : Fin 256) (flag : Bool) : ∃ t,
    q.flushband pri flag = some (t, ((q.line l).flushband pri flag).2) ∧
      t.Ok ((q.line l).flushband pri flag).1.messages ∧
      t.line ((q.line l).flushband pri flag).1.messages = ((q.line l).flushband pri flag).1 ∧
      t.nmblk = q.nmblk := by
  unfold flushband Line.flushband
  by_cases absent : q.q_nband < pri
  · have spared : ∀ a ∈ l, (decide ((q.message a).b_band = pri) &&
        decide ((q.message a).db_type.val < QPCTL) && (flag || datamsg (q.message a).db_type)) =
          false := by
      intro a mem
      have other : (q.message a).b_band ≠ pri := fun here =>
        absurd (ok.fits a mem).band (by rw [here]; omega)
      rw [decide_eq_false other]
      rfl
    rw [if_pos absent, flush_none spared]
    exact ⟨q, rfl, ok, rfl, rfl⟩
  rw [if_neg absent]
  by_cases zero : pri = 0
  · subst zero
    rw [if_pos rfl]
    exact ok.flush_ok _
  have plain : ∀ a ∈ l, (decide ((q.message a).b_band = pri) &&
      decide ((q.message a).db_type.val < QPCTL) && (flag || datamsg (q.message a).db_type)) =
        (decide ((q.message a).b_band = pri) && (flag || datamsg (q.message a).db_type)) := by
    intro a mem
    by_cases here : (q.message a).b_band = pri
    · have norm := (ok.fits a mem).norm (by rwa [here])
      rw [decide_eq_true (Nat.lt_of_not_le norm), Bool.and_true]
    · rw [decide_eq_false here]
      rfl
  have same : (q.line l).flush (fun m => decide (m.b_band = pri) &&
      decide (m.db_type.val < QPCTL) && (flag || datamsg m.db_type)) =
        (q.line l).flush fun m => decide (m.b_band = pri) && (flag || datamsg m.db_type) :=
    flush_congr plain
  rw [if_neg zero, same]
  refine ok.flushBand_block _ zero (Nat.le_of_not_lt absent) fun a _ other => ?_
  rw [decide_eq_false other]
  rfl

end Queue
end StreamQueues
