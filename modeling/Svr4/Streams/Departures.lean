import Svr4.Blocks
import Svr4.Streams.Arrivals

/- What the pointers of the bands rest on: the messages of a band stand side by side. The order
   of the bands and of the classes is not needed for them. -/
namespace StreamQueues
open DoublyLinked RankedLists Blocks List

namespace Queue
variable {q t : Queue} {l us vs : List Nat} {a b bp i : Nat}

def ofBand (q : Queue) (i a : Nat) : Bool := decide ((q.message a).b_band.val = i)

theorem inBand_eq_filter : q.inBand i l = l.filter (q.ofBand i) := rfl

theorem ofBand_self : q.ofBand (q.message a).b_band a = true := decide_eq_true rfl

theorem ofBand_other (other : (q.message a).b_band.val ≠ i) : q.ofBand i a = false :=
  decide_eq_false other

theorem inBand_nil : q.inBand i l = [] ↔ ∀ x ∈ l, q.ofBand i x = false := by
  rw [inBand_eq_filter, filter_eq_nil_iff]
  simp only [Bool.not_eq_true]

/-- The pointers and the counts are right, and the messages of each band stand together. -/
structure Booked (q : Queue) (l : List Nat) : Prop extends q.Exact l where
  together : ∀ i, 0 < i → Together (q.ofBand i) l

theorem Ok.together (ok : q.Ok l) (pos : 0 < i) : Together (q.ofBand i) l := by
  by_cases small : i < 256
  · obtain ⟨us, vs, split, above, below⟩ := ok.sorted.ranked_block i
    rw [← inBand_eq_ranked ok.fits pos small, append_assoc] at split
    have no_front : ∀ x ∈ l, q.ofBand i x = true → q.rank x = i := by
      intro x mem here
      have band : (q.message x).b_band.val = i := of_decide_eq_true here
      have norm : ¬QPCTL ≤ (q.message x).db_type.val := fun ctl => by
        rw [(ok.fits x mem).high ctl] at band
        exact absurd band pos.ne
      rw [rank_norm norm, band]
    refine ⟨us, q.inBand i l, vs, split, ?_, ?_, ?_⟩
    · intro x mem
      by_contra pass
      have same := no_front x (by rw [split]; simp [mem]) (by simpa using pass)
      exact absurd (above x mem) (by omega)
    · exact fun x mem => (mem_filter.mp mem).2
    · intro x mem
      by_contra pass
      have same := no_front x (by rw [split]; simp [mem]) (by simpa using pass)
      exact absurd (below x mem) (by omega)
  · refine together_of_none fun x _ => ofBand_other ?_
    omega

theorem Ok.booked (ok : q.Ok l) : q.Booked l := ⟨ok.exact, fun _ pos => ok.together pos⟩

theorem ofBand_message (same : t.message = q.message) : t.ofBand i = q.ofBand i := by
  unfold ofBand
  rw [same]

theorem Exact.booked (books : t.Exact l) (same : t.message = q.message)
    (together : ∀ i, 0 < i → Together (q.ofBand i) l) : t.Booked l := by
  refine ⟨books, fun i pos => ?_⟩
  rw [ofBand_message same]
  exact together i pos

theorem together_congr (together : Together (q.ofBand i) l)
    (same : ∀ x ∈ l, t.message x = q.message x) : Together (t.ofBand i) l := by
  have agree : ∀ x ∈ l, t.ofBand i x = q.ofBand i x := by
    intro x mem
    unfold ofBand
    rw [same x mem]
  obtain ⟨us, bs, vs, split, before, inside, behind⟩ := together
  refine ⟨us, bs, vs, split, ?_, ?_, ?_⟩
  · exact fun x mem => (agree x (by rw [split]; simp [mem])).trans (before x mem)
  · exact fun x mem => (agree x (by rw [split]; simp [mem])).trans (inside x mem)
  · exact fun x mem => (agree x (by rw [split]; simp [mem])).trans (behind x mem)

theorem Booked.congr (booked : q.Booked l) (links : t.list.Holds l)
    (same : ∀ x ∈ l, t.message x = q.message x) (nmblk : t.nmblk = q.nmblk)
    (q_nband : t.q_nband = q.q_nband) (flow : t.flow = q.flow) (q_bandp : t.q_bandp = q.q_bandp) :
    t.Booked l :=
  ⟨booked.toExact.congr links same nmblk q_nband flow q_bandp, fun i pos =>
    together_congr (booked.together i pos) same⟩

theorem Booked.sane_ok (booked : q.Booked l) (off : bp ∉ l) (supply : Nat) :
    (q.sane bp supply).1.Booked l :=
  ⟨booked.toExact.sane_ok off supply, fun i pos =>
    together_congr (booked.together i pos) (sane_message off supply)⟩

theorem sameBand_eq {band : Fin 256} {o : Option Nat} :
    q.sameBand band o = o.filter (q.ofBand band) := by
  cases o with
  | none => rfl
  | some x => simp [sameBand, ofBand, Option.filter_some, Fin.ext_iff]

theorem band_pos (banded : (q.message a).b_band ≠ 0) : 0 < (q.message a).b_band.val :=
  Nat.pos_of_ne_zero fun zero => banded (Fin.ext zero)

theorem Booked.sameBand_next (booked : q.Booked (us ++ a :: vs))
    (banded : (q.message a).b_band ≠ 0) :
    q.sameBand (q.message a).b_band vs.head? = (q.inBand (q.message a).b_band vs).head? := by
  rw [sameBand_eq, inBand_eq_filter, (booked.together _ (band_pos banded)).head_eq ofBand_self]

theorem Booked.sameBand_prev (booked : q.Booked (us ++ a :: vs))
    (banded : (q.message a).b_band ≠ 0) :
    q.sameBand (q.message a).b_band us.getLast? = (q.inBand (q.message a).b_band us).getLast? := by
  rw [sameBand_eq, inBand_eq_filter, (booked.together _ (band_pos banded)).last_eq ofBand_self]

end Queue
end StreamQueues

/- `rmvq` and `getq` take one message off. -/
namespace StreamQueues
open DoublyLinked RankedLists Blocks List

namespace Queue
variable {q t : Queue} {l us vs : List Nat} {a b mp i : Nat}

theorem Exact.erase_ok (books : q.Exact (us ++ a :: vs)) {d : DList Nat}
    (links : d.Holds (us ++ vs)) (flow : Flow) (q_bandp : Nat → Qband)
    (normal : (q.message a).b_band = 0 → q_bandp = q.q_bandp ∧
      flow = q.flow.discharge (q.message a).sizes)
    (banded : (q.message a).b_band ≠ 0 → flow = q.flow ∧ ∃ qbp : Qband,
      q_bandp = Function.update q.q_bandp (q.message a).b_band qbp ∧
      qbp.toFlow = (q.q_bandp (q.message a).b_band).toFlow.discharge (q.message a).sizes ∧
      qbp.qb_first = (q.inBand (q.message a).b_band (us ++ vs)).head? ∧
      qbp.qb_last = (q.inBand (q.message a).b_band (us ++ vs)).getLast?) :
    Exact { q with list := d, flow := flow, q_bandp := q_bandp } (us ++ vs) := by
  have shrunk : q.total (q.message a).b_band (us ++ a :: vs) =
      (q.message a).size + q.total (q.message a).b_band (us ++ vs) := total_middle_same rfl
  have fits := books.fits a (by simp)
  have all_fit : ∀ x ∈ us ++ vs, q.Fits x := fun x mem => books.fits x (by
    simp only [mem_append, mem_cons] at mem ⊢
    tauto)
  have others : ∀ i, i ≠ (q.message a).b_band.val →
      q.inBand i (us ++ vs) = q.inBand i (us ++ a :: vs) := fun i other =>
    (inBand_middle_other (Ne.symm other)).symm
  refine books.turned all_fit others ⟨links, rfl, rfl, rfl, ?_, ?_⟩
  · intro zero
    obtain ⟨same, flow_eq⟩ := normal zero
    rw [zero] at shrunk
    refine ⟨same, ?_⟩
    rw [flow_eq]
    exact books.flow.discharge _ shrunk
  · intro other
    obtain ⟨same, qbp, bands, flow_eq, first, last⟩ := banded other
    have pos : 0 < (q.message a).b_band.val := Nat.pos_of_ne_zero fun zero => other (Fin.ext zero)
    refine ⟨same, qbp, bands, first, last, ?_⟩
    rw [flow_eq]
    exact (books.bands _ pos fits.band).flow.discharge _ shrunk

theorem Booked.erase (booked : q.Booked (us ++ a :: vs)) (books : t.Exact (us ++ vs))
    (same : t.message = q.message) : t.Booked (us ++ vs) :=
  books.booked same fun i pos => (booked.together i pos).erase

theorem Booked.rmvq_ok (booked : q.Booked (us ++ a :: vs)) : ∃ t, q.rmvq a = some t ∧
    t.Booked (us ++ vs) ∧ t.message = q.message ∧ t.q_nband = q.q_nband ∧ t.nmblk = q.nmblk := by
  have books := booked.toExact
  have fits := books.fits a (by simp)
  have links := books.links.remove_ok
  unfold rmvq
  by_cases zero : (q.message a).b_band = 0
  · rw [if_pos zero]
    exact ⟨_, rfl, booked.erase (books.erase_ok links _ _ (fun _ => ⟨rfl, rfl⟩)
      fun banded => absurd zero banded) rfl, rfl, rfl, rfl⟩
  rw [if_neg zero, fits.qband_eq]
  have shows := books.bands _ (band_pos zero) fits.band
  have whole : q.inBand (q.message a).b_band (us ++ a :: vs) =
      q.inBand (q.message a).b_band us ++ a :: q.inBand (q.message a).b_band vs := by
    rw [inBand_append, inBand_cons_same rfl]
  obtain ⟨-, back_nodup, apart⟩ := nodup_append.mp books.links.nodup
  obtain ⟨off_vs, -⟩ := nodup_cons.mp back_nodup
  refine ⟨_, rfl, booked.erase (books.erase_ok links _ _ (fun eq => absurd eq zero)
    fun _ => ⟨rfl, _, rfl, rfl, ?_, ?_⟩) rfl, rfl, rfl, rfl⟩
  · rw [shows.first, whole, inBand_append, head?_append, head?_append, 
      books.links.next_eq, booked.sameBand_next zero]
    cases block : q.inBand (q.message a).b_band us with
    | nil => simp
    | cons x xs =>
      have x_mem : x ∈ us := (mem_filter.mp (block ▸ mem_cons_self)).1
      have other : ¬some a = some x := fun same =>
        apart x x_mem a mem_cons_self (Option.some.inj same).symm
      exact if_neg other
  · rw [shows.last, whole, inBand_append, getLast?_append, getLast?_append,
      books.links.prev_eq, booked.sameBand_prev zero]
    rcases eq_nil_or_concat (q.inBand (q.message a).b_band vs) with block | ⟨xs, x, block⟩
    · rw [block]
      simp
    · rw [concat_eq_append] at block
      have x_mem : x ∈ vs := (mem_filter.mp (block ▸ mem_append_right xs
        (mem_singleton_self x))).1
      have other : ¬some a = some x := by
        rintro ⟨⟩
        exact off_vs x_mem
      rw [block, ← cons_append, getLast?_concat, getLast?_concat, Option.some_or, if_neg other]

theorem Ok.rmvq_ok (ok : q.Ok (us ++ a :: vs)) : ∃ t, q.rmvq a = some t ∧ t.Ok (us ++ vs) ∧
    t.message = q.message ∧ t.q_nband = q.q_nband ∧ t.nmblk = q.nmblk := by
  obtain ⟨t, removed, booked, message, frame⟩ := ok.booked.rmvq_ok
  have sorted : Sorted t.rank (us ++ vs) := by
    rw [rank_message message]
    exact Pairwise.sublist ((sublist_cons_self a vs).append_left us) ok.sorted
  exact ⟨t, removed, booked.toExact.ok sorted, message, frame⟩

theorem Booked.getFirst_ok (booked : q.Booked (a :: vs)) : ∃ t, q.getFirst a = some t ∧
    t.Booked vs ∧ t.message = q.message ∧ t.q_nband = q.q_nband ∧ t.nmblk = q.nmblk := by
  have books := booked.toExact
  have fits := books.fits a mem_cons_self
  have whole : q.Booked ([] ++ a :: vs) := booked
  have pop : (q.list.pop a).Holds ([] ++ vs) := by
    rw [DList.pop_eq whole.links.prev_eq]
    exact whole.links.remove_ok
  unfold getFirst
  by_cases zero : (q.message a).b_band = 0
  · rw [if_pos zero]
    exact ⟨_, rfl, whole.erase (whole.toExact.erase_ok pop _ _ (fun _ => ⟨rfl, rfl⟩)
      fun banded => absurd zero banded) rfl, rfl, rfl, rfl⟩
  rw [if_neg zero, fits.qband_eq]
  have shows := books.bands _ (band_pos zero) fits.band
  rw [inBand_cons_same rfl] at shows
  have next := whole.sameBand_next zero
  obtain ⟨off, -⟩ := nodup_cons.mp books.links.nodup
  have ends : (a :: q.inBand (q.message a).b_band vs).head? =
      (a :: q.inBand (q.message a).b_band vs).getLast? ↔
      q.inBand (q.message a).b_band vs = [] := by
    rcases eq_nil_or_concat (q.inBand (q.message a).b_band vs) with block | ⟨xs, x, block⟩
    · simp [block]
    rw [concat_eq_append] at block
    have x_mem : x ∈ vs := (mem_filter.mp (block ▸ mem_append_right xs
      (mem_singleton_self x))).1
    have other : ¬some a = some x := by
      rintro ⟨⟩
      exact off x_mem
    rw [block, ← cons_append, getLast?_concat]
    simpa using other
  refine ⟨_, rfl, whole.erase (whole.toExact.erase_ok pop _ _ (fun eq => absurd eq zero)
    fun _ => ⟨rfl, _, rfl, rfl, ?_, ?_⟩) rfl, rfl, rfl, rfl⟩
  · rw [shows.first, shows.last]
    by_cases alone : q.inBand (q.message a).b_band vs = []
    · rw [if_pos (ends.mpr alone), nil_append, alone]
      rfl
    rw [if_neg fun same => alone (ends.mp same), nil_append, whole.links.next_eq]
    -- the band goes on, so the next message is of it
    cases vs with
    | nil => exact absurd rfl alone
    | cons x xs =>
      rw [← next]
      unfold sameBand
      rw [head?_cons]
      dsimp only
      split
      · rfl
      · rename_i other
        rw [head?_cons, sameBand, if_neg other] at next
        exact absurd (head?_eq_none_iff.mp next.symm) alone
  · dsimp only
    rw [shows.first, shows.last]
    by_cases alone : q.inBand (q.message a).b_band vs = []
    · rw [if_pos (ends.mpr alone), nil_append, alone]
      rfl
    · rw [if_neg fun same => alone (ends.mp same), nil_append]
      obtain ⟨x, xs, block⟩ := exists_cons_of_ne_nil alone
      rw [block, getLast?_cons_cons]

theorem erase_middle (nodup : (us ++ a :: vs).Nodup) : (us ++ a :: vs).erase a = us ++ vs := by
  have off : a ∉ us := fun early =>
    (nodup_append.mp nodup).2.2 a early a mem_cons_self rfl
  rw [erase_append_right _ off, erase_cons_head]

theorem Booked.rmvq_line (booked : q.Booked l) (mem : a ∈ l) : ∃ t, q.rmvq a = some t ∧
    t.Booked ((q.line l).rmvq a).messages ∧
    t.line ((q.line l).rmvq a).messages = (q.line l).rmvq a ∧ t.nmblk = q.nmblk := by
  obtain ⟨us, vs, rfl⟩ := append_of_mem mem
  obtain ⟨t, removed, t_booked, t_message, t_nband, t_nmblk⟩ := booked.rmvq_ok
  have erased : ((q.line (us ++ a :: vs)).rmvq a).messages = us ++ vs :=
    erase_middle booked.links.nodup
  refine ⟨t, removed, ?_, ?_, t_nmblk⟩
  · rwa [erased]
  · unfold line Line.rmvq
    rw [t_message, t_nband]

theorem Booked.getq_ok (booked : q.Booked l) : ∃ t, q.getq = some (t, ((q.line l).getq).2) ∧
    t.Booked ((q.line l).getq).1.messages ∧
    t.line ((q.line l).getq).1.messages = ((q.line l).getq).1 ∧ t.nmblk = q.nmblk := by
  unfold getq
  rw [booked.links.first]
  cases l with
  | nil => exact ⟨q, rfl, booked, rfl, rfl⟩
  | cons a vs =>
    rw [head?_cons]
    dsimp only
    by_cases noget : (q.message a).noget = true
    · rw [if_pos noget]
      cases found : (a :: vs).find? fun a => !(q.message a).noget with
      | none =>
        have all : ∀ x ∈ a :: vs, (q.message x).noget = true := fun x mem => by
          have := find?_eq_none.mp found x mem
          simpa using this
        have nothing : (q.line (a :: vs)).getq = (q.line (a :: vs), none) := by
          unfold Line.getq line
          rw [found]
        have walk : DList.skipWhile q.list.next (fun p => (q.message p).noget) q.nmblk (some a) =
            none := booked.links.forward.skipWhile_none all
        rw [walk, nothing]
        exact ⟨q, rfl, booked, rfl, rfl⟩
      | some bp =>
        obtain ⟨give, us, ws, split, all⟩ := find?_eq_some_iff_append.mp found
        have out : (q.line (a :: vs)).getq = ((q.line (a :: vs)).rmvq bp, some bp) := by
          unfold Line.getq line
          rw [found]
        have long := booked.toExact.length_le
        rw [split, length_append, length_cons] at long
        have walk : DList.skipWhile q.list.next (fun p => (q.message p).noget) q.nmblk (some a) =
            some bp := by
          have forward := booked.links.forward
          rw [split] at forward
          have stops : DList.skipWhile q.list.next (fun p => (q.message p).noget) q.nmblk
              (us ++ bp :: ws).head? = some bp :=
            forward.skipWhile_eq (fun x mem => by simpa using all x mem) (by simpa using give)
              (by omega)
          rwa [← split] at stops
        have mem : bp ∈ a :: vs := mem_of_find?_eq_some found
        obtain ⟨t, removed, t_booked, t_line, t_nmblk⟩ := booked.rmvq_line mem
        rw [walk, out]
        dsimp only [Option.bind_eq_bind]
        rw [removed]
        exact ⟨t, rfl, t_booked, t_line, t_nmblk⟩
    · rw [if_neg noget]
      have found : (a :: vs).find? (fun a => !(q.message a).noget) = some a :=
        find?_cons_of_pos (by simpa using noget)
      have out : (q.line (a :: vs)).getq = ((q.line (a :: vs)).rmvq a, some a) := by
        unfold Line.getq line
        rw [found]
      have erased : ((q.line (a :: vs)).rmvq a).messages = vs := erase_cons_head a vs
      obtain ⟨t, taken, t_booked, t_message, t_nband, t_nmblk⟩ := booked.getFirst_ok
      rw [out, taken]
      refine ⟨t, rfl, ?_, ?_, t_nmblk⟩
      · rwa [erased]
      · unfold line Line.rmvq
        rw [t_message, t_nband]

theorem Ok.shorter {x : Line} (ok : q.Ok l) (booked : t.Booked x.messages)
    (line : t.line x.messages = x) (message : x.message = q.message)
    (shorter : x.messages.Sublist l) : t.Ok x.messages := by
  have same : t.message = q.message := (congrArg Line.message line).trans message
  refine booked.toExact.ok ?_
  rw [rank_message same]
  exact Pairwise.sublist shorter ok.sorted

theorem Ok.rmvq_line (ok : q.Ok l) (mem : a ∈ l) : ∃ t, q.rmvq a = some t ∧
    t.Ok ((q.line l).rmvq a).messages ∧
    t.line ((q.line l).rmvq a).messages = (q.line l).rmvq a ∧ t.nmblk = q.nmblk := by
  obtain ⟨t, removed, booked, line, nmblk⟩ := ok.booked.rmvq_line mem
  exact ⟨t, removed, ok.shorter booked line rfl erase_sublist, line, nmblk⟩

theorem Ok.getq_ok (ok : q.Ok l) : ∃ t, q.getq = some (t, ((q.line l).getq).2) ∧
    t.Ok ((q.line l).getq).1.messages ∧
    t.line ((q.line l).getq).1.messages = ((q.line l).getq).1 ∧ t.nmblk = q.nmblk := by
  obtain ⟨t, got, booked, line, nmblk⟩ := ok.booked.getq_ok
  refine ⟨t, got, ok.shorter booked line ?_ ?_, line, nmblk⟩
  · unfold Line.getq
    split <;> rfl
  · unfold Line.getq
    split
    · exact erase_sublist
    · exact Sublist.refl _

end Queue
end StreamQueues
