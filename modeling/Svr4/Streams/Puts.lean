import Svr4.Streams.Upkeep

/- `putq` and `putbq` put a message behind and in front of the messages of its rank. -/
namespace StreamQueues
open DoublyLinked RankedLists List Option

theorem Mblk.queclass_le {m n : Mblk} : m.queclass ≤ n.queclass ↔
    (QPCTL ≤ m.db_type.val → QPCTL ≤ n.db_type.val) := by
  unfold Mblk.queclass QPCTL QNORM
  split <;> split <;> simp [*]

theorem Mblk.queclass_eq {m : Mblk} : m.queclass = QPCTL ↔ QPCTL ≤ m.db_type.val := by
  unfold Mblk.queclass QPCTL QNORM
  split <;> simp [*]

namespace Queue
variable {q t : Queue} {l us vs : List Nat} {a b bp i : Nat}

theorem first_failing {p : Nat → Bool} (mem : b ∈ l) (fail : p b = false) :
    ∃ us c vs, l = us ++ c :: vs ∧ (∀ x ∈ us, p x = true) ∧ p c = false := by
  have some_fails : (l.find? fun x => !p x).isSome := find?_isSome.mpr ⟨b, mem, by simp [fail]⟩
  obtain ⟨c, found⟩ := isSome_iff_exists.mp some_fails
  obtain ⟨stop, us, vs, split, pass⟩ := find?_eq_some_iff_append.mp found
  exact ⟨us, c, vs, split, fun x mem => by simpa using pass x mem, by simpa using stop⟩

/-- The two loops of the insertions pass the high priority messages and then those whose band passes
the test, if the last message stops both. -/
theorem Exact.walk (books : q.Exact l) (p : Nat → Bool) (last : l.getLast? = some b)
    (norm : ¬QPCTL ≤ (q.message b).db_type.val) (stop : p (q.message b).b_band = false) :
    ∃ hs ms c vs first, l = hs ++ (ms ++ c :: vs) ∧
      (∀ x ∈ hs, QPCTL ≤ (q.message x).db_type.val) ∧
      (∀ x ∈ ms, p (q.message x).b_band = true) ∧ p (q.message c).b_band = false ∧
      (ms ++ c :: vs).head? = some first ∧ ¬QPCTL ≤ (q.message first).db_type.val ∧
      DList.skipWhile q.list.next (fun t => decide (QPCTL ≤ (q.message t).db_type.val)) q.nmblk
        q.list.first = some first ∧
      DList.skipWhile q.list.next (fun t => p (q.message t).b_band) q.nmblk (some first) =
        some c := by
  have long := books.length_le
  have forward := books.links.forward
  have b_mem := mem_of_getLast? last
  obtain ⟨hs, first, rest, split, high, low⟩ := first_failing
    (p := fun t => decide (QPCTL ≤ (q.message t).db_type.val)) b_mem (decide_eq_false norm)
  have b_rest : b ∈ first :: rest := by
    rw [split] at b_mem
    rcases mem_append.mp b_mem with early | late
    · exact absurd (of_decide_eq_true (high b early)) norm
    · exact late
  obtain ⟨ms, c, vs, rest_eq, pass, fail⟩ := first_failing
    (p := fun t => p (q.message t).b_band) b_rest stop
  rw [split, length_append] at long
  refine ⟨hs, ms, c, vs, first, by rw [split, rest_eq], ?_, pass, fail, by rw [← rest_eq]; rfl,
    of_decide_eq_false low, ?_, ?_⟩
  · exact fun x mem => of_decide_eq_true (high x mem)
  · rw [books.links.first]
    rw [split] at forward ⊢
    refine forward.skipWhile_eq high low ?_
    rw [length_cons] at long
    omega
  · have linked := books.links.linked
    rw [split] at linked
    have behind := (DList.between_append.mp linked).2.forward
    have here : some first = (ms ++ c :: vs).head? := by rw [← rest_eq]; rfl
    rw [here]
    rw [rest_eq] at behind long
    refine behind.skipWhile_eq pass fail ?_
    rw [length_append, length_cons] at long
    omega

theorem Ok.walk_to_place (ok : q.Ok l) (p : Nat → Bool)
    (up : ∀ m n, m ≤ n → p m = true → p n = true) (last : l.getLast? = some b)
    (norm : ¬QPCTL ≤ (q.message b).db_type.val) (stop : p (q.message b).b_band = false) :
    ∃ us c vs first, l = us ++ c :: vs ∧
      (∀ x ∈ us, QPCTL ≤ (q.message x).db_type.val ∨ p (q.rank x) = true) ∧
      (∀ x ∈ c :: vs, ¬QPCTL ≤ (q.message x).db_type.val ∧ p (q.rank x) = false) ∧
      DList.skipWhile q.list.next (fun t => decide (QPCTL ≤ (q.message t).db_type.val)) q.nmblk
        q.list.first = some first ∧
      DList.skipWhile q.list.next (fun t => p (q.message t).b_band) q.nmblk (some first) =
        some c := by
  obtain ⟨hs, ms, c, vs, first, rfl, high, pass, fail, head, low, walk, again⟩ :=
    ok.exact.walk p last norm stop
  obtain ⟨-, rest_sorted, -⟩ := pairwise_append.mp ok.sorted
  obtain ⟨tail, rest_eq⟩ := head?_eq_some_iff.mp head
  have below : ∀ x ∈ ms ++ c :: vs, ¬QPCTL ≤ (q.message x).db_type.val := by
    intro x mem ctl
    rw [rest_eq] at mem rest_sorted
    rcases mem_cons.mp mem with rfl | mem
    · exact low ctl
    · have le := (pairwise_cons.mp rest_sorted).1 x mem
      rw [rank_ctl ctl] at le
      exact low (ctl_of_rank le)
  have c_norm := below c (by simp)
  refine ⟨hs ++ ms, c, vs, first, by simp, ?_, ?_, walk, again⟩
  · intro x mem
    rcases mem_append.mp mem with early | late
    · exact .inl (high x early)
    · right
      rw [rank_norm (below x (mem_append_left _ late))]
      exact pass x late
  · intro x mem
    have x_norm := below x (mem_append_right _ mem)
    refine ⟨x_norm, ?_⟩
    rcases mem_cons.mp mem with rfl | mem
    · rwa [rank_norm x_norm]
    · have le := (pairwise_cons.mp (pairwise_append.mp rest_sorted).2.1).1 x mem
      rw [rank_norm c_norm] at le
      by_contra passes
      rw [up _ _ le (by simpa using passes)] at fail
      exact absurd fail.symm Bool.false_ne_true

theorem Ok.last_above (ok : q.Ok l) (last : l.getLast? = some b) : ∀ x ∈ l, q.rank b ≤ q.rank x :=
  fun _ mem => ok.sorted.above_last last mem

theorem Exact.last_of_first (books : q.Exact l) (nonempty : q.list.first ≠ none) :
    ∃ b, l.getLast? = some b ∧ q.list.last = some b := by
  have some_first : l ≠ [] := by
    rintro rfl
    exact nonempty books.links.first
  refine ⟨l.getLast some_first, getLast?_eq_some_getLast some_first, ?_⟩
  rw [books.links.last, getLast?_eq_some_getLast some_first]

theorem Exact.empty (books : q.Exact l) (empty : q.list.first = none) : l = [] := by
  rw [books.links.first] at empty
  exact head?_eq_none_iff.mp empty

/-- The new list of `putq`: the message is behind those of its rank, and no other cell outside
    the list is written to. -/
structure PutBack (q : Queue) (bp : Nat) (l : List Nat) (d : DList Nat) (us vs : List Nat) :
    Prop where
  split : l = us ++ vs
  links : d.Holds (us ++ bp :: vs)
  front : ∀ x ∈ us, q.rank bp ≤ q.rank x
  back : ∀ x ∈ vs, q.rank x < q.rank bp
  frame : ∀ x, x ∉ l → x ≠ bp → d.next x = q.list.next x

theorem Ok.put_on_end (ok : q.Ok l) (off : bp ∉ l) (last : l.getLast? = some b)
    (below : q.rank bp ≤ q.rank b) : q.PutBack bp l (q.list.tackOn bp b) l [] := by
  refine ⟨(append_nil l).symm, ok.links.tackOn_ok last off, ?_, nofun, ?_⟩
  · intro x mem
    exact le_trans below (ok.last_above last x mem)
  · intro x outside other
    exact ok.links.tackOn_frame last outside other

theorem Ok.put_before (ok : q.Ok (us ++ b :: vs)) (off : bp ∉ us ++ b :: vs)
    (front : ∀ x ∈ us, q.rank bp ≤ q.rank x) (back : ∀ x ∈ b :: vs, q.rank x < q.rank bp) :
    q.PutBack bp (us ++ b :: vs) (q.list.insertBefore bp b) us (b :: vs) :=
  ⟨rfl, ok.links.insertBefore_ok off, front, back, fun _ outside other =>
    ok.links.insertBefore_frame outside other⟩

theorem norm_last (norm : ¬QPCTL ≤ (q.message bp).db_type.val)
    (class_b : ¬(q.message bp).queclass < (q.message b).queclass) :
    ¬QPCTL ≤ (q.message b).db_type.val :=
  fun ctl => norm (Mblk.queclass_le.mp (Nat.le_of_not_lt class_b) ctl)

theorem Ok.putqLink_normal (ok : q.Ok l) (off : bp ∉ l)
    (zero : (q.message bp).b_band = 0) :
    ∃ d us vs, q.putqLink bp = some d ∧ q.PutBack bp l d us vs := by
  unfold putqLink
  by_cases empty : q.list.first = none
  · obtain rfl := ok.exact.empty empty
    rw [if_pos empty]
    refine ⟨_, [], [], rfl, rfl, ok.links.single_ok, nofun, nofun, ?_⟩
    intro x _ other
    rw [DList.single_eq empty, DList.pushFront_next, if_neg other]
  rw [if_neg empty, if_pos zero]
  obtain ⟨b, last, last_eq⟩ := ok.exact.last_of_first empty
  rw [last_eq]
  dsimp only [bind_eq_bind, bind_some]
  by_cases tack : (q.message bp).queclass ≤ (q.message b).queclass
  · rw [if_pos tack]
    refine ⟨_, l, [], rfl, ok.put_on_end off last ?_⟩
    have both := Mblk.queclass_le.mp tack
    by_cases ctl : QPCTL ≤ (q.message bp).db_type.val
    · rw [rank_ctl (both ctl)]
      exact rank_le
    · rw [rank_norm ctl, zero]
      exact Nat.zero_le _
  rw [if_neg tack]
  have ctl : QPCTL ≤ (q.message bp).db_type.val := by
    by_contra norm
    exact tack (Mblk.queclass_le.mpr fun ctl => absurd ctl norm)
  have ctl_iff : ∀ x, (q.message bp).queclass ≤ (q.message x).queclass ↔
      QPCTL ≤ (q.message x).db_type.val := fun x =>
    Mblk.queclass_le.trans ⟨fun both => both ctl, fun here _ => here⟩
  have norm_b : ¬QPCTL ≤ (q.message b).db_type.val := fun here => tack ((ctl_iff b).mpr here)
  -- the second loop of the general walk does not move
  obtain ⟨us, c, vs, first, rfl, front, back, walk, again⟩ :=
    ok.walk_to_place (fun _ => false) (fun _ _ _ pass => pass) last norm_b rfl
  have stays : first = c := by
    cases fuel : q.nmblk with
    | zero =>
      rw [fuel] at again
      exact nomatch again
    | succ n =>
      rw [fuel] at again
      exact some.inj again
  have tests : (fun t => decide ((q.message bp).queclass ≤ (q.message t).queclass)) =
      fun t => decide (QPCTL ≤ (q.message t).db_type.val) := funext fun x => by
    rw [decide_eq_decide]
    exact ctl_iff x
  rw [tests, walk, stays]
  refine ⟨_, us, c :: vs, rfl, ok.put_before off ?_ ?_⟩
  · intro x mem
    have high := (front x mem).resolve_right Bool.false_ne_true
    rw [rank_ctl high]
    exact rank_le
  · intro x mem
    have norm := (back x mem).1
    rw [rank_norm norm, rank_ctl ctl]
    exact (q.message x).b_band.isLt

theorem Ok.putqLink_banded (ok : q.Ok l) (fits : q.Fits bp) (off : bp ∉ l)
    (banded : (q.message bp).b_band ≠ 0) :
    ∃ d us vs, q.putqLink bp = some d ∧ q.PutBack bp l d us vs := by
  have norm : ¬QPCTL ≤ (q.message bp).db_type.val := fun ctl => banded (fits.high ctl)
  have rank_bp := rank_norm norm
  have pos : 0 < (q.message bp).b_band.val := Nat.pos_of_ne_zero fun zero => banded (Fin.ext zero)
  have shows := ok.bands _ pos fits.band
  rw [inBand_eq_ranked ok.fits pos (q.message bp).b_band.isLt] at shows
  unfold putqLink
  by_cases empty : q.list.first = none
  · obtain rfl := ok.exact.empty empty
    rw [if_pos empty]
    refine ⟨_, [], [], rfl, rfl, ok.links.single_ok, nofun, nofun, ?_⟩
    intro x _ other
    rw [DList.single_eq empty, DList.pushFront_next, if_neg other]
  rw [if_neg empty, if_neg banded, fits.qband_eq]
  dsimp only [bind_eq_bind, bind_some]
  cases known : (q.q_bandp (q.message bp).b_band).qb_first with
  | some f =>
    have some_first := shows.first.symm.trans known
    obtain ⟨b, last⟩ : ∃ b, (ranked q.rank (q.message bp).b_band l).getLast? = some b := by
      cases block : ranked q.rank (q.message bp).b_band l with
      | nil => rw [block] at some_first; exact nomatch some_first
      | cons x xs => exact ⟨_, getLast?_eq_some_getLast (cons_ne_nil x xs)⟩
    rw [shows.last, last]
    obtain ⟨us, vs, rfl, front, back⟩ := ok.sorted.at_last_ranked last
    rw [← rank_bp] at front back
    refine ⟨_, us ++ [b], vs, rfl, by simp, ?_, front, back, ?_⟩
    · have links := ok.links.insertAfter_ok off
      rwa [append_cons] at links
    · intro x outside other
      exact DList.insertAfter_frame outside other
  | none =>
    obtain ⟨b, last, last_eq⟩ := ok.exact.last_of_first empty
    rw [last_eq]
    dsimp only [bind_some]
    by_cases tack : (q.message bp).queclass < (q.message b).queclass ∨
        (q.message bp).b_band ≤ (q.message b).b_band
    · rw [if_pos tack]
      refine ⟨_, l, [], rfl, ok.put_on_end off last ?_⟩
      by_cases ctl : QPCTL ≤ (q.message b).db_type.val
      · rw [rank_ctl ctl]
        exact rank_le
      · have same_class : ¬(q.message bp).queclass < (q.message b).queclass := by
          rw [not_lt]
          exact Mblk.queclass_le.mpr fun here => absurd here ctl
        rw [rank_bp, rank_norm ctl]
        exact tack.resolve_left same_class
    · rw [if_neg tack]
      obtain ⟨class_b, band_b⟩ := not_or.mp tack
      have norm_b := norm_last norm class_b
      obtain ⟨us, c, vs, first, rfl, front, back, walk, again⟩ :=
        ok.walk_to_place (fun n => decide ((q.message bp).b_band.val ≤ n))
          (fun _ _ le pass => decide_eq_true (le_trans (of_decide_eq_true pass) le)) last norm_b
          (decide_eq_false band_b)
      rw [walk]
      dsimp only [bind_some]
      have found : DList.skipWhile q.list.next (fun t => decide ((q.message bp).b_band ≤
          (q.message t).b_band)) q.nmblk (some first) = some c := again
      rw [found]
      refine ⟨_, us, c :: vs, rfl, ok.put_before off ?_ ?_⟩
      · intro x mem
        rcases front x mem with high | pass
        · rw [rank_ctl high]
          exact rank_le
        · rw [rank_bp]
          exact of_decide_eq_true pass
      · intro x mem
        rw [rank_bp]
        exact Nat.lt_of_not_le (of_decide_eq_false (back x mem).2)

theorem Ok.putqLink_ok (ok : q.Ok l) (fits : q.Fits bp) (off : bp ∉ l) :
    ∃ d us vs, q.putqLink bp = some d ∧ q.PutBack bp l d us vs := by
  by_cases zero : (q.message bp).b_band = 0
  · exact ok.putqLink_normal off zero
  · exact ok.putqLink_banded fits off zero

/-- The new list of `putbq`: the message is in front of those of its rank. -/
structure PutFront (q : Queue) (bp : Nat) (l : List Nat) (d : DList Nat) (us vs : List Nat) :
    Prop where
  split : l = us ++ vs
  links : d.Holds (us ++ bp :: vs)
  front : ∀ x ∈ us, q.rank bp < q.rank x
  back : ∀ x ∈ vs, q.rank x ≤ q.rank bp

/-- `putbqLink` for a band that has no message on the queue. -/
def putbqAmong (q : Queue) (bp : Nat) : Option (DList Nat) := do
  let tmp ← q.list.last
  if (q.message bp).queclass < (q.message tmp).queclass ∨
      (q.message bp).b_band < (q.message tmp).b_band then
    some (q.list.tackOn bp tmp)
  else do
    let tmp ← DList.skipWhile q.list.next
      (fun t => decide (QPCTL ≤ (q.message t).db_type.val)) q.nmblk q.list.first
    let tmp ← DList.skipWhile q.list.next
      (fun t => decide ((q.message bp).b_band < (q.message t).b_band)) q.nmblk (some tmp)
    some (q.list.insertBefore bp tmp)

theorem Ok.putbq_among (ok : q.Ok l) (off : bp ∉ l) (norm : ¬QPCTL ≤ (q.message bp).db_type.val)
    (empty : q.list.first ≠ none) : ∃ d us vs, q.putbqAmong bp = some d ∧
      q.PutFront bp l d us vs := by
  have rank_bp := rank_norm norm
  obtain ⟨b, last, last_eq⟩ := ok.exact.last_of_first empty
  unfold putbqAmong
  rw [last_eq]
  dsimp only [bind_eq_bind, bind_some]
  by_cases tack : (q.message bp).queclass < (q.message b).queclass ∨
      (q.message bp).b_band < (q.message b).b_band
  · rw [if_pos tack]
    have above : q.rank bp < q.rank b := by
      by_cases ctl : QPCTL ≤ (q.message b).db_type.val
      · rw [rank_ctl ctl, rank_bp]
        exact (q.message bp).b_band.isLt
      · have same_class : ¬(q.message bp).queclass < (q.message b).queclass := by
          rw [not_lt]
          exact Mblk.queclass_le.mpr fun here => absurd here ctl
        rw [rank_bp, rank_norm ctl]
        exact tack.resolve_left same_class
    refine ⟨_, l, [], rfl, (append_nil l).symm, ok.links.tackOn_ok last off, ?_, nofun⟩
    intro x mem
    exact lt_of_lt_of_le above (ok.last_above last x mem)
  · rw [if_neg tack]
    obtain ⟨class_b, band_b⟩ := not_or.mp tack
    have norm_b := norm_last norm class_b
    obtain ⟨us, c, vs, first, rfl, front, back, walk, again⟩ :=
      ok.walk_to_place (fun n => decide ((q.message bp).b_band.val < n))
        (fun _ _ le pass => decide_eq_true (lt_of_lt_of_le (of_decide_eq_true pass) le)) last
        norm_b (decide_eq_false band_b)
    rw [walk]
    dsimp only [bind_some]
    have found : DList.skipWhile q.list.next (fun t => decide ((q.message bp).b_band <
        (q.message t).b_band)) q.nmblk (some first) = some c := again
    rw [found]
    refine ⟨_, us, c :: vs, rfl, rfl, ok.links.insertBefore_ok off, ?_, ?_⟩
    · intro x mem
      rcases front x mem with high | pass
      · rw [rank_ctl high, rank_bp]
        exact (q.message bp).b_band.isLt
      · rw [rank_bp]
        exact of_decide_eq_true pass
    · intro x mem
      rw [rank_bp]
      exact Nat.le_of_not_lt (of_decide_eq_false (back x mem).2)

theorem Ok.putbqLink_ok (ok : q.Ok l) (fits : q.Fits bp) (off : bp ∉ l) :
    ∃ d us vs, q.putbqLink bp = some d ∧ q.PutFront bp l d us vs := by
  unfold putbqLink
  by_cases front : q.list.first = none ∨ (q.message bp).queclass = QPCTL
  · rw [if_pos front]
    refine ⟨_, [], l, rfl, rfl, ok.links.pushFront_ok off, nofun, ?_⟩
    rcases front with empty | ctl
    · rw [ok.exact.empty empty]
      exact nofun
    · intro x _
      rw [rank_ctl (Mblk.queclass_eq.mp ctl)]
      exact rank_le
  rw [if_neg front]
  obtain ⟨empty, class_bp⟩ := not_or.mp front
  have norm : ¬QPCTL ≤ (q.message bp).db_type.val := fun ctl => class_bp (Mblk.queclass_eq.mpr ctl)
  have rank_bp := rank_norm norm
  by_cases banded : (q.message bp).b_band ≠ 0
  · rw [if_pos banded, fits.qband_eq]
    have pos : 0 < (q.message bp).b_band.val := Nat.pos_of_ne_zero fun zero => banded (Fin.ext zero)
    have shows := ok.bands _ pos fits.band
    rw [inBand_eq_ranked ok.fits pos (q.message bp).b_band.isLt] at shows
    rw [bind_eq_bind, bind_some]
    cases known : (q.q_bandp (q.message bp).b_band).qb_first with
    | some b =>
      obtain ⟨us, vs, rfl, above, below⟩ := ok.sorted.at_first_ranked (shows.first.symm.trans known)
      rw [← rank_bp] at above below
      exact ⟨_, us, b :: vs, rfl, rfl, ok.links.insertBefore_ok off, above, below⟩
    | none =>
      exact ok.putbq_among off norm empty
  · rw [if_neg banded]
    exact ok.putbq_among off norm empty

end Queue
end StreamQueues
