import Svr4.SerialNumbers
import Svr4.StreamPieces
import Svr4.Tcp.Segments

/- The queue holds text of one stream in a row above what was handed on. -/
namespace Tcp
open SerialNumbers StreamPieces List Option
variable {stream : List Nat} {base : tcp_seq} {tp : Tcb} {ti q : Segment} {n o lo hi : Nat}
  {a b i : Int}

theorem seq_sub (low : -2 ^ 31 ≤ a - b) (high : a - b < 2 ^ 31) :
    (number base a - number base b).toInt = a - b :=
  toInt_sub (by decide) low high

theorem seq_inj (low : -2 ^ 31 ≤ a - b) (high : a - b < 2 ^ 31) :
    number base a = number base b ↔ a = b :=
  number_inj (by decide) low high

namespace Segment

/-- The segment has the text of the stream from `o` on, and a FIN only where the stream ends. -/
structure Holds (stream : List Nat) (base : tcp_seq) (ti : Segment) (o : Nat) : Prop where
  ti_seq : ti.ti_seq = number base o
  ti_len : ti.ti_len = ti.ti_mblk.length
  text : Piece stream o ti.ti_mblk
  fin : ti.ti_flags.TH_FIN = true → o + ti.ti_mblk.length = stream.length

theorem Holds.end_ (holds : ti.Holds stream base o) :
    ti.end_ = number base (o + ti.ti_mblk.length) := by
  unfold Segment.end_
  rw [holds.ti_seq, holds.ti_len, number_add]

theorem Holds.advance (holds : ti.Holds stream base o) {k : Nat} (eq : i = k)
    (within : k ≤ ti.ti_mblk.length) : (ti.advance i).Holds stream base (o + k) := by
  subst eq
  constructor
  · show ti.ti_seq + BitVec.ofInt 32 k = _
    rw [holds.ti_seq, number_add, Int.natCast_add]
  · show ti.ti_len - k = ((ti.ti_mblk.drop (k : Int).toNat).length : Int)
    rw [holds.ti_len, Int.toNat_natCast, length_drop]
    omega
  · show Piece stream (o + k) (ti.ti_mblk.drop (k : Int).toNat)
    rw [Int.toNat_natCast]
    exact holds.text.drop within
  · intro fin
    have ends := holds.fin fin
    show o + k + (ti.ti_mblk.drop (k : Int).toNat).length = _
    rw [Int.toNat_natCast, length_drop]
    omega

theorem advance_length {k : Nat} (eq : i = k) :
    (ti.advance i).ti_mblk.length = ti.ti_mblk.length - k := by
  subst eq
  show (ti.ti_mblk.drop (k : Int).toNat).length = _
  rw [Int.toNat_natCast, length_drop]

theorem Holds.cut {ti' : Segment} (holds : ti.Holds stream base o)
    (nofin : ti.ti_flags.TH_FIN = false) {k : Nat} (within : k ≤ ti.ti_mblk.length)
    (ti_seq : ti'.ti_seq = ti.ti_seq) (ti_len : ti'.ti_len = k)
    (ti_mblk : ti'.ti_mblk = ti.ti_mblk.take k) (ti_flags : ti'.ti_flags = ti.ti_flags) :
    ti'.Holds stream base o ∧ ti'.ti_mblk.length = k := by
  have length : ti'.ti_mblk.length = k := by
    rw [ti_mblk, length_take]
    exact min_eq_left within
  refine ⟨⟨ti_seq.trans holds.ti_seq, by rw [ti_len, length], ?_, fun fin => ?_⟩, length⟩
  · rw [ti_mblk]
    exact holds.text.take k
  · rw [ti_flags, nofin] at fin
    contradiction

abbrev InRow (stream : List Nat) (base : tcp_seq) : Nat → List Segment → Nat → Prop :=
  Row (Holds stream base) fun q => q.ti_mblk.length

theorem trim_front_row {before : List Segment} {ti' : Segment}
    (holds : ti.Holds stream base o) (row : InRow stream base lo before hi)
    (near : hi < lo + 2 ^ 31) (above : lo ≤ o) (inside : o + ti.ti_mblk.length ≤ hi)
    (left : ti.trim_front before.getLast? = some ti') :
    ∃ o', ti'.Holds stream base o' ∧ o' + ti'.ti_mblk.length = o + ti.ti_mblk.length ∧
      InRow stream base lo before o' ∧
      (o' = o ∨ ∃ q ∈ before, ∃ a, q.Holds stream base a ∧ lo ≤ a ∧ a + q.ti_mblk.length = o') := by
  rcases before.eq_nil_or_concat with rfl | ⟨front, qprev, rfl⟩
  · obtain rfl : ti = ti' := some.inj left
    exact ⟨o, holds, rfl, above, .inl rfl⟩
  rw [concat_eq_append] at row left ⊢
  obtain ⟨a, low, placed, upto, last⟩ := row.getLast
  rw [List.getLast?_append, List.getLast?_singleton, some_or] at left
  unfold trim_front at left
  have distance : (qprev.end_ - ti.ti_seq).toInt = (a : Int) + qprev.ti_mblk.length - o := by
    rw [placed.end_, holds.ti_seq]
    exact seq_sub (by omega) (by omega)
  dsimp only at left
  rw [distance] at left
  split at left
  · next apart =>
    obtain rfl := some.inj left
    exact ⟨o, holds, rfl, upto.raise (by omega), .inl rfl⟩
  next overlap =>
  split at left
  · exact absurd left (by simp)
  next more =>
  obtain rfl := some.inj left
  rw [holds.ti_len] at more
  obtain ⟨k, eq⟩ : ∃ k : Nat, (a : Int) + qprev.ti_mblk.length - o = k :=
    ⟨a + qprev.ti_mblk.length - o, by omega⟩
  refine ⟨o + k, holds.advance eq (by omega), ?_, ?_, .inr ⟨qprev, ?_, a, placed, low, ?_⟩⟩
  · rw [advance_length eq]
    omega
  · rw [show o + k = a + qprev.ti_mblk.length by omega]
    exact upto
  · exact mem_append_right _ (mem_singleton_self _)
  · omega

theorem trim_back_row {after : List Segment} (holds : ti.Holds stream base o)
    (row : InRow stream base lo after hi) (near : hi < lo + 2 ^ 31) (above : lo ≤ o)
    (inside : o + ti.ti_mblk.length ≤ hi) :
    InRow stream base (o + ti.ti_mblk.length) (ti.trim_back after) hi := by
  induction after with
  | nil => exact inside
  | cons q rest ih =>
    obtain ⟨a, low, placed, tail⟩ := row
    have below := tail.le
    have distance : (ti.end_ - q.ti_seq).toInt = (o : Int) + ti.ti_mblk.length - a := by
      rw [placed.ti_seq, holds.end_]
      exact seq_sub (by omega) (by omega)
    unfold trim_back
    dsimp only
    rw [distance]
    split
    · exact ⟨a, by omega, placed, tail⟩
    split
    · next overlap more =>
      rw [placed.ti_len] at more
      obtain ⟨k, eq⟩ : ∃ k : Nat, (o : Int) + ti.ti_mblk.length - a = k :=
        ⟨o + ti.ti_mblk.length - a, by omega⟩
      refine ⟨a + k, by omega, placed.advance eq (by omega), ?_⟩
      show InRow stream base (a + k + (q.advance _).ti_mblk.length) rest hi
      rw [advance_length eq, show a + k + (q.ti_mblk.length - k) = a + q.ti_mblk.length by omega]
      exact tail
    · exact ih (tail.lower (by omega))

/-- Byte `k` is in a segment of the queue, all of whose places are from `lo` on. -/
def InQueue (base : tcp_seq) (lo : Nat) (queue : List Segment) (k : Nat) : Prop :=
  ∃ q ∈ queue, ∃ o : Nat, q.ti_seq = number base o ∧ lo ≤ o ∧ o < lo + 2 ^ 31 ∧ o ≤ k ∧
    k < o + q.ti_mblk.length

theorem Holds.place_eq (holds : q.Holds stream base o) (lo : Nat) (low : lo ≤ o) (high : o < lo + 2 ^ 31)
    {o' : Nat} (ti_seq : q.ti_seq = number base o') (low' : lo ≤ o') (high' : o' < lo + 2 ^ 31) :
    o' = o := by
  rw [holds.ti_seq, seq_inj (by omega) (by omega)] at ti_seq
  omega

theorem InQueue.raise {queue : List Segment} {lo' k : Nat} (has : InQueue base lo queue k)
    (row : InRow stream base lo' queue hi) (near : hi < lo + 2 ^ 31) (later : lo ≤ lo') :
    InQueue base lo' queue k := by
  obtain ⟨q, mem, o, ti_seq, low, high, inside⟩ := has
  obtain ⟨o', above, holds, upto⟩ := row.mem mem
  obtain rfl := holds.place_eq lo (by omega) (by omega) ti_seq low high
  exact ⟨q, mem, o, ti_seq, above, by omega, inside⟩

/-- What is dropped of a segment is in the one before it. -/
theorem trim_front_keeps {before : List Segment} {k : Nat} (holds : ti.Holds stream base o)
    (row : InRow stream base lo before hi) (near : hi < lo + 2 ^ 31) (above : lo ≤ o)
    (inside : o + ti.ti_mblk.length ≤ hi)
    (first : ∀ q ∈ before, ∀ a, q.Holds stream base a → lo ≤ a → a + q.ti_mblk.length ≤ hi → a ≤ o)
    (from_ : o ≤ k) (upto : k < o + ti.ti_mblk.length) :
    InQueue base lo before k ∨ ∃ ti' o', ti.trim_front before.getLast? = some ti' ∧
      ti'.Holds stream base o' ∧ o ≤ o' ∧ o' ≤ k ∧ k < o' + ti'.ti_mblk.length := by
  cases last : before.getLast? with
  | none => exact .inr ⟨ti, o, rfl, holds, le_refl o, from_, upto⟩
  | some qprev =>
    have mem := mem_of_getLast? last
    obtain ⟨a, low, placed, end_⟩ := row.mem mem
    have before_ := first qprev mem a placed low end_
    have distance : (qprev.end_ - ti.ti_seq).toInt = (a : Int) + qprev.ti_mblk.length - o := by
      rw [placed.end_, holds.ti_seq]
      exact seq_sub (by omega) (by omega)
    by_cases covered : k < a + qprev.ti_mblk.length
    · exact .inl ⟨qprev, mem, a, placed.ti_seq, low, by omega, by omega, covered⟩
    unfold trim_front
    dsimp only
    rw [distance, holds.ti_len]
    refine .inr ?_
    by_cases apart : (a : Int) + qprev.ti_mblk.length - o ≤ 0
    · exact ⟨ti, o, if_pos apart, holds, le_refl o, from_, upto⟩
    · obtain ⟨i, eq⟩ : ∃ i : Nat, (a : Int) + qprev.ti_mblk.length - o = i :=
        ⟨a + qprev.ti_mblk.length - o, by omega⟩
      rw [if_neg apart, if_neg (by omega)]
      refine ⟨_, o + i, rfl, holds.advance eq (by omega), Nat.le_add_right o i, by omega, ?_⟩
      rw [advance_length eq]
      omega

/-- What is taken off the later segments is in the new one. -/
theorem trim_back_keeps {after : List Segment} {k : Nat} (holds : ti.Holds stream base o)
    (row : InRow stream base o after hi) (near : hi < lo + 2 ^ 31) (above : lo ≤ o)
    (inside : o + ti.ti_mblk.length ≤ hi) (has : InQueue base lo after k) :
    (o ≤ k ∧ k < o + ti.ti_mblk.length) ∨ InQueue base lo (ti.trim_back after) k := by
  induction after with
  | nil => exact .inr has
  | cons q rest ih =>
    obtain ⟨a, low, placed, tail⟩ := row
    have below := tail.le
    have distance : (ti.end_ - q.ti_seq).toInt = (o : Int) + ti.ti_mblk.length - a := by
      rw [placed.ti_seq, holds.end_]
      exact seq_sub (by omega) (by omega)
    obtain ⟨q', mem, a', ti_seq, low', high', from_, upto⟩ := has
    have later : q' ∈ rest → InQueue base lo rest k :=
      fun mem => ⟨q', mem, a', ti_seq, low', high', from_, upto⟩
    have mine : q' = q → a ≤ k ∧ k < a + q.ti_mblk.length := by
      rintro rfl
      obtain rfl := placed.place_eq lo (by omega) (by omega) ti_seq low' high'
      exact ⟨from_, upto⟩
    unfold trim_back
    dsimp only
    rw [distance]
    split
    · exact .inr ⟨q', mem, a', ti_seq, low', high', from_, upto⟩
    next overlap =>
    rcases mem_cons.mp mem with same | mem
    · obtain ⟨from_, upto⟩ := mine same
      by_cases new : k < o + ti.ti_mblk.length
      · exact .inl ⟨by omega, new⟩
      · obtain ⟨i, eq⟩ : ∃ i : Nat, (o : Int) + ti.ti_mblk.length - a = i :=
          ⟨o + ti.ti_mblk.length - a, by omega⟩
        have cut := placed.advance eq (by omega)
        rw [placed.ti_len, if_pos (by omega)]
        refine .inr ⟨_, mem_cons_self, a + i, cut.ti_seq, by omega, by omega, by omega, ?_⟩
        rw [advance_length eq]
        omega
    · split
      · obtain ⟨q', mem, has⟩ := later mem
        exact .inr ⟨q', mem_cons_of_mem _ mem, has⟩
      · exact ih (tail.lower (by omega)) (later mem)

end Segment

namespace Tcb
open Segment Option

/-- Byte `k` of the stream has been handed on, or is in the queue. -/
def Has (base : tcp_seq) (tp : Tcb) (k : Nat) : Prop :=
  k < tp.handed.length ∨ InQueue base tp.handed.length tp.seg_next k

/-- Nothing in the queue is due. -/
def Drained (tp : Tcb) : Prop := ∀ q ∈ tp.seg_next, q.ti_seq ≠ tp.rcv_nxt

/-- The first `n` bytes have been handed on, and nothing after them is due. -/
structure Reads (stream : List Nat) (base : tcp_seq) (tp : Tcb) (n : Nat) : Prop where
  handed : tp.handed = stream.take n
  rcv_nxt : tp.rcv_nxt = number base n
  inside : n ≤ stream.length
  open_ : tp.SS_CANTRCVMORE = false

structure Holding (stream : List Nat) (base : tcp_seq) (tp : Tcb) (n : Nat) : Prop
    extends Reads stream base tp n where
  row : InRow stream base n tp.seg_next (n + (2 ^ 31 - 1))

/-- What a step makes of a receiver: more is handed on, nothing lost, and a FIN reported at the end.
-/
structure Advanced (stream : List Nat) (base : tcp_seq) (tp : Tcb) (n : Nat)
    (after : Tcb × Bool) (n' : Nat) : Prop where
  holding : after.1.Holding stream base n'
  forward : n ≤ n'
  state : after.1.t_state = tp.t_state
  reported : after.2 = true → n' = stream.length ∧ after.1.seg_next = []
  keeps : ∀ k, tp.Has base k → after.1.Has base k
  drained : tp.t_state ≠ .SYN_RECEIVED → after.1.Drained

theorem Reads.handed_length (reads : tp.Reads stream base n) : tp.handed.length = n := by
  rw [reads.handed, length_take]
  exact min_eq_left reads.inside

theorem drained_of_head {rest : List Segment} (reads : tp.Reads stream base n)
    (row : InRow stream base n (q :: rest) hi) (near : hi < n + 2 ^ 31)
    (gap : q.ti_seq ≠ tp.rcv_nxt) : ∀ q' ∈ q :: rest, q'.ti_seq ≠ tp.rcv_nxt := by
  obtain ⟨o, above, placed, tail⟩ := row
  have below := tail.le
  have later : o ≠ n := by
    rintro rfl
    exact gap (placed.ti_seq.trans reads.rcv_nxt.symm)
  intro q' mem
  rcases mem_cons.mp mem with rfl | mem
  · exact gap
  · obtain ⟨o', above', placed', upto⟩ := tail.mem mem
    rw [placed'.ti_seq, reads.rcv_nxt, ne_eq, seq_inj (by omega) (by omega)]
    omega

theorem deliver_advanced {queue : List Segment} {fin : Bool} (reads : tp.Reads stream base n)
    (row : InRow stream base n queue hi) (near : hi < n + 2 ^ 31)
    (last : fin = true → n = stream.length) :
    ∃ n', Advanced stream base { tp with seg_next := queue } n (deliver queue fin tp) n' ∧
      (n' = n ∨ n' ≤ hi ∧ ∃ q ∈ queue, ∃ a, q.Holds stream base a ∧ n' = a + q.ti_mblk.length) := by
  induction queue generalizing tp n fin with
  | nil =>
    refine ⟨n, ⟨⟨{ reads with }, ?_⟩, le_refl n,
      rfl, fun reported => ⟨last reported, rfl⟩, fun k has => has, fun _ q mem => absurd mem not_mem_nil⟩,
      .inl rfl⟩
    show n ≤ n + (2 ^ 31 - 1)
    omega
  | cons ti rest ih =>
    have gaps := drained_of_head reads row near
    obtain ⟨o, above, placed, tail⟩ := row
    have below := tail.le
    have inside := placed.text.inside
    have due : ti.ti_seq = tp.rcv_nxt ↔ o = n := by
      rw [placed.ti_seq, reads.rcv_nxt, seq_inj (by omega) (by omega)]
      omega
    unfold deliver
    split
    · next next_ =>
      obtain rfl := due.mp next_
      have reads' : Reads stream base { tp with
          rcv_nxt := ti.end_
          handed := if tp.SS_CANTRCVMORE then tp.handed else tp.handed ++ ti.ti_mblk }
          (o + ti.ti_mblk.length) := by
        refine ⟨?_, ?_, inside, reads.open_⟩
        · rw [reads.open_, reads.handed]
          exact placed.text.take_append
        · rw [placed.end_, Int.natCast_add]
      obtain ⟨n', advanced, reached⟩ := ih reads' tail (by omega) placed.fin
      refine ⟨n', { advanced with
        forward := by have := advanced.forward; omega
        keeps := fun k has => advanced.keeps k ?_ }, .inr ?_⟩
      · unfold Has at has ⊢
        rw [show (Tcb.handed { tp with seg_next := ti :: rest }).length = o from
          reads.handed_length] at has
        rw [reads'.handed_length]
        rcases has with before | ⟨q, mem, a, ti_seq, low, high, from_, upto⟩
        · exact .inl (by omega)
        · rcases mem_cons.mp mem with rfl | mem
          · obtain rfl := placed.place_eq o (le_refl o) (by omega) ti_seq low high
            exact .inl upto
          · have queued : InQueue base o rest k := ⟨q, mem, a, ti_seq, low, high, from_, upto⟩
            exact .inr (queued.raise tail near (by omega))
      · rcases reached with rfl | ⟨last, q, mem, a, holds, eq⟩
        · exact ⟨below, ti, mem_cons_self .., o, placed, rfl⟩
        · exact ⟨last, q, mem_cons_of_mem _ mem, a, holds, eq⟩
    · next gap =>
      refine ⟨n, ⟨⟨{ reads with }, ?_⟩, le_refl n,
        rfl, fun reported => ?_, fun k has => has, fun _ => gaps gap⟩, .inl rfl⟩
      · exact ⟨o, above, placed, tail.raise (by omega)⟩
      · -- nothing can follow the end of the stream
        have ended := last reported
        exact absurd (due.mpr (by omega)) gap

/-- The end of text that is held at the front of the queue. -/
def HeldTo (stream : List Nat) (base : tcp_seq) (tp : Tcb) (n n' : Nat) : Prop :=
  n' ≤ n + (2 ^ 31 - 1) ∧
    ∃ q ∈ tp.seg_next, ∃ a, q.Holds stream base a ∧ n' = a + q.ti_mblk.length

theorem present_advanced (holding : tp.Holding stream base n) :
    ∃ n', Advanced stream base tp n tp.present n' ∧ (n' = n ∨ HeldTo stream base tp n n') := by
  have still : (tp.t_state ≠ .SYN_RECEIVED → tp.Drained) →
      ∃ n', Advanced stream base tp n (tp, false) n' ∧ (n' = n ∨ HeldTo stream base tp n n') :=
    fun drained => ⟨n, ⟨holding, le_refl n, rfl, fun reported => by contradiction,
      fun _ has => has, drained⟩, .inl rfl⟩
  have row := holding.row
  have delivered := @deliver_advanced stream base tp n _ tp.seg_next false holding.toReads
    row (by omega) (fun reported => by contradiction)
  unfold HeldTo Drained at still
  unfold HeldTo
  unfold present
  cases queue : tp.seg_next with
  | nil =>
    rw [queue] at still
    exact still fun _ q mem => absurd mem not_mem_nil
  | cons ti rest =>
    rw [queue] at still delivered row
    dsimp only
    split
    · next gap => exact still fun _ => drained_of_head holding.toReads row (by omega) gap
    · split
      · next held => exact still fun past => absurd held.1 past
      · rw [← queue] at delivered ⊢
        exact delivered

theorem seq_gt_place {a' b' : Nat} (near : a' < b' + 2 ^ 31) (near' : b' < a' + 2 ^ 31) :
    SEQ_GT (number base a') (number base b') = decide (b' < a') := by
  unfold SEQ_GT SEQ_LT
  rw [BitVec.msb_eq_toInt, seq_sub (by omega) (by omega)]
  exact decide_eq_decide.mpr (by omega)

/-- The segments behind a trimmed one all begin after it. -/
theorem row_behind {before after : List Segment} {mid o' : Nat} (holds : ti.Holds stream base o)
    (first : InRow stream base n before mid) (second : InRow stream base mid after hi)
    (near : hi < n + 2 ^ 31) (above : n ≤ o) (inside : o' ≤ hi) (start : o ≤ hi)
    (gt : ∀ q ∈ after.head?, SEQ_GT q.ti_seq ti.ti_seq = true)
    (source : o' = o ∨
      ∃ q ∈ before, ∃ a, q.Holds stream base a ∧ n ≤ a ∧ a + q.ti_mblk.length = o') :
    InRow stream base o' after hi := by
  cases after with
  | nil => exact inside
  | cons q rest =>
    obtain ⟨a, low, placed, tail⟩ := second
    have below := tail.le
    have from_ := first.le
    refine ⟨a, ?_, placed, tail⟩
    rcases source with rfl | ⟨q', mem, b, holds', low', rfl⟩
    · have later := gt q rfl
      rw [placed.ti_seq, holds.ti_seq, seq_gt_place (by omega) (by omega)] at later
      exact le_of_lt (of_decide_eq_true later)
    · obtain ⟨b', low'', placed', upto⟩ := first.mem mem
      obtain rfl := placed'.place_eq n low'' (by omega) holds'.ti_seq low' (by omega)
      omega

section
variable (holding : tp.Holding stream base n) (holds : ti.Holds stream base o) (above : n ≤ o)
  (inside : o + ti.ti_mblk.length < n + 2 ^ 31) (drained : tp.t_state ≠ .SYN_RECEIVED → tp.Drained)
include holding holds above inside drained

theorem tcp_reass_advanced : ∃ n', Advanced stream base tp n (tp.tcp_reass ti) n' ∧
    ∀ k, o ≤ k → k < o + ti.ti_mblk.length → (tp.tcp_reass ti).1.Has base k := by
  have row := holding.row
  have length := holding.handed_length
  have whole := takeWhile_append_dropWhile (p := fun q => !SEQ_GT q.ti_seq ti.ti_seq)
    (l := tp.seg_next)
  rw [← whole] at row
  obtain ⟨mid, first, second⟩ := row.split
  have upto := second.le
  have before : ∀ q ∈ tp.seg_next.takeWhile fun q => !SEQ_GT q.ti_seq ti.ti_seq, ∀ a,
      q.Holds stream base a → n ≤ a → a + q.ti_mblk.length ≤ n + (2 ^ 31 - 1) → a ≤ o := by
    intro q mem a placed low high
    have not_gt := all_eq_true.mp all_takeWhile q mem
    rw [placed.ti_seq, holds.ti_seq, seq_gt_place (by omega) (by omega)] at not_gt
    simpa using not_gt
  have gt : ∀ q ∈ (tp.seg_next.dropWhile fun q => !SEQ_GT q.ti_seq ti.ti_seq).head?,
      SEQ_GT q.ti_seq ti.ti_seq = true := by
    intro q mem
    have not_not := head?_dropWhile_not (fun q => !SEQ_GT q.ti_seq ti.ti_seq) tp.seg_next
    rw [Option.mem_def.mp mem] at not_not
    simpa using not_not
  have took := fun k => trim_front_keeps (k := k) holds (first.raise upto) (by omega) above
    (by omega) before
  unfold tcp_reass
  dsimp only
  split
  · next nothing =>
    refine ⟨n, ⟨holding, le_refl n, rfl, fun reported => by contradiction, fun _ has => has,
      drained⟩, fun k from_ upto => ?_⟩
    rcases took k from_ upto with ⟨q, mem, has⟩ | ⟨ti', o', some_, -⟩
    · exact .inr ⟨q, (takeWhile_sublist _).subset mem, length.symm ▸ has⟩
    · cases nothing.symm.trans some_
  next ti' left =>
  obtain ⟨o', holds', ends, upto', source⟩ := trim_front_row holds (first.raise second.le)
    (by omega) above (by omega) left
  have rest := trim_back_row holds' (second.lower first.le) (by omega) upto'.le (by omega)
  have placed : Holding stream base { tp with
      seg_next := (tp.seg_next.takeWhile fun q => !SEQ_GT q.ti_seq ti.ti_seq) ++
        ti' :: ti'.trim_back (tp.seg_next.dropWhile fun q => !SEQ_GT q.ti_seq ti.ti_seq) } n :=
    ⟨{ holding with },
      upto'.append ⟨o', le_refl o', holds', rest⟩⟩
  obtain ⟨n', advanced, -⟩ := present_advanced placed
  have low := upto'.le
  have new : ∀ k, o' ≤ k → k < o' + ti'.ti_mblk.length → InQueue base n
      ((tp.seg_next.takeWhile fun q => !SEQ_GT q.ti_seq ti.ti_seq) ++
        ti' :: ti'.trim_back (tp.seg_next.dropWhile fun q => !SEQ_GT q.ti_seq ti.ti_seq)) k :=
    fun k from_ upto => ⟨ti', mem_append_right _ mem_cons_self, o', holds'.ti_seq, low, by omega,
      from_, upto⟩
  refine ⟨n', { advanced with keeps := fun k has => advanced.keeps k ?_ },
    fun k from_ upto => advanced.keeps k ?_⟩
  · rcases has with handed | ⟨q, mem, has⟩
    · exact .inl handed
    refine .inr ?_
    rw [length] at has ⊢
    rw [← whole] at mem
    rcases mem_append.mp mem with mem | mem
    · exact ⟨q, mem_append_left _ mem, has⟩
    · have behind := row_behind holds first second (by omega) above (by omega) (by omega) gt
        source
      rcases trim_back_keeps holds' behind (by omega) low (by omega) ⟨q, mem, has⟩ with
        ⟨from_, upto⟩ | ⟨q, mem, has⟩
      · exact new k from_ upto
      · exact ⟨q, mem_append_right _ (mem_cons_of_mem _ mem), has⟩
  · refine .inr ?_
    rw [length]
    rcases took k from_ upto with ⟨q, mem, has⟩ | ⟨ti'', o'', some_, holds'', further, from_, upto⟩
    · exact ⟨q, mem_append_left _ mem, has⟩
    · obtain rfl := Option.some.inj (left.symm.trans some_)
      exact ⟨ti', mem_append_right _ mem_cons_self, o'', holds''.ti_seq, by omega, by omega,
        from_, upto⟩

theorem TCP_REASS_advanced (flags : Flags) :
    ∃ n', Advanced stream base tp n (tp.TCP_REASS ti flags) n' ∧
      ∀ k, o ≤ k → k < o + ti.ti_mblk.length → (tp.TCP_REASS ti flags).1.Has base k := by
  unfold TCP_REASS
  split
  · next inline =>
    obtain ⟨next_, empty, -, -⟩ := inline
    rw [holds.ti_seq, holding.rcv_nxt, seq_inj (by omega) (by omega)] at next_
    obtain rfl : o = n := by omega
    have longer : (tp.handed ++ ti.ti_mblk).length = o + ti.ti_mblk.length := by
      rw [length_append, holding.handed_length]
    refine ⟨o + ti.ti_mblk.length, ⟨⟨⟨?_, ?_, holds.text.inside, holding.open_⟩, ?_⟩,
      by omega, rfl, fun reported => ⟨(holds.fin reported).symm ▸ rfl, empty⟩, ?_,
      fun past => ?_⟩, fun k _ upto => .inl (longer.symm ▸ upto)⟩
    · rw [holding.handed]
      exact holds.text.take_append
    · rw [holding.rcv_nxt, holds.ti_len, number_add, Int.natCast_add]
    · rw [empty]
      show o + ti.ti_mblk.length ≤ _
      omega
    · rintro k (handed | ⟨q, mem, -⟩)
      · exact .inl (Nat.lt_of_lt_of_le handed (by rw [length_append]; omega))
      · rw [empty] at mem
        cases mem
    · intro q mem
      rw [empty] at mem
      cases mem
  · exact tcp_reass_advanced holding holds above inside drained

end

end Tcb
end Tcp

/- A segment that agrees with the stream is trimmed to text that is next or later. -/
namespace Tcp
open SerialNumbers StreamPieces List Option
variable {stream : List Nat} {base : tcp_seq} {tp : Tcb} {ti ti' : Segment} {n o : Nat} {s : Int}
  {rcv_wnd : tcp_seq} {fl fl' : Flags}

namespace Segment

def syn (ti : Segment) : Int := if ti.ti_flags.TH_SYN then 1 else 0

/-- The segment starts at `s` and has the stream's text there; a FIN ends the stream, a SYN comes
before it. Its numbers lie within half of the sequence space from `n`. -/
structure Agrees (stream : List Nat) (base : tcp_seq) (ti : Segment) (n : Nat) (s : Int) :
    Prop where
  ti_seq : ti.ti_seq = number base s
  ti_len : ti.ti_len = ti.ti_mblk.length
  starts : ti.ti_flags.TH_SYN = true → s = -1
  text : ∀ k : Nat, s + ti.syn ≤ k → (k : Int) ≤ s + ti.syn + ti.ti_mblk.length →
    Piece stream k (ti.ti_mblk.drop (k - (s + ti.syn)).toNat)
  ends : ti.ti_flags.TH_FIN = true → s + ti.syn + ti.ti_mblk.length = stream.length
  low : -2 ^ 31 < s - n
  high : s + ti.syn + ti.ti_mblk.length - n < 2 ^ 31

theorem Agrees.holds (agrees : ti.Agrees stream base n s) {k : Nat} (above : s + ti.syn ≤ k)
    (within : (k : Int) ≤ s + ti.syn + ti.ti_mblk.length) {ti' : Segment}
    (ti_seq : ti'.ti_seq = number base k)
    (ti_len : ti'.ti_len = ti.ti_len - (k - (s + ti.syn)))
    (ti_mblk : ti'.ti_mblk = ti.ti_mblk.drop (k - (s + ti.syn)).toNat)
    (ti_flags : ti'.ti_flags = ti.ti_flags) : ti'.Holds stream base k where
  ti_seq := ti_seq
  ti_len := by
    rw [ti_len, ti_mblk, agrees.ti_len, length_drop]
    omega
  text := ti_mblk ▸ agrees.text k above within
  fin := fun fin => by
    have ends := agrees.ends (ti_flags ▸ fin)
    rw [ti_mblk, length_drop]
    omega

end Segment

theorem Segment.agrees_of_piece {k : Nat} (ti_seq : ti.ti_seq = number base s)
    (ti_len : ti.ti_len = ti.ti_mblk.length) (starts : ti.ti_flags.TH_SYN = true → s = -1)
    (first : s + ti.syn = k) (piece : Piece stream k ti.ti_mblk)
    (ends : ti.ti_flags.TH_FIN = true → k + ti.ti_mblk.length = stream.length)
    (low : -2 ^ 31 < s - n) (high : (k : Int) + ti.ti_mblk.length - n < 2 ^ 31) :
    ti.Agrees stream base n s where
  ti_seq := ti_seq
  ti_len := ti_len
  starts := starts
  text := fun j above within => by
    have later := piece.drop (show j - k ≤ ti.ti_mblk.length by omega)
    rw [show k + (j - k) = j by omega] at later
    rw [first, show ((j : Int) - k).toNat = j - k by omega]
    exact later
  ends := fun fin => by
    have := ends fin
    omega
  low := low
  high := by omega

namespace Tcb
open Segment Option

theorem Reads.distance (reads : tp.Reads stream base n) (agrees : ti.Agrees stream base n s) :
    (tp.rcv_nxt - ti.ti_seq).toInt = n - s := by
  have low := agrees.low
  have high := agrees.high
  have nonneg : 0 ≤ ti.syn := by
    unfold syn
    split <;> omega
  rw [reads.rcv_nxt, agrees.ti_seq, seq_sub (by omega) (by omega)]

theorem trim_left_holds (reads : tp.Reads stream base n) (agrees : ti.Agrees stream base n s)
    (left : tp.trim_left ti ti.ti_flags = some (ti', fl)) :
    ∃ o : Nat, ti'.Holds stream base o ∧ (o : Int) = max (s + ti.syn) n ∧
      (o : Int) + ti'.ti_mblk.length = s + ti.syn + ti.ti_mblk.length ∧
      fl.TH_FIN = ti.ti_flags.TH_FIN ∧ ti'.ti_flags = ti.ti_flags ∧ fl.TH_RST = ti.ti_flags.TH_RST ∧
      fl.TH_ACK = ti.ti_flags.TH_ACK ∧ fl.TH_SYN = false := by
  have inside := reads.inside
  unfold trim_left at left
  dsimp only at left
  rw [reads.distance agrees] at left
  split at left
  · next future =>
    obtain ⟨rfl, rfl⟩ := Prod.mk.inj (some.inj left)
    have nosyn : ti.ti_flags.TH_SYN = false := by
      rw [Bool.eq_false_iff]
      intro flagged
      have := agrees.starts flagged
      omega
    have zero : ti.syn = 0 := by
      unfold syn
      rw [nosyn]
      rfl
    obtain ⟨o, eq⟩ : ∃ o : Nat, s = o := ⟨s.toNat, by omega⟩
    refine ⟨o, agrees.holds (by omega) (by omega) ?_ (by omega) ?_ rfl, by omega, by omega, rfl,
      rfl, rfl, rfl, nosyn⟩
    · rw [agrees.ti_seq, eq]
    · rw [show ((o : Int) - (s + ti.syn)).toNat = 0 by omega, drop_zero]
  · next past =>
    -- the bytes to drop, once a SYN is out of the way
    obtain ⟨ti₁, ti₁_eq⟩ : ∃ ti₁, ti₁ = if ti.ti_flags.TH_SYN = true then
        { ti with
          ti_seq := ti.ti_seq + 1
          ti_urp := if 1 < ti.ti_urp then ti.ti_urp - 1 else ti.ti_urp }
      else ti := ⟨_, rfl⟩
    obtain ⟨fl₁, fl₁_eq⟩ : ∃ fl₁, fl₁ = if ti.ti_flags.TH_SYN = true then
        { ti.ti_flags with
          TH_SYN := false
          TH_URG := ti.ti_flags.TH_URG && decide (1 < ti.ti_urp) }
      else ti.ti_flags := ⟨_, rfl⟩
    obtain ⟨todrop, todrop_eq⟩ : ∃ todrop : Int, todrop =
        if ti.ti_flags.TH_SYN = true then (n : Int) - s - 1 else n - s := ⟨_, rfl⟩
    rw [← ti₁_eq, ← fl₁_eq, ← todrop_eq] at left
    have drops : todrop = n - (s + ti.syn) := by
      unfold syn
      rw [todrop_eq]
      split <;> omega
    have seq₁ : ti₁.ti_seq = number base (s + ti.syn) := by
      unfold syn
      rw [ti₁_eq]
      split
      · show ti.ti_seq + BitVec.ofInt 32 1 = _
        rw [agrees.ti_seq, number_add]
      · rw [agrees.ti_seq, Int.add_zero]
    have same₁ : ti₁.ti_len = ti.ti_len ∧ ti₁.ti_mblk = ti.ti_mblk ∧
        ti₁.ti_flags = ti.ti_flags := by
      rw [ti₁_eq]
      split <;> exact ⟨rfl, rfl, rfl⟩
    have flags₁ : fl₁.TH_FIN = ti.ti_flags.TH_FIN ∧ fl₁.TH_RST = ti.ti_flags.TH_RST ∧
        fl₁.TH_ACK = ti.ti_flags.TH_ACK ∧ fl₁.TH_SYN = false := by
      rw [fl₁_eq]
      split
      · exact ⟨rfl, rfl, rfl, rfl⟩
      · next plain => exact ⟨rfl, rfl, rfl, Bool.eq_false_iff.mpr plain⟩
    split at left
    · -- a FIN that has been received cannot be ahead of what was read
      split at left
      · next old =>
        obtain ⟨fin, one⟩ := old
        have ends := agrees.ends (flags₁.1 ▸ fin)
        rw [same₁.1, agrees.ti_len] at one
        omega
      · exact absurd left (by simp)
    · next some_left =>
      rw [same₁.1, agrees.ti_len] at some_left
      obtain ⟨rfl, rfl⟩ := Prod.mk.inj (some.inj left)
      refine ⟨n, agrees.holds (by omega) (by omega) ?_ ?_ ?_ same₁.2.2, by omega, ?_, flags₁.1,
        same₁.2.2, flags₁.2⟩
      · rw [seq₁, number_add, show s + ti.syn + todrop = n by omega]
      · rw [same₁.1, drops]
      · rw [same₁.2.1, drops]
      · rw [same₁.2.1, length_drop]
        omega

theorem right_distance (reads : tp.Reads stream base n) (holds : ti.Holds stream base o)
    (above : n ≤ o) (high : o + ti.ti_mblk.length < n + 2 ^ 31) (small : rcv_wnd.toNat < 2 ^ 31) :
    (ti.end_ - (tp.rcv_nxt + rcv_wnd)).toInt =
      (o : Int) + ti.ti_mblk.length - (n + rcv_wnd.toNat) := by
  have edge : tp.rcv_nxt + rcv_wnd = number base (n + rcv_wnd.toNat) := by
    rw [reads.rcv_nxt, ← number_add]
    congr 1
    rw [BitVec.ofInt_natCast, BitVec.ofNat_toNat, BitVec.setWidth_eq]
  rw [edge, holds.end_, seq_sub (by omega) (by omega)]

/-- What the right edge leaves: all, nothing, or what is inside; then a FIN is out of the flags, but
still in the segment. -/
theorem trim_right_holds (reads : tp.Reads stream base n) (holds : ti.Holds stream base o)
    (above : n ≤ o) (high : o + ti.ti_mblk.length < n + 2 ^ 31) (small : rcv_wnd.toNat < 2 ^ 31)
    (left : tp.trim_right rcv_wnd ti fl = some (ti', fl')) :
    (o + ti.ti_mblk.length ≤ n + rcv_wnd.toNat ∧ ti' = ti ∧ fl' = fl) ∨
    (rcv_wnd = 0 ∧ ti'.ti_len = 0 ∧ fl' = { fl with TH_FIN := false }) ∨
    (o < n + rcv_wnd.toNat ∧ n + rcv_wnd.toNat < o + ti.ti_mblk.length ∧
      fl' = { fl with TH_FIN := false } ∧
      (ti.ti_flags.TH_FIN = false → ti'.Holds stream base o ∧
        o + ti'.ti_mblk.length = n + rcv_wnd.toNat)) := by
  unfold trim_right at left
  dsimp only at left
  rw [right_distance reads holds above high small] at left
  split at left
  · next before =>
    obtain ⟨rfl, rfl⟩ := Prod.mk.inj (some.inj left)
    exact .inl ⟨by omega, rfl, rfl⟩
  next after =>
  split at left
  · exact absurd left (by simp)
  next kept =>
  obtain ⟨rfl, rfl⟩ := Prod.mk.inj (some.inj left)
  rw [holds.ti_len] at kept
  by_cases all : (ti.ti_mblk.length : Int) ≤ o + ti.ti_mblk.length - (n + rcv_wnd.toNat)
  · have probe : rcv_wnd = 0 ∧ ti.ti_seq = tp.rcv_nxt := by
      by_contra other
      exact kept ⟨all, other⟩
    obtain ⟨closed, next_⟩ := probe
    rw [holds.ti_seq, reads.rcv_nxt, seq_inj (by omega) (by omega)] at next_
    refine .inr (.inl ⟨closed, ?_, rfl⟩)
    rw [holds.ti_len, closed]
    show _ - (_ - ((n : Int) + (0 : Nat))) = _
    omega
  · refine .inr (.inr ⟨by omega, by omega, rfl, fun nofin => ?_⟩)
    obtain ⟨k, eq⟩ : ∃ k : Nat, (o : Int) + ti.ti_mblk.length - (n + rcv_wnd.toNat) = k :=
      ⟨o + ti.ti_mblk.length - (n + rcv_wnd.toNat), by omega⟩
    have rest : ti.ti_len - k = ((ti.ti_mblk.length - k : Nat) : Int) := by
      rw [holds.ti_len]
      omega
    have cut := @Holds.cut _ _ _ _ { ti with
        ti_len := ti.ti_len - k
        ti_mblk := ti.ti_mblk.take (ti.ti_mblk.length - k) } holds nofin
      (ti.ti_mblk.length - k) (Nat.sub_le _ k) rfl rest rfl rfl
    rw [eq, Int.toNat_natCast]
    exact ⟨cut.1, by rw [cut.2]; omega⟩

/-- Text that is in the window is not all cut off. -/
theorem trim_left_some (reads : tp.Reads stream base n) (agrees : ti.Agrees stream base n s)
    (reaches : n < s + ti.syn + ti.ti_mblk.length) :
    ∃ ti' fl, tp.trim_left ti ti.ti_flags = some (ti', fl) := by
  unfold trim_left
  rw [reads.distance agrees]
  unfold syn at reaches
  by_cases future : (n : Int) - s ≤ 0
  · exact ⟨_, _, if_pos future⟩
  rw [if_neg future]
  have len := agrees.ti_len
  cases flagged : ti.ti_flags.TH_SYN with
  | true =>
    rw [flagged, if_pos rfl] at reaches
    simp only [if_true]
    rw [if_neg (by omega)]
    exact ⟨_, _, rfl⟩
  | false =>
    rw [flagged, if_neg Bool.false_ne_true] at reaches
    simp only [Bool.false_eq_true, if_false, flagged]
    rw [if_neg (by omega)]
    exact ⟨_, _, rfl⟩

theorem trim_right_some (reads : tp.Reads stream base n) (holds : ti.Holds stream base o)
    (above : n ≤ o) (high : o + ti.ti_mblk.length < n + 2 ^ 31) (small : rcv_wnd.toNat < 2 ^ 31)
    (inside : o < n + rcv_wnd.toNat) (fl : Flags) :
    ∃ ti' fl', tp.trim_right rcv_wnd ti fl = some (ti', fl') := by
  unfold trim_right
  rw [right_distance reads holds above high small]
  by_cases before : (o : Int) + ti.ti_mblk.length - (n + rcv_wnd.toNat) ≤ 0
  · exact ⟨_, _, if_pos before⟩
  · have len := holds.ti_len
    rw [if_neg before, if_neg fun cut => absurd cut.1 (by omega)]
    exact ⟨_, _, rfl⟩

end Tcb
end Tcp
