import Svr4.Runs
import Svr4.Tcp.Trimming

/- Runs of a connection: the stream is handed on in order, and then its FIN is received. -/
namespace Tcp
open SerialNumbers StreamPieces LabelledRuns Option
variable {stream : List Nat} {base irs : tcp_seq} {tp : Tcb} {ti : Segment} {n : Nat} {fl : Flags}
  {ack : Tcb.Ack} {gone : Bool}

namespace Segment

def start (tp : Tcb) (ti : Segment) : Int := (ti.ti_seq - tp.rcv_nxt).toInt + ti.syn

def stop (tp : Tcb) (ti : Segment) : Int := ti.start tp + ti.ti_len

def InWindow (tp : Tcb) (rcv_wnd : tcp_seq) (ti : Segment) : Prop :=
  0 < rcv_wnd.toNat ∧ ti.start tp < rcv_wnd.toNat ∧ 0 < ti.stop tp ∧ 0 < ti.ti_len

end Segment

def Ignores (tp : Tcb) : Prop := tp.t_state = .CLOSED ∨ tp.t_state.HAVERCVDFIN = true

def Looks (tp : Tcb) (ti : Segment) (gone : Bool) (ack : Tcb.Ack) : Prop :=
  ¬ Ignores tp ∧
    ¬ (gone = true ∧ tp.t_state ∉ [TState.SYN_RECEIVED, .ESTABLISHED, .CLOSE_WAIT]) ∧
    ti.ti_flags.TH_RST = false ∧ ti.ti_flags.TH_ACK = true ∧ ack.goes_on = true ∧
    (tp.t_state = .SYN_RECEIVED → ack.syn = true)

/-- Of a segment looked at with text in the window the FIN is in it too, and the text does not begin
before the end of text held until our SYN is acknowledged. -/
def Within (tp : Tcb) : Event → Prop
  | .segment ti rcv_wnd gone ack => Looks tp ti gone ack → ti.InWindow tp rcv_wnd →
      (ti.ti_flags.TH_FIN = true → ti.stop tp ≤ rcv_wnd.toNat) ∧
      (tp.t_state = .SYN_RECEIVED →
        ∀ q ∈ tp.seg_next, (q.end_ - tp.rcv_nxt).toInt ≤ ti.start tp)
  | _ => True

def Agreed (stream : List Nat) (irs : tcp_seq) (tp : Tcb) (ti : Segment) : Prop :=
  ∃ s, ti.Agrees stream (irs + 1) tp.handed.length s

def Fits (stream : List Nat) (irs : tcp_seq) (tp : Tcb) : Event → Prop
  | .segment ti rcv_wnd _ _ => Agreed stream irs tp ti ∧ rcv_wnd.toNat < 2 ^ 31
  | _ => True

/-- The first bytes have been handed on, all when a FIN has been received; `rcv_nxt` counts them,
the SYN and that FIN; the queue is a row above. -/
def InOrder (stream : List Nat) (irs : tcp_seq) (tp : Tcb) : Prop :=
  ∃ n ≤ stream.length, tp.handed = stream.take n ∧
    tp.rcv_nxt = number (irs + 1) (n + if tp.SS_CANTRCVMORE then 1 else 0) ∧
    Segment.InRow stream (irs + 1) n tp.seg_next (n + (2 ^ 31 - 1)) ∧
    (tp.SS_CANTRCVMORE = true → n = stream.length)

/-- The stream is handed on in order, and past SYN_RECEIVED what is due has been. The text in the
window of the next segment looked at is handed on or queued, and nothing there is lost. -/
structure Delivered (stream : List Nat) (irs : tcp_seq) (tp : Tcb) : Prop where
  in_order : InOrder stream irs tp
  drained : tp.t_state ≠ .SYN_RECEIVED → tp.t_state ≠ .CLOSED → tp.Drained
  takes : ∀ ti rcv_wnd gone ack, Fits stream irs tp (.segment ti rcv_wnd gone ack) →
    Within tp (.segment ti rcv_wnd gone ack) → Looks tp ti gone ack → ti.InWindow tp rcv_wnd →
    ∀ k : Nat, tp.handed.length + ti.start tp ≤ k → k < tp.handed.length + ti.stop tp →
      k < tp.handed.length + rcv_wnd.toNat → (tp.tcp_uinput ti rcv_wnd gone ack).Has (irs + 1) k
  keeps : ∀ e tp', Fits stream irs tp e → Within tp e → tp.step e = some tp' →
    ∀ k, tp.Has (irs + 1) k → tp'.Has (irs + 1) k

structure Received (stream : List Nat) (base : tcp_seq) (tp : Tcb) : Prop where
  handed : tp.handed = stream
  rcv_nxt : tp.rcv_nxt = number base (stream.length + 1)
  seg_next : tp.seg_next = []
  SS_CANTRCVMORE : tp.SS_CANTRCVMORE = true
  ignores : Ignores tp

inductive Reception (stream : List Nat) (base : tcp_seq) (tp : Tcb) : Prop
  | receiving (n : Nat) (holding : tp.Holding stream base n)
      (state : tp.t_state.HAVERCVDFIN = false)
      (drained : tp.t_state ≠ .SYN_RECEIVED → tp.t_state ≠ .CLOSED → tp.Drained)
  | received (received : Received stream base tp)

theorem Reception.in_order (reception : Reception stream (irs + 1) tp) :
    InOrder stream irs tp := by
  cases reception with
  | receiving n holding state =>
    refine ⟨n, holding.inside, holding.handed, ?_, holding.row, fun received => ?_⟩
    · rw [holding.rcv_nxt, holding.open_]
      show _ = number (irs + 1) (n + 0)
      rw [Int.add_zero]
    · rw [holding.open_] at received
      contradiction
  | received received =>
    refine ⟨stream.length, le_refl _, ?_, ?_, ?_, fun _ => rfl⟩
    · rw [received.handed, List.take_length]
    · rw [received.rcv_nxt, received.SS_CANTRCVMORE]
      rfl
    · rw [received.seg_next]
      show stream.length ≤ _
      omega

/-- What a step makes of a connection. -/
structure Goes (stream : List Nat) (base : tcp_seq) (tp tp' : Tcb) : Prop where
  reception : Reception stream base tp'
  keeps : ∀ k, tp.Has base k → tp'.Has base k

namespace Tcb
open Segment

theorem Has.same {tp' : Tcb} {k : Nat} (has : tp.Has base k) (handed : tp'.handed = tp.handed)
    (seg_next : tp'.seg_next = tp.seg_next) : tp'.Has base k := by
  unfold Has at has ⊢
  rwa [handed, seg_next]

theorem received_fin_same (tp : Tcb) :
    tp.received_fin.handed = tp.handed ∧ tp.received_fin.seg_next = tp.seg_next := by
  unfold received_fin
  dsimp only
  split <;> split <;> exact ⟨rfl, rfl⟩

theorem receiving_of_looks (looks : ¬ Ignores tp) : tp.t_state.HAVERCVDFIN = false :=
  Bool.eq_false_iff.mpr fun received => looks (.inr received)

section
variable (holding : tp.Holding stream base n)
include holding

theorem Holding.with_state (t_state : TState) :
    Holding stream base { tp with t_state := t_state } n :=
  ⟨{ holding with }, holding.row⟩

theorem received_fin_received (all : n = stream.length) (empty : tp.seg_next = [])
    (looks : ¬ Ignores tp) :
    Received stream base tp.received_fin := by
  have state := receiving_of_looks looks
  have next_ : tp.rcv_nxt + 1 = number base (stream.length + 1) := by
    rw [holding.rcv_nxt, all]
    exact number_add base stream.length 1
  have handed : tp.handed = stream := by
    rw [holding.handed, all, List.take_length]
  unfold received_fin
  rw [if_neg (by rw [state]; decide)]
  cases eq : tp.t_state with
  | SYN_RECEIVED | ESTABLISHED | FIN_WAIT_1 | FIN_WAIT_2 =>
    exact ⟨handed, next_, empty, rfl, .inr rfl⟩
  | CLOSED => exact absurd (.inl eq) looks
  | CLOSE_WAIT | CLOSING | LAST_ACK | TIME_WAIT =>
    rw [eq] at state
    contradiction

theorem step6_goes (fl : Flags) (looks : ¬ Ignores tp)
    (drained : tp.t_state ≠ .SYN_RECEIVED → tp.Drained)
    (text : (ti.ti_len = 0 ∧ fl.TH_FIN = false) ∨ ∃ o, ti.Holds stream base o ∧ n ≤ o ∧ o +
      ti.ti_mblk.length < n + 2 ^ 31) :
    Goes stream base tp (tp.step6 ti fl) ∧ ∀ o, ti.Holds stream base o → n ≤ o →
      o + ti.ti_mblk.length < n + 2 ^ 31 →
      ∀ k, o ≤ k → k < o + ti.ti_mblk.length → (tp.step6 ti fl).Has base k := by
  have state := receiving_of_looks looks
  have same : Goes stream base tp tp :=
    ⟨Reception.receiving n holding state fun syn _ => drained syn, fun _ has => has⟩
  unfold step6
  obtain ⟨ti', ti'_eq⟩ : ∃ ti', ti' =
      if fl.TH_URG = true ∧ ti.ti_urp ≠ 0 ∧ tp.t_state.HAVERCVDFIN = false then
        { ti with ti_urp := ti.ti_urp - 1 }
      else ti := ⟨_, rfl⟩
  rw [← ti'_eq]
  have urgent : ti'.ti_len = ti.ti_len ∧ ti'.ti_mblk = ti.ti_mblk ∧
      ∀ o, ti.Holds stream base o → ti'.Holds stream base o := by
    rw [ti'_eq]
    split
    · exact ⟨rfl, rfl, fun o holds => { holds with }⟩
    · exact ⟨rfl, rfl, fun o holds => holds⟩
  obtain ⟨len, mblk, holds'⟩ := urgent
  -- a segment at `o` goes through TCP_REASS
  have reass : ∀ o, ti.Holds stream base o → n ≤ o → o + ti.ti_mblk.length < n + 2 ^ 31 →
      Goes stream base tp (if (tp.TCP_REASS ti' fl).2 = true then
        (tp.TCP_REASS ti' fl).1.received_fin else (tp.TCP_REASS ti' fl).1) ∧
      ∀ k, o ≤ k → k < o + ti.ti_mblk.length →
        (if (tp.TCP_REASS ti' fl).2 = true then (tp.TCP_REASS ti' fl).1.received_fin
          else (tp.TCP_REASS ti' fl).1).Has base k := by
    intro o holds above near
    obtain ⟨n', advanced, took⟩ := TCP_REASS_advanced holding (holds' o holds) above
      (by rwa [mblk]) drained fl
    have state' := advanced.state
    rw [mblk] at took
    split
    · next reported =>
      obtain ⟨all, empty⟩ := advanced.reported reported
      obtain ⟨handed, seg_next⟩ := received_fin_same (tp.TCP_REASS ti' fl).1
      refine ⟨⟨Reception.received (received_fin_received advanced.holding all empty ?_),
        fun k has => (advanced.keeps k has).same handed seg_next⟩,
        fun k from_ upto => (took k from_ upto).same handed seg_next⟩
      unfold Ignores
      rw [state']
      exact looks
    · refine ⟨⟨Reception.receiving n' advanced.holding (state' ▸ state) fun syn _ => ?_,
        advanced.keeps⟩, took⟩
      exact advanced.drained (state' ▸ syn)
  by_cases nothing : (ti'.ti_len ≠ 0 ∨ fl.TH_FIN = true) ∧ tp.t_state.HAVERCVDFIN = false
  · simp only [if_pos nothing]
    rcases text with ⟨empty, nofin⟩ | ⟨o, holds, above, near⟩
    · rw [len, empty, nofin] at nothing
      simp at nothing
    · exact ⟨(reass o holds above near).1, fun o holds above near => (reass o holds above near).2⟩
  · simp only [if_neg nothing]
    refine ⟨same, fun o holds above near k from_ upto => ?_⟩
    have some_ := holds.ti_len
    exact absurd ⟨.inl (by omega), state⟩ nothing

end

/-- What ACK processing makes of a connection that is looked at. -/
structure Acked (stream : List Nat) (base : tcp_seq) (tp : Tcb) (ack : Tcb.Ack) (n : Nat)
    (after : Tcb × Bool) (n' : Nat) : Prop where
  holding : after.1.Holding stream base n'
  state : after.1.t_state.HAVERCVDFIN = false
  forward : n ≤ n'
  goes : after.2 = true → ¬ Ignores after.1 ∧ ack.goes_on = true ∧
    (tp.t_state = .SYN_RECEIVED → ack.syn = true)
  reached : n' = n ∨ tp.t_state = .SYN_RECEIVED ∧ HeldTo stream base tp n n'
  keeps : ∀ k, tp.Has base k → after.1.Has base k
  drained : after.1.t_state ≠ .SYN_RECEIVED → after.1.Drained

section
variable (holding : tp.Holding stream base n) (looks : ¬ Ignores tp)
include holding looks

theorem acked_holding (drained : tp.t_state ≠ .SYN_RECEIVED → tp.Drained) :
    ∃ n', Acked stream base tp ack n (tp.acked ack) n' := by
  have state := receiving_of_looks looks
  have still : ∀ st : TState, st.HAVERCVDFIN = false → st ≠ .CLOSED →
      tp.t_state ≠ .SYN_RECEIVED → ack.goes_on = true →
      ∃ n', Acked stream base tp ack n ({ tp with t_state := st }, true) n' := by
    intro st receiving open_ other goes_on
    refine ⟨n, holding.with_state st, receiving, le_refl n, fun _ => ⟨?_, goes_on, ?_⟩,
      .inl rfl, fun _ has => has, fun _ => drained other⟩
    · rintro (closed | received)
      · exact open_ closed
      · rw [receiving] at received
        contradiction
    · exact fun syn => absurd syn other
  have stops : ∃ n', Acked stream base tp ack n (tp, false) n' :=
    ⟨n, holding, state, le_refl n, fun dropped => by contradiction, .inl rfl, fun _ has => has,
      drained⟩
  unfold acked
  by_cases syn_received : tp.t_state = .SYN_RECEIVED
  · by_cases syn : ack.syn = false
    · rw [if_pos ⟨syn_received, syn⟩]
      exact stops
    rw [if_neg fun both => syn both.2]
    dsimp only
    rw [if_pos syn_received]
    obtain ⟨n', advanced, reached⟩ := present_advanced (holding.with_state .ESTABLISHED)
    have established := advanced.state
    have reached' : n' = n ∨ tp.t_state = .SYN_RECEIVED ∧ HeldTo stream base tp n n' :=
      reached.imp_right fun held => ⟨syn_received, held⟩
    have drained' := advanced.drained (show TState.ESTABLISHED ≠ .SYN_RECEIVED by decide)
    dsimp only at established
    split
    · exact ⟨n', advanced.holding, by rw [established]; rfl, advanced.forward,
        fun dropped => by contradiction, reached', advanced.keeps, fun _ => drained'⟩
    next goes_on =>
    rw [established]
    refine ⟨n', advanced.holding, by rw [established]; rfl, advanced.forward, fun _ => ⟨?_,
      (Bool.not_eq_false _).mp goes_on, fun _ => (Bool.not_eq_false _).mp syn⟩, reached',
      advanced.keeps, fun _ => drained'⟩
    unfold Ignores
    rw [established]
    decide
  · rw [if_neg fun both => syn_received both.1]
    dsimp only
    rw [if_neg syn_received]
    split
    · exact stops
    next goes_on =>
    have goes_on := (Bool.not_eq_false _).mp goes_on
    have kept := still tp.t_state state (fun closed => looks (.inl closed)) syn_received goes_on
    split
    · split
      · exact still .FIN_WAIT_2 rfl (by decide) syn_received goes_on
      · exact kept
    · next closing => exact absurd state (by rw [closing]; decide)
    · next last_ack => exact absurd state (by rw [last_ack]; decide)
    · next time_wait => exact absurd state (by rw [time_wait]; decide)
    · exact kept

theorem acked_goes_on (goes_on : ack.goes_on = true)
    (syn : tp.t_state = .SYN_RECEIVED → ack.syn = true) : (tp.acked ack).2 = true := by
  have state := receiving_of_looks looks
  unfold acked
  rw [if_neg fun both => by rw [syn both.1] at both; exact absurd both.2 (by decide)]
  rw [if_neg (by rw [goes_on]; decide)]
  by_cases syn_received : tp.t_state = .SYN_RECEIVED
  · obtain ⟨n', advanced, -⟩ := present_advanced (holding.with_state .ESTABLISHED)
    have established := advanced.state
    rw [if_pos syn_received, established]
  · rw [if_neg syn_received]
    split
    · rfl
    · next closing => exact absurd state (by rw [closing]; decide)
    · next last_ack => exact absurd state (by rw [last_ack]; decide)
    · next time_wait => exact absurd state (by rw [time_wait]; decide)
    · rfl

end

variable {s : Int} {rcv_wnd : tcp_seq}

theorem Reads.start_eq (reads : tp.Reads stream base n) (agrees : ti.Agrees stream base n s) :
    ti.start tp = s + ti.syn - n := by
  have low := agrees.low
  have high := agrees.high
  have nonneg : 0 ≤ ti.syn := by
    unfold syn
    split <;> omega
  unfold start
  rw [reads.rcv_nxt, agrees.ti_seq, seq_sub (by omega) (by omega)]
  omega

theorem Reads.stop_eq (reads : tp.Reads stream base n) (agrees : ti.Agrees stream base n s) :
    ti.stop tp = s + ti.syn + ti.ti_mblk.length - n := by
  unfold stop
  rw [reads.start_eq agrees, agrees.ti_len]
  omega

/-- Both edges of the window have been applied. -/
structure Trimmed (stream : List Nat) (base : tcp_seq) (n : Nat) (s : Int) (rcv_wnd : tcp_seq)
    (ti ti₁ ti₂ : Segment) (fl₂ : Flags) (o : Nat) : Prop where
  holds : ti₁.Holds stream base o
  first : (o : Int) = max (s + ti.syn) n
  ends : (o : Int) + ti₁.ti_mblk.length = s + ti.syn + ti.ti_mblk.length
  flags₁ : ti₁.ti_flags = ti.ti_flags
  flags₂ : fl₂.TH_RST = ti.ti_flags.TH_RST ∧ fl₂.TH_ACK = ti.ti_flags.TH_ACK ∧ fl₂.TH_SYN = false
  edges : (o + ti₁.ti_mblk.length ≤ n + rcv_wnd.toNat ∧ ti₂ = ti₁ ∧
      fl₂.TH_FIN = ti.ti_flags.TH_FIN) ∨
    (rcv_wnd = 0 ∧ ti₂.ti_len = 0 ∧ fl₂.TH_FIN = false) ∨
    (o < n + rcv_wnd.toNat ∧ n + rcv_wnd.toNat < o + ti₁.ti_mblk.length ∧ fl₂.TH_FIN = false ∧
      (ti₁.ti_flags.TH_FIN = false → ti₂.Holds stream base o ∧
        o + ti₂.ti_mblk.length = n + rcv_wnd.toNat))

theorem trimmed {ti₁ ti₂ : Segment} {fl₁ fl₂ : Flags} (reads : tp.Reads stream base n)
    (agrees : ti.Agrees stream base n s) (small : rcv_wnd.toNat < 2 ^ 31)
    (left : tp.trim_left ti ti.ti_flags = some (ti₁, fl₁))
    (right : tp.trim_right rcv_wnd ti₁ fl₁ = some (ti₂, fl₂)) :
    ∃ o, Trimmed stream base n s rcv_wnd ti ti₁ ti₂ fl₂ o := by
  obtain ⟨o, holds, first, ends, fin, flags, rst, ack, syn⟩ := trim_left_holds reads agrees left
  have high := agrees.high
  refine ⟨o, holds, first, ends, flags, ?_, ?_⟩
  · rcases trim_right_holds reads holds (by omega) (by omega) small right with
      ⟨-, -, rfl⟩ | ⟨-, -, rfl⟩ | ⟨-, -, rfl, -⟩ <;> exact ⟨rst, ack, syn⟩
  · rcases trim_right_holds reads holds (by omega) (by omega) small right with
      ⟨inside, rfl, rfl⟩ | ⟨shut, empty, rfl⟩ | ⟨before, after, rfl, cut⟩
    · exact .inl ⟨inside, rfl, fin⟩
    · exact .inr (.inl ⟨shut, empty, rfl⟩)
    · exact .inr (.inr ⟨before, after, rfl, cut⟩)

section
variable {ti₁ ti₂ : Segment} {fl₂ : Flags} {o n' : Nat} (holding : tp.Holding stream base n)
  (agrees : ti.Agrees stream base n s) (trim : Trimmed stream base n s rcv_wnd ti ti₁ ti₂ fl₂ o)
  (forward : n ≤ n') (reached : n' = n ∨ tp.t_state = .SYN_RECEIVED ∧ HeldTo stream base tp n n')
  (within : ti.InWindow tp rcv_wnd → (ti.ti_flags.TH_FIN = true → ti.stop tp ≤ rcv_wnd.toNat) ∧
    (tp.t_state = .SYN_RECEIVED → ∀ q ∈ tp.seg_next, (q.end_ - tp.rcv_nxt).toInt ≤ ti.start tp))
include holding agrees trim forward reached within

/-- Of text in the window that part is left which the window has. -/
theorem text_in_window (window : ti.InWindow tp rcv_wnd) : ti₂.Holds stream base o ∧ n' ≤ o ∧
    o + ti₂.ti_mblk.length = min (o + ti₁.ti_mblk.length) (n + rcv_wnd.toNat) := by
  have start_eq := holding.toReads.start_eq agrees
  have stop_eq := holding.toReads.stop_eq agrees
  have high := agrees.high
  have first := trim.first
  have ends := trim.ends
  have placed := trim.holds
  obtain ⟨open_, starts, stops, some_⟩ := window
  -- held text that has been handed on ends where this text begins, or before
  have later : n' ≤ o := by
    rcases reached with rfl | ⟨syn_received, last, q, mem, a, holds', rfl⟩
    · omega
    · have before := (within ⟨open_, starts, stops, some_⟩).2 syn_received q mem
      rw [start_eq, holds'.end_, holding.rcv_nxt, seq_sub (by omega) (by omega)] at before
      omega
  rcases trim.edges with ⟨inside, rfl, -⟩ | ⟨shut, -⟩ | ⟨before, after, -, cut⟩
  · exact ⟨placed, later, (min_eq_left inside).symm⟩
  · rw [shut] at open_
    exact absurd open_ (by decide)
  · have nofin : ti.ti_flags.TH_FIN = false := by
      rw [Bool.eq_false_iff]
      intro fin
      have := (within ⟨open_, starts, stops, some_⟩).1 fin
      omega
    obtain ⟨holds', upto⟩ := cut (trim.flags₁ ▸ nofin)
    exact ⟨holds', later, by omega⟩

theorem text_due : (ti₂.ti_len = 0 ∧ fl₂.TH_FIN = false) ∨
    ∃ o, ti₂.Holds stream base o ∧ n' ≤ o ∧ o + ti₂.ti_mblk.length < n' + 2 ^ 31 := by
  have start_eq := holding.toReads.start_eq agrees
  have stop_eq := holding.toReads.stop_eq agrees
  have high := agrees.high
  have first := trim.first
  have ends := trim.ends
  have due : o < n + rcv_wnd.toNat → 0 < ti₁.ti_mblk.length →
      ∃ o, ti₂.Holds stream base o ∧ n' ≤ o ∧ o + ti₂.ti_mblk.length < n' + 2 ^ 31 := by
    intro before some_
    obtain ⟨holds, later, upto⟩ := text_in_window holding agrees trim forward reached within
      (by unfold InWindow; rw [start_eq, stop_eq, agrees.ti_len]; omega)
    exact ⟨o, holds, later, by omega⟩
  rcases trim.edges with ⟨inside, rfl, fin₂⟩ | ⟨-, empty, nofin⟩ | ⟨before, after, -, -⟩
  · by_cases empty : ti₂.ti_mblk.length = 0
    · cases fin : fl₂.TH_FIN with
      | false => exact .inl ⟨by rw [trim.holds.ti_len, empty]; rfl, rfl⟩
      | true =>
        -- all held text lies before the end of the stream
        have at_end := trim.holds.fin (by rw [trim.flags₁, ← fin₂, fin])
        refine .inr ⟨o, trim.holds, ?_, by omega⟩
        rcases reached with rfl | ⟨-, -, q, -, a, placed, rfl⟩
        · omega
        · have := placed.text.inside
          omega
    · exact .inr (due (by omega) (by omega))
  · exact .inl ⟨empty, nofin⟩
  · exact .inr (due before (by omega))

end

section
variable (holding : tp.Holding stream base n) (looks : ¬ Ignores tp)
  (drained : tp.t_state ≠ .SYN_RECEIVED → tp.Drained) (agrees : ti.Agrees stream base n s)
  (small : rcv_wnd.toNat < 2 ^ 31) (within : Within tp (.segment ti rcv_wnd gone ack))
include holding looks drained agrees small within

theorem tcp_uinput_goes : Goes stream base tp (tp.tcp_uinput ti rcv_wnd gone ack) := by
  have state := receiving_of_looks looks
  have same : Goes stream base tp tp :=
    ⟨Reception.receiving n holding state fun syn _ => drained syn, fun _ has => has⟩
  have closed : Goes stream base tp { tp with t_state := .CLOSED } :=
    ⟨Reception.receiving n (holding.with_state .CLOSED) rfl fun _ open_ => absurd rfl open_,
      fun _ has => has⟩
  unfold tcp_uinput
  rw [if_neg fun closed => looks (.inl closed)]
  split
  · exact same
  next ti₁ fl₁ left =>
  split
  · exact closed
  next stays =>
  split
  · exact same
  next ti₂ fl₂ right =>
  obtain ⟨o, trim⟩ := trimmed holding.toReads agrees small left right
  obtain ⟨rst, acked, -⟩ := trim.flags₂
  split
  · exact closed
  next plain =>
  split
  · exact same
  next acks =>
  obtain ⟨n', after⟩ : ∃ n', Acked stream base tp ack n (tp.acked ack) n' :=
    acked_holding holding looks drained
  split
  · next tp' dropped =>
    rw [dropped] at after
    exact ⟨Reception.receiving n' after.holding after.state fun syn _ =>
      after.drained syn, after.keeps⟩
  next tp' on =>
  rw [on] at after
  obtain ⟨looks', goes_on, syn⟩ := after.goes rfl
  have text := text_due holding agrees trim after.forward after.reached
    fun window => within ?_ window
  · obtain ⟨⟨reception, keeps⟩, -⟩ := step6_goes after.holding fl₂ looks' after.drained text
    exact ⟨reception, fun k has => keeps k (after.keeps k has)⟩
  · refine ⟨looks, fun leaves => stays ⟨leaves.1, leaves.2, ?_⟩, ?_, ?_, goes_on, syn⟩
    · -- text in the window is not trimmed away on the left
      obtain ⟨-, -, stop_pos, some_⟩ := window
      rw [holding.toReads.stop_eq agrees] at stop_pos
      rw [agrees.ti_len] at some_
      have first := trim.first
      have ends := trim.ends
      rw [trim.holds.ti_len]
      omega
    · rw [← rst]
      exact Bool.eq_false_iff.mpr fun rst => plain (.inl rst)
    · rw [← acked]
      exact (Bool.not_eq_false _).mp acks

/-- Text in the window of a segment that is looked at comes in. -/
theorem tcp_uinput_takes (looked : Looks tp ti gone ack) (window : ti.InWindow tp rcv_wnd) {k : Nat}
    (from_ : n + ti.start tp ≤ k) (upto : k < n + ti.stop tp) (edge : k < n + rcv_wnd.toNat) :
    (tp.tcp_uinput ti rcv_wnd gone ack).Has base k := by
  by_cases old : k < n
  · exact (tcp_uinput_goes holding looks drained agrees small within).keeps k
      (.inl (by rwa [holding.handed_length]))
  have high := agrees.high
  have start_eq := holding.toReads.start_eq agrees
  have stop_eq := holding.toReads.stop_eq agrees
  obtain ⟨-, stays, rst, acks, goes_on, syn⟩ := looked
  obtain ⟨ti₁, fl₁, left⟩ := trim_left_some holding.toReads agrees (by omega)
  obtain ⟨o₁, holds₁, first₁, ends₁, -⟩ := trim_left_holds holding.toReads agrees left
  obtain ⟨ti₂, fl₂, right⟩ := trim_right_some holding.toReads holds₁ (by omega) (by omega) small
    (by omega) fl₁
  obtain ⟨o, trim⟩ := trimmed holding.toReads agrees small left right
  have first := trim.first
  have ends := trim.ends
  obtain ⟨rst₂, acks₂, syn₂⟩ := trim.flags₂
  obtain ⟨n', after⟩ : ∃ n', Acked stream base tp ack n (tp.acked ack) n' :=
    acked_holding holding looks drained
  have forward := after.forward
  obtain ⟨holds, later, whole⟩ := text_in_window holding agrees trim forward after.reached
    (within ⟨looks, stays, rst, acks, goes_on, syn⟩) window
  unfold tcp_uinput
  rw [if_neg fun closed => looks (.inl closed), left]
  dsimp only
  rw [if_neg fun leaves => stays ⟨leaves.1, leaves.2.1⟩, right]
  dsimp only
  rw [if_neg (by rw [rst₂, syn₂, rst]; decide), if_neg (by rw [acks₂, acks]; decide)]
  rcases on : tp.acked ack with ⟨tp', on'⟩
  obtain rfl : true = on' := (acked_goes_on holding looks goes_on syn).symm.trans (congrArg Prod.snd on)
  rw [on] at after
  exact (step6_goes after.holding fl₂ (after.goes rfl).1 after.drained
    (.inr ⟨o, holds, later, by omega⟩)).2 o holds later (by omega) k (by omega) (by omega)

end

theorem step6_ignores (past : tp.t_state.HAVERCVDFIN = true) : tp.step6 ti fl = tp := by
  unfold step6
  simp only [past, Bool.true_eq_false, and_false, if_false, Bool.false_eq_true]

theorem received_with_state (received : Received stream base tp) {t_state : TState}
    (ignores : t_state = .CLOSED ∨ t_state.HAVERCVDFIN = true) :
    Received stream base { tp with t_state := t_state } :=
  { received with ignores }

theorem acked_received (received : Received stream base tp)
    (past : tp.t_state.HAVERCVDFIN = true) :
    Received stream base (tp.acked ack).1 ∧
      ((tp.acked ack).2 = true → (tp.acked ack).1.t_state.HAVERCVDFIN = true) := by
  have other : tp.t_state ≠ .SYN_RECEIVED := by
    intro eq
    rw [eq] at past
    contradiction
  unfold acked
  rw [if_neg fun both => other both.1]
  dsimp only
  rw [if_neg other]
  split
  · exact ⟨received, fun dropped => by contradiction⟩
  split
  · next fin_wait_1 => exact absurd past (by rw [fin_wait_1]; decide)
  · split
    · exact ⟨received_with_state received (.inr rfl), fun _ => rfl⟩
    · exact ⟨received, fun _ => past⟩
  · split
    · exact ⟨received_with_state received (.inl rfl), fun dropped => by contradiction⟩
    · exact ⟨received, fun _ => past⟩
  · exact ⟨received, fun dropped => by contradiction⟩
  · exact ⟨received, fun _ => past⟩

theorem tcp_uinput_received (received : Received stream base tp) :
    Received stream base (tp.tcp_uinput ti rcv_wnd gone ack) := by
  have closed : Received stream base { tp with t_state := .CLOSED } :=
    received_with_state received (.inl rfl)
  unfold tcp_uinput
  split
  · exact received
  next open_ =>
  have past := received.ignores.resolve_left open_
  obtain ⟨received', past'⟩ := @acked_received _ _ _ ack received past
  split
  · exact received
  split
  · exact closed
  split
  · exact received
  split
  · exact closed
  split
  · exact received
  split
  · next dropped =>
    rw [dropped] at received'
    exact received'
  · next on =>
    rw [on] at received' past'
    rw [step6_ignores (past' rfl)]
    exact received'

theorem tcp_uinput_received_keeps (received : Received stream base tp) {k : Nat}
    (has : tp.Has base k) : (tp.tcp_uinput ti rcv_wnd gone ack).Has base k := by
  have after : Received stream base (tp.tcp_uinput ti rcv_wnd gone ack) :=
    tcp_uinput_received received
  exact has.same (after.handed.trans received.handed.symm) (after.seg_next.trans received.seg_next.symm)

theorem disconnect_goes (reception : Reception stream base tp) (drop : Bool) :
    Goes stream base tp (tp.tcp_disconnect drop) := by
  unfold tcp_disconnect
  cases reception with
  | receiving n holding state drained =>
    have with_state : ∀ st : TState, st.HAVERCVDFIN = false →
        (st ≠ .SYN_RECEIVED → st ≠ .CLOSED → tp.Drained) →
        Goes stream base tp { tp with t_state := st } :=
      fun st receiving drained =>
        ⟨Reception.receiving n (holding.with_state st) receiving drained, fun _ has => has⟩
    split
    · exact with_state .CLOSED rfl fun _ open_ => absurd rfl open_
    next stays =>
    rw [not_or, not_or] at stays
    have due := drained stays.2.1 stays.1
    unfold tcp_usrclosed
    split
    · exact with_state .FIN_WAIT_1 rfl fun _ _ => due
    · exact with_state .FIN_WAIT_1 rfl fun _ _ => due
    · next close_wait => exact absurd state (by rw [close_wait]; decide)
    · exact with_state tp.t_state state fun _ _ => due
  | received received =>
    have with_state : ∀ st : TState, st = .CLOSED ∨ st.HAVERCVDFIN = true →
        Goes stream base tp { tp with t_state := st } :=
      fun st ignores => ⟨Reception.received (received_with_state received ignores), fun _ has => has⟩
    have ignores := received.ignores
    unfold Ignores at ignores
    split
    · exact with_state .CLOSED (.inl rfl)
    · unfold tcp_usrclosed
      split
      · next syn_received => exact absurd ignores (by rw [syn_received]; decide)
      · next established => exact absurd ignores (by rw [established]; decide)
      · exact with_state .LAST_ACK (.inr rfl)
      · exact with_state tp.t_state ignores

theorem step_goes (reception : Reception stream (irs + 1) tp) {e : Event}
    (fits : Fits stream irs tp e) (within : Within tp e) {tp' : Tcb}
    (step : tp.step e = some tp') : Goes stream (irs + 1) tp tp' := by
  cases e with
  | segment ti rcv_wnd gone ack =>
    obtain rfl := some.inj step
    obtain ⟨⟨s, agrees⟩, small⟩ := fits
    cases reception with
    | received received =>
      exact ⟨Reception.received (tcp_uinput_received received),
        fun _ has => tcp_uinput_received_keeps received has⟩
    | receiving n holding state drained =>
      by_cases ignores : Ignores tp
      · have closed : tp.t_state = .CLOSED := by
          refine ignores.resolve_right fun past => ?_
          rw [state] at past
          contradiction
        unfold tcp_uinput
        rw [if_pos closed]
        exact ⟨Reception.receiving n holding state drained, fun _ has => has⟩
      · rw [holding.handed_length] at agrees
        exact tcp_uinput_goes holding ignores (fun syn => drained syn fun closed =>
          ignores (.inl closed)) agrees small within
  | disconnect drop =>
    obtain rfl := some.inj step
    exact disconnect_goes reception drop
  | dropped =>
    obtain rfl := some.inj step
    cases reception with
    | receiving n holding state =>
      exact ⟨Reception.receiving n (holding.with_state .CLOSED) rfl fun _ open_ => absurd rfl open_,
        fun _ has => has⟩
    | received received =>
      exact ⟨Reception.received (received_with_state received (.inl rfl)), fun _ has => has⟩

end Tcb

theorem Reception.delivered (reception : Reception stream (irs + 1) tp) :
    Delivered stream irs tp := by
  refine ⟨reception.in_order, ?_, ?_,
    fun e tp' fits within step => (Tcb.step_goes reception fits within step).keeps⟩
  · cases reception with
    | receiving n holding state drained => exact drained
    | received received =>
      intro _ _ q mem
      rw [received.seg_next] at mem
      cases mem
  · intro ti rcv_wnd gone ack fits within looked window k from_ upto edge
    obtain ⟨⟨s, agrees⟩, small⟩ := fits
    cases reception with
    | receiving n holding state drained =>
      have length := holding.handed_length
      rw [length] at agrees from_ upto edge
      exact Tcb.tcp_uinput_takes holding looked.1 (fun syn => drained syn fun closed =>
        looked.1 (.inl closed)) agrees small within looked window from_ upto edge
    | received received => exact absurd received.ignores looked.1

end Tcp

/- The text of a connection from its SYN on. -/
namespace Tcp
open SerialNumbers StreamPieces LabelledRuns
variable {stream text : List Nat} {base irs : tcp_seq}

namespace Tcb
open Segment

/-- The text of the SYN itself that the window has comes in. -/
theorem trimthenstep6_goes {t_state : TState}
    (opens : t_state = .SYN_RECEIVED ∨ t_state = .ESTABLISHED) {syn : Segment}
    (flagged : syn.ti_flags.TH_SYN = true)
    (agreed : Agreed stream irs (synchronized irs t_state) syn) {rcv_wnd : tcp_seq}
    (whole : syn.ti_flags.TH_FIN = true → rcv_wnd = 0 ∨ syn.ti_len ≤ rcv_wnd.toNat) :
    Reception stream (irs + 1) ((synchronized irs t_state).trimthenstep6 rcv_wnd syn) ∧
      ∀ k : Nat, k < syn.ti_len → k < rcv_wnd.toNat →
        ((synchronized irs t_state).trimthenstep6 rcv_wnd syn).Has (irs + 1) k := by
  obtain ⟨s, agrees⟩ := agreed
  have start : s + syn.syn = 0 := by
    rw [agrees.starts flagged]
    unfold Segment.syn
    rw [flagged]
    rfl
  have high := agrees.high
  have len := agrees.ti_len
  have holding : (synchronized irs t_state).Holding stream (irs + 1) 0 :=
    ⟨⟨rfl, (number_zero (irs + 1)).symm, Nat.zero_le _, rfl⟩, Nat.zero_le _⟩
  have looks : ¬ Ignores (synchronized irs t_state) := by
    have receives : ∀ st : TState, st = .SYN_RECEIVED ∨ st = .ESTABLISHED →
        ¬ (st = .CLOSED ∨ st.HAVERCVDFIN = true) := by
      rintro st (rfl | rfl) <;> decide
    exact receives t_state opens
  have drained : (synchronized irs t_state).Drained := fun q mem => absurd mem List.not_mem_nil
  have holds : Holds stream (irs + 1) { syn with ti_seq := syn.ti_seq + 1 } 0 := by
    refine agrees.holds (by omega) (by omega) ?_ ?_ ?_ rfl
    · show syn.ti_seq + BitVec.ofInt 32 1 = _
      rw [agrees.ti_seq, agrees.starts flagged, number_add]
      rfl
    · show syn.ti_len = _
      omega
    · rw [start]
      rfl
  change s + syn.syn + syn.ti_mblk.length - (0 : Nat) < 2 ^ 31 at high
  unfold trimthenstep6
  dsimp only
  split
  · next beyond =>
    by_cases shut : rcv_wnd = 0
    · refine ⟨(step6_goes holding _ looks (fun _ => drained)
        (.inl ⟨by rw [shut]; rfl, rfl⟩)).1.reception, fun k _ inside => ?_⟩
      rw [shut] at inside
      exact absurd inside (Nat.not_lt_zero k)
    have nofin : syn.ti_flags.TH_FIN = false := by
      rw [Bool.eq_false_iff]
      intro fin
      have := (whole fin).resolve_left shut
      omega
    have fits : rcv_wnd.toNat ≤ syn.ti_mblk.length := by omega
    have kept : syn.ti_mblk.length - (syn.ti_len - rcv_wnd.toNat).toNat = rcv_wnd.toNat := by
      omega
    have cut := @Holds.cut _ _ _ _ { syn with
        ti_seq := syn.ti_seq + 1
        ti_len := rcv_wnd.toNat
        ti_mblk := syn.ti_mblk.take
          (syn.ti_mblk.length - (syn.ti_len - rcv_wnd.toNat).toNat) } holds nofin
      rcv_wnd.toNat fits rfl rfl (congrArg (List.take · syn.ti_mblk) kept) rfl
    have near : 0 + (syn.ti_mblk.take
        (syn.ti_mblk.length - (syn.ti_len - rcv_wnd.toNat).toNat)).length < 0 + 2 ^ 31 := by
      rw [cut.2]
      omega
    obtain ⟨goes, took⟩ := step6_goes holding { syn.ti_flags with TH_FIN := false } looks
      (fun _ => drained) (.inr ⟨0, cut.1, le_refl 0, near⟩)
    exact ⟨goes.reception, fun k _ inside => took 0 cut.1 (le_refl 0) near k (Nat.zero_le k)
      (by rw [cut.2]; omega)⟩
  · have near : 0 + syn.ti_mblk.length < 0 + 2 ^ 31 := by omega
    obtain ⟨goes, took⟩ := step6_goes holding syn.ti_flags looks (fun _ => drained)
      (.inr ⟨0, holds, le_refl 0, near⟩)
    exact ⟨goes.reception, fun k inside _ => took 0 holds (le_refl 0) near k (Nat.zero_le k)
      (by show k < 0 + syn.ti_mblk.length; omega)⟩

end Tcb

theorem stream_delivered (stream : List Nat) (irs : tcp_seq) {t_state : TState}
    (opens : t_state = .SYN_RECEIVED ∨ t_state = .ESTABLISHED) {syn : Segment}
    (flagged : syn.ti_flags.TH_SYN = true)
    (agreed : Agreed stream irs (.synchronized irs t_state) syn) {rcv_wnd : tcp_seq}
    (whole : syn.ti_flags.TH_FIN = true → rcv_wnd = 0 ∨ syn.ti_len ≤ rcv_wnd.toNat)
    {events : List Event}
    (run : Guarded Tcb.step (fun tp e => Fits stream irs tp e ∧ Within tp e)
      (Tcb.trimthenstep6 (.synchronized irs t_state) rcv_wnd syn) events) :
    (∀ k : Nat, k < syn.ti_len → k < rcv_wnd.toNat →
      (Tcb.trimthenstep6 (.synchronized irs t_state) rcv_wnd syn).Has (irs + 1) k) ∧
    Throughout Tcb.step (Delivered stream irs)
      (Tcb.trimthenstep6 (.synchronized irs t_state) rcv_wnd syn) events := by
  obtain ⟨reception, took⟩ := Tcb.trimthenstep6_goes opens flagged agreed whole
  exact ⟨took, throughout_of_guarded (Reception stream (irs + 1))
    (fun _ reception => reception.delivered)
    (fun _ _ _ reception ok step => (Tcb.step_goes reception ok.1 ok.2 step).reception) reception
    run⟩

def Segment.sample (ti_seq : tcp_seq) (TH_SYN TH_FIN : Bool) (text : List Nat) : Segment where
  ti_seq := ti_seq
  ti_len := text.length
  ti_flags := ⟨TH_FIN, TH_SYN, false, true, false⟩
  ti_urp := 0
  ti_mblk := text

/-- Such a segment arrives with text from position `k` on. -/
def arrival (irs : tcp_seq) (k : Nat) (fin : Bool) (text : List Nat) (rcv_wnd : tcp_seq) : Event :=
  .segment (.sample (number (irs + 1) k) false fin text) rcv_wnd false ⟨true, true, false⟩

theorem Segment.sample_agrees {fin : Bool} {k : Nat} (piece : Piece stream k text)
    (ends : fin = true → k + text.length = stream.length) (near : k + text.length < 2 ^ 31) :
    (Segment.sample (number base k) false fin text).Agrees stream base 0 k :=
  agrees_of_piece rfl rfl (fun flagged => by contradiction) (Int.add_zero _) piece ends
    (by omega) (by show (k : Int) + text.length - (0 : Nat) < _; omega)

theorem Segment.syn_agrees (piece : Piece stream 0 text) (near : text.length < 2 ^ 31) :
    (Segment.sample irs true false text).Agrees stream (irs + 1) 0 (-1) := by
  refine agrees_of_piece ?_ rfl (fun _ => rfl) (by rfl) piece (fun fin => by contradiction)
    (by decide) (by show ((0 : Nat) : Int) + text.length - (0 : Nat) < _; omega)
  have cancel : (1 : tcp_seq) + BitVec.ofInt 32 (-1) = 0 := by decide
  show irs = irs + 1 + BitVec.ofInt 32 (-1)
  rw [BitVec.add_assoc, cancel]
  exact (BitVec.add_zero irs).symm

def established (irs : tcp_seq) : Tcb :=
  Tcb.trimthenstep6 (.synchronized irs .ESTABLISHED) 4 (.sample irs true false [])

def syn_received : Tcb :=
  Tcb.trimthenstep6 (.synchronized 100 .SYN_RECEIVED) 9 (.sample 100 true false [1, 2])

/-- The numbers wrap between two segments that arrive in the wrong order. -/
theorem stream_delivered_wrapping : Throughout Tcb.step (Delivered [1, 2, 3, 4] 0xfffffffd)
    (established 0xfffffffd)
    [arrival 0xfffffffd 2 true [3, 4] 4, arrival 0xfffffffd 0 false [1, 2, 3] 4] := by
  have run : Guarded Tcb.step (fun tp e => Fits [1, 2, 3, 4] 0xfffffffd tp e ∧ Within tp e)
      (established 0xfffffffd)
      [arrival 0xfffffffd 2 true [3, 4] 4, arrival 0xfffffffd 0 false [1, 2, 3] 4] := by
    refine ⟨⟨⟨⟨2, Segment.sample_agrees ⟨by decide, rfl⟩ (fun _ => rfl) (by decide)⟩, by decide⟩,
      fun _ _ => ⟨fun _ => by decide, fun syn => by contradiction⟩⟩, ?_⟩
    intro tp' taken
    obtain rfl := Option.some.inj taken
    refine ⟨⟨⟨⟨0, Segment.sample_agrees ⟨by decide, rfl⟩ (fun fin => by contradiction)
      (by decide)⟩, by decide⟩, ?_⟩, fun _ _ => trivial⟩
    exact fun _ _ => ⟨fun fin => by contradiction, fun syn => absurd syn (by decide)⟩
  exact (stream_delivered [1, 2, 3, 4] 0xfffffffd (.inr rfl) (by rfl)
    ⟨-1, Segment.syn_agrees ⟨by decide, rfl⟩ (by decide)⟩ (fun fin => by contradiction) run).2

/-- A FIN is received for a segment whose tail was cut off; text held for our SYN to be acknowledged
is queued again below `rcv_nxt`, where it stays. -/
theorem stream_is_not_delivered :
    (Agreed [1, 2, 3, 4, 5, 6] 100 (.synchronized 100 .ESTABLISHED) (.sample 100 true false []) ∧
      Guarded Tcb.step (Fits [1, 2, 3, 4, 5, 6] 100) (established 100)
        [arrival 100 0 true [1, 2, 3, 4, 5, 6] 4] ∧
      ¬ Throughout Tcb.step (Delivered [1, 2, 3, 4, 5, 6] 100) (established 100)
        [arrival 100 0 true [1, 2, 3, 4, 5, 6] 4]) ∧
    (Agreed [1, 2, 3] 100 (.synchronized 100 .SYN_RECEIVED) (.sample 100 true false [1, 2]) ∧
      Guarded Tcb.step (Fits [1, 2, 3] 100) syn_received
        [arrival 100 0 false [1, 2, 3] 9] ∧
      ¬ Throughout Tcb.step (Delivered [1, 2, 3] 100) syn_received
        [arrival 100 0 false [1, 2, 3] 9]) := by
  refine ⟨⟨⟨-1, Segment.syn_agrees ⟨by decide, rfl⟩ (by decide)⟩,
      ⟨⟨⟨0, ?_⟩, by decide⟩, fun _ _ => trivial⟩, ?_⟩,
    ⟨-1, Segment.syn_agrees ⟨by decide, rfl⟩ (by decide)⟩,
      ⟨⟨⟨0, ?_⟩, by decide⟩, fun _ _ => trivial⟩, ?_⟩
  · exact Segment.sample_agrees ⟨by decide, rfl⟩ (fun _ => rfl) (by decide)
  · rintro ⟨-, after⟩
    obtain ⟨n, -, handed, -, -, received⟩ := (after _ rfl).in_order
    obtain rfl := received rfl
    revert handed
    decide
  · exact Segment.sample_agrees ⟨by decide, rfl⟩ (fun fin => by contradiction) (by decide)
  · rintro ⟨-, after⟩
    obtain ⟨n, le, handed, -, row, -⟩ := (after _ rfl).in_order
    have two : 2 = (List.take n [1, 2, 3]).length := congrArg List.length handed
    obtain ⟨o, above, holds, -⟩ := row
    have inside : o + 3 ≤ 3 := holds.text.inside
    rw [List.length_take] at two
    omega

end Tcp
