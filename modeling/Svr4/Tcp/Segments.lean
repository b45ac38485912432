import Mathlib.Algebra.Group.Int.Defs
import Mathlib.Algebra.Group.Nat.Defs
import Mathlib.Data.List.TakeDrop

/- uts/i386/netinet/tcp_input.c: what becomes of the text of a segment in a connection past SYN. -/
namespace Tcp

abbrev tcp_seq := BitVec 32

/-- netinet/tcp_seq.h -/
def SEQ_LT (a b : tcp_seq) : Bool := (a - b).msb

def SEQ_GT (a b : tcp_seq) : Bool := SEQ_LT b a

/-- The states of netinet/tcp_fsm.h from SYN_RECEIVED on, and CLOSED. -/
inductive TState
  | CLOSED
  | SYN_RECEIVED
  | ESTABLISHED
  | CLOSE_WAIT
  | FIN_WAIT_1
  | CLOSING
  | LAST_ACK
  | FIN_WAIT_2
  | TIME_WAIT
  deriving DecidableEq

def TState.HAVERCVDFIN : TState → Bool
  | CLOSE_WAIT | CLOSING | LAST_ACK | TIME_WAIT => true
  | _ => false

structure Flags where
  TH_FIN : Bool
  TH_SYN : Bool
  TH_RST : Bool
  TH_ACK : Bool
  TH_URG : Bool
  deriving DecidableEq

structure Segment where
  ti_seq : tcp_seq
  ti_len : Int
  ti_flags : Flags
  ti_urp : Int
  ti_mblk : List Nat
  deriving DecidableEq

structure Tcb where
  t_state : TState
  rcv_nxt : tcp_seq
  seg_next : List Segment
  SS_CANTRCVMORE : Bool
  /-- what has been handed to `sendup` or its copy in `TCP_REASS` -/
  handed : List Nat

namespace Segment
variable (ti : Segment)

/-- The first `i` bytes are dropped. -/
def advance (i : Int) : Segment :=
  { ti with
    ti_seq := ti.ti_seq + BitVec.ofInt 32 i
    ti_len := ti.ti_len - i
    ti_mblk := ti.ti_mblk.drop i.toNat
    ti_flags := { ti.ti_flags with TH_URG := ti.ti_flags.TH_URG && decide (i ≤ ti.ti_urp) }
    ti_urp := if ti.ti_flags.TH_URG = true ∧ i ≤ ti.ti_urp then ti.ti_urp - i else ti.ti_urp }

def end_ : tcp_seq := ti.ti_seq + BitVec.ofInt 32 ti.ti_len

def trim_front : Option Segment → Option Segment
  | none => some ti
  | some qprev =>
      let i := (qprev.end_ - ti.ti_seq).toInt
      if i ≤ 0 then some ti
      else if ti.ti_len ≤ i then none
      else some (ti.advance i)

def trim_back : List Segment → List Segment
  | [] => []
  | q :: rest =>
      let i := (ti.end_ - q.ti_seq).toInt
      if i ≤ 0 then q :: rest
      else if i < q.ti_len then q.advance i :: rest
      else trim_back rest

end Segment

namespace Tcb
variable (tp : Tcb)

def deliver : List Segment → Bool → Tcb → Tcb × Bool
  | [], fin, tp => ({ tp with seg_next := [] }, fin)
  | ti :: rest, fin, tp =>
      if ti.ti_seq = tp.rcv_nxt then
        deliver rest ti.ti_flags.TH_FIN
          { tp with
            rcv_nxt := ti.end_
            handed := if tp.SS_CANTRCVMORE then tp.handed else tp.handed ++ ti.ti_mblk }
      else ({ tp with seg_next := ti :: rest }, fin)

def present : Tcb × Bool :=
  match tp.seg_next with
  | [] => (tp, false)
  | ti :: rest =>
      if ti.ti_seq ≠ tp.rcv_nxt then (tp, false)
      else if tp.t_state = .SYN_RECEIVED ∧ ti.ti_len ≠ 0 then (tp, false)
      else deliver (ti :: rest) false tp

/-- The second part of the result says whether TH_FIN is returned. -/
def tcp_reass (ti : Segment) : Tcb × Bool :=
  let before := tp.seg_next.takeWhile fun q => !SEQ_GT q.ti_seq ti.ti_seq
  let after := tp.seg_next.dropWhile fun q => !SEQ_GT q.ti_seq ti.ti_seq
  match ti.trim_front before.getLast? with
  | none => (tp, false)
  | some ti => { tp with seg_next := before ++ ti :: ti.trim_back after }.present

/-- With the flags that are left of the segment's; FIN is taken from the segment. -/
def TCP_REASS (ti : Segment) (flags : Flags) : Tcb × Bool :=
  if ti.ti_seq = tp.rcv_nxt ∧ tp.seg_next = [] ∧ tp.t_state = .ESTABLISHED ∧
      flags.TH_URG = false then
    ({ tp with
        rcv_nxt := tp.rcv_nxt + BitVec.ofInt 32 ti.ti_len
        handed := tp.handed ++ ti.ti_mblk }, ti.ti_flags.TH_FIN)
  else tp.tcp_reass ti

/-- A segment that begins before `rcv_nxt`; none where nothing is left but to send an ACK. -/
def trim_left (ti : Segment) (tiflags : Flags) : Option (Segment × Flags) :=
  let todrop := (tp.rcv_nxt - ti.ti_seq).toInt
  if todrop ≤ 0 then some (ti, tiflags)
  else
    -- the SYN comes first
    let urg := tiflags.TH_URG && decide (1 < ti.ti_urp)
    let ti' : Segment :=
      if tiflags.TH_SYN then
        { ti with
          ti_seq := ti.ti_seq + 1
          ti_urp := if 1 < ti.ti_urp then ti.ti_urp - 1 else ti.ti_urp }
      else ti
    let tiflags' : Flags :=
      if tiflags.TH_SYN then { tiflags with TH_SYN := false, TH_URG := urg } else tiflags
    let todrop := if tiflags.TH_SYN then todrop - 1 else todrop
    let cut (todrop : Int) (tiflags : Flags) : Segment × Flags :=
      ({ ti' with
          ti_seq := ti'.ti_seq + BitVec.ofInt 32 todrop
          ti_len := ti'.ti_len - todrop
          ti_mblk := ti'.ti_mblk.drop todrop.toNat
          ti_urp := if todrop < ti'.ti_urp then ti'.ti_urp - todrop else 0 },
        { tiflags with TH_URG := tiflags.TH_URG && decide (todrop < ti'.ti_urp) })
    if ti'.ti_len < todrop ∨ (todrop = ti'.ti_len ∧ tiflags'.TH_FIN = false) then
      if tiflags'.TH_FIN = true ∧ todrop = ti'.ti_len + 1 then
        some (cut ti'.ti_len { tiflags' with TH_FIN := false })
      else none
    else some (cut todrop tiflags')

def trim_right (rcv_wnd : tcp_seq) (ti : Segment) (tiflags : Flags) : Option (Segment × Flags) :=
  let todrop := (ti.end_ - (tp.rcv_nxt + rcv_wnd)).toInt
  if todrop ≤ 0 then some (ti, tiflags)
  else if ti.ti_len ≤ todrop ∧ ¬ (rcv_wnd = 0 ∧ ti.ti_seq = tp.rcv_nxt) then none
  else
    some ({ ti with
        ti_len := ti.ti_len - todrop
        ti_mblk := ti.ti_mblk.take (ti.ti_mblk.length - todrop.toNat) },
      { tiflags with TH_FIN := false })

/-- What ACK processing makes of a segment, by what it acknowledges. -/
structure Ack where
  /-- our SYN; asked for in SYN_RECEIVED -/
  syn : Bool
  /-- the segment is not dropped -/
  goes_on : Bool
  /-- our FIN -/
  ourfinisacked : Bool

/-- With whether the segment is processed further. -/
def acked (ack : Ack) : Tcb × Bool :=
  if tp.t_state = .SYN_RECEIVED ∧ ack.syn = false then (tp, false)
  else
    let tp :=
      if tp.t_state = .SYN_RECEIVED then { tp with t_state := .ESTABLISHED }.present.1 else tp
    if ack.goes_on = false then (tp, false)
    else
      match tp.t_state with
      | .FIN_WAIT_1 =>
          (if ack.ourfinisacked then { tp with t_state := .FIN_WAIT_2 } else tp, true)
      | .CLOSING => (if ack.ourfinisacked then { tp with t_state := .TIME_WAIT } else tp, true)
      | .LAST_ACK =>
          if ack.ourfinisacked then ({ tp with t_state := .CLOSED }, false) else (tp, true)
      | .TIME_WAIT => (tp, false)
      | _ => (tp, true)

def received_fin : Tcb :=
  let tp :=
    if tp.t_state.HAVERCVDFIN then tp
    else { tp with SS_CANTRCVMORE := true, rcv_nxt := tp.rcv_nxt + 1 }
  match tp.t_state with
  | .SYN_RECEIVED | .ESTABLISHED => { tp with t_state := .CLOSE_WAIT }
  | .FIN_WAIT_1 => { tp with t_state := .CLOSING }
  | .FIN_WAIT_2 => { tp with t_state := .TIME_WAIT }
  | _ => tp

def step6 (ti : Segment) (tiflags : Flags) : Tcb :=
  let ti :=
    if tiflags.TH_URG = true ∧ ti.ti_urp ≠ 0 ∧ tp.t_state.HAVERCVDFIN = false then
      { ti with ti_urp := ti.ti_urp - 1 }
    else ti
  let text :=
    if (ti.ti_len ≠ 0 ∨ tiflags.TH_FIN = true) ∧ tp.t_state.HAVERCVDFIN = false then
      tp.TCP_REASS ti tiflags
    else (tp, false)
  if text.2 then text.1.received_fin else text.1

/-- The SYN of the other side, which puts the connection past SYN. -/
def trimthenstep6 (rcv_wnd : tcp_seq) (ti : Segment) : Tcb :=
  let tiflags := ti.ti_flags
  let wnd : Int := rcv_wnd.toNat
  let ti := { ti with ti_seq := ti.ti_seq + 1 }
  if wnd < ti.ti_len then
    let todrop := ti.ti_len - wnd
    tp.step6
      { ti with
        ti_len := wnd
        ti_mblk := ti.ti_mblk.take (ti.ti_mblk.length - todrop.toNat) }
      { tiflags with TH_FIN := false }
  else tp.step6 ti tiflags

/-- A segment on a connection past SYN; `gone` says that the user processes are. -/
def tcp_uinput (ti : Segment) (rcv_wnd : tcp_seq) (gone : Bool) (ack : Ack) : Tcb :=
  if tp.t_state = .CLOSED then tp
  else
    match tp.trim_left ti ti.ti_flags with
    | none => tp
    | some (ti, tiflags) =>
        if gone = true ∧ tp.t_state ∉ [.SYN_RECEIVED, .ESTABLISHED, .CLOSE_WAIT] ∧
            ti.ti_len ≠ 0 then { tp with t_state := .CLOSED }
        else
          match tp.trim_right rcv_wnd ti tiflags with
          | none => tp
          | some (ti, tiflags) =>
              if tiflags.TH_RST ∨ tiflags.TH_SYN then { tp with t_state := .CLOSED }
              else if tiflags.TH_ACK = false then tp
              else
                match tp.acked ack with
                | (tp, false) => tp
                | (tp, true) => tp.step6 ti tiflags

/-- The user has no more to send; the other side may go on. -/
def tcp_usrclosed : Tcb :=
  match tp.t_state with
  | .SYN_RECEIVED | .ESTABLISHED => { tp with t_state := .FIN_WAIT_1 }
  | .CLOSE_WAIT => { tp with t_state := .LAST_ACK }
  | _ => tp

/-- `drop` says that the user asked not to linger. -/
def tcp_disconnect (drop : Bool) : Tcb :=
  if tp.t_state = .CLOSED ∨ tp.t_state = .SYN_RECEIVED ∨ drop = true then
    { tp with t_state := .CLOSED }
  else tp.tcp_usrclosed

end Tcb

/-- What happens to a connection past SYN whose user goes on receiving. -/
inductive Event
  | segment (ti : Segment) (rcv_wnd : tcp_seq) (gone : Bool) (ack : Tcb.Ack)
  | disconnect (drop : Bool)
  /-- by a timer -/
  | dropped

namespace Tcb

def step (tp : Tcb) : Event → Option Tcb
  | .segment ti rcv_wnd gone ack => some (tp.tcp_uinput ti rcv_wnd gone ack)
  | .disconnect drop => some (tp.tcp_disconnect drop)
  | .dropped => some { tp with t_state := .CLOSED }

/-- When a SYN with the number `irs` has come and has not been looked into. -/
def synchronized (irs : tcp_seq) (t_state : TState) : Tcb where
  t_state := t_state
  rcv_nxt := irs + 1
  seg_next := []
  SS_CANTRCVMORE := false
  handed := []

end Tcb
end Tcp
