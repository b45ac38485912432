import Mathlib.Algebra.GroupWithZero.Nat
import Svr4.DoublyLinked

/- io/stream.c: the messages on a queue and the flow control of its priority bands. A message
   is known by the number of its first block. What wakes service procedures up (QWANTR,
   QWANTW, QB_WANTW, `qenable`, `setqback`) is left out. -/
namespace StreamQueues
open DoublyLinked

def M_DATA : Nat := 0x00
def M_PROTO : Nat := 0x01
def M_DELAY : Nat := 0x0c
def M_PCPROTO : Nat := 0x83
def QNORM : Nat := 0x00
def QPCTL : Nat := 0x80

structure Mblk where
  b_band : Fin 256
  /-- `b_datap->db_type` -/
  db_type : Fin 256
  /-- `b_flag & MSGNOGET` -/
  noget : Bool
  /-- `b_wptr - b_rptr` of the blocks along `b_cont` -/
  sizes : List Nat

def Mblk.queclass (m : Mblk) : Nat := if QPCTL ≤ m.db_type.val then QPCTL else QNORM

def datamsg (type : Nat) : Bool :=
  type == M_DATA || type == M_PROTO || type == M_PCPROTO || type == M_DELAY

/-- The flow control of a queue, or of one of its bands. -/
structure Flow where
  /-- `q_count`, `qb_count` -/
  count : Nat
  /-- `q_hiwat`, `qb_hiwat` -/
  hiwat : Nat
  /-- `q_lowat`, `qb_lowat` -/
  lowat : Nat
  /-- `q_flag & QFULL`, `qb_flag & QB_FULL` -/
  full : Bool

/-- Add the sizes of a message; at the high water mark the queue or band becomes full. -/
def Flow.charge (f : Flow) (sizes : List Nat) : Flow :=
  let count := sizes.foldl (fun c size => c + size) f.count
  { f with count := count, full := f.full || decide (f.hiwat ≤ count) }

/-- Subtract the sizes of a message; below the high water mark the queue or band is not full. -/
def Flow.discharge (f : Flow) (sizes : List Nat) : Flow :=
  let count := sizes.foldl (fun c size => c - size) f.count
  { f with count := count, full := f.full && !decide (count < f.hiwat) }

structure Qband extends Flow where
  qb_first : Option Nat
  qb_last : Option Nat

/-- `struct queue` with the messages it may hold. The list is `b_next`, `b_prev`, `q_first` and
`q_last`; the `q_nband` bands of `q_bandp` are numbered from 1. -/
structure Queue where
  list : DList Nat
  message : Nat → Mblk
  flow : Flow
  q_nband : Nat
  q_bandp : Nat → Qband
  nmblk : Nat

scoped instance neZero_uchar : NeZero 256 := ⟨by decide⟩

namespace Queue

/-- The band found by walking `q_bandp`; `none` is a walk off its end. -/
def qband (q : Queue) (i : Nat) : Option Qband :=
  if i ≤ q.q_nband then some (q.q_bandp i) else none

/-- Allocate bands up to `band`. `supply` is how often `allocband` will still succeed. -/
def addBands (q : Queue) (band : Nat) : Nat → Queue × Bool
  | 0 => (q, decide (band ≤ q.q_nband))
  | supply + 1 =>
      if q.q_nband < band then
        addBands { q with
          q_bandp := Function.update q.q_bandp (q.q_nband + 1)
            { count := 0, hiwat := q.flow.hiwat, lowat := q.flow.lowat, full := false,
              qb_first := none, qb_last := none }
          q_nband := q.q_nband + 1 } band supply
      else (q, true)

/-- The sanity checks of `putq` and `putbq`; false when a band could not be allocated. -/
def sane (q : Queue) (bp supply : Nat) : Queue × Bool :=
  let m := q.message bp
  if m.queclass = QPCTL then
    -- force to be correct
    ({ q with message := Function.update q.message bp { m with b_band := 0 } }, true)
  else if m.b_band ≠ 0 then q.addBands m.b_band supply
  else (q, true)

/-- Where `putq` links a message. `none` is a NULL pointer that is followed. -/
def putqLink (q : Queue) (bp : Nat) : Option (DList Nat) :=
  let d := q.list
  let m := q.message bp
  if d.first = none then some (d.single bp)
  else if m.b_band = 0 then do
    let tmp ← d.last
    if m.queclass ≤ (q.message tmp).queclass then some (d.tackOn bp tmp)
    else do
      let tmp ← DList.skipWhile d.next (fun t => decide (m.queclass ≤ (q.message t).queclass))
        q.nmblk d.first
      some (d.insertBefore bp tmp)
  else do
    let qbp ← q.qband m.b_band
    match qbp.qb_first with
    | some _ => do
      let tmp ← qbp.qb_last
      some (d.insertAfter bp tmp)
    | none => do
      let tmp ← d.last
      if m.queclass < (q.message tmp).queclass ∨ m.b_band ≤ (q.message tmp).b_band then
        some (d.tackOn bp tmp)
      else do
        let tmp ← DList.skipWhile d.next (fun t => decide (QPCTL ≤ (q.message t).db_type.val))
          q.nmblk d.first
        let tmp ← DList.skipWhile d.next (fun t => decide (m.b_band ≤ (q.message t).b_band))
          q.nmblk (some tmp)
        some (d.insertBefore bp tmp)

def putbqLink (q : Queue) (bp : Nat) : Option (DList Nat) :=
  let d := q.list
  let m := q.message bp
  if d.first = none ∨ m.queclass = QPCTL then some (d.pushFront bp)
  else if m.b_band ≠ 0 then do
    let qbp ← q.qband m.b_band
    match qbp.qb_first with
    | some tmp => some (d.insertBefore bp tmp)
    | none => do
      let tmp ← d.last
      if m.queclass < (q.message tmp).queclass ∨ m.b_band < (q.message tmp).b_band then
        some (d.tackOn bp tmp)
      else do
        let tmp ← DList.skipWhile d.next (fun t => decide (QPCTL ≤ (q.message t).db_type.val))
          q.nmblk d.first
        let tmp ← DList.skipWhile d.next (fun t => decide (m.b_band < (q.message t).b_band))
          q.nmblk (some tmp)
        some (d.insertBefore bp tmp)
  else do
    let tmp ← d.last
    if m.queclass < (q.message tmp).queclass ∨ m.b_band < (q.message tmp).b_band then
      some (d.tackOn bp tmp)
    else do
      let tmp ← DList.skipWhile d.next (fun t => decide (QPCTL ≤ (q.message t).db_type.val))
        q.nmblk d.first
      let tmp ← DList.skipWhile d.next (fun t => decide (m.b_band < (q.message t).b_band))
        q.nmblk (some tmp)
      some (d.insertBefore bp tmp)

def putqBand (q : Queue) (bp : Nat) (qbp : Qband) : Qband :=
  { qbp with
    toFlow := qbp.toFlow.charge (q.message bp).sizes
    qb_first := if q.list.first = none ∨ qbp.qb_first = none then some bp else qbp.qb_first
    qb_last := some bp }

def putbqBand (q : Queue) (bp : Nat) (qbp : Qband) : Qband :=
  { qbp with
    toFlow := qbp.toFlow.charge (q.message bp).sizes
    qb_first := some bp
    qb_last := if q.list.first = none ∨ qbp.qb_first = none then some bp else qbp.qb_last }

def enter (q : Queue) (bp : Nat) (list : DList Nat) (band : Qband → Qband) : Option Queue :=
  let m := q.message bp
  if m.b_band = 0 then some { q with list := list, flow := q.flow.charge m.sizes }
  else do
    let qbp ← q.qband m.b_band
    some { q with list := list, q_bandp := Function.update q.q_bandp m.b_band (band qbp) }

/-- `putq`; the second component is its return value. -/
def putq (q : Queue) (bp supply : Nat) : Option (Queue × Bool) :=
  match q.sane bp supply with
  | (q, false) => some (q, false)
  | (q, true) => do
    let list ← q.putqLink bp
    let q ← q.enter bp list (q.putqBand bp)
    some (q, true)

def putbq (q : Queue) (bp supply : Nat) : Option (Queue × Bool) :=
  match q.sane bp supply with
  | (q, false) => some (q, false)
  | (q, true) => do
    let list ← q.putbqLink bp
    let q ← q.enter bp list (q.putbqBand bp)
    some (q, true)

def forced (q : Queue) (mp : Nat) : Queue :=
  let m := q.message mp
  if m.queclass = QPCTL then
    { q with message := Function.update q.message mp { m with b_band := 0 } }
  else q

def badord (q : Queue) (emp : Option Nat) (mp : Nat) : Bool :=
  let m := q.message mp
  match emp with
  | some emp =>
    decide (m.queclass = QNORM ∧ m.b_band < (q.message emp).b_band) ||
      match q.list.prev emp with
      | some b_prev => decide ((q.message b_prev).db_type.val < QPCTL) &&
          (decide (m.queclass = QPCTL) || decide ((q.message b_prev).b_band < m.b_band))
      | none => false
  | none =>
    match q.list.last with
    | some tmp => decide (m.queclass = QNORM ∧ (q.message tmp).b_band < m.b_band)
    | none => false

/-- Where `insq` links a message: in front of `emp`, or at the end. -/
def insqLink (q : Queue) (emp : Option Nat) (mp : Nat) : DList Nat :=
  match emp with
  | some emp => q.list.insertBefore mp emp
  | none =>
    match q.list.last with
    | some tmp => q.list.tackOn mp tmp
    | none => q.list.single mp

def insqBand (q : Queue) (emp : Option Nat) (mp : Nat) (qbp : Qband) : Qband :=
  { qbp with
    toFlow := qbp.toFlow.charge (q.message mp).sizes
    qb_first := if qbp.qb_first = none ∨ qbp.qb_first = emp then some mp else qbp.qb_first
    qb_last :=
      if qbp.qb_first = none then some mp
      else if qbp.qb_first = emp then qbp.qb_last
      else
        match emp with
        | some b_next =>
          if (q.message b_next).b_band ≠ (q.message mp).b_band then some mp else qbp.qb_last
        | none => qbp.qb_last }

/-- `insq`; the second component is its return value. -/
def insq (q : Queue) (emp : Option Nat) (mp supply : Nat) : Option (Queue × Bool) :=
  let q := q.forced mp
  if q.badord emp mp then some (q, false)
  else
    let m := q.message mp
    match if m.b_band ≠ 0 then q.addBands m.b_band supply else (q, true) with
    | (q, false) => some (q, false)
    | (q, true) => do
      let q ← q.enter mp (q.insqLink emp mp) (q.insqBand emp mp)
      some (q, true)

def sameBand (q : Queue) (band : Fin 256) : Option Nat → Option Nat
  | some p => if (q.message p).b_band = band then some p else none
  | none => none

def rmvq (q : Queue) (mp : Nat) : Option Queue :=
  let m := q.message mp
  let d := q.list
  if m.b_band = 0 then
    some { q with list := d.remove mp, flow := q.flow.discharge m.sizes }
  else do
    let qbp ← q.qband m.b_band
    some { q with
      list := d.remove mp
      q_bandp := Function.update q.q_bandp m.b_band
        { qbp with
          toFlow := qbp.toFlow.discharge m.sizes
          qb_first := if some mp = qbp.qb_first then q.sameBand m.b_band (d.next mp)
            else qbp.qb_first
          qb_last := if some mp = qbp.qb_last then q.sameBand m.b_band (d.prev mp)
            else qbp.qb_last } }

def getFirst (q : Queue) (bp : Nat) : Option Queue :=
  let m := q.message bp
  let d := q.list
  if m.b_band = 0 then
    some { q with list := d.pop bp, flow := q.flow.discharge m.sizes }
  else do
    let qbp ← q.qband m.b_band
    some { q with
      list := d.pop bp
      q_bandp := Function.update q.q_bandp m.b_band
        { qbp with
          toFlow := qbp.toFlow.discharge m.sizes
          qb_first := if qbp.qb_first = qbp.qb_last then none else d.next bp
          qb_last := if qbp.qb_first = qbp.qb_last then none else qbp.qb_last } }

/-- `getq`; the second component is its return value. -/
def getq (q : Queue) : Option (Queue × Option Nat) :=
  match q.list.first with
  | none => some (q, none)
  | some bp =>
    if (q.message bp).noget then
      match DList.skipWhile q.list.next (fun p => (q.message p).noget) q.nmblk (some bp) with
      | none => some (q, none)
      | some bp => do
        let q ← q.rmvq bp
        some (q, some bp)
    else do
      let q ← q.getFirst bp
      some (q, some bp)

def cleared (q : Queue) : Queue :=
  { q with
    list := { q.list with first := none, last := none }
    flow := { q.flow with count := 0, full := false }
    q_bandp := fun i => { q.q_bandp i with count := 0, full := false, qb_first := none,
                                           qb_last := none } }

/-- The loop of a flush over the old list: free a message or put it back. What has been freed comes
second. -/
def flushLoop (drop : Mblk → Bool) : Nat → Queue → Option Nat → Option (Queue × List Nat)
  | _, q, none => some (q, [])
  | 0, _, some _ => none
  | fuel + 1, q, some mp =>
      let nmp := q.list.next mp
      if drop (q.message mp) then do
        let (q, freed) ← flushLoop drop fuel q nmp
        some (q, mp :: freed)
      else do
        let (q, _) ← q.putq mp 0
        flushLoop drop fuel q nmp

def flushq (q : Queue) (flag : Bool) : Option (Queue × List Nat) :=
  flushLoop (fun m => flag || datamsg m.db_type) q.nmblk q.cleared q.list.first

/-- The loop of `flushband` from the first message of a band to `last`. -/
def bandLoop (drop : Mblk → Bool) (last : Option Nat) :
    Nat → Queue → Option Nat → Option (Queue × Option Nat × List Nat)
  | fuel, q, mp =>
    if mp = last then some (q, mp, [])
    else
      match fuel, mp with
      | fuel + 1, some mp =>
        let nmp := q.list.next mp
        if drop (q.message mp) then do
          let q ← q.rmvq mp
          let (q, mp', freed) ← bandLoop drop last fuel q nmp
          some (q, mp', mp :: freed)
        else bandLoop drop last fuel q nmp
      | _, _ => none

def flushband (q : Queue) (pri : Fin 256) (flag : Bool) : Option (Queue × List Nat) :=
  if q.q_nband < pri then some (q, [])
  else if pri = 0 then
    flushLoop (fun m => decide (m.b_band = 0) && decide (m.db_type.val < QPCTL) &&
      (flag || datamsg m.db_type)) q.nmblk q.cleared q.list.first
  else do
    let drop := fun m : Mblk => decide (m.b_band = pri) && (flag || datamsg m.db_type)
    let qbp ← q.qband pri
    match qbp.qb_first with
    | none => some (q, [])
    | some mp => do
      -- the only message in the band
      let last := if some mp = qbp.qb_last then q.list.next mp else qbp.qb_last
      let (q, mp', freed) ← bandLoop drop last q.nmblk q (some mp)
      match mp' with
      | none => some (q, freed)
      | some mp =>
        if drop (q.message mp) then do
          let q ← q.rmvq mp
          some (q, freed ++ [mp])
        else some (q, freed)

end Queue
end StreamQueues
