import Mathlib.Algebra.GroupWithZero.Nat
import Mathlib.Algebra.Order.Group.Multiset
import Mathlib.Data.Multiset.Range

/- uts/i386/netinet/tcp_input.c, tcp_subr.c: received data on its way upstream. -/
namespace Tcp
open List

/-- A message block, with the bytes of the stream that it has. -/
structure Mblk where
  id : Nat
  data : List Nat
  deriving DecidableEq

abbrev Msg := List Mblk

def msgdsize (bp : Msg) : Nat := (bp.map fun b => b.data.length).sum

inductive Prim
  | T_DATA_IND
  | T_EXDATA_IND
  deriving DecidableEq

/-- A message that is put upstream; the first block is the header. -/
structure Upmsg where
  PRIM_type : Prim
  blocks : Msg
  deriving DecidableEq

structure Upq where
  t_qfirst : List Msg
  t_iqsize : Int
  t_iqurp : Int
  put : List Upmsg
  freed : List Nat
  /-- the blocks that there have been are numbered below this -/
  fresh : Nat
  /-- the bytes that have been received, and which of them are urgent -/
  received : List (Nat × Bool)
  deriving DecidableEq

/-- Which allocations of `tcp_passoobup` succeed. -/
structure Allocs where
  dup1 : Bool
  dup3 : Bool
  header1 : Bool
  proto : Bool
  byte : Bool
  header3 : Bool

def oob : Msg → Nat → Option (Msg × Mblk × Msg × Nat)
  | [], _ => none
  | nbp :: rest, urp =>
      if nbp.data.length ≤ urp then
        (oob rest (urp - nbp.data.length)).map fun found => (nbp :: found.1, found.2)
      else some ([], nbp, rest, urp)

def numbered : Nat → List (List Nat) → Msg
  | _, [] => []
  | n, data :: rest => ⟨n, data⟩ :: numbered (n + 1) rest

namespace Upq
variable (s : Upq)

def blocks (data : List (List Nat)) : Msg × Upq :=
  (numbered s.fresh data, { s with fresh := s.fresh + data.length })

def dupmsg (bp : Msg) : Msg × Upq := s.blocks (bp.map Mblk.data)

def freemsg (bp : Msg) : Upq := { s with freed := s.freed ++ bp.map Mblk.id }

def putnext (m : Upmsg) : Upq := { s with put := s.put ++ [m] }

def dump : Msg → Upq → Msg × Upq
  | [], s => ([], s)
  | b :: rest, s => if b.data.length = 0 then dump rest (s.freemsg [b]) else (b :: rest, s)

def headerize (ok : Bool) (bp : Msg) : Option (Msg × Upq) :=
  if ok then
    let header := s.blocks [[]]
    some (header.1 ++ bp, header.2)
  else none

def headed (ok : Bool) (bp : Msg) : Option (Msg × Upq) :=
  if bp = [] then some ([], s) else s.headerize ok bp

/-- The data after the urgent byte. Where its block has more, all from there on is duplicated, and
what the first duplicate's chain had behind is not seen again. -/
def after (nbp : Mblk) (rest : Msg) (urp : Nat) : Msg × Upq :=
  if urp + 1 < nbp.data.length then
    let dup := s.dupmsg (nbp :: rest)
    (dup.1.modifyHead fun b => { b with data := b.data.drop (urp + 1) }, dup.2)
  else (rest, s)

/-- The last part of `tcp_passoobup`, with the three messages. -/
def pass_all (bp1 bp2 bp3 : Msg) : Upq :=
  let first := if bp1 = [] then s else s.putnext ⟨.T_DATA_IND, bp1⟩
  let second := first.putnext ⟨.T_EXDATA_IND, bp2⟩
  if bp3 = [] then second else second.putnext ⟨.T_DATA_IND, bp3⟩

/-- None where a null pointer is followed. -/
def tcp_passoobup (a : Allocs) (bp0 : Msg) (urp : Nat) : Option (Bool × Upq) :=
  if a.dup1 = false then some (false, s)
  else
    let (bp1, s) := s.dupmsg bp0
    match oob bp1 urp with
    | none => none
    | some (front, nbp, rest, urp) =>
        if urp + 1 < nbp.data.length ∧ a.dup3 = false then none
        else
          let oobyte := nbp.data.getD urp 0
          let (bp3, s) := s.after nbp rest urp
          let (bp1, s) := dump (front ++ [{ nbp with data := nbp.data.take urp }]) s
          match s.headed a.header1 bp1 with
          | none => some (false, (s.freemsg bp1).freemsg bp3)
          | some (bp1, s) =>
              if a.proto = false then some (false, (s.freemsg bp1).freemsg bp3)
              else
                let (bp2, s) := s.blocks [[]]
                if a.byte = false then
                  some (false, ((s.freemsg bp1).freemsg bp2).freemsg bp3)
                else
                  let (cont, s) := s.blocks [[oobyte]]
                  let (bp3, s) := dump bp3 s
                  match s.headed a.header3 bp3 with
                  | none => some (false, ((s.freemsg bp1).freemsg (bp2 ++ cont)).freemsg bp3)
                  | some (bp3, s) => some (true, s.pass_all bp1 (bp2 ++ cont) bp3)

/-- `urp` is -1 where there is no urgent byte. -/
def tcp_enqdata (bp : Msg) (urp : Int) : Upq :=
  { s with
    t_qfirst := s.t_qfirst ++ [bp]
    t_iqurp := if urp ≠ -1 then s.t_iqsize + urp else s.t_iqurp
    t_iqsize := s.t_iqsize + msgdsize bp }

/-- `sq` is a queue upstream, `canput` its room, `header` that a header is allocated. Without
TH_URG, TCP_REASS does the same. -/
def sendup (bp : Msg) (TH_URG : Bool) (ti_urp : Nat) (sq canput header : Bool) (a : Allocs) :
    Option Upq :=
  if s.t_iqsize = 0 ∧ sq = true ∧ canput = true then
    if TH_URG = true ∧ ti_urp < msgdsize bp then
      (s.tcp_passoobup a bp ti_urp).map fun passed =>
        if passed.1 then passed.2 else passed.2.tcp_enqdata bp ti_urp
    else
      match s.headerize header bp with
      | some (nbp, s) => some (s.putnext ⟨.T_DATA_IND, nbp⟩)
      | none => some (s.tcp_enqdata bp (-1))
  else some (s.tcp_enqdata bp (-1))

/-- One turn of the loop in `tcp_deqdata`, with whether the loop goes on. -/
def deq (header : Bool) (a : Allocs) : Option (Bool × Upq) :=
  match s.t_qfirst with
  | [] => some (false, s)
  | bp :: rest =>
      if 0 ≤ s.t_iqurp ∧ s.t_iqurp < msgdsize bp then
        (s.tcp_passoobup a bp s.t_iqurp.toNat).map fun passed =>
          if passed.1 then
            (true, { passed.2 with
              t_iqsize := passed.2.t_iqsize - msgdsize bp
              t_iqurp := -1 })
          else (false, passed.2)
      else
        match s.headerize header bp with
        | some (bp2, s) =>
            some (true, { s with
              t_qfirst := rest
              t_iqsize := s.t_iqsize - msgdsize bp
              t_iqurp := if 0 ≤ s.t_iqurp then s.t_iqurp - msgdsize bp else s.t_iqurp
              put := s.put ++ [⟨.T_DATA_IND, bp2⟩] })
        | none => some (false, s)

/-- What is allocated in each turn for which there is room upstream. -/
def tcp_deqdata : List (Bool × Allocs) → Upq → Option Upq
  | [], s => some s
  | turn :: turns, s =>
      match s.deq turn.1 turn.2 with
      | some (true, s) => tcp_deqdata turns s
      | some (false, s) => some s
      | none => none

end Upq

/-- The text of a segment is passed on, or the queue upstream is enabled. -/
inductive Upcall
  | sendup (data : List (List Nat)) (TH_URG : Bool) (ti_urp : Nat) (sq canput header : Bool)
      (a : Allocs)
  | deqdata (turns : List (Bool × Allocs))

/-- The bytes with the urgent one marked, which is at `urp` if it is among them. -/
def mark (urp : Int) : List Nat → List (Nat × Bool)
  | [] => []
  | b :: bs => (b, decide (urp = 0)) :: mark (urp - 1) bs

def urgent (TH_URG : Bool) (ti_urp len : Nat) : Int :=
  if TH_URG = true ∧ ti_urp < len then ti_urp else -1

namespace Upq

def step (s : Upq) : Upcall → Option Upq
  | .sendup data TH_URG ti_urp sq canput header a =>
      let s := { s with
        received := s.received ++ mark (urgent TH_URG ti_urp data.flatten.length) data.flatten }
      let (bp, s) := s.blocks data
      let (bp, s) := dump bp s
      if bp = [] then some s else s.sendup bp TH_URG ti_urp sq canput header a
  | .deqdata turns => tcp_deqdata turns s

def empty : Upq where
  t_qfirst := []
  t_iqsize := 0
  t_iqurp := -1
  put := []
  freed := []
  fresh := 0
  received := []

end Upq
end Tcp

/- Each block is in one place: in hand, on the queue, upstream, or freed. -/
namespace Tcp
open List

def ids (bp : Msg) : Multiset Nat := (bp.map Mblk.id : List Nat)

@[simp] theorem ids_nil : ids [] = 0 := rfl

@[simp] theorem ids_append (xs ys : Msg) : ids (xs ++ ys) = ids xs + ids ys := by
  unfold ids
  rw [map_append, Multiset.coe_add]

@[simp] theorem ids_cons (b : Mblk) (bp : Msg) : ids (b :: bp) = {b.id} + ids bp := rfl

def text (bp : Msg) : List Nat := bp.flatMap Mblk.data

theorem msgdsize_eq (bp : Msg) : msgdsize bp = (text bp).length := by
  unfold msgdsize text
  rw [length_flatMap]

theorem text_append (xs ys : Msg) : text (xs ++ ys) = text xs ++ text ys := flatMap_append

theorem text_cons (b : Mblk) (bp : Msg) : text (b :: bp) = b.data ++ text bp := rfl

namespace Upq
variable {s s' : Upq} {bp : Msg} {held : Multiset Nat}

def ids (s : Upq) : Multiset Nat :=
  Tcp.ids s.t_qfirst.flatten + Tcp.ids (s.put.flatMap Upmsg.blocks) + (s.freed : Multiset Nat)

def Balanced (s : Upq) (held : Multiset Nat) : Prop := held + s.ids = Multiset.range s.fresh

instance (s : Upq) (held : Multiset Nat) : Decidable (s.Balanced held) :=
  inferInstanceAs (Decidable (held + s.ids = Multiset.range s.fresh))

theorem Balanced.of_eq (h : s.Balanced held) {held' : Multiset Nat} (same : held = held') :
    s.Balanced held' :=
  same ▸ h

structure Kept (s s' : Upq) : Prop where
  t_qfirst : s'.t_qfirst = s.t_qfirst
  t_iqsize : s'.t_iqsize = s.t_iqsize
  t_iqurp : s'.t_iqurp = s.t_iqurp
  put : s'.put = s.put
  received : s'.received = s.received

theorem Kept.refl (s : Upq) : Kept s s := ⟨rfl, rfl, rfl, rfl, rfl⟩

theorem Kept.trans {s'' : Upq} (first : Kept s s') (second : Kept s' s'') : Kept s s'' :=
  ⟨second.t_qfirst.trans first.t_qfirst, second.t_iqsize.trans first.t_iqsize,
    second.t_iqurp.trans first.t_iqurp, second.put.trans first.put,
    second.received.trans first.received⟩

theorem blocks_kept (s : Upq) (data : List (List Nat)) : Kept s (s.blocks data).2 :=
  ⟨rfl, rfl, rfl, rfl, rfl⟩

theorem freemsg_kept (s : Upq) (bp : Msg) : Kept s (s.freemsg bp) := ⟨rfl, rfl, rfl, rfl, rfl⟩

theorem numbered_data (n : Nat) (data : List (List Nat)) :
    (numbered n data).map Mblk.data = data := by
  induction data generalizing n with
  | nil => rfl
  | cons d rest ih =>
    show d :: (numbered (n + 1) rest).map Mblk.data = _
    rw [ih]

theorem numbered_ids (n : Nat) (data : List (List Nat)) :
    (numbered n data).map Mblk.id = List.range' n data.length := by
  induction data generalizing n with
  | nil => rfl
  | cons d rest ih =>
    show n :: (numbered (n + 1) rest).map Mblk.id = _
    rw [ih]
    rfl

theorem blocks_balanced (h : s.Balanced held) (data : List (List Nat)) :
    (s.blocks data).2.Balanced (Tcp.ids (s.blocks data).1 + held) := by
  show Tcp.ids (s.blocks data).1 + held + s.ids = Multiset.range (s.fresh + data.length)
  rw [add_assoc, h]
  show ((numbered s.fresh data).map Mblk.id : Multiset Nat) + (range s.fresh : Multiset Nat) =
    (range (s.fresh + data.length) : Multiset Nat)
  rw [numbered_ids, add_comm, Multiset.coe_add, range_eq_range', range_eq_range',
    ← range'_append_1, Nat.zero_add]

theorem freemsg_balanced (h : s.Balanced (Tcp.ids bp + held)) : (s.freemsg bp).Balanced held := by
  show held + (Tcp.ids s.t_qfirst.flatten + Tcp.ids (s.put.flatMap Upmsg.blocks) +
    ((s.freed ++ bp.map Mblk.id : List Nat) : Multiset Nat)) = Multiset.range s.fresh
  rw [← h, ← Multiset.coe_add]
  unfold ids
  unfold Tcp.ids
  ac_rfl

theorem dump_kept (s : Upq) (bp : Msg) : Kept s (dump bp s).2 := by
  induction bp generalizing s with
  | nil => exact Kept.refl s
  | cons b rest ih =>
    unfold dump
    split
    · exact (freemsg_kept s [b]).trans (ih _)
    · exact Kept.refl s

theorem dump_balanced (h : s.Balanced (Tcp.ids bp + held)) :
    (dump bp s).2.Balanced (Tcp.ids (dump bp s).1 + held) := by
  induction bp generalizing s with
  | nil => exact h
  | cons b rest ih =>
    unfold dump
    split
    · refine ih (@freemsg_balanced _ [b] _ ?_)
      exact h.of_eq (by rw [ids_cons, ids_cons, ids_nil]; ac_rfl)
    · exact h

theorem dump_text (s : Upq) (bp : Msg) :
    text (dump bp s).1 = text bp ∧ ((dump bp s).1 = [] ↔ text bp = []) := by
  induction bp generalizing s with
  | nil => exact ⟨rfl, fun _ => rfl, fun _ => rfl⟩
  | cons b rest ih =>
    unfold dump
    split
    · next empty =>
      have none_ := eq_nil_of_length_eq_zero empty
      rw [text_cons, none_, nil_append]
      exact ih _
    · next some_ =>
      refine ⟨rfl, ⟨fun nothing => by contradiction, fun nothing => ?_⟩⟩
      rw [text_cons, append_eq_nil_iff] at nothing
      exact absurd (congrArg length nothing.1) some_

theorem headerize_cases {ok : Bool} {r : Option (Msg × Upq)} (h : s.headerize ok bp = r) :
    (ok = false ∧ r = none) ∨ ∃ header s', r = some (header ++ bp, s') ∧ Kept s s' ∧
      text header = [] ∧ ∀ held, s.Balanced held → s'.Balanced (Tcp.ids header + held) := by
  unfold headerize at h
  split at h
  · refine .inr ⟨_, _, h.symm, blocks_kept s [[]], rfl, fun held balanced => ?_⟩
    exact blocks_balanced balanced [[]]
  · next failed => exact .inl ⟨(Bool.not_eq_true _).mp failed, h.symm⟩

end Upq
end Tcp

/- `tcp_passoobup` where it fails and loses nothing. -/
namespace Tcp
open Upq List
variable {s : Upq} {bp : Msg} {urp : Nat} {a : Allocs}

def Alone (dup3 : Bool) : List (List Nat) → Nat → Prop
  | [], _ => True
  | data :: rest, urp =>
      if data.length ≤ urp then Alone dup3 rest (urp - data.length)
      else urp + 1 < data.length → dup3 = true ∧ rest = []

/-- Not even the first duplicate can be had; or a later allocation fails, with an urgent byte that
leaves no block out of sight. -/
def Spared (a : Allocs) (data : List (List Nat)) (urp : Nat) : Prop :=
  a.dup1 = false ∨
    (Alone a.dup3 data urp ∧ ((0 < urp ∧ a.header1 = false) ∨ a.proto = false ∨ a.byte = false ∨
      (urp + 1 < data.flatten.length ∧ a.header3 = false)))

theorem text_eq (bp : Msg) : text bp = (bp.map Mblk.data).flatten := flatMap_def

theorem oob_spec (inside : urp < (text bp).length) : ∃ front nbp rest u,
    oob bp urp = some (front, nbp, rest, u) ∧ bp = front ++ nbp :: rest ∧
      u < nbp.data.length ∧ urp = (text front).length + u ∧
      ∀ dup3, Alone dup3 (bp.map Mblk.data) urp → u + 1 < nbp.data.length →
        dup3 = true ∧ rest = [] := by
  induction bp generalizing urp with
  | nil => exact absurd inside (Nat.not_lt_zero urp)
  | cons b rest ih =>
    rw [text_cons, length_append] at inside
    unfold oob Alone
    by_cases before : b.data.length ≤ urp
    · obtain ⟨front, nbp, rest', u, found, split_, within, offset, alone⟩ :=
        @ih (urp - b.data.length) (by omega)
      rw [if_pos before, found]
      refine ⟨b :: front, nbp, rest', u, rfl, by rw [split_]; rfl, within, ?_, ?_⟩
      · rw [text_cons, length_append]
        omega
      · intro dup3
        show (if b.data.length ≤ urp then _ else _) → _
        rw [if_pos before]
        exact alone dup3
    · rw [if_neg before]
      refine ⟨[], b, rest, urp, rfl, rfl, by omega, (Nat.zero_add urp).symm, ?_⟩
      intro dup3
      show (if b.data.length ≤ urp then _ else _) → _
      rw [if_neg before]
      intro alone more
      obtain ⟨dup, none_⟩ := alone more
      exact ⟨dup, map_eq_nil_iff.mp none_⟩

namespace Upq

theorem headed_cases {ok : Bool} {r : Option (Msg × Upq)} (h : s.headed ok bp = r) :
    (bp ≠ [] ∧ ok = false ∧ r = none) ∨
      ∃ bp' s', r = some (bp', s') ∧ (bp ≠ [] → ok = true) ∧ Kept s s' ∧
        ∀ held, s.Balanced (Tcp.ids bp + held) → s'.Balanced (Tcp.ids bp' + held) := by
  unfold headed at h
  split at h
  · next empty =>
    exact .inr ⟨bp, s, empty ▸ h.symm, fun some_ => absurd empty some_, Kept.refl s,
      fun _ balanced => balanced⟩
  next some_ =>
  rcases headerize_cases h with ⟨failed, none_⟩ | ⟨header, s', made, kept, -, balance⟩
  · exact .inl ⟨some_, failed, none_⟩
  · refine .inr ⟨header ++ bp, s', made, fun _ => ?_, kept, fun held balanced => ?_⟩
    · unfold headerize at h
      cases ok with
      | true => rfl
      | false => exact absurd (h.trans made) (by simp)
    · exact (balance _ balanced).of_eq (by rw [ids_append]; ac_rfl)

theorem after_spec (s : Upq) {nbp : Mblk} {rest : Msg} {u : Nat}
    (alone : u + 1 < nbp.data.length → rest = []) (within : u < nbp.data.length) :
    ∃ bp3 s', s.after nbp rest u = (bp3, s') ∧ Kept s s' ∧
      (text bp3).length + (u + 1) = nbp.data.length + (text rest).length ∧
      ∀ held, s.Balanced (Tcp.ids (nbp :: rest) + held) →
        s'.Balanced ({nbp.id} + (Tcp.ids bp3 + held)) := by
  unfold after
  split
  · next more =>
    obtain rfl := alone more
    refine ⟨_, _, rfl, blocks_kept s _, ?_, fun held balanced => ?_⟩
    · show (nbp.data.drop (u + 1) ++ []).length + (u + 1) = nbp.data.length + 0
      rw [append_nil, length_drop]
      omega
    · refine (blocks_balanced balanced [nbp.data]).of_eq ?_
      show Tcp.ids [⟨s.fresh, nbp.data⟩] + ({nbp.id} + 0 + held) =
        {nbp.id} + (Tcp.ids [⟨s.fresh, nbp.data.drop (u + 1)⟩] + held)
      rw [ids_cons, ids_cons, ids_nil]
      ac_rfl
  · refine ⟨rest, s, rfl, Kept.refl s, ?_, fun held balanced => balanced.of_eq ?_⟩
    · omega
    · show {nbp.id} + Tcp.ids rest + held = _
      ac_rfl

theorem dump_spec (s : Upq) (bp : Msg) : ∃ bp' s', dump bp s = (bp', s') ∧ Kept s s' ∧
    text bp' = text bp ∧ (bp' = [] ↔ text bp = []) ∧
    ∀ held, s.Balanced (Tcp.ids bp + held) → s'.Balanced (Tcp.ids bp' + held) :=
  ⟨_, _, rfl, dump_kept s bp, (dump_text s bp).1, (dump_text s bp).2,
    fun _ balanced => dump_balanced balanced⟩

theorem blocks_spec (s : Upq) (data : List (List Nat)) : ∃ bp s', s.blocks data = (bp, s') ∧
    Kept s s' ∧ bp.map Mblk.data = data ∧
    ∀ held, s.Balanced held → s'.Balanced (Tcp.ids bp + held) :=
  ⟨_, _, rfl, blocks_kept s data, numbered_data s.fresh data,
    fun _ balanced => blocks_balanced balanced data⟩

theorem tcp_passoobup_spared (inside : urp < (text bp).length)
    (spared : Spared a (bp.map Mblk.data) urp) :
    ∃ s', s.tcp_passoobup a bp urp = some (false, s') ∧ Kept s s' ∧
      ∀ held, s.Balanced held → s'.Balanced held := by
  unfold tcp_passoobup
  split
  · exact ⟨s, rfl, Kept.refl s, fun _ balanced => balanced⟩
  next dup1 =>
  obtain ⟨unlost, fails⟩ := spared.resolve_left dup1
  obtain ⟨bp1, s₁, dup, kept₁, same, balance₁⟩ := blocks_spec s (bp.map Mblk.data)
  have text_same : text bp1 = text bp := by
    rw [text_eq, text_eq, same]
  rw [← text_same] at inside
  rw [← same] at unlost fails
  obtain ⟨front, nbp, rest, u, found, split_, within, offset, alone⟩ := oob_spec inside
  have alone := alone a.dup3 unlost
  obtain ⟨bp3, s₂, rest_eq, kept₂, length₃, balance₂⟩ :=
    after_spec s₁ (fun more => (alone more).2) within
  obtain ⟨bp1', s₃, dumped, kept₃, -, empty₁, balance₃⟩ :=
    dump_spec s₂ (front ++ [{ nbp with data := nbp.data.take u }])
  have balance : ∀ held, s.Balanced held → s₃.Balanced (Tcp.ids bp1' + (Tcp.ids bp3 + held)) := by
    intro held balanced
    refine balance₃ _ ((balance₂ (Tcp.ids front + held) ?_).of_eq ?_)
    · refine (balance₁ held balanced).of_eq ?_
      rw [split_, ids_append]
      ac_rfl
    · rw [ids_append]
      show _ = Tcp.ids front + ({nbp.id} + 0) + _
      ac_rfl
  have kept := (kept₁.trans kept₂).trans kept₃
  unfold dupmsg
  rw [dup]
  dsimp only
  rw [found]
  dsimp only
  rw [if_neg fun fault => absurd (alone fault.1).1 (by rw [fault.2]; decide), rest_eq]
  rw [dumped]
  have fail : ∀ s', Kept s s' → (∀ held, s.Balanced held → s'.Balanced held) →
      ∃ s'', some (false, s') = some (false, s'') ∧ Kept s s'' ∧
        ∀ held, s.Balanced held → s''.Balanced held :=
    fun s' kept balance => ⟨s', rfl, kept, balance⟩
  rcases @headed_cases s₃ bp1' a.header1 _ rfl with
    ⟨-, -, none_⟩ | ⟨first, s₄, some_, ok₁, kept₄, balance₄⟩
  · rw [none_]
    exact fail _ ⟨kept.1, kept.2, kept.3, kept.4, kept.5⟩ fun held balanced =>
      freemsg_balanced (freemsg_balanced (balance held balanced))
  rw [some_]
  dsimp only
  have kept := kept.trans kept₄
  have balance : ∀ held, s.Balanced held →
      s₄.Balanced (Tcp.ids first + (Tcp.ids bp3 + held)) := fun held balanced =>
    balance₄ _ (balance held balanced)
  split
  · exact fail _ ⟨kept.1, kept.2, kept.3, kept.4, kept.5⟩ fun held balanced =>
      freemsg_balanced (freemsg_balanced (balance held balanced))
  next proto =>
  obtain ⟨bp2, s₅, made₂, kept₅, -, balance₅⟩ := blocks_spec s₄ [[]]
  rw [made₂]
  have kept := kept.trans kept₅
  have balance : ∀ held, s.Balanced held →
      s₅.Balanced (Tcp.ids first + (Tcp.ids bp2 + (Tcp.ids bp3 + held))) :=
    fun held balanced => (balance₅ _ (balance held balanced)).of_eq (by ac_rfl)
  split
  · exact fail _ ⟨kept.1, kept.2, kept.3, kept.4, kept.5⟩ fun held balanced =>
      freemsg_balanced (freemsg_balanced (freemsg_balanced (balance held balanced)))
  next byte =>
  obtain ⟨cont, s₆, made₃, kept₆, -, balance₆⟩ := blocks_spec s₅ [[nbp.data.getD u 0]]
  obtain ⟨bp3', s₇, dumped₃, kept₇, -, empty₃, balance₇⟩ := dump_spec s₆ bp3
  rw [made₃]
  rw [dumped₃]
  have kept := (kept.trans kept₆).trans kept₇
  rcases @headed_cases s₇ bp3' a.header3 _ rfl with
    ⟨-, -, none_⟩ | ⟨third, s₈, some_, ok₃, -, -⟩
  · rw [none_]
    refine fail _ ⟨kept.1, kept.2, kept.3, kept.4, kept.5⟩ fun held balanced => ?_
    refine freemsg_balanced (freemsg_balanced (freemsg_balanced ?_))
    refine (balance₇ (Tcp.ids first + (Tcp.ids bp2 + (Tcp.ids cont + held)))
      ((balance₆ _ (balance held balanced)).of_eq (by ac_rfl))).of_eq ?_
    rw [ids_append]
    ac_rfl
  -- nothing has failed
  exfalso
  rw [← text_eq, split_, text_append, text_cons] at fails
  simp only [length_append] at fails
  rcases fails with ⟨before, failed⟩ | failed | failed | ⟨more, failed⟩
  · refine absurd (ok₁ fun nothing => ?_) (by rw [failed]; decide)
    have none_ := congrArg length (empty₁.mp nothing)
    rw [text_append, text_cons, length_append, length_append, length_take] at none_
    change _ = 0 at none_
    omega
  · exact proto failed
  · exact byte failed
  · refine absurd (ok₃ fun nothing => ?_) (by rw [failed]; decide)
    have none_ := congrArg length (empty₃.mp nothing)
    change _ = 0 at none_
    omega

end Upq
end Tcp
