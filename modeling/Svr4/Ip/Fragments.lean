import Mathlib.Data.List.Range
import Mathlib.Data.Nat.Bitwise
import Svr4.OrderedDicts

/- uts/i386/netinet: ip_output.c cuts a datagram into fragments, ip_input.c puts them together. -/
namespace Ip
open OrderedDicts

def short (n : Int) : Int := Int.bmod n (2 ^ 16)

/-- netinet/ip.h -/
def IP_DF : Nat := 0x4000
def IP_MF : Nat := 0x2000
def IPOPT_EOL : Nat := 0
def IPOPT_NOP : Nat := 1
def IPOPT_OLEN : Nat := 1
def IPOPT_COPIED (o : Nat) : Nat := o &&& 0x80

def sizeof_ip : Nat := 20

structure Key where
  ip_id : Nat
  ip_src : Nat
  ip_dst : Nat
  ip_p : Nat
  deriving DecidableEq

/-- A header, with the bytes of its options; `ip_off` as an unsigned number. -/
structure Header where
  ip_hl : Nat
  ip_len : Int
  ip_off : Nat
  key : Key
  options : List Nat
  deriving DecidableEq

structure Packet where
  header : Header
  data : List Nat
  deriving DecidableEq

inductive Errno
  | EMSGSIZE
  | ENOSR
  deriving DecidableEq

structure Provider where
  if_maxtu : Nat
  if_mintu : Nat

section Output

/-- The options for the fragment at `off`, from the `cnt` bytes at `cp`; none where an option of
length 0 never ends. -/
def optcopy (off : Nat) : Nat → Nat → List Nat → Option (List Nat)
  | 0, _, _ => none
  | turns + 1, cnt, cp =>
      let opt := cp.getD 0 0
      if cnt = 0 ∨ opt = IPOPT_EOL then some []
      else
        let optlen := min (if opt = IPOPT_NOP then 1 else cp.getD IPOPT_OLEN 0) cnt
        (optcopy off turns (cnt - optlen) (cp.drop optlen)).map fun copied =>
          if off = 0 ∨ IPOPT_COPIED opt ≠ 0 then cp.take optlen ++ copied else copied

def ip_optcopy (ip : Packet) (off : Nat) : Option (List Nat) :=
  let cnt := ip.header.options.length
  (optcopy off (cnt + 1) cnt (ip.header.options ++ ip.data)).map fun copied =>
    copied ++ List.replicate ((4 - copied.length % 4) % 4) IPOPT_EOL

/-- What the padding consists of is not looked at. -/
def padpckt (data : List Nat) (cnt : Int) : List Nat := data ++ List.replicate cnt.toNat 0

/-- The fragment at `off`; the header is skipped without its options. -/
def fragment (prov : Provider) (ip : Packet) (hlen off len : Nat) : Option Packet :=
  (if sizeof_ip < hlen then ip_optcopy ip off else some []).map fun options =>
    let fhlen := if sizeof_ip < hlen then sizeof_ip + options.length else hlen
    let last := ip.header.ip_len - hlen ≤ off + len
    let mf := ip.header.ip_off &&& IP_MF
    let ip_off := ((off >>> 3) + (ip.header.ip_off &&& 0xdfff)) % 2 ^ 16
    let len := if last then (ip.header.ip_len - hlen - off).toNat else len
    let ip_len := short (short len + fhlen)
    { header :=
        { ip.header with
          ip_hl := if sizeof_ip < hlen then fhlen >>> 2 else ip.header.ip_hl
          ip_len := ip_len
          ip_off := if last then ip_off ||| mf else ip_off ||| mf ||| IP_MF
          options := options }
      data := padpckt (((ip.header.options ++ ip.data).drop off).take len)
        (prov.if_mintu - ip_len % 2 ^ 16) }

/-- The fragments from `off` on and an error; memory is had where `room` says so. -/
def fragments (prov : Provider) (room : Nat → Bool) (ip : Packet) (hlen len : Nat) :
    Nat → Nat → Option (List Packet × Option Errno)
  | 0, _ => none
  | turns + 1, off =>
      if ip.header.ip_len - hlen ≤ off then some ([], none)
      else if room off = false then some ([], some .ENOSR)
      else
        match fragment prov ip hlen off len with
        | none => none
        | some packet =>
            (fragments prov room ip hlen len turns (off + len)).map fun (packets, error) =>
              (packet :: packets, error)

/-- From the choice of the interface on: what is sent, and the error. -/
def ip_output (prov : Provider) (room : Nat → Bool) (ip : Packet) :
    Option (List Packet × Option Errno) :=
  let hlen := sizeof_ip + ip.header.options.length
  if ip.header.ip_len ≤ prov.if_maxtu then
    some ([{ ip with data := padpckt ip.data (prov.if_mintu - ip.header.ip_len) }], none)
  else if ip.header.ip_off &&& IP_DF ≠ 0 then some ([], some .EMSGSIZE)
  else
    let len := (prov.if_maxtu - hlen) / 8 * 8
    if len < 8 then some ([], some .EMSGSIZE)
    else fragments prov room ip hlen len (ip.data.length + 1) 0

end Output

section Input

/-- A fragment in a queue; offset and length are shorts. -/
structure Frag where
  ip_off : Int
  ip_len : Int
  ipf_mff : Bool
  header : Header
  ipf_mblk : List Nat
  deriving DecidableEq

def trim_front (ip : Frag) : Option Frag → Option Frag
  | none => some ip
  | some qprev =>
      let i := qprev.ip_off + qprev.ip_len - ip.ip_off
      if i ≤ 0 then some ip
      else if ip.ip_len ≤ i then none
      else
        some { ip with
          ip_off := short (ip.ip_off + i)
          ip_len := short (ip.ip_len - i)
          ipf_mblk := ip.ipf_mblk.drop i.toNat }

def trim_back (ip : Frag) : List Frag → List Frag
  | [] => []
  | q :: rest =>
      let i := ip.ip_off + ip.ip_len - q.ip_off
      if i ≤ 0 then q :: rest
      else if i < q.ip_len then
        { q with
          ip_len := short (q.ip_len - i)
          ip_off := short (q.ip_off + i)
          ipf_mblk := q.ipf_mblk.drop i.toNat } :: rest
      else trim_back ip rest

/-- The length of all, if they follow one another and no more are expected after the last. -/
def complete : Int → Bool → List Frag → Option Int
  | next, ipf_mff, [] => if ipf_mff then none else some next
  | next, _, q :: rest =>
      if q.ip_off ≠ next then none else complete (next + q.ip_len) q.ipf_mff rest

def check (ipq_key : Key) : List Frag → Option (List Frag) × Option Packet
  | [] => (some [], none)
  | first :: rest =>
      match complete 0 true (first :: rest) with
      | none => (some (first :: rest), none)
      | some next =>
          (none, some
            { header := { first.header with ip_len := short next, key := ipq_key }
              data := ((first :: rest).map Frag.ipf_mblk).flatten })

/-- With the queue of the datagram, if there is one; `room` is for a new one. -/
def ip_reass (room : Bool) (ip : Frag) (fp : Option (List Frag)) :
    Option (List Frag) × Option Packet :=
  match fp with
  | none => if room then check ip.header.key [ip] else (none, none)
  | some frags =>
      let before := frags.takeWhile fun q => q.ip_off ≤ ip.ip_off
      let after := frags.dropWhile fun q => q.ip_off ≤ ip.ip_off
      match trim_front ip before.getLast? with
      | none => (some frags, none)
      | some ip => check ip.header.key (before ++ ip :: trim_back ip after)

abbrev Ipq := Dict Key (List Frag)

def store (ipq : Ipq) (key : Key) (reassembled : Option (List Frag) × Option Packet) :
    Ipq × Option Packet :=
  match reassembled.1 with
  | none => (pop ipq key, reassembled.2)
  | some frags =>
      if (get ipq key).isSome then (set ipq key frags, reassembled.2)
      else ((key, frags) :: ipq, reassembled.2)

/-- A packet for this host whose options are in order: the queues and what is passed up. -/
def ipintr (room : Bool) (ipq : Ipq) (packet : Packet) : Ipq × Option Packet :=
  let ip := packet.header
  let hlen := ip.ip_hl <<< 2
  if hlen < sizeof_ip then (ipq, none)
  else if ip.ip_len < hlen then (ipq, none)
  else
    let i : Int := hlen + packet.data.length - ip.ip_len % 2 ^ 16
    if i < 0 then (ipq, none)
    else
      let data := packet.data.take (packet.data.length - i.toNat)
      let ip_len := short (ip.ip_len - hlen)
      if ip.ip_off &&& 0xbfff ≠ 0 then
        let ipf_mff : Bool := ip.ip_off &&& IP_MF ≠ 0
        let ip_off := short ((ip.ip_off <<< 3 : Nat) : Int)
        if ipf_mff ∨ ip_off ≠ 0 then
          store ipq ip.key
            (ip_reass room ⟨ip_off, ip_len, ipf_mff, ip, data⟩ (get ipq ip.key))
        else (pop ipq ip.key, some ⟨{ ip with ip_len := ip_len }, data⟩)
      else (ipq, some ⟨{ ip with ip_len := ip_len }, data⟩)

def receive : Ipq → List Packet → List Packet
  | _, [] => []
  | ipq, packet :: packets =>
      match ipintr true ipq packet with
      | (ipq, some up) => up :: receive ipq packets
      | (ipq, none) => receive ipq packets

end Input
end Ip

/- The fragments of a datagram without options. -/
namespace Ip
variable {prov : Provider} {room : Nat → Bool} {d : Packet} {m i o bits : Nat}
  {packets : List Packet}

/-- A datagram that is not a fragment, no longer than a short can say. -/
structure Whole (d : Packet) : Prop where
  plain : d.header.options = []
  header : d.header.ip_hl = 5
  length : d.header.ip_len = (sizeof_ip + d.data.length : Nat)
  small : sizeof_ip + d.data.length < 2 ^ 15
  unfragmented : d.header.ip_off = 0 ∨ d.header.ip_off = IP_DF

def chunk (d : Packet) (m i : Nat) : List Nat := (d.data.drop (8 * (i * m))).take (8 * m)

def Last (d : Packet) (m i : Nat) : Prop := d.data.length ≤ 8 * (i * m) + 8 * m

instance : Decidable (Last d m i) := inferInstanceAs (Decidable (_ ≤ _))

def cut_header (d : Packet) (m i : Nat) : Header :=
  { d.header with
    ip_len := (sizeof_ip + (chunk d m i).length : Nat)
    ip_off := if Last d m i then i * m else i * m + IP_MF
    options := [] }

def cut (prov : Provider) (d : Packet) (m i : Nat) : Packet where
  header := cut_header d m i
  data := padpckt (chunk d m i) (prov.if_mintu - (cut_header d m i).ip_len)

section Numbers

theorem short_of_small {n : Nat} (small : n < 2 ^ 15) : short n = n := by
  unfold short
  rw [Int.bmod_eq_of_le] <;> omega

theorem or_mf (small : o < 2 ^ 13) : o ||| IP_MF = o + IP_MF := by
  have sum := Nat.two_pow_add_eq_or_of_lt small 1
  rw [Nat.mul_one, Nat.or_comm] at sum
  exact sum.symm.trans (add_comm _ _)

theorem and_bits (small : o < 2 ^ 13) : (o + IP_MF) &&& bits =
    (o &&& bits) ||| (IP_MF &&& bits) := by
  rw [← or_mf small, Nat.and_or_distrib_right]

theorem and_low (small : o < 2 ^ 13) (low : (2 ^ 13 - 1) &&& bits = 2 ^ 13 - 1) :
    o &&& bits = o := by
  have same : o &&& (2 ^ 13 - 1) = o := by
    rw [Nat.and_two_pow_sub_one_eq_mod, Nat.mod_eq_of_lt small]
  calc o &&& bits = (o &&& (2 ^ 13 - 1)) &&& bits := by rw [same]
    _ = o &&& (2 ^ 13 - 1) := by rw [Nat.and_assoc, low]
    _ = o := same

theorem and_mf (small : o < 2 ^ 13) : o &&& IP_MF = 0 := by
  have same : o &&& (2 ^ 13 - 1) = o := by
    rw [Nat.and_two_pow_sub_one_eq_mod, Nat.mod_eq_of_lt small]
  calc o &&& IP_MF = (o &&& (2 ^ 13 - 1)) &&& IP_MF := by rw [same]
    _ = o &&& 0 := by rw [Nat.and_assoc]; rfl
    _ = 0 := Nat.and_zero o

end Numbers

theorem chunk_length : (chunk d m i).length = min (8 * m) (d.data.length - 8 * (i * m)) := by
  unfold chunk
  rw [List.length_take, List.length_drop]

section Cut
variable (whole : Whole d)
include whole

theorem Whole.hlen : sizeof_ip + d.header.options.length = sizeof_ip := by
  rw [whole.plain]
  rfl

theorem fragment_eq (zero : d.header.ip_off = 0) (inside : 8 * (i * m) < d.data.length) :
    fragment prov d sizeof_ip (8 * (i * m)) (8 * m) = some (cut prov d m i) := by
  have small := whole.small
  have offset : (8 * (i * m)) >>> 3 = i * m := by
    rw [Nat.shiftRight_eq_div_pow]
    omega
  have last_iff : (d.header.ip_len - sizeof_ip ≤ (8 * (i * m) : Nat) + (8 * m : Nat)) ↔
      Last d m i := by
    rw [whole.length]
    unfold Last
    omega
  have length : (if Last d m i then
      (d.header.ip_len - sizeof_ip - (8 * (i * m) : Nat)).toNat else 8 * m) =
        (chunk d m i).length := by
    rw [chunk_length, whole.length]
    by_cases last : Last d m i
    · rw [if_pos last]
      unfold Last at last
      omega
    · rw [if_neg last]
      unfold Last at last
      omega
  have taken : (d.data.drop (8 * (i * m))).take (chunk d m i).length = chunk d m i := by
    unfold chunk
    rw [List.length_take]
    exact List.take_eq_take_min.symm
  have ip_len : short (short (chunk d m i).length + sizeof_ip) =
      ((sizeof_ip + (chunk d m i).length : Nat) : Int) := by
    have le := chunk_length (d := d) (m := m) (i := i)
    rw [short_of_small (by omega), ← Int.natCast_add, add_comm, short_of_small (by omega)]
  have pad : ((sizeof_ip + (chunk d m i).length : Nat) : Int) % 2 ^ 16 =
      ((sizeof_ip + (chunk d m i).length : Nat) : Int) := by
    have le := chunk_length (d := d) (m := m) (i := i)
    exact Int.emod_eq_of_lt (by omega) (by omega)
  unfold fragment
  rw [if_neg (lt_irrefl _), Option.map_some]
  refine congrArg some ?_
  simp only [last_iff, length, whole.plain, List.nil_append, taken, lt_irrefl, if_false, ip_len,
    pad, zero, offset, Nat.zero_and, Nat.add_zero, Nat.or_zero]
  rw [Nat.mod_eq_of_lt (by omega), or_mf (by omega)]
  rfl

theorem fragments_eq (zero : d.header.ip_off = 0) {turns : Nat}
    (sent : fragments prov room d sizeof_ip (8 * m) turns (8 * (i * m)) = some (packets, none)) :
    ∃ count, packets = (List.range' i count).map (cut prov d m) ∧
      d.data.length ≤ 8 * ((i + count) * m) ∧
        ∀ j, i ≤ j → j < i + count → 8 * (j * m) < d.data.length := by
  induction turns generalizing i packets with
  | zero => cases sent
  | succ turns ih =>
    unfold fragments at sent
    rw [whole.length] at sent
    split at sent
    · cases sent
      exact ⟨0, rfl, by rw [add_zero]; omega, fun j _ _ => by omega⟩
    next inside =>
    have inside : 8 * (i * m) < d.data.length := by omega
    split at sent
    · cases sent
    rw [fragment_eq whole zero inside] at sent
    obtain ⟨⟨rest, error⟩, sent, same⟩ := Option.map_eq_some_iff.mp sent
    obtain ⟨rfl, rfl⟩ := same
    rw [show 8 * (i * m) + 8 * m = 8 * ((i + 1) * m) by rw [Nat.succ_mul i m]; omega] at sent
    obtain ⟨count, rfl, enough, below⟩ := ih sent
    refine ⟨count + 1, rfl, by rwa [show i + (count + 1) = i + 1 + count by omega],
      fun j more less => ?_⟩
    by_cases first : j = i
    · exact first ▸ inside
    · exact below j (by omega) (by omega)

theorem ip_output_cases (sent : ip_output prov room d = some (packets, none)) :
    packets = [{ d with data := padpckt d.data (prov.if_mintu - d.header.ip_len) }] ∨
      ∃ m count, 0 < m ∧ 1 < count ∧ d.header.ip_off = 0 ∧
        packets = (List.range' 0 count).map (cut prov d m) ∧
        d.data.length ≤ 8 * (count * m) ∧ ∀ j < count, 8 * (j * m) < d.data.length := by
  unfold ip_output at sent
  dsimp only at sent
  split at sent
  · cases sent
    exact .inl rfl
  next large =>
  split at sent
  · cases sent
  next may =>
  split at sent
  · cases sent
  next room_ =>
  have zero : d.header.ip_off = 0 := by
    rcases whole.unfragmented with zero | df
    · exact zero
    · rw [df] at may
      exact absurd may (by decide)
  rw [whole.hlen] at sent room_
  rw [whole.length] at large
  obtain ⟨m, len⟩ : ∃ m, m = (prov.if_maxtu - sizeof_ip) / 8 := ⟨_, rfl⟩
  rw [← len, mul_comm] at sent room_
  have start : 8 * (0 * m) = 0 := by rw [Nat.zero_mul]
  rw [← start] at sent
  obtain ⟨count, packets_eq, enough, below⟩ := fragments_eq whole zero sent
  rw [zero_add] at enough
  refine .inr ⟨m, count, by omega, ?_, zero, packets_eq, enough, fun j less => ?_⟩
  · by_contra few
    have le := Nat.mul_le_mul_right m (Nat.le_of_not_lt few)
    omega
  · exact below j (Nat.zero_le j) (by omega)

end Cut
end Ip
