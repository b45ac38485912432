import Mathlib.Algebra.Group.Nat.Defs
import Mathlib.Logic.Function.Basic

/- netinet/ip_input.c, netinet/ip_output.c: the options of an IP header. The offsets that an option
   reads and writes are kept for the record; those of the fixed header are not options. -/
namespace IpOptions
open List Function Nat

def IPOPT_EOL : UInt8 := 0
def IPOPT_NOP : UInt8 := 1
def IPOPT_RR : UInt8 := 7
def IPOPT_TS : UInt8 := 68
def IPOPT_LSRR : UInt8 := 131
def IPOPT_SSRR : UInt8 := 137
def IPOPT_MINOFF : Nat := 4
def IPOPT_TS_TSONLY : UInt8 := 0
def IPOPT_TS_TSANDADDR : UInt8 := 1
def IPOPT_TS_PRESPEC : UInt8 := 2
def ICMP_UNREACH : Nat := 3
def ICMP_UNREACH_HOST : Nat := 1
def ICMP_UNREACH_SRCFAIL : Nat := 5
def ICMP_PARAMPROB : Nat := 12

abbrev Word := Nat → UInt8

structure Answers where
  prov_withaddr : Word → Bool
  in_onnetof : Word → Bool
  ip_rtaddr : Word → Option Word
  prov_addr : Word
  iptime : Word

/-- The bytes from the header on, and the record of the options' accesses; `srcrt_log` has the bytes
of `ip_srcrt` written. -/
structure Packet where
  mem : Nat → UInt8
  log : List Nat
  srcrt_log : List Nat

namespace Packet

/-- `n` bytes at `o` are read or written. -/
def touch (p : Packet) (o n : Nat) : Packet :=
  { p with log := (range n).map (o + ·) ++ p.log }

/-- `bcopy` of a word to `o` -/
def store (p : Packet) (o : Nat) (w : Word) : Packet :=
  { p.touch o 4 with mem := fun k => if o ≤ k ∧ k < o + 4 then w (k - o) else p.mem k }

def setByte (p : Packet) (o : Nat) (b : UInt8) : Packet :=
  { p.touch o 1 with mem := Function.update p.mem o b }

def word (p : Packet) (o : Nat) : Word := fun k => p.mem (o + k)

def ip_src (p : Packet) : Word := p.word 12

def ip_dst (p : Packet) : Word := p.word 16

end Packet

inductive Result
  | done (p : Packet)
  | bad (p : Packet) (type code : Nat)

def Result.packet : Result → Packet
  | done p => p
  | bad p _ _ => p

/-- `n - 4` as it is compared with an offset, on unsigned integers -/
def less_word (n : Nat) : Nat := (n + 2 ^ 32 - 4) % 2 ^ 32

/-- The route for replies; `srcopt` is at 1 in `ip_srcrt`, `route` at 4, 164 is its size. The
address is `dst`. -/
def save_rte (p : Packet) (option : Nat) (_dst : Word) : Packet :=
  let olen := (p.mem (option + 1)).toNat
  let p := p.touch (option + 1) 1
  if 164 - 1 < olen then p
  else
    let ip_nhops := (olen + 2 ^ 32 - 2 - 1) % 2 ^ 32 / 4
    { p.touch option olen with
      srcrt_log := (range olen).map (1 + ·) ++
        ((range 4).map (4 + 4 * ip_nhops + ·) ++ p.srcrt_log) }

def advance (p : Packet) (cp : Nat) : Packet := p.setByte (cp + 2) (p.mem (cp + 2) + 4)

def source_route (a : Answers) (p : Packet) (cp : Nat) (opt : UInt8) (optlen : Nat) : Result :=
  let off := (p.mem (cp + 2)).toNat
  let p := p.touch (cp + 2) 1
  if off < IPOPT_MINOFF then .bad p ICMP_PARAMPROB (cp + 2)
  else if a.prov_withaddr p.ip_dst = false then
    if opt = IPOPT_SSRR then .bad p ICMP_UNREACH ICMP_UNREACH_SRCFAIL else .done p
  else if less_word optlen < off - 1 then .done (save_rte p cp p.ip_src)
  else if opt = IPOPT_SSRR ∧ a.in_onnetof p.ip_dst = false then
    .bad p ICMP_UNREACH ICMP_UNREACH_HOST
  else
    match a.ip_rtaddr p.ip_dst with
    | none => .bad p ICMP_UNREACH ICMP_UNREACH_HOST
    | some addr => .done (advance (p.store (cp + (off - 1)) addr) cp)

def record_route (a : Answers) (p : Packet) (cp optlen : Nat) : Result :=
  let off := (p.mem (cp + 2)).toNat
  let p := p.touch (cp + 2) 1
  if off < IPOPT_MINOFF then .bad p ICMP_PARAMPROB (cp + 2)
  else if less_word optlen < off - 1 then .done p
  else
    match a.ip_rtaddr p.ip_dst with
    | none => .bad p ICMP_UNREACH ICMP_UNREACH_HOST
    | some addr => .done (advance (p.store (cp + (off - 1)) addr) cp)

/-- The time goes to the place that the pointer is at by now. -/
def stamp (a : Answers) (p : Packet) (cp : Nat) : Packet :=
  let p := p.touch (cp + 2) 1
  advance (p.store (cp + (p.mem (cp + 2)).toNat - 1) a.iptime) cp

def timestamp_entry (a : Answers) (p : Packet) (cp ipt_len ipt_ptr : Nat) (ipt_flg : UInt8) :
    Result :=
  let sin := cp + ipt_ptr - 1
  if ipt_flg = IPOPT_TS_TSONLY then .done (stamp a p cp)
  else if ipt_flg = IPOPT_TS_TSANDADDR then
    if ipt_len < ipt_ptr + 4 + 4 then .bad p ICMP_PARAMPROB cp
    else .done (stamp a (advance (p.store sin a.prov_addr) cp) cp)
  else if ipt_flg = IPOPT_TS_PRESPEC then
    if ipt_len < ipt_ptr + 4 + 4 then .bad p ICMP_PARAMPROB cp
    else
      let p := p.touch sin 4
      if a.prov_withaddr (p.word sin) = false then .done p
      else .done (stamp a (advance p cp) cp)
  else .bad p ICMP_PARAMPROB cp

def timestamp (a : Answers) (p : Packet) (cp ipt_len : Nat) : Result :=
  let code := cp
  let p := p.touch (cp + 1) 1
  if ipt_len < 5 then .bad p ICMP_PARAMPROB code
  else
    let ipt_ptr := (p.mem (cp + 2)).toNat
    let p := (p.touch (cp + 2) 1).touch (cp + 3) 1
    let ipt_flg := p.mem (cp + 3) &&& 15
    if less_word ipt_len < ipt_ptr then
      -- the counter of overflows is in the upper half of the byte
      let ipt_oflw := (p.mem (cp + 3) >>> 4) + 1 &&& 15
      let p := p.setByte (cp + 3) (ipt_oflw <<< 4 ||| ipt_flg)
      if ipt_oflw = 0 then .bad p ICMP_PARAMPROB code else .done p
    else
      timestamp_entry a p cp ipt_len ipt_ptr ipt_flg

def process (a : Answers) (p : Packet) (cp : Nat) (opt : UInt8) (optlen : Nat) : Result :=
  if opt = IPOPT_LSRR ∨ opt = IPOPT_SSRR then source_route a p cp opt optlen
  else if opt = IPOPT_RR then record_route a p cp optlen
  else if opt = IPOPT_TS then timestamp a p cp optlen
  else .done p

/-- `for (; cnt > 0; cnt -= optlen, cp += optlen)`; nothing for a loop beyond `fuel` rounds. The
answers may differ at every option. -/
def dooptions_loop (answers : Nat → Answers) : Nat → Packet → Nat → Nat → Option Result
  | _, p, _, 0 => some (.done p)
  | 0, _, _, _ + 1 => none
  | fuel + 1, p, cp, cnt + 1 =>
      let opt := p.mem cp
      let p := p.touch cp 1
      if opt = IPOPT_EOL then some (.done p)
      else if opt = IPOPT_NOP then dooptions_loop answers fuel p (cp + 1) cnt
      else
        let optlen := (p.mem (cp + 1)).toNat
        let p := p.touch (cp + 1) 1
        if optlen = 0 ∨ cnt + 1 < optlen then some (.bad p ICMP_PARAMPROB (cp + 1))
        else
          match process (answers cp) p cp opt optlen with
          | .bad p type code => some (.bad p type code)
          | .done p => dooptions_loop answers fuel p (cp + optlen) (cnt + 1 - optlen)

def ip_dooptions (answers : Nat → Answers) (fuel ip_hl : Nat) (mem : Nat → UInt8) :
    Option Result :=
  dooptions_loop answers fuel ⟨mem, [], []⟩ 20 (4 * ip_hl - 20)

/-- The options that have been copied behind `jp`, up to `dp`, and the record of the accesses. -/
structure Copy where
  dst : Nat → UInt8
  dp : Nat
  log : List Nat
  dst_log : List Nat

def Copy.bcopy (c : Copy) (mem : Nat → UInt8) (cp n : Nat) : Copy where
  dst := fun k => if c.dp ≤ k ∧ k < c.dp + n then mem (cp + (k - c.dp)) else c.dst k
  dp := c.dp + n
  log := (range n).map (cp + ·) ++ c.log
  dst_log := (range n).map (c.dp + ·) ++ c.dst_log

def Copy.touch (c : Copy) (o : Nat) : Copy := { c with log := o :: c.log }

def Copy.eol (c : Copy) : Copy :=
  { c with
    dst := Function.update c.dst c.dp IPOPT_EOL
    dp := c.dp + 1
    dst_log := c.dp :: c.dst_log }

/-- `off` is whether all options are copied. -/
def optcopy_loop (mem : Nat → UInt8) (off : Bool) : Nat → Nat → Nat → Copy → Option Copy
  | _, _, 0, c => some c
  | 0, _, _ + 1, _ => none
  | fuel + 1, cp, cnt + 1, c =>
      let opt := mem cp
      let c := c.touch cp
      if opt = IPOPT_EOL then some c
      else
        let optlen := if opt = IPOPT_NOP then 1 else (mem (cp + 1)).toNat
        let c := if opt = IPOPT_NOP then c else c.touch (cp + 1)
        let optlen := min optlen (cnt + 1)
        let c := if off = true ∨ opt &&& 0x80 ≠ 0 then c.bcopy mem cp optlen else c
        optcopy_loop mem off fuel (cp + optlen) (cnt + 1 - optlen) c

/-- `for (optlen = dp - (u_char *) (jp + 1); optlen & 0x3; optlen++)` -/
def pad : Nat → Copy → Copy
  | 0, c => c
  | rounds + 1, c => if c.dp % 4 = 0 then c else pad rounds c.eol

def ip_optcopy (mem : Nat → UInt8) (off : Bool) (fuel ip_hl : Nat) : Option Copy :=
  (optcopy_loop mem off fuel 20 (4 * ip_hl - 20) ⟨fun _ => 0, 0, [], []⟩).map (pad 3)

section
variable (mem : Nat → UInt8)

def routing (opt : UInt8) : Bool := opt = IPOPT_LSRR ∨ opt = IPOPT_SSRR ∨ opt = IPOPT_RR

def olen (cp : Nat) : Nat := (mem (cp + 1)).toNat

def pointer (cp : Nat) : Nat := (mem (cp + 2)).toNat

def flag (cp : Nat) : UInt8 := mem (cp + 3) &&& 15

/-- A timestamp option that has no room left counts an overflow. -/
def full (cp : Nat) : Bool := less_word (olen mem cp) < pointer mem cp

def ts_rejected (cp : Nat) : Bool :=
  olen mem cp < 5 ∨ full mem cp = true ∧ (mem (cp + 3) >>> 4) + 1 &&& 15 = 0 ∨
    full mem cp = false ∧ flag mem cp ≠ IPOPT_TS_TSONLY ∧
      (flag mem cp = IPOPT_TS_TSANDADDR ∨ flag mem cp = IPOPT_TS_PRESPEC →
        olen mem cp < pointer mem cp + 4 + 4)

def rejected (cp cnt : Nat) : Bool :=
  olen mem cp = 0 ∨ cnt < olen mem cp ∨
    routing (mem cp) = true ∧ pointer mem cp < IPOPT_MINOFF ∨
    mem cp = IPOPT_TS ∧ ts_rejected mem cp = true

/-- The pointer of a timestamp does not point in front of the options, or of itself when it is
written before use. -/
def pointed (cp : Nat) : Bool :=
  full mem cp = true ∨
    flag mem cp = IPOPT_TS_TSANDADDR ∧ 4 ≤ pointer mem cp ∨
    flag mem cp ≠ IPOPT_TS_TSANDADDR ∧ (1 ≤ pointer mem cp ∨ 20 < cp)

def fit (cp cnt : Nat) : Bool :=
  2 ≤ cnt ∧ (routing (mem cp) = true ∧ olen mem cp ≠ 0 ∧ olen mem cp ≤ cnt → 3 ≤ cnt) ∧
    (rejected mem cp cnt = true ∨
      (routing (mem cp) = true → 4 ≤ olen mem cp) ∧
        (mem cp = IPOPT_TS → pointed mem cp = true))

def fits : Nat → Nat → Nat → Bool
  | 0, _, _ => true
  | _, _, 0 => true
  | fuel + 1, cp, cnt + 1 =>
      if mem cp = IPOPT_EOL then true
      else if mem cp = IPOPT_NOP then fits fuel (cp + 1) cnt
      else fit mem cp (cnt + 1) &&
        (rejected mem cp (cnt + 1) || fits fuel (cp + olen mem cp) (cnt + 1 - olen mem cp))

def malformed : Nat → Nat → Nat → Bool
  | 0, _, _ => false
  | _, _, 0 => false
  | fuel + 1, cp, cnt + 1 =>
      if mem cp = IPOPT_EOL then false
      else if mem cp = IPOPT_NOP then malformed fuel (cp + 1) cnt
      else rejected mem cp (cnt + 1) ||
        malformed fuel (cp + olen mem cp) (cnt + 1 - olen mem cp)

def whole : Nat → Nat → Nat → Bool
  | 0, _, _ => true
  | _, _, 0 => true
  | fuel + 1, cp, cnt + 1 =>
      if mem cp = IPOPT_EOL then true
      else if mem cp = IPOPT_NOP then whole fuel (cp + 1) cnt
      else decide (2 ≤ cnt + 1) && decide (olen mem cp ≠ 0) &&
        whole fuel (cp + min (olen mem cp) (cnt + 1)) (cnt + 1 - min (olen mem cp) (cnt + 1))

end

/-- The options are at 20 up to `stop`; the first 44 bytes of `ip_srcrt` are its header and ten
    addresses. -/
structure Inside (stop : Nat) (p : Packet) : Prop where
  log : ∀ o ∈ p.log, 20 ≤ o ∧ o < stop
  srcrt : ∀ o ∈ p.srcrt_log, 1 ≤ o ∧ o < 44

section
variable {stop cp cnt n o f : Nat} {p q : Packet} {mem : Nat → UInt8} {a : Answers} {w : Word}
  {b opt flg : UInt8} {r : Result}

theorem Inside.touch (inside : Inside stop p) (low : 20 ≤ o) (high : o + n ≤ stop) :
    Inside stop (p.touch o n) := by
  refine ⟨fun k mem => ?_, inside.srcrt⟩
  rcases mem_append.mp mem with new | old
  · obtain ⟨i, within, rfl⟩ := mem_map.mp new
    have := mem_range.mp within
    omega
  · exact inside.log k old

theorem Inside.store (inside : Inside stop p) (low : 20 ≤ o) (high : o + 4 ≤ stop) (w : Word) :
    Inside stop (p.store o w) :=
  ⟨(inside.touch low high).log, inside.srcrt⟩

theorem Inside.setByte (inside : Inside stop p) (low : 20 ≤ o) (high : o < stop) (b : UInt8) :
    Inside stop (p.setByte o b) :=
  ⟨(inside.touch (n := 1) low high).log, inside.srcrt⟩

theorem Inside.advance (inside : Inside stop p) (low : 20 ≤ cp) (high : cp + 2 < stop) :
    Inside stop (advance p cp) :=
  inside.setByte (le_add_right_of_le low) high _

variable {fuel : Nat} {m m' : Nat → UInt8} {rounds : Nat} (k : Nat)

theorem store_mem (far : o + 4 ≤ k) : (p.store o w).mem k = p.mem k := by
  show (if o ≤ k ∧ k < o + 4 then w (k - o) else p.mem k) = _
  rw [if_neg (by omega)]

theorem store_mem_before (far : k < o) : (p.store o w).mem k = p.mem k := by
  show (if o ≤ k ∧ k < o + 4 then w (k - o) else p.mem k) = _
  rw [if_neg (by omega)]

theorem setByte_mem (far : k ≠ o) : (p.setByte o b).mem k = p.mem k := update_of_ne far _ _

theorem advance_mem (far : k ≠ cp + 2) : (advance p cp).mem k = p.mem k := setByte_mem k far

theorem less_word_eq (enough : 4 ≤ n) (small : n < 2 ^ 32) : less_word n = n - 4 := by
  unfold less_word
  omega

/-- What comes of an option of `n` bytes at `cp`: no access outside, and what lies behind it left
alone. -/
def Keeps (stop : Nat) (p : Packet) (cp n : Nat) (r : Result) : Prop :=
  Inside stop r.packet ∧ ∀ k, cp + n ≤ k → r.packet.mem k = p.mem k

section
variable (inside : Inside stop p) (low : 20 ≤ cp)
include inside low

theorem save_rte_keeps (room : 4 ≤ olen p.mem cp) (high : cp + olen p.mem cp ≤ stop)
    (short : stop ≤ 60) (dst : Word) :
    Inside stop (save_rte p cp dst) := by
  unfold save_rte
  unfold olen at room high
  obtain ⟨n, len⟩ : ∃ n, (p.mem (cp + 1)).toNat = n := ⟨_, rfl⟩
  rw [len] at room high ⊢
  have read := inside.touch (o := cp + 1) (n := 1) (by omega) (by omega)
  rw [if_neg (by omega)]
  refine ⟨(read.touch low high).log, fun o mem => ?_⟩
  rcases mem_append.mp mem with copied | mem
  · obtain ⟨i, within, rfl⟩ := mem_map.mp copied
    have := mem_range.mp within
    omega
  · rcases mem_append.mp mem with hop | old
    · obtain ⟨i, within, rfl⟩ := mem_map.mp hop
      have := mem_range.mp within
      have hops : (n + 2 ^ 32 - 2 - 1) % 2 ^ 32 = n - 3 := by omega
      rw [hops]
      omega
    · exact inside.srcrt o old

theorem routed_keeps {off : Nat} (enough : 4 ≤ n) (high : cp + n ≤ stop) (short : stop ≤ 60)
    (room : ¬ less_word n < off - 1) (route : Option Word) :
    Keeps stop p cp n (match route with
      | none => .bad p ICMP_UNREACH ICMP_UNREACH_HOST
      | some addr => .done (advance (p.store (cp + (off - 1)) addr) cp)) := by
  have less := less_word_eq enough (show n < 2 ^ 32 by omega)
  split
  · exact ⟨inside, fun _ _ => rfl⟩
  next addr =>
  refine ⟨(inside.store (by omega) (by omega) addr).advance low (by omega), fun k far => ?_⟩
  show (advance _ cp).mem k = p.mem k
  rw [advance_mem k (by omega), store_mem k (by omega)]

section
variable (read : cp + 2 < stop) (long : pointer p.mem cp < IPOPT_MINOFF ∨ 4 ≤ olen p.mem cp)
include read long

/-- Both kinds of routes look at their pointer first. -/
theorem past_pointer (keeps : 4 ≤ olen p.mem cp → Inside stop (p.touch (cp + 2) 1) →
      Keeps stop p cp (olen p.mem cp) r) :
    let checked := if pointer p.mem cp < IPOPT_MINOFF then
      .bad (p.touch (cp + 2) 1) ICMP_PARAMPROB (cp + 2) else r
    Keeps stop p cp (olen p.mem cp) checked ∧
      (pointer p.mem cp < IPOPT_MINOFF → ∃ q type code, checked = .bad q type code) := by
  have touched := inside.touch (n := 1) (show 20 ≤ cp + 2 by omega) read
  split
  · exact ⟨⟨touched, fun _ _ => rfl⟩, fun _ => ⟨_, _, _, rfl⟩⟩
  next data => exact ⟨keeps (long.resolve_left data) touched, fun small => absurd small data⟩

variable (high : cp + olen p.mem cp ≤ stop) (short : stop ≤ 60)
include high short

theorem source_route_keeps :
    Keeps stop p cp (olen p.mem cp) (source_route a p cp opt (olen p.mem cp)) ∧
      (pointer p.mem cp < IPOPT_MINOFF →
        ∃ q type code, source_route a p cp opt (olen p.mem cp) = .bad q type code) := by
  refine past_pointer inside low read long fun enough touched => ?_
  split
  · split
    · exact ⟨touched, fun _ _ => rfl⟩
    · exact ⟨touched, fun _ _ => rfl⟩
  split
  · refine ⟨save_rte_keeps touched low enough high short
      (p.touch (cp + 2) 1).ip_src, fun k _ => ?_⟩
    unfold save_rte
    dsimp only
    split <;> rfl
  next room =>
  split
  · exact ⟨touched, fun _ _ => rfl⟩
  · exact routed_keeps touched low enough high short room _

theorem record_route_keeps : Keeps stop p cp (olen p.mem cp) (record_route a p cp (olen p.mem cp)) ∧
      (pointer p.mem cp < IPOPT_MINOFF →
        ∃ q type code, record_route a p cp (olen p.mem cp) = .bad q type code) := by
  refine past_pointer inside low read long fun enough touched => ?_
  split
  · exact ⟨touched, fun _ _ => rfl⟩
  next room => exact routed_keeps touched low enough high short room _

end

theorem stamp_keeps (first : 1 ≤ pointer p.mem cp ∨ 20 < cp)
    (room : cp + pointer p.mem cp + 3 ≤ cp + n) (high : cp + n ≤ stop) :
    Keeps stop p cp n (.done (stamp a p cp)) := by
  have touched := inside.touch (n := 1) (show 20 ≤ cp + 2 by omega) (by omega)
  refine ⟨(touched.store (o := cp + pointer p.mem cp - 1) (by omega) (by omega) a.iptime).advance
    low (by omega), fun k far => ?_⟩
  show (advance ((p.touch (cp + 2) 1).store (cp + pointer p.mem cp - 1) a.iptime) cp).mem k = _
  rw [advance_mem k (by omega), store_mem k (by omega)]
  rfl

end

theorem pointer_advance (small : pointer p.mem cp + 4 < 256) :
    pointer (advance p cp).mem cp = pointer p.mem cp + 4 := by
  show (update p.mem (cp + 2) (p.mem (cp + 2) + 4) (cp + 2)).toNat = _
  rw [update_self, UInt8.toNat_add]
  exact mod_eq_of_lt small

theorem timestamp_entry_keeps (inside : Inside stop p) (low : 20 ≤ cp) (high : cp + n ≤ stop)
    (short : stop ≤ 60) (room : pointer p.mem cp + 4 ≤ n)
    (both : flg = IPOPT_TS_TSANDADDR → n < pointer p.mem cp + 4 + 4 ∨ 4 ≤ pointer p.mem cp)
    (one : flg = IPOPT_TS_TSONLY → 1 ≤ pointer p.mem cp ∨ 20 < cp)
    (prespec : flg = IPOPT_TS_PRESPEC → n < pointer p.mem cp + 4 + 4 ∨ 1 ≤ pointer p.mem cp ∨ 20 <
      cp) :
    Keeps stop p cp n (timestamp_entry a p cp n (pointer p.mem cp) flg) := by
  unfold timestamp_entry
  dsimp only
  by_cases only : flg = IPOPT_TS_TSONLY
  · rw [if_pos only]
    exact stamp_keeps inside low (one only) (by omega) high
  rw [if_neg only]
  by_cases addr : flg = IPOPT_TS_TSANDADDR
  · rw [if_pos addr]
    split
    · exact ⟨inside, fun _ _ => rfl⟩
    next fits =>
    have data := (both addr).resolve_left fits
    have stored := inside.store (o := cp + pointer p.mem cp - 1) (by omega) (by omega) a.prov_addr
    -- the pointer lies in front of the address that has been written
    have same : pointer (p.store (cp + pointer p.mem cp - 1) a.prov_addr).mem cp =
        pointer p.mem cp := congrArg UInt8.toNat (store_mem_before _ (by omega))
    have moved : pointer (advance (p.store (cp + pointer p.mem cp - 1) a.prov_addr) cp).mem cp =
        pointer p.mem cp + 4 := by
      rw [pointer_advance (by omega), same]
    obtain ⟨kept, behind⟩ := stamp_keeps (a := a) (n := n) (stored.advance low (by omega)) low
      (.inl (by omega)) (by omega) high
    refine ⟨kept, fun k far => (behind k far).trans ?_⟩
    rw [advance_mem k (by omega), store_mem k (by omega)]
  rw [if_neg addr]
  split
  · next pre =>
    split
    · exact ⟨inside, fun _ _ => rfl⟩
    next fits =>
    have start := (prespec pre).resolve_left fits
    have touched := inside.touch (o := cp + pointer p.mem cp - 1) (n := 4) (by omega) (by omega)
    split
    · exact ⟨touched, fun _ _ => rfl⟩
    · have moved : pointer (advance (p.touch (cp + pointer p.mem cp - 1) 4) cp).mem cp =
          pointer p.mem cp + 4 := pointer_advance (show pointer p.mem cp + 4 < 256 by omega)
      obtain ⟨kept, behind⟩ := stamp_keeps (a := a) (n := n) (touched.advance low (by omega)) low
        (.inl (by omega)) (by omega) high
      refine ⟨kept, fun k far => (behind k far).trans ?_⟩
      rw [advance_mem k (by omega)]
      rfl
  · exact ⟨inside, fun _ _ => rfl⟩

theorem timestamp_entry_rejected {ptr : Nat} (other : flg ≠ IPOPT_TS_TSONLY)
    (tight : flg = IPOPT_TS_TSANDADDR ∨ flg = IPOPT_TS_PRESPEC → n < ptr + 4 + 4) :
    timestamp_entry a p cp n ptr flg = .bad p ICMP_PARAMPROB cp := by
  unfold timestamp_entry
  rw [if_neg other]
  split
  · next addr => rw [if_pos (tight (.inl addr))]
  · split
    · next pre => rw [if_pos (tight (.inr pre))]
    · rfl

theorem timestamp_keeps (inside : Inside stop p) (low : 20 ≤ cp)
    (high : cp + olen p.mem cp ≤ stop) (short : stop ≤ 60) (two : cp + 2 ≤ stop)
    (ok : ts_rejected p.mem cp = true ∨ pointed p.mem cp = true) :
    Keeps stop p cp (olen p.mem cp) (timestamp a p cp (olen p.mem cp)) ∧
      (ts_rejected p.mem cp = true →
        ∃ q type code, timestamp a p cp (olen p.mem cp) = .bad q type code) := by
  obtain ⟨n, len⟩ : ∃ n, olen p.mem cp = n := ⟨_, rfl⟩
  have first := inside.touch (n := 1) (show 20 ≤ cp + 1 by omega) two
  unfold ts_rejected at ok ⊢
  unfold timestamp
  rw [len] at high ok ⊢
  by_cases tiny : n < 5
  · rw [if_pos tiny]
    exact ⟨⟨first, fun _ _ => rfl⟩, fun _ => ⟨_, _, _, rfl⟩⟩
  rw [if_neg tiny]
  have second := (first.touch (n := 1) (show 20 ≤ cp + 2 by omega) (by omega)).touch (n := 1)
    (show 20 ≤ cp + 3 by omega) (by omega)
  have less := less_word_eq (show 4 ≤ n by omega) (by omega)
  change Keeps stop p cp n (if less_word n < pointer p.mem cp then _ else
      timestamp_entry a _ cp n (pointer p.mem cp) (flag p.mem cp)) ∧ (_ → ∃ q type code,
    (if less_word n < pointer p.mem cp then _ else
      timestamp_entry a _ cp n (pointer p.mem cp) (flag p.mem cp)) = Result.bad q type code)
  by_cases no_room : less_word n < pointer p.mem cp
  · rw [if_pos no_room]
    have full : full p.mem cp = true := decide_eq_true (len ▸ no_room)
    have third := second.setByte (show 20 ≤ cp + 3 by omega) (by omega)
    have behind : ∀ b k, cp + n ≤ k →
        ((((p.touch (cp + 1) 1).touch (cp + 2) 1).touch (cp + 3) 1).setByte (cp + 3) b).mem k =
          p.mem k := fun b k far => setByte_mem k (by omega)
    change Keeps stop p cp n (if (p.mem (cp + 3) >>> 4) + 1 &&& 15 = 0 then _ else _) ∧
      (_ → ∃ q type code, (if (p.mem (cp + 3) >>> 4) + 1 &&& 15 = 0 then _ else _) =
        Result.bad q type code)
    split
    · exact ⟨⟨third _, behind _⟩, fun _ => ⟨_, _, _, rfl⟩⟩
    · next more =>
      refine ⟨⟨third _, behind _⟩, fun rejected => ?_⟩
      simp [full, tiny, more] at rejected
  · rw [if_neg no_room]
    have room : full p.mem cp = false := decide_eq_false (len ▸ no_room)
    unfold pointed at ok
    simp only [tiny, room, Bool.false_eq_true, false_and, true_and, false_or,
      decide_eq_true_eq] at ok ⊢
    constructor
    · refine timestamp_entry_keeps (p := ((p.touch (cp + 1) 1).touch (cp + 2) 1).touch (cp + 3) 1)
        second low high short (show pointer p.mem cp + 4 ≤ n by omega) ?_ ?_ ?_
      · intro addr
        rcases ok with ⟨-, tight⟩ | ⟨-, data⟩ | ⟨other, -⟩
        · exact .inl (tight (.inl addr))
        · exact .inr data
        · exact absurd addr other
      · intro only
        rcases ok with ⟨other, -⟩ | ⟨addr, -⟩ | ⟨-, start⟩
        · exact absurd only other
        · rw [only] at addr
          exact absurd addr (by decide)
        · exact start
      · intro pre
        rcases ok with ⟨-, tight⟩ | ⟨addr, -⟩ | ⟨-, start⟩
        · exact .inl (tight (.inr pre))
        · rw [pre] at addr
          exact absurd addr (by decide)
        · exact .inr start
    · rintro ⟨other, tight⟩
      exact ⟨_, _, _, timestamp_entry_rejected other tight⟩

theorem process_keeps (inside : Inside stop p) (low : 20 ≤ cp) (some : olen p.mem cp ≠ 0)
    (high : cp + olen p.mem cp ≤ stop) (short : stop ≤ 60)
    (fits : fit p.mem cp (stop - cp) = true) :
    Keeps stop p cp (olen p.mem cp) (process a p cp (p.mem cp) (olen p.mem cp)) ∧
      (rejected p.mem cp (stop - cp) = true →
        ∃ q type code, process a p cp (p.mem cp) (olen p.mem cp) = .bad q type code) := by
  unfold fit rejected at fits
  unfold rejected
  simp only [some, show ¬ stop - cp < olen p.mem cp by omega, decide_eq_true_eq, false_or, ne_eq,
    not_false_eq_true, show olen p.mem cp ≤ stop - cp by omega, and_true] at fits ⊢
  obtain ⟨two, three, ok⟩ := fits
  unfold process
  by_cases source : p.mem cp = IPOPT_LSRR ∨ p.mem cp = IPOPT_SSRR
  · have route : routing (p.mem cp) = true := decide_eq_true (source.imp id .inl)
    have other : p.mem cp ≠ IPOPT_TS := by
      rcases source with same | same <;> rw [same] <;> decide
    rw [if_pos source]
    simp only [route, other, true_and, false_and, or_false, true_imp_iff, false_imp_iff,
      and_true] at ok three ⊢
    exact source_route_keeps inside low (by omega) ok high short
  rw [if_neg source]
  by_cases record : p.mem cp = IPOPT_RR
  · have route : routing (p.mem cp) = true := decide_eq_true (.inr (.inr record))
    have other : p.mem cp ≠ IPOPT_TS := by rw [record]; decide
    rw [if_pos record]
    simp only [route, other, true_and, false_and, or_false, true_imp_iff, false_imp_iff,
      and_true] at ok three ⊢
    exact record_route_keeps inside low (by omega) ok high short
  rw [if_neg record]
  have plain : routing (p.mem cp) = false :=
    decide_eq_false (by rintro (same | same | same) <;> simp_all)
  by_cases ts : p.mem cp = IPOPT_TS
  · rw [if_pos ts]
    have plain : routing IPOPT_TS = false := by decide
    simp only [plain, ts, Bool.false_eq_true, false_and, true_and, false_or, true_imp_iff,
      false_imp_iff] at ok ⊢
    exact timestamp_keeps inside low high short (by omega) ok
  · rw [if_neg ts]
    refine ⟨⟨inside, fun _ _ => rfl⟩, fun rejected => ?_⟩
    simp [plain, ts] at rejected

theorem seen_congr (cnt : Nat) (same : ∀ k, cp ≤ k → m k = m' k) :
    olen m cp = olen m' cp ∧ rejected m cp cnt = rejected m' cp cnt ∧
      fit m cp cnt = fit m' cp cnt := by
  have opt := same cp (Nat.le_refl cp)
  have len : olen m cp = olen m' cp := congrArg UInt8.toNat (same _ (by omega))
  have ptr : pointer m cp = pointer m' cp := congrArg UInt8.toNat (same _ (by omega))
  have third := same (cp + 3) (by omega)
  have flg : flag m cp = flag m' cp := by
    unfold flag
    rw [third]
  have full_eq : full m cp = full m' cp := by
    unfold full
    rw [len, ptr]
  have ts : ts_rejected m cp = ts_rejected m' cp := by
    unfold ts_rejected
    rw [len, ptr, flg, full_eq, third]
  have rej : rejected m cp cnt = rejected m' cp cnt := by
    unfold rejected
    rw [len, ptr, ts, opt]
  have ptd : pointed m cp = pointed m' cp := by
    unfold pointed
    rw [ptr, flg, full_eq]
  refine ⟨len, rej, ?_⟩
  unfold fit
  rw [rej, len, ptd, opt]

theorem fits_congr (fuel : Nat) (same : ∀ k, cp ≤ k → m k = m' k) :
    fits m fuel cp cnt = fits m' fuel cp cnt := by
  induction fuel generalizing cp cnt with
  | zero => simp [fits]
  | succ fuel ih =>
    cases cnt with
    | zero => rfl
    | succ cnt =>
      obtain ⟨len, rej, fit_eq⟩ := seen_congr (cnt + 1) same
      have step : fits m fuel (cp + 1) cnt = fits m' fuel (cp + 1) cnt :=
        ih fun k far => same k (by omega)
      have rest : fits m fuel (cp + olen m' cp) (cnt + 1 - olen m' cp) =
          fits m' fuel (cp + olen m' cp) (cnt + 1 - olen m' cp) :=
        ih fun k far => same k (by omega)
      simp only [fits, same cp (Nat.le_refl cp), fit_eq, rej, len, step, rest]

theorem malformed_congr (fuel : Nat) (same : ∀ k, cp ≤ k → m k = m' k) :
    malformed m fuel cp cnt = malformed m' fuel cp cnt := by
  induction fuel generalizing cp cnt with
  | zero => simp [malformed]
  | succ fuel ih =>
    cases cnt with
    | zero => rfl
    | succ cnt =>
      obtain ⟨len, rej, -⟩ := seen_congr (cnt + 1) same
      have step : malformed m fuel (cp + 1) cnt = malformed m' fuel (cp + 1) cnt :=
        ih fun k far => same k (by omega)
      have rest : malformed m fuel (cp + olen m' cp) (cnt + 1 - olen m' cp) =
          malformed m' fuel (cp + olen m' cp) (cnt + 1 - olen m' cp) :=
        ih fun k far => same k (by omega)
      simp only [malformed, same cp (Nat.le_refl cp), rej, len, step, rest]

theorem loop_inside (answers : Nat → Answers) (inside : Inside stop p) (low : 20 ≤ cp)
    (ends : cp + cnt = stop) (short : stop ≤ 60) (enough : cnt ≤ fuel) (enough' : cnt ≤ f)
    (ok : fits p.mem f cp cnt = true) :
    ∃ r, dooptions_loop answers fuel p cp cnt = some r ∧ Inside stop r.packet ∧
      (malformed p.mem f cp cnt = true → ∃ q type code, r = .bad q type code) := by
  induction fuel generalizing f p cp cnt with
  | zero =>
    obtain rfl : cnt = 0 := by omega
    exact ⟨.done p, rfl, inside, fun found => by cases f <;> cases found⟩
  | succ fuel ih =>
    cases cnt with
    | zero => exact ⟨.done p, rfl, inside, fun found => by cases f <;> cases found⟩
    | succ cnt =>
      obtain ⟨f, rfl⟩ := exists_eq_add_one_of_ne_zero (show f ≠ 0 by omega)
      have first := inside.touch (n := 1) low (show cp + 1 ≤ stop by omega)
      unfold dooptions_loop
      unfold fits at ok
      unfold malformed
      by_cases eol : p.mem cp = IPOPT_EOL
      · rw [if_pos eol, if_pos eol]
        exact ⟨_, rfl, first, fun found => by cases found⟩
      rw [if_neg eol] at ok ⊢
      rw [if_neg eol]
      by_cases nop : p.mem cp = IPOPT_NOP
      · rw [if_pos nop] at ok ⊢
        rw [if_pos nop]
        exact ih first (by omega) (by omega) (by omega) (by omega) ok
      rw [if_neg nop] at ok ⊢
      rw [if_neg nop]
      obtain ⟨fits_here, ok⟩ := Bool.and_eq_true_iff.mp ok
      have two : 2 ≤ cnt + 1 := by
        exact (decide_eq_true_eq.mp fits_here).1
      have second := first.touch (n := 1) (show 20 ≤ cp + 1 by omega) (by omega)
      change ∃ r, (if olen p.mem cp = 0 ∨ cnt + 1 < olen p.mem cp then _ else _) = some r ∧ _
      by_cases outside : olen p.mem cp = 0 ∨ cnt + 1 < olen p.mem cp
      · rw [if_pos outside]
        exact ⟨_, rfl, second, fun _ => ⟨_, _, _, rfl⟩⟩
      rw [if_neg outside]
      have room : stop - cp = cnt + 1 := by omega
      rw [← room] at fits_here ok
      obtain ⟨⟨within, behind⟩, refused⟩ := process_keeps (a := answers cp) second low
        (show olen p.mem cp ≠ 0 by omega) (show cp + olen p.mem cp ≤ stop by omega) short fits_here
      change ∃ r, (match process (answers cp) _ cp (p.mem cp) (olen p.mem cp) with
        | .bad p type code => some (Result.bad p type code)
        | .done q => dooptions_loop answers fuel q (cp + olen p.mem cp)
            (cnt + 1 - olen p.mem cp)) = some r ∧ _
      obtain ⟨r, made⟩ : ∃ r, process (answers cp) ((p.touch cp 1).touch (cp + 1) 1) cp (p.mem cp)
        (olen p.mem cp) = r := ⟨_, rfl⟩
      change Inside stop (process (answers cp) ((p.touch cp 1).touch (cp + 1) 1) cp (p.mem cp)
        (olen p.mem cp)).packet at within
      change ∀ k, cp + olen p.mem cp ≤ k → (process (answers cp) ((p.touch cp 1).touch (cp + 1) 1)
        cp (p.mem cp) (olen p.mem cp)).packet.mem k = p.mem k at behind
      change rejected p.mem cp (stop - cp) = true → ∃ q type code, process (answers cp)
        ((p.touch cp 1).touch (cp + 1) 1) cp (p.mem cp) (olen p.mem cp) = .bad q type code
          at refused
      rw [made] at within behind refused ⊢
      cases r with
      | bad q type code => exact ⟨_, rfl, within, fun _ => ⟨_, _, _, rfl⟩⟩
      | done q =>
        rcases Bool.or_eq_true_iff.mp ok with rej | rest
        · obtain ⟨_, _, _, bad⟩ := refused rej
          cases bad
        have same : fits q.mem f (cp + olen p.mem cp) (cnt + 1 - olen p.mem cp) =
            fits p.mem f (cp + olen p.mem cp) (cnt + 1 - olen p.mem cp) := fits_congr f behind
        have passed : rejected p.mem cp (cnt + 1) = false := by
          refine Bool.eq_false_iff.mpr fun rej => ?_
          obtain ⟨_, _, _, bad⟩ := refused (room ▸ rej)
          cases bad
        rw [room, ← same] at rest
        obtain ⟨r, ended, inside, found⟩ := ih within (show 20 ≤ cp + olen p.mem cp by omega)
          (show _ + (cnt + 1 - olen p.mem cp) = stop by omega) (by omega) (show _ ≤ f by omega)
          rest
        refine ⟨r, ended, inside, fun bad => found ?_⟩
        rw [passed, Bool.false_or] at bad
        rw [malformed_congr f behind]
        exact bad

/-- The copy reads the options only, and writes an area of 40 bytes. -/
structure Confined (stop : Nat) (c : Copy) : Prop where
  log : ∀ o ∈ c.log, 20 ≤ o ∧ o < stop
  dst_log : ∀ o ∈ c.dst_log, o < 40

variable {c c' : Copy} {off : Bool}

section
variable (confined : Confined stop c)
include confined

theorem Confined.touch (low : 20 ≤ o) (high : o < stop) : Confined stop (c.touch o) := by
  refine ⟨fun k mem => ?_, confined.dst_log⟩
  rcases mem_cons.mp mem with rfl | old
  · exact ⟨low, high⟩
  · exact confined.log k old

theorem Confined.bcopy (low : 20 ≤ cp) (high : cp + n ≤ stop) (room : c.dp + n ≤ 40) :
    Confined stop (c.bcopy mem cp n) := by
  refine ⟨fun k mem => ?_, fun k mem => ?_⟩
  · rcases mem_append.mp mem with new | old
    · obtain ⟨i, within, rfl⟩ := mem_map.mp new
      have := mem_range.mp within
      omega
    · exact confined.log k old
  · rcases mem_append.mp mem with new | old
    · obtain ⟨i, within, rfl⟩ := mem_map.mp new
      have := mem_range.mp within
      omega
    · exact confined.dst_log k old

theorem pad_confined (fits : c.dp ≤ 40) : Confined stop (pad rounds c) := by
  induction rounds generalizing c with
  | zero => exact confined
  | succ rounds ih =>
    unfold pad
    split
    · exact confined
    · refine ih ⟨confined.log, fun k mem => ?_⟩ (show c.dp + 1 ≤ 40 by omega)
      rcases mem_cons.mp mem with rfl | old
      · omega
      · exact confined.dst_log k old

theorem optcopy_ends (low : 20 ≤ cp) (ends : cp + cnt = stop) (short : stop ≤ 60)
    (behind : c.dp + 20 ≤ cp) (enough : cnt ≤ fuel) (enough' : cnt ≤ f)
    (ok : whole mem f cp cnt = true) :
    ∃ c', optcopy_loop mem off fuel cp cnt c = some c' ∧ Confined stop c' ∧ c'.dp ≤ 40 := by
  induction fuel generalizing f c cp cnt with
  | zero =>
    obtain rfl : cnt = 0 := by omega
    exact ⟨c, rfl, confined, by omega⟩
  | succ fuel ih =>
    cases cnt with
    | zero => exact ⟨c, rfl, confined, by omega⟩
    | succ cnt =>
      obtain ⟨f, rfl⟩ := exists_eq_add_one_of_ne_zero (show f ≠ 0 by omega)
      have first := confined.touch low (show cp < stop by omega)
      unfold optcopy_loop
      unfold whole at ok
      dsimp only
      by_cases eol : mem cp = IPOPT_EOL
      · rw [if_pos eol]
        exact ⟨_, rfl, first, show c.dp ≤ 40 by omega⟩
      rw [if_neg eol] at ok ⊢
      -- an option of `n` bytes that are all there
      have option : ∀ (n : Nat) (c₁ : Copy), Confined stop c₁ → c₁.dp = c.dp → 0 < n →
          n ≤ cnt + 1 → whole mem f (cp + n) (cnt + 1 - n) = true →
          ∃ c', optcopy_loop mem off fuel (cp + n) (cnt + 1 - n)
            (if off = true ∨ mem cp &&& 0x80 ≠ 0 then c₁.bcopy mem cp n else c₁) = some c' ∧
            Confined stop c' ∧ c'.dp ≤ 40 := by
        intro n c₁ touched same some within rest
        split
        · exact ih (touched.bcopy low (by omega) (by omega)) (by omega) (by omega)
            (show c₁.dp + n + 20 ≤ cp + n by omega) (by omega) (by omega) rest
        · exact ih touched (by omega) (by omega) (by omega) (by omega) (by omega) rest
      by_cases nop : mem cp = IPOPT_NOP
      · rw [if_pos nop] at ok
        rw [if_pos nop, if_pos nop, Nat.min_eq_left (by omega)]
        exact option 1 _ first rfl Nat.one_pos (by omega) ok
      rw [if_neg nop] at ok
      rw [if_neg nop, if_neg nop]
      obtain ⟨here, rest⟩ := Bool.and_eq_true_iff.mp ok
      obtain ⟨two, some⟩ := Bool.and_eq_true_iff.mp here
      have two := decide_eq_true_eq.mp two
      have some := decide_eq_true_eq.mp some
      exact option (min (olen mem cp) (cnt + 1)) _ (first.touch (by omega) (by omega)) rfl
        (by omega) (by omega) rest

end

theorem optcopy_log (ended : optcopy_loop mem off fuel cp cnt c = some c') (mem_ : o ∈ c.log) :
    o ∈ c'.log := by
  induction fuel generalizing c cp cnt with
  | zero =>
    cases cnt with
    | zero =>
      cases ended
      exact mem_
    | succ cnt => cases ended
  | succ fuel ih =>
    cases cnt with
    | zero =>
      cases ended
      exact mem_
    | succ cnt =>
      unfold optcopy_loop at ended
      dsimp only at ended
      have first : o ∈ (c.touch cp).log := mem_cons_of_mem _ mem_
      split at ended
      · cases ended
        exact first
      refine ih ended ?_
      split
      · apply mem_append_right
        split
        · exact first
        · exact mem_cons_of_mem _ first
      · split
        · exact first
        · exact mem_cons_of_mem _ first

theorem optcopy_stuck (fuel : Nat) (c : Copy) (eol : mem cp ≠ IPOPT_EOL) (nop : mem cp ≠ IPOPT_NOP)
    (zero : olen mem cp = 0) : optcopy_loop mem off fuel cp (cnt + 1) c = none := by
  induction fuel generalizing c with
  | zero => rfl
  | succ fuel ih =>
    have zero' : (mem (cp + 1)).toNat = 0 := zero
    unfold optcopy_loop
    dsimp only
    rw [if_neg eol, if_neg nop, if_neg nop, zero', Nat.zero_min]
    exact ih _

theorem whole_of_ends (f : Nat) (ends : cp + cnt = stop)
    (ended : optcopy_loop mem off fuel cp cnt c = some c') (confined : Confined stop c') :
    whole mem f cp cnt = true := by
  induction f generalizing fuel c cp cnt with
  | zero => simp [whole]
  | succ f ih =>
    cases cnt with
    | zero => rfl
    | succ cnt =>
      unfold whole
      by_cases eol : mem cp = IPOPT_EOL
      · rw [if_pos eol]
      rw [if_neg eol]
      cases fuel with
      | zero => cases ended
      | succ fuel =>
        have again := ended
        unfold optcopy_loop at ended
        rw [if_neg eol] at ended
        by_cases nop : mem cp = IPOPT_NOP
        · rw [if_pos nop] at ended ⊢
          exact ih (by omega) ended
        rw [if_neg nop] at ended ⊢
        have some : olen mem cp ≠ 0 := by
          intro zero
          rw [optcopy_stuck _ c eol nop zero] at again
          cases again
        have read : cp + 1 ∈ c'.log := by
          refine optcopy_log ended ?_
          split
          · exact mem_append_right _ mem_cons_self
          · exact mem_cons_self
        have inside := (confined.log _ read).2
        rw [Bool.and_eq_true_iff, Bool.and_eq_true_iff]
        refine ⟨⟨decide_eq_true (by omega), decide_eq_true some⟩, ?_⟩
        exact ih (by omega) ended

theorem pad_log : (pad rounds c).log = c.log := by
  induction rounds generalizing c with
  | zero => rfl
  | succ rounds ih =>
    unfold pad
    split
    · rfl
    · exact ih

theorem pad_dst_log (mem_ : o ∈ c.dst_log) : o ∈ (pad rounds c).dst_log := by
  induction rounds generalizing c with
  | zero => exact mem_
  | succ rounds ih =>
    unfold pad
    split
    · exact mem_
    · exact ih (mem_cons_of_mem _ mem_)

theorem optcopy_iff {hl : Nat} (low : 5 ≤ hl) (high : hl ≤ 15) :
    whole mem 40 20 (4 * hl - 20) = true ↔
      ∃ fuel c, ip_optcopy mem off fuel hl = some c ∧ Confined (4 * hl) c := by
  constructor
  · intro ok
    have start : Confined (4 * hl) ⟨fun _ => 0, 0, [], []⟩ :=
      ⟨fun _ mem => (nomatch mem), fun _ mem => (nomatch mem)⟩
    obtain ⟨c, ended, confined, short⟩ : ∃ c, optcopy_loop mem off (4 * hl - 20) 20 (4 * hl - 20)
        ⟨fun _ => 0, 0, [], []⟩ = some c ∧ Confined (4 * hl) c ∧ c.dp ≤ 40 :=
      optcopy_ends start (Nat.le_refl 20) (by omega) (by omega) (Nat.le_refl 20) (Nat.le_refl _)
        (show 4 * hl - 20 ≤ 40 by omega) ok
    exact ⟨4 * hl - 20, pad 3 c, congrArg (Option.map (pad 3)) ended, pad_confined confined short⟩
  · rintro ⟨fuel, c, ended, confined⟩
    obtain ⟨c, looped, rfl⟩ := Option.map_eq_some_iff.mp ended
    have log := confined.log
    rw [pad_log] at log
    exact whole_of_ends 40 (show 20 + (4 * hl - 20) = 4 * hl by omega) looped
      ⟨log, fun o mem => confined.dst_log o (pad_dst_log mem)⟩

/-- Fit options are processed inside the header, to the first malformed one; they are copied inside
if and only if each has its length. -/
theorem options_stay_inside (mem : Nat → UInt8) (ip_hl : Nat) (low : 5 ≤ ip_hl)
    (high : ip_hl ≤ 15) :
    (fits mem 40 20 (4 * ip_hl - 20) = true → ∀ answers, ∃ fuel r,
      ip_dooptions answers fuel ip_hl mem = some r ∧ Inside (4 * ip_hl) r.packet ∧
        (malformed mem 40 20 (4 * ip_hl - 20) = true → ∃ p type code, r = .bad p type code)) ∧
    ∀ off, whole mem 40 20 (4 * ip_hl - 20) = true ↔
      ∃ fuel c, ip_optcopy mem off fuel ip_hl = some c ∧ Confined (4 * ip_hl) c := by
  refine ⟨fun ok answers => ?_, fun off => optcopy_iff low high⟩
  have start : Inside (4 * ip_hl) ⟨mem, [], []⟩ :=
    ⟨fun _ mem => (nomatch mem), fun _ mem => (nomatch mem)⟩
  exact ⟨4 * ip_hl - 20, loop_inside answers start (Nat.le_refl 20)
    (show 20 + (4 * ip_hl - 20) = 4 * ip_hl by omega) (by omega) (Nat.le_refl _) (by omega) ok⟩

end

def followed (k : Nat) : UInt8 := [0x83, 7, 8, 0, 0, 0, 0, 0].getD (k - 20) 0

theorem followed_inside :
    (5 ≤ 7 ∧ 7 ≤ 15 ∧ fits followed 40 20 (4 * 7 - 20) = true) ∧
      ((∀ answers, ∃ fuel r, ip_dooptions answers fuel 7 followed = some r ∧
        Inside (4 * 7) r.packet ∧ (malformed followed 40 20 (4 * 7 - 20) = true →
          ∃ p type code, r = .bad p type code)) ∧
      ∀ off, whole followed 40 20 (4 * 7 - 20) = true ↔
        ∃ fuel c, ip_optcopy followed off fuel 7 = some c ∧ Confined (4 * 7) c) := by
  have ok : fits followed 40 20 (4 * 7 - 20) = true := by decide +kernel
  obtain ⟨processed, copied⟩ := options_stay_inside followed 7 (by decide) (by decide)
  exact ⟨⟨by decide, by decide, ok⟩, processed ok, copied⟩

def roomless (k : Nat) : UInt8 := [7, 3, 4, 0].getD (k - 20) 0

def answering : Answers where
  prov_withaddr _ := true
  in_onnetof _ := true
  ip_rtaddr _ := some fun _ => 0
  prov_addr _ := 0
  iptime _ := 0

/-- The address is written behind the header, as the room is compared without a sign. -/
theorem roomless_outside : ¬ ∀ (mem : Nat → UInt8) (ip_hl : Nat), 5 ≤ ip_hl → ip_hl ≤ 15 →
    ∀ answers, ∃ fuel r, ip_dooptions answers fuel ip_hl mem = some r ∧
      Inside (4 * ip_hl) r.packet := by
  intro all
  obtain ⟨fuel, r, ended, inside⟩ := all roomless 6 (by decide) (by decide) fun _ => answering
  match fuel with
  | 0 => cases ended
  | 1 => cases ended
  | fuel + 2 =>
    have same : ip_dooptions (fun _ => answering) (fuel + 2) 6 roomless =
      ip_dooptions (fun _ => answering) 2 6 roomless := rfl
    have written : 24 ∈ ((ip_dooptions (fun _ => answering) 2 6 roomless).get
      (by decide +kernel)).packet.log := by decide +kernel
    rw [same] at ended
    simp only [ended, Option.get_some] at written
    exact absurd (inside.log 24 written).2 (by decide)

end IpOptions
