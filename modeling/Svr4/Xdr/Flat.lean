import Svr4.ByteImages
import Svr4.ByteMoves
import Svr4.StreamPrograms

/- rpc/xdr_mblk.c and rpc/xdr_mem.c: the streams over messages and over flat memory. -/
namespace Xdr
open ByteMoves StreamPrograms List

inductive XdrOp
  | XDR_ENCODE
  | XDR_DECODE
  | XDR_FREE
  deriving DecidableEq

abbrev Memory := Nat → UInt8

def to_int (x : Int) : Int := Int.bmod x (2 ^ 32)

/-- The long that the four bytes at an address stand for, the first being the highest. -/
def ntohl (bs : List UInt8) : Int := to_int (bs.foldl (fun n b => n * 256 + b.toNat) 0 : Nat)

def htonl (l : Int) : List UInt8 :=
  let n := (l % 2 ^ 32).toNat
  [UInt8.ofNat (n / 2 ^ 24), UInt8.ofNat (n / 2 ^ 16), UInt8.ofNat (n / 2 ^ 8), UInt8.ofNat n]

/-- A message block. Addresses are counted from db_base; the memory goes on behind db_lim. -/
structure Mblk where
  memory : Memory
  b_rptr : Nat
  b_wptr : Nat
  db_lim : Nat

/-- A stream over a message: the block that x_base points to between those that it came from and
    the chain of its b_cont. x_private is counted from db_base of that block. -/
structure Xdrmblk where
  passed : List Mblk
  x_base : Mblk
  b_cont : List Mblk
  x_private : Nat
  x_handy : Int

def Xdrmblk.chain (x : Xdrmblk) : List Mblk := x.passed ++ x.x_base :: x.b_cont

def xdrmblk_init (m : Mblk) (b_cont : List Mblk) (x_op : XdrOp) : Xdrmblk :=
  if x_op = .XDR_DECODE then ⟨[], m, b_cont, m.b_rptr, to_int (m.b_wptr - m.b_rptr)⟩
  else ⟨[], m, b_cont, m.b_wptr, to_int m.db_lim⟩

/-- A failed operation leaves the blocks, and no block to go on with. -/
def xdrmblk_getlong (x : Xdrmblk) : Except (List Mblk) (Int × Xdrmblk) :=
  let x := { x with x_handy := to_int (x.x_handy - 4) }
  let get (x : Xdrmblk) : Int × Xdrmblk :=
    (ntohl (slice x.x_base.memory x.x_private 4), { x with x_private := x.x_private + 4 })
  if x.x_handy < 0 then
    match x.b_cont with
    | [] => .error x.chain
    | m :: b_cont =>
      .ok (get ⟨x.passed ++ [x.x_base], m, b_cont, m.b_rptr, to_int (m.b_wptr - m.b_rptr - 4)⟩)
  else .ok (get x)

def Xdrmblk.store (x : Xdrmblk) (bs : List UInt8) : Xdrmblk :=
  { x with x_base := { x.x_base with memory := pour x.x_base.memory x.x_private bs } }

def xdrmblk_putlong (x : Xdrmblk) (l : Int) : Except (List Mblk) Xdrmblk :=
  let x := { x with x_handy := to_int (x.x_handy - 4) }
  let put (x : Xdrmblk) : Xdrmblk := { x.store (htonl l) with x_private := x.x_private + 4 }
  if x.x_handy < 0 then
    match x.b_cont with
    | [] => .error x.chain
    | m :: b_cont =>
      .ok (put ⟨x.passed ++ [x.x_base], m, b_cont, m.b_wptr, to_int m.db_lim⟩)
  else .ok (put x)

def getbytes_loop (passed : List Mblk) (m : Mblk) :
    List Mblk → (x_private : Nat) → (x_handy : Int) → (len : Nat) →
      Except (List Mblk) (List UInt8 × Xdrmblk)
  | b_cont, x_private, x_handy, len =>
    let handy := to_int (x_handy - len)
    if handy < 0 then
      let handy := to_int (handy + len)
      let n := if handy > 0 then handy.toNat else 0
      match b_cont with
      | [] => .error (passed ++ [m])
      | next :: b_cont =>
        (getbytes_loop (passed ++ [m]) next b_cont next.b_rptr
            (to_int (next.b_wptr - next.b_rptr)) (len - n)).map
          fun (bs, x) => (slice m.memory x_private n ++ bs, x)
    else .ok (slice m.memory x_private len, ⟨passed, m, b_cont, x_private + len, handy⟩)

def xdrmblk_getbytes (x : Xdrmblk) (len : Nat) : Except (List Mblk) (List UInt8 × Xdrmblk) :=
  getbytes_loop x.passed x.x_base x.b_cont x.x_private x.x_handy len

def putbytes_loop (passed : List Mblk) (m : Mblk) :
    List Mblk → (x_private : Nat) → (x_handy : Int) → (bs : List UInt8) →
      Except (List Mblk) Xdrmblk
  | b_cont, x_private, x_handy, bs =>
    let handy := to_int (x_handy - bs.length)
    if handy < 0 then
      let handy := to_int (handy + bs.length)
      let n := if handy > 0 then handy.toNat else 0
      let m := { m with memory := pour m.memory x_private (bs.take n) }
      match b_cont with
      | [] => .error (passed ++ [m])
      | next :: b_cont =>
        putbytes_loop (passed ++ [m]) next b_cont next.b_wptr (to_int next.db_lim) (bs.drop n)
    else
      .ok ⟨passed, { m with memory := pour m.memory x_private bs }, b_cont,
        x_private + bs.length, handy⟩

def xdrmblk_putbytes (x : Xdrmblk) (bs : List UInt8) : Except (List Mblk) Xdrmblk :=
  putbytes_loop x.passed x.x_base x.b_cont x.x_private x.x_handy bs

def xdrmblk_getpos (x : Xdrmblk) : Nat := x.x_base.b_rptr

def xdrmblk_setpos (x : Xdrmblk) (pos : Nat) : Except (List Mblk) Xdrmblk :=
  let newaddr := x.x_base.b_rptr + pos
  let lastaddr := x.x_private + x.x_handy
  if (newaddr : Int) > lastaddr then .error x.chain
  else .ok { x with x_private := newaddr, x_handy := to_int (lastaddr - newaddr) }

def xdrmblk_ops : Ops Int UInt8 Xdrmblk (List Mblk) where
  getword := xdrmblk_getlong
  putword := xdrmblk_putlong
  getbytes := xdrmblk_getbytes
  putbytes := xdrmblk_putbytes
  getpos := xdrmblk_getpos
  setpos := xdrmblk_setpos
  left := Xdrmblk.chain

/-- A stream over flat memory. x_private is counted from x_base. -/
structure Xdrmem where
  memory : Memory
  x_private : Nat
  x_handy : Int

def xdrmem_create (memory : Memory) (size : Nat) : Xdrmem := ⟨memory, 0, to_int size⟩

def xdrmem_getlong (x : Xdrmem) : Except Memory (Int × Xdrmem) :=
  let handy := to_int (x.x_handy - 4)
  if handy < 0 then .error x.memory
  else .ok (ntohl (slice x.memory x.x_private 4), ⟨x.memory, x.x_private + 4, handy⟩)

def xdrmem_putlong (x : Xdrmem) (l : Int) : Except Memory Xdrmem :=
  let handy := to_int (x.x_handy - 4)
  if handy < 0 then .error x.memory
  else .ok ⟨pour x.memory x.x_private (htonl l), x.x_private + 4, handy⟩

def xdrmem_getbytes (x : Xdrmem) (len : Nat) : Except Memory (List UInt8 × Xdrmem) :=
  let handy := to_int (x.x_handy - len)
  if handy < 0 then .error x.memory
  else .ok (slice x.memory x.x_private len, ⟨x.memory, x.x_private + len, handy⟩)

def xdrmem_putbytes (x : Xdrmem) (bs : List UInt8) : Except Memory Xdrmem :=
  let handy := to_int (x.x_handy - bs.length)
  if handy < 0 then .error x.memory
  else .ok ⟨pour x.memory x.x_private bs, x.x_private + bs.length, handy⟩

def xdrmem_getpos (x : Xdrmem) : Nat := x.x_private

def xdrmem_setpos (x : Xdrmem) (pos : Nat) : Except Memory Xdrmem :=
  let lastaddr := x.x_private + x.x_handy
  if (pos : Int) > lastaddr then .error x.memory
  else .ok ⟨x.memory, pos, to_int (lastaddr - pos)⟩

def xdrmem_ops : Ops Int UInt8 Xdrmem Memory where
  getword := xdrmem_getlong
  putword := xdrmem_putlong
  getbytes := xdrmem_getbytes
  putbytes := xdrmem_putbytes
  getpos := xdrmem_getpos
  setpos := xdrmem_setpos
  left := Xdrmem.memory

end Xdr

/- A run of bytes and a place in it: what a stream is for. Flat memory does the same. -/
namespace Xdr
open ByteMoves StreamPrograms List

structure Flat where
  bytes : List UInt8
  pos : Nat

/-- An operation succeeds where it stays within the bytes. -/
def flat_ops : Ops Int UInt8 Flat (List UInt8) where
  getword f :=
    if f.pos + 4 ≤ f.bytes.length then
      .ok (ntohl (ByteImages.slice f.bytes f.pos 4), ⟨f.bytes, f.pos + 4⟩)
    else .error f.bytes
  putword f l :=
    if f.pos + 4 ≤ f.bytes.length then
      .ok ⟨ByteImages.assign f.bytes f.pos 4 (htonl l), f.pos + 4⟩
    else .error f.bytes
  getbytes f len :=
    if f.pos + len ≤ f.bytes.length then
      .ok (ByteImages.slice f.bytes f.pos len, ⟨f.bytes, f.pos + len⟩)
    else .error f.bytes
  putbytes f bs :=
    if f.pos + bs.length ≤ f.bytes.length then
      .ok ⟨ByteImages.assign f.bytes f.pos bs.length bs, f.pos + bs.length⟩
    else .error f.bytes
  getpos f := f.pos
  setpos f pos := if pos ≤ f.bytes.length then .ok ⟨f.bytes, pos⟩ else .error f.bytes
  left f := f.bytes

def Short {σ : Type} (_ : σ) : Request Int UInt8 σ → Prop
  | .getbytes len => len < 2 ^ 31
  | .putbytes bs => bs.length < 2 ^ 31
  | _ => True

instance {σ : Type} (s : σ) : (r : Request Int UInt8 σ) → Decidable (Short s r)
  | .getword | .putword _ | .setpos _ => inferInstanceAs (Decidable True)
  | .getbytes _ | .putbytes _ => inferInstanceAs (Decidable (_ < _))

@[simp] theorem length_htonl (l : Int) : (htonl l).length = 4 := rfl

theorem to_int_of_small {x : Int} (low : -2 ^ 31 ≤ x) (high : x < 2 ^ 31) : to_int x = x := by
  unfold to_int
  rw [Int.bmod_def]
  omega

variable {n a k : Nat} {f : Flat} {x : Xdrmem} {len : Nat} {bs : List UInt8}

theorem slice_of_slice (memory : Memory) (within : k + n ≤ len) :
    ByteImages.slice (slice memory a len) k n = slice memory (a + k) n := by
  apply ext_getElem?
  intro i
  rw [ByteImages.slice, getElem?_take, getElem?_drop, getElem?_slice, getElem?_slice]
  by_cases inside : i < n
  · rw [if_pos inside, if_pos inside, if_pos (by omega), Nat.add_assoc]
  · rw [if_neg inside, if_neg inside]

theorem slice_pour (memory : Memory) (within : k + bs.length ≤ len) :
    slice (pour memory (a + k) bs) a len =
      ByteImages.assign (slice memory a len) k bs.length bs := by
  apply ext_getElem?
  intro i
  have before : ((slice memory a len).take k).length = k := by
    rw [length_take, length_slice]
    omega
  have middle : ((slice memory a len).take k ++ bs).length = k + bs.length := by
    rw [length_append, before]
  rw [getElem?_slice, ByteImages.assign]
  by_cases first : i < k
  · rw [if_pos (show i < len by omega), getElem?_append_left (by omega),
      getElem?_append_left (by omega), getElem?_take, if_pos first, getElem?_slice,
      if_pos (by omega), pour, if_neg (by omega)]
  by_cases second : i < k + bs.length
  · rw [if_pos (show i < len by omega), getElem?_append_left (by omega),
      getElem?_append_right (by omega), before, pour, if_pos (by omega),
      show a + i - (a + k) = i - k by omega, getElem?_eq_getElem (by omega)]
    rfl
  · rw [getElem?_append_right (by omega), middle, getElem?_drop, getElem?_slice,
      show k + bs.length + (i - (k + bs.length)) = i by omega, pour,
      getElem?_eq_none (l := bs) (by omega), Option.getD_none, ite_self]

/-- Flat memory of `n` bytes, and the stream of these bytes. -/
structure InMemory (n : Nat) (f : Flat) (x : Xdrmem) : Prop where
  bytes : slice x.memory 0 n = f.bytes
  within : f.pos ≤ n
  private_is : x.x_private = f.pos
  handy_is : x.x_handy = n - f.pos

theorem InMemory.length (same : InMemory n f x) : f.bytes.length = n := by
  rw [← same.bytes, length_slice]

theorem InMemory.read (same : InMemory n f x) (fits : f.pos + len ≤ n) :
    slice x.memory x.x_private len = ByteImages.slice f.bytes f.pos len := by
  rw [← same.bytes, slice_of_slice _ fits, same.private_is, Nat.zero_add]

theorem InMemory.write (same : InMemory n f x) (fits : f.pos + bs.length ≤ n) :
    slice (pour x.memory x.x_private bs) 0 n = ByteImages.assign f.bytes f.pos bs.length bs := by
  rw [← same.bytes, ← slice_pour _ fits, Nat.zero_add, same.private_is]

def LeftInMemory (n : Nat) (bytes : List UInt8) (memory : Memory) : Prop :=
  slice memory 0 n = bytes

theorem memory_simulates (reads writes : Prop) {n : Nat} (small : n < 2 ^ 31) :
    Simulation reads writes flat_ops xdrmem_ops Short (InMemory n) (LeftInMemory n) where
  getword _ f x same _ := by
    have handy := same.handy_is
    have within := same.within
    have room : to_int (x.x_handy - 4) = n - f.pos - 4 := by
      rw [to_int_of_small (by omega) (by omega), handy]
    simp only [flat_ops, xdrmem_ops, xdrmem_getlong, same.length, room]
    by_cases fits : f.pos + 4 ≤ n
    · rw [if_pos fits, if_neg (by omega), same.read fits]
      exact .ok ⟨rfl, same.bytes, fits, by rw [same.private_is], by dsimp only; omega⟩
    · rw [if_neg fits, if_pos (by omega)]
      exact .error same.bytes
  putword _ f x l same _ := by
    have handy := same.handy_is
    have within := same.within
    have room : to_int (x.x_handy - 4) = n - f.pos - 4 := by
      rw [to_int_of_small (by omega) (by omega), handy]
    simp only [flat_ops, xdrmem_ops, xdrmem_putlong, same.length, room]
    by_cases fits : f.pos + 4 ≤ n
    · rw [if_pos fits, if_neg (by omega)]
      exact .ok ⟨same.write fits, fits, by rw [same.private_is], by dsimp only; omega⟩
    · rw [if_neg fits, if_pos (by omega)]
      exact .error same.bytes
  getbytes _ f x len same short := by
    have handy := same.handy_is
    have within := same.within
    have short : len < 2 ^ 31 := short
    have room : to_int (x.x_handy - len) = n - f.pos - len := by
      rw [to_int_of_small (by omega) (by omega), handy]
    simp only [flat_ops, xdrmem_ops, xdrmem_getbytes, same.length, room]
    by_cases fits : f.pos + len ≤ n
    · rw [if_pos fits, if_neg (by omega), same.read fits]
      exact .ok ⟨rfl, same.bytes, fits, by rw [same.private_is], by dsimp only; omega⟩
    · rw [if_neg fits, if_pos (by omega)]
      exact .error same.bytes
  putbytes _ f x bs same short := by
    have handy := same.handy_is
    have within := same.within
    have short : bs.length < 2 ^ 31 := short
    have room : to_int (x.x_handy - bs.length) = n - f.pos - bs.length := by
      rw [to_int_of_small (by omega) (by omega), handy]
    simp only [flat_ops, xdrmem_ops, xdrmem_putbytes, same.length, room]
    by_cases fits : f.pos + bs.length ≤ n
    · rw [if_pos fits, if_neg (by omega)]
      exact .ok ⟨same.write fits, fits, by rw [same.private_is], by dsimp only; omega⟩
    · rw [if_neg fits, if_pos (by omega)]
      exact .error same.bytes
  setpos {f x mark mark'} same marked _ := by
    have handy := same.handy_is
    have within := same.within
    have there := marked.within
    have place : (x.x_private : Int) + x.x_handy = n := by
      rw [same.private_is, handy]
      omega
    simp only [flat_ops, xdrmem_ops, xdrmem_setpos, xdrmem_getpos, marked.private_is, same.length,
      place]
    rw [if_pos there, if_neg (by omega)]
    exact .ok ⟨same.bytes, there, rfl, to_int_of_small (by omega) (by omega)⟩
  left same := same.bytes

end Xdr
