import Svr4.Xdr.Flat

/- A stream over a message does what the run of its bytes says, where it is used with care. -/
namespace Xdr
open ByteMoves StreamPrograms List

variable {x_op : XdrOp} {chain front back : List Mblk} {x : Xdrmblk} {f : Flat} {m m' : Mblk}
  {handy : Int} {len : Nat}

/-- The pointers of a block are in order, and an int can count it. -/
structure Mblk.Ok (m : Mblk) : Prop where
  read : m.b_rptr ≤ m.b_wptr
  written : m.b_wptr ≤ m.db_lim
  small : m.db_lim < 2 ^ 31

def Mblk.start (x_op : XdrOp) (m : Mblk) : Nat := if x_op = .XDR_DECODE then m.b_rptr else m.b_wptr

def Mblk.stop (x_op : XdrOp) (m : Mblk) : Nat := if x_op = .XDR_DECODE then m.b_wptr else m.db_lim

def Mblk.size (x_op : XdrOp) (m : Mblk) : Nat := m.stop x_op - m.start x_op

def Mblk.content (x_op : XdrOp) (m : Mblk) : List UInt8 :=
  slice m.memory (m.start x_op) (m.size x_op)

def contents (x_op : XdrOp) (chain : List Mblk) : List UInt8 := chain.flatMap (Mblk.content x_op)

/-- The pointers are the same, and so is the memory outside of the bytes of the stream. -/
structure SameBlock (x_op : XdrOp) (m m' : Mblk) : Prop where
  b_rptr : m'.b_rptr = m.b_rptr
  b_wptr : m'.b_wptr = m.b_wptr
  db_lim : m'.db_lim = m.db_lim
  outside : ∀ i, i < m.start x_op ∨ m.stop x_op ≤ i → m'.memory i = m.memory i

def SameBlocks (x_op : XdrOp) : List Mblk → List Mblk → Prop := List.Forall₂ (SameBlock x_op)

theorem SameBlock.start (same : SameBlock x_op m m') : m'.start x_op = m.start x_op := by
  unfold Mblk.start
  rw [same.b_rptr, same.b_wptr]

theorem SameBlock.stop (same : SameBlock x_op m m') : m'.stop x_op = m.stop x_op := by
  unfold Mblk.stop
  rw [same.b_wptr, same.db_lim]

theorem SameBlock.size (same : SameBlock x_op m m') : m'.size x_op = m.size x_op := by
  unfold Mblk.size
  rw [same.start, same.stop]

theorem SameBlock.trans {m'' : Mblk} (first : SameBlock x_op m m')
    (second : SameBlock x_op m' m'') : SameBlock x_op m m'' where
  b_rptr := second.b_rptr.trans first.b_rptr
  b_wptr := second.b_wptr.trans first.b_wptr
  db_lim := second.db_lim.trans first.db_lim
  outside i outside := by
    rw [second.outside i (by rw [first.start, first.stop]; exact outside), first.outside i outside]

theorem SameBlocks.replace (same : SameBlocks x_op chain (front ++ m :: back))
    (changed : SameBlock x_op m m') :
    SameBlocks x_op chain (front ++ m' :: back) := by
  induction front generalizing chain with
  | nil =>
    cases same with
    | cons first rest => exact .cons (first.trans changed) rest
  | cons _ _ ih =>
    cases same with
    | cons first rest => exact .cons first (ih rest)

theorem SameBlocks.number (same : SameBlocks x_op chain (front ++ m :: back)) :
    ∃ m₀, chain[front.length]? = some m₀ ∧ SameBlock x_op m₀ m := by
  induction front generalizing chain with
  | nil =>
    cases same with
    | cons first rest => exact ⟨_, rfl, first⟩
  | cons _ front ih =>
    cases same with
    | cons first rest =>
      obtain ⟨m₀, known, here⟩ := ih rest
      exact ⟨m₀, by simpa using known, here⟩

theorem Mblk.Ok.start_le (ok : m.Ok) (x_op : XdrOp) : m.start x_op ≤ m.stop x_op := by
  have read := ok.read
  have written := ok.written
  unfold Mblk.start Mblk.stop
  split <;> omega

theorem contents_length (x_op : XdrOp) (chain : List Mblk) :
    (contents x_op chain).length = (chain.map (Mblk.size x_op)).sum := by
  unfold contents
  rw [length_flatMap]
  congr 1
  apply map_congr_left
  intro m _
  exact length_slice _ _ _

theorem SameBlocks.sizes {chain' : List Mblk} (same : SameBlocks x_op chain chain') :
    chain'.map (Mblk.size x_op) = chain.map (Mblk.size x_op) := by
  induction same with
  | nil => rfl
  | cons first _ ih => rw [map_cons, map_cons, first.size, ih]

/-- The stream `x` over the blocks of `chain` is at the place of `f`. What is left of its block is
    counted exactly when it reads, and not too low when it writes. -/
structure Over (x_op : XdrOp) (chain : List Mblk) (x : Xdrmblk) (f : Flat) : Prop where
  same : SameBlocks x_op chain x.chain
  ok : ∀ m ∈ x.chain, m.Ok
  bytes : f.bytes = contents x_op x.chain
  low : x.x_base.start x_op ≤ x.x_private
  high : x.x_private ≤ x.x_base.stop x_op
  pos : f.pos = ((chain.take x.passed.length).map (Mblk.size x_op)).sum +
    (x.x_private - x.x_base.start x_op)
  room : (x.x_base.stop x_op : Int) - x.x_private ≤ x.x_handy
  small : x.x_handy < 2 ^ 31
  counted : x_op = .XDR_DECODE → x.x_handy = x.x_base.stop x_op - x.x_private

namespace Over

section
variable (above : Over x_op chain x f)
include above

theorem base_ok : x.x_base.Ok := above.ok _ (mem_append_right _ (mem_cons_self ..))

theorem pieces :
    f.bytes = contents x_op x.passed ++ (x.x_base.content x_op ++ contents x_op x.b_cont) ∧
      (contents x_op x.passed).length =
        ((chain.take x.passed.length).map (Mblk.size x_op)).sum := by
  constructor
  · rw [above.bytes]
    simp [contents, Xdrmblk.chain]
  · rw [contents_length, map_take, ← above.same.sizes, ← map_take]
    simp [Xdrmblk.chain]

theorem total : f.bytes.length = (chain.map (Mblk.size x_op)).sum := by
  rw [above.bytes, contents_length, above.same.sizes]

theorem length : f.bytes.length = ((chain.take x.passed.length).map (Mblk.size x_op)).sum +
      x.x_base.size x_op + (contents x_op x.b_cont).length := by
  obtain ⟨bytes, before⟩ := above.pieces
  rw [bytes, length_append, length_append, before, Mblk.content, length_slice]
  omega

theorem pos_le : f.pos ≤ f.bytes.length := by
  have length := above.length
  have high := above.high
  have pos := above.pos
  have size : x.x_base.size x_op = x.x_base.stop x_op - x.x_base.start x_op := rfl
  omega

theorem read (fits : x.x_private + len ≤ x.x_base.stop x_op) : f.pos + len ≤ f.bytes.length ∧
      slice x.x_base.memory x.x_private len = ByteImages.slice f.bytes f.pos len := by
  have length := above.length
  have low := above.low
  have pos := above.pos
  obtain ⟨bytes, before⟩ := above.pieces
  have size : x.x_base.size x_op = x.x_base.stop x_op - x.x_base.start x_op := rfl
  refine ⟨by omega, ?_⟩
  have inside : ByteImages.slice (x.x_base.content x_op)
      (x.x_private - x.x_base.start x_op) len = slice x.x_base.memory x.x_private len := by
    rw [Mblk.content, slice_of_slice _ (by omega)]
    congr 1
    omega
  have content : (x.x_base.content x_op).length = x.x_base.size x_op := length_slice _ _ _
  rw [← inside, bytes, pos, ← before, ByteImages.slice_middle _ _ (by omega)]

theorem advance {len : Nat} {handy : Int} (fits : x.x_private + len ≤ x.x_base.stop x_op)
    (counted : handy = x.x_handy - len) :
    Over x_op chain { x with x_private := x.x_private + len, x_handy := handy }
      ⟨f.bytes, f.pos + len⟩ where
  same := above.same
  ok := above.ok
  bytes := above.bytes
  low := Nat.le_trans above.low (Nat.le_add_right _ _)
  high := fits
  pos := by
    have low := above.low
    have pos := above.pos
    dsimp only
    omega
  room := by
    have room := above.room
    dsimp only
    omega
  small := by
    have small := above.small
    dsimp only
    omega
  counted := by
    intro decode
    have exact_ := above.counted decode
    dsimp only
    omega

theorem recount (low : x.x_handy ≤ handy) (small : handy < 2 ^ 31) (writes : x_op ≠ .XDR_DECODE) :
    Over x_op chain { x with x_handy := handy } f :=
  { above with
    room := le_trans above.room low
    small := small
    counted := fun decode => absurd decode writes }

theorem next {b_cont : List Mblk} (more : x.b_cont = m :: b_cont)
    (ended : x.x_private = x.x_base.stop x_op) (room : (m.stop x_op : Int) - m.start x_op ≤ handy)
    (small : handy < 2 ^ 31)
    (counted : x_op = .XDR_DECODE → handy = (m.stop x_op : Int) - m.start x_op) :
    Over x_op chain ⟨x.passed ++ [x.x_base], m, b_cont, m.start x_op, handy⟩ f := by
  have chain_eq : Xdrmblk.chain ⟨x.passed ++ [x.x_base], m, b_cont, m.start x_op, handy⟩ =
      x.chain := by
    simp [Xdrmblk.chain, more]
  have ok : ∀ m ∈ x.chain, m.Ok := above.ok
  have member : m ∈ x.chain := by
    simp [Xdrmblk.chain, more]
  refine ⟨chain_eq ▸ above.same, chain_eq ▸ ok, chain_eq ▸ above.bytes, le_refl _,
    (ok m member).start_le x_op, ?_, room, small, counted⟩
  have sizes := above.same.sizes
  have split : x.chain = (x.passed ++ [x.x_base]) ++ x.b_cont := by simp [Xdrmblk.chain]
  have taken : ((chain.take (x.passed ++ [x.x_base]).length).map (Mblk.size x_op)).sum =
      ((chain.take x.passed.length).map (Mblk.size x_op)).sum + x.x_base.size x_op := by
    rw [map_take, map_take, ← sizes, ← map_take, ← map_take, split,
      take_left, append_assoc, take_left, map_append, sum_append]
    simp
  have pos := above.pos
  have size : x.x_base.size x_op = x.x_base.stop x_op - x.x_base.start x_op := rfl
  dsimp only
  rw [taken]
  omega

theorem store {bs : List UInt8} (fits : x.x_private + bs.length ≤ x.x_base.stop x_op) :
    Over x_op chain (x.store bs) ⟨ByteImages.assign f.bytes f.pos bs.length bs, f.pos⟩ := by
  have low := above.low
  have pos := above.pos
  obtain ⟨m, hm⟩ : ∃ m : Mblk, m = { x.x_base with
      memory := pour x.x_base.memory x.x_private bs } := ⟨_, rfl⟩
  have start : m.start x_op = x.x_base.start x_op := by rw [hm]; rfl
  have stop : m.stop x_op = x.x_base.stop x_op := by rw [hm]; rfl
  have stored : x.store bs = { x with x_base := m } := by rw [hm]; rfl
  have same : SameBlock x_op x.x_base m := by
    rw [hm]
    refine ⟨rfl, rfl, rfl, fun i outside => ?_⟩
    dsimp only
    unfold pour
    split
    · rw [List.getElem?_eq_none (by omega)]
      rfl
    · rfl
  have size : x.x_base.size x_op = x.x_base.stop x_op - x.x_base.start x_op := rfl
  have length : (x.x_base.content x_op).length = x.x_base.size x_op := length_slice _ _ _
  have content : m.content x_op = ByteImages.assign (x.x_base.content x_op)
      (x.x_private - x.x_base.start x_op) bs.length bs := by
    have place : x.x_base.start x_op + (x.x_private - x.x_base.start x_op) = x.x_private := by
      omega
    unfold Mblk.content
    rw [same.size, start, ← slice_pour _ (by omega), place, hm]
  obtain ⟨bytes, before⟩ := above.pieces
  rw [stored]
  refine ⟨?_, ?_, ?_, start.symm ▸ low, stop.symm ▸ above.high, start.symm ▸ pos,
    stop.symm ▸ above.room, above.small, stop.symm ▸ above.counted⟩
  · exact SameBlocks.replace above.same same
  · intro m' member
    rcases mem_append.mp member with earlier | here
    · exact above.ok m' (mem_append_left _ earlier)
    · rcases mem_cons.mp here with rfl | later
      · have ok := above.base_ok
        rw [hm]
        exact { ok with }
      · exact above.ok m' (mem_append_right _ (mem_cons_of_mem _ later))
  · rw [bytes, pos, ← before, ByteImages.assign_middle _ _ (by omega), ← content]
    simp [contents, Xdrmblk.chain]

end

end Over

end Xdr

/- The use of a message stream that leads past none of its blocks. -/
namespace Xdr
open ByteMoves StreamPrograms List

variable {x_op : XdrOp} {chain : List Mblk} {x : Xdrmblk} {f : Flat} {m : Mblk}

/-- `len` bytes put where `x_handy` bytes are counted as left of a block do not go past its limit,
    and so on in the blocks that they reach. -/
def Fits (m : Mblk) (b_cont : List Mblk) (x_private x_handy len : Nat) : Prop :=
  x_private + min len x_handy ≤ m.db_lim ∧
    match b_cont with
    | [] => True
    | next :: b_cont => x_handy < len → Fits next b_cont next.b_wptr next.db_lim (len - x_handy)

instance Fits.decidable (m : Mblk) (b_cont : List Mblk) (x_private x_handy len : Nat) :
    Decidable (Fits m b_cont x_private x_handy len) :=
  match b_cont with
  | [] => inferInstanceAs (Decidable (_ ∧ True))
  | next :: b_cont =>
    have := Fits.decidable next b_cont next.b_wptr next.db_lim (len - x_handy)
    inferInstanceAs (Decidable (_ ∧ (_ → _)))

def NextFits (x : Xdrmblk) (fits : Mblk → Prop) : Prop :=
  match x.b_cont with
  | [] => True
  | m :: _ => fits m

instance NextFits.decidable (x : Xdrmblk) (fits : Mblk → Prop) [∀ m, Decidable (fits m)] :
    Decidable (NextFits x fits) :=
  match h : x.b_cont with
  | [] => isTrue (by rw [NextFits, h]; trivial)
  | m :: _ => decidable_of_iff (fits m) (by rw [NextFits, h])

/-- A long is read from one block, or from the next one where nothing is left of the first. One is
    written where four bytes are left up to the limit of a block, or nothing is left of it and four
    bytes of the next one. A position is gone back to in the block where it was taken, at a place
    as far behind the read pointer as that is behind the base. -/
def Careful (x : Xdrmblk) : Request Int UInt8 Xdrmblk → Prop
  | .getword =>
    x.x_handy < 4 → NextFits x fun m => x.x_handy = 0 ∧ m.b_rptr + 4 ≤ m.b_wptr
  | .putword _ =>
    (x.x_handy < 4 →
      NextFits x fun m => x.x_private = x.x_base.db_lim ∧ m.b_wptr + 4 ≤ m.db_lim) ∧
      (4 ≤ x.x_handy → x.x_private + 4 ≤ x.x_base.db_lim)
  | .getbytes _ => True
  | .putbytes bs => Fits x.x_base x.b_cont x.x_private x.x_handy.toNat bs.length
  | .setpos mark =>
    x.passed.length = mark.passed.length ∧
      x.x_base.b_rptr + mark.x_base.b_rptr = mark.x_private ∧
      x.x_private + x.x_handy < mark.x_private + 2 ^ 31

instance (x : Xdrmblk) : (r : Request Int UInt8 Xdrmblk) → Decidable (Careful x r)
  | .getword => inferInstanceAs (Decidable (_ → _))
  | .putword _ => inferInstanceAs (Decidable ((_ → _) ∧ (_ → _)))
  | .getbytes _ => inferInstanceAs (Decidable True)
  | .putbytes _ => inferInstanceAs (Decidable (Fits _ _ _ _ _))
  | .setpos _ => inferInstanceAs (Decidable (_ ∧ _ ∧ _))

theorem Over.short (above : Over x_op chain x f) (last : x.b_cont = []) {len : Nat}
    (long : x.x_base.stop x_op < x.x_private + len) : ¬ f.pos + len ≤ f.bytes.length := by
  have length := above.length
  have high := above.high
  have pos := above.pos
  have size : x.x_base.size x_op = x.x_base.stop x_op - x.x_base.start x_op := rfl
  have none : (contents x_op x.b_cont).length = 0 := by rw [last]; rfl
  omega

theorem Over.handy_nonneg (above : Over x_op chain x f) : 0 ≤ x.x_handy := by
  have room := above.room
  have high := above.high
  omega

/-- What is related after a long or a run of bytes was read. -/
abbrev Read (chain : List Mblk) {α : Type} (a : α × Xdrmblk) (b : α × Flat) : Prop :=
  a.1 = b.1 ∧ Over .XDR_DECODE chain a.2 b.2

theorem getlong_agrees (above : Over .XDR_DECODE chain x f) (careful : Careful x .getword) :
    Agree (fun blocks _ => SameBlocks .XDR_DECODE chain blocks) (Read chain) (xdrmblk_getlong x)
      (flat_ops.getword f) := by
  have counted := above.counted rfl
  have nonneg := above.handy_nonneg
  have small := above.small
  have left : to_int (x.x_handy - 4) = x.x_handy - 4 := to_int_of_small (by omega) (by omega)
  simp only [xdrmblk_getlong, flat_ops, left]
  by_cases here : x.x_handy < 4
  · rw [if_pos (by omega)]
    cases more : x.b_cont with
    | nil =>
      rw [if_neg (above.short more (by omega))]
      exact .error (by simpa [Xdrmblk.chain, more] using above.same)
    | cons m b_cont =>
      have careful := careful here
      rw [NextFits, more] at careful
      obtain ⟨none, fits⟩ := careful
      have member : m ∈ x.chain := by simp [Xdrmblk.chain, more]
      have ok := above.ok m member
      have bounds : m.b_wptr < 2 ^ 31 := lt_of_le_of_lt ok.written ok.small
      have entered : Over .XDR_DECODE chain
          ⟨x.passed ++ [x.x_base], m, b_cont, m.b_rptr, m.b_wptr - m.b_rptr⟩ f :=
        above.next more (by omega) (le_refl _) (by omega) fun _ => rfl
      obtain ⟨within, value⟩ := entered.read (show m.b_rptr + 4 ≤ m.b_wptr from fits)
      have room : to_int (m.b_wptr - m.b_rptr - 4 : Int) = m.b_wptr - m.b_rptr - 4 :=
        to_int_of_small (by omega) (by omega)
      rw [if_pos within, ← value]
      dsimp only
      rw [room]
      exact .ok ⟨rfl, entered.advance fits rfl⟩
  · rw [if_neg (by omega)]
    have fits : x.x_private + 4 ≤ x.x_base.stop .XDR_DECODE := by omega
    obtain ⟨within, value⟩ := above.read fits
    rw [if_pos within, ← value]
    exact .ok ⟨rfl, above.advance fits rfl⟩

theorem flat_getbytes_split (f : Flat) {n len : Nat} (part : n ≤ len) : flat_ops.getbytes f len =
      (flat_ops.getbytes ⟨f.bytes, f.pos + n⟩ (len - n)).map
        fun r => (ByteImages.slice f.bytes f.pos n ++ r.1, r.2) := by
  simp only [flat_ops]
  by_cases fits : f.pos + len ≤ f.bytes.length
  · have joined : ByteImages.slice f.bytes f.pos len = ByteImages.slice f.bytes f.pos n ++
        ByteImages.slice f.bytes (f.pos + n) (len - n) := by
      rw [← ByteImages.slice_add, Nat.add_sub_of_le part]
    rw [if_pos fits, if_pos (by omega), joined, show f.pos + len = f.pos + n + (len - n) by omega]
    rfl
  · rw [if_neg fits, if_neg (by omega)]
    rfl

section
variable {passed b_cont : List Mblk} {next : Mblk} {x_private len : Nat} {x_handy : Int}

theorem getbytes_loop_here (small : x_handy < 2 ^ 31) (enough : len ≤ x_handy) :
    getbytes_loop passed m b_cont x_private x_handy len = .ok (slice m.memory x_private len,
        ⟨passed, m, b_cont, x_private + len, x_handy - len⟩) := by
  have left : to_int (x_handy - len) = x_handy - len := to_int_of_small (by omega) (by omega)
  rw [getbytes_loop]
  rw [left, if_neg (by omega)]

theorem copied_count (nonneg : 0 ≤ x_handy) (small : x_handy < 2 ^ 31) (len : Nat) :
    (if to_int (x_handy - len + len) > 0 then (to_int (x_handy - len + len)).toNat else 0) =
      x_handy.toNat := by
  rw [sub_add_cancel, to_int_of_small (by omega) small]
  split <;> omega

theorem getbytes_loop_next (nonneg : 0 ≤ x_handy) (small : x_handy < 2 ^ 31) (long : x_handy < len)
    (short : len < 2 ^ 31) :
    getbytes_loop passed m (next :: b_cont) x_private x_handy len =
      (getbytes_loop (passed ++ [m]) next b_cont next.b_rptr
          (to_int (next.b_wptr - next.b_rptr)) (len - x_handy.toNat)).map
        fun r => (slice m.memory x_private x_handy.toNat ++ r.1, r.2) := by
  have left : to_int (x_handy - len) = x_handy - len := to_int_of_small (by omega) (by omega)
  rw [getbytes_loop]
  dsimp only
  rw [left, if_pos (by omega), copied_count nonneg small]

theorem getbytes_loop_end (nonneg : 0 ≤ x_handy) (long : x_handy < len) (short : len < 2 ^ 31) :
    getbytes_loop passed m [] x_private x_handy len = .error (passed ++ [m]) := by
  have left : to_int (x_handy - len) = x_handy - len := to_int_of_small (by omega) (by omega)
  rw [getbytes_loop]
  rw [left, if_pos (by omega)]

theorem getbytes_here_agrees
    (above : Over .XDR_DECODE chain ⟨passed, m, b_cont, x_private, x_handy⟩ f)
    (enough : len ≤ x_handy) :
    Agree (fun blocks _ => SameBlocks .XDR_DECODE chain blocks) (Read chain)
      (getbytes_loop passed m b_cont x_private x_handy len) (flat_ops.getbytes f len) := by
  have counted : x_handy = m.stop .XDR_DECODE - x_private := above.counted rfl
  have inside : x_private + len ≤ m.stop .XDR_DECODE := by omega
  obtain ⟨within, value⟩ := above.read inside
  have read : flat_ops.getbytes f len =
      .ok (ByteImages.slice f.bytes f.pos len, ⟨f.bytes, f.pos + len⟩) := if_pos within
  rw [getbytes_loop_here above.small enough, read, ← value]
  exact .ok ⟨rfl, above.advance inside rfl⟩

theorem getbytes_loop_agrees
    (above : Over .XDR_DECODE chain ⟨passed, m, b_cont, x_private, x_handy⟩ f)
    (short : len < 2 ^ 31) :
    Agree (fun blocks _ => SameBlocks .XDR_DECODE chain blocks) (Read chain)
      (getbytes_loop passed m b_cont x_private x_handy len) (flat_ops.getbytes f len) := by
  induction b_cont generalizing passed m x_private x_handy len f with
  | nil =>
    by_cases enough : (len : Int) ≤ x_handy
    · exact getbytes_here_agrees above enough
    · have counted : x_handy = m.stop .XDR_DECODE - x_private := above.counted rfl
      have none : flat_ops.getbytes f len = .error f.bytes :=
        if_neg (above.short rfl (show m.stop .XDR_DECODE < x_private + len by omega))
      have nonneg : 0 ≤ x_handy := above.handy_nonneg
      rw [getbytes_loop_end nonneg (by omega) short, none]
      exact .error above.same
  | cons next b_cont ih =>
    by_cases enough : (len : Int) ≤ x_handy
    · exact getbytes_here_agrees above enough
    have counted : x_handy = m.stop .XDR_DECODE - x_private := above.counted rfl
    have nonneg : 0 ≤ x_handy := above.handy_nonneg
    have inside : x_private + x_handy.toNat ≤ m.stop .XDR_DECODE := by omega
    have ok := above.ok next (by simp [Xdrmblk.chain])
    have bounds : next.b_wptr < 2 ^ 31 := lt_of_le_of_lt ok.written ok.small
    have read := ok.read
    have room : to_int (next.b_wptr - next.b_rptr : Int) = next.b_wptr - next.b_rptr :=
      to_int_of_small (by omega) (by omega)
    have entered : Over .XDR_DECODE chain ⟨passed ++ [m], next, b_cont, next.b_rptr,
        next.b_wptr - next.b_rptr⟩ ⟨f.bytes, f.pos + x_handy.toNat⟩ :=
      (above.advance inside rfl).next rfl
        (show x_private + x_handy.toNat = m.stop .XDR_DECODE by omega) (le_refl _)
        (show (next.b_wptr - next.b_rptr : Int) < 2 ^ 31 by omega) fun _ => rfl
    obtain ⟨-, value⟩ := above.read inside
    rw [getbytes_loop_next nonneg above.small (by omega) short, room,
      flat_getbytes_split f (show x_handy.toNat ≤ len by omega), ← value]
    refine (ih entered (by omega)).map fun a b both => ⟨?_, both.2⟩
    rw [both.1]

end

theorem setpos_agrees {mark : Xdrmblk} {mark' : Flat} (above : Over x_op chain x f)
    (marked : Over x_op chain mark mark') (careful : Careful x (.setpos mark)) :
    Agree (fun blocks _ => SameBlocks x_op chain blocks) (Over x_op chain)
      (xdrmblk_setpos x (xdrmblk_getpos mark)) (flat_ops.setpos f mark'.pos) := by
  obtain ⟨same_block, same_place, counted⟩ := careful
  -- both are at the block of that number
  obtain ⟨m₀, known, here⟩ := SameBlocks.number above.same
  obtain ⟨m₁, known', there⟩ := SameBlocks.number marked.same
  rw [same_block, known'] at known
  obtain rfl := Option.some.inj known
  have start : mark.x_base.start x_op = x.x_base.start x_op := there.start.trans here.start.symm
  have stop : mark.x_base.stop x_op = x.x_base.stop x_op := there.stop.trans here.stop.symm
  have room := above.room
  have low := marked.low
  have high := marked.high
  have pos := marked.pos
  have within : mark'.pos ≤ f.bytes.length := by
    rw [above.total, ← marked.total]
    exact marked.pos_le
  have moved : flat_ops.setpos f mark'.pos = .ok ⟨f.bytes, mark'.pos⟩ := if_pos within
  have left : to_int (x.x_private + x.x_handy - mark.x_private : Int) =
      x.x_private + x.x_handy - mark.x_private := to_int_of_small (by omega) (by omega)
  simp only [xdrmblk_setpos, xdrmblk_getpos, same_place]
  rw [if_neg (by omega), moved, left]
  refine .ok ⟨above.same, above.ok, above.bytes, start ▸ low, stop ▸ high, ?_, ?_, ?_, ?_⟩
  · rw [same_block, ← start]
    exact pos
  · dsimp only
    omega
  · dsimp only
    omega
  · intro decode
    have exact_ := above.counted decode
    dsimp only
    omega

end Xdr
