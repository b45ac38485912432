import Svr4.Xdr.Careful

/- Writing to a message with care, and the two simulations. -/
namespace Xdr
open ByteMoves StreamPrograms List

variable {chain : List Mblk} {x : Xdrmblk} {f : Flat} {m : Mblk}

theorem Over.put (above : Over .XDR_ENCODE chain x f) {bs : List UInt8} {handy : Int}
    (fits : x.x_private + bs.length ≤ x.x_base.db_lim) (counted : handy = x.x_handy - bs.length) :
    f.pos + bs.length ≤ f.bytes.length ∧ Over .XDR_ENCODE chain
        { x.store bs with x_private := x.x_private + bs.length, x_handy := handy }
        ⟨ByteImages.assign f.bytes f.pos bs.length bs, f.pos + bs.length⟩ :=
  ⟨(above.read fits).1, (above.store fits).advance fits counted⟩

theorem Over.next_writes (above : Over .XDR_ENCODE chain x f) {b_cont : List Mblk}
    (more : x.b_cont = m :: b_cont) (ended : x.x_private = x.x_base.db_lim) :
    m.Ok ∧ Over .XDR_ENCODE chain ⟨x.passed ++ [x.x_base], m, b_cont, m.b_wptr, m.db_lim⟩ f := by
  have ok := above.ok m (by simp [Xdrmblk.chain, more])
  have small := ok.small
  exact ⟨ok, above.next more ended (show (m.db_lim : Int) - m.b_wptr ≤ m.db_lim by omega)
    (by omega) (by rintro ⟨⟩)⟩

theorem putlong_agrees (above : Over .XDR_ENCODE chain x f) (l : Int)
    (careful : Careful x (.putword l)) :
    Agree (fun blocks _ => SameBlocks .XDR_ENCODE chain blocks) (Over .XDR_ENCODE chain)
      (xdrmblk_putlong x l) (flat_ops.putword f l) := by
  have nonneg := above.handy_nonneg
  have small := above.small
  have room : (x.x_base.db_lim : Int) - x.x_private ≤ x.x_handy := above.room
  have left : to_int (x.x_handy - 4) = x.x_handy - 4 := to_int_of_small (by omega) (by omega)
  simp only [xdrmblk_putlong, flat_ops, left]
  by_cases here : x.x_handy < 4
  · rw [if_pos (by omega)]
    cases more : x.b_cont with
    | nil =>
      rw [if_neg (above.short more (show x.x_base.db_lim < x.x_private + 4 by omega))]
      exact .error (by simpa [Xdrmblk.chain, more] using above.same)
    | cons m b_cont =>
      have fits := careful.1 here
      rw [NextFits, more] at fits
      obtain ⟨ok, entered⟩ := above.next_writes more fits.1
      have small := ok.small
      have counted : to_int m.db_lim = m.db_lim := to_int_of_small (by omega) (by omega)
      obtain ⟨within, put⟩ := entered.put
        (show m.b_wptr + (htonl l).length ≤ m.db_lim from fits.2)
        (show (m.db_lim - 4 : Int) = m.db_lim - (htonl l).length by simp)
      -- the long is not counted in its block
      have put := put.recount (show (m.db_lim - 4 : Int) ≤ m.db_lim by omega) (by omega)
        (by rintro ⟨⟩)
      rw [length_htonl] at within
      rw [if_pos within]
      dsimp only
      rw [counted]
      exact .ok put
  · rw [if_neg (by omega)]
    have fits := careful.2 (by omega)
    obtain ⟨within, put⟩ := above.put
      (show x.x_private + (htonl l).length ≤ x.x_base.db_lim from fits)
      (show x.x_handy - 4 = x.x_handy - (htonl l).length by simp)
    rw [length_htonl] at within
    rw [if_pos within]
    exact .ok put

section
variable {passed b_cont : List Mblk} {next : Mblk} {x_private : Nat} {x_handy : Int}
  {bs : List UInt8}

/-- Bytes written at once, and in two parts. What is left when they do not fit is not compared. -/
theorem flat_putbytes_split {R : Xdrmblk → Flat → Prop} {E : List Mblk → Prop}
    {y : Except (List Mblk) Xdrmblk} {n : Nat} (part : n ≤ bs.length)
    (fits : f.pos + n ≤ f.bytes.length)
    (agree : Agree (fun blocks (_ : List UInt8) => E blocks) R y
      (flat_ops.putbytes ⟨ByteImages.assign f.bytes f.pos n (bs.take n), f.pos + n⟩ (bs.drop n))) :
    Agree (fun blocks (_ : List UInt8) => E blocks) R y (flat_ops.putbytes f bs) := by
  have taken : (bs.take n).length = n := by
    rw [length_take]
    omega
  have same_length : (ByteImages.assign f.bytes f.pos n (bs.take n)).length = f.bytes.length :=
    ByteImages.length_assign taken fits
  have joined : ByteImages.assign (ByteImages.assign f.bytes f.pos n (bs.take n)) (f.pos + n)
      (bs.drop n).length (bs.drop n) = ByteImages.assign f.bytes f.pos bs.length bs := by
    have two := ByteImages.assign_assign (n := (bs.drop n).length)
      (show f.pos + (bs.take n).length ≤ f.bytes.length by omega) (bs.drop n)
    rw [taken, length_drop, Nat.add_sub_of_le part, take_append_drop] at two
    rw [length_drop, two]
  simp only [flat_ops, same_length, joined] at agree ⊢
  rw [length_drop] at agree
  by_cases whole : f.pos + bs.length ≤ f.bytes.length
  · rw [if_pos (by omega), show f.pos + n + (bs.length - n) = f.pos + bs.length by omega] at agree
    rw [if_pos whole]
    exact agree
  · rw [if_neg (by omega)] at agree
    rw [if_neg whole]
    cases agree with
    | error kept => exact .error kept

theorem putbytes_loop_here (small : x_handy < 2 ^ 31) (enough : bs.length ≤ x_handy) :
    putbytes_loop passed m b_cont x_private x_handy bs =
      .ok ⟨passed, { m with memory := pour m.memory x_private bs }, b_cont,
        x_private + bs.length, x_handy - bs.length⟩ := by
  have left : to_int (x_handy - bs.length) = x_handy - bs.length :=
    to_int_of_small (by omega) (by omega)
  rw [putbytes_loop]
  rw [left, if_neg (by omega)]

section
variable (nonneg : 0 ≤ x_handy) (small : x_handy < 2 ^ 31) (long : x_handy < bs.length)
  (short : bs.length < 2 ^ 31)
include nonneg small long short

theorem putbytes_loop_next : putbytes_loop passed m (next :: b_cont) x_private x_handy bs =
      putbytes_loop
        (passed ++ [{ m with memory := pour m.memory x_private (bs.take x_handy.toNat) }]) next
        b_cont next.b_wptr (to_int next.db_lim) (bs.drop x_handy.toNat) := by
  have left : to_int (x_handy - bs.length) = x_handy - bs.length :=
    to_int_of_small (by omega) (by omega)
  rw [putbytes_loop]
  dsimp only
  rw [left, if_pos (by omega), copied_count nonneg small]

theorem putbytes_loop_end : putbytes_loop passed m [] x_private x_handy bs = .error
      (passed ++ [{ m with memory := pour m.memory x_private (bs.take x_handy.toNat) }]) := by
  have left : to_int (x_handy - bs.length) = x_handy - bs.length :=
    to_int_of_small (by omega) (by omega)
  rw [putbytes_loop]
  dsimp only
  rw [left, if_pos (by omega), copied_count nonneg small]

end

theorem putbytes_here_agrees
    (above : Over .XDR_ENCODE chain ⟨passed, m, b_cont, x_private, x_handy⟩ f)
    (enough : bs.length ≤ x_handy) (fits : x_private + bs.length ≤ m.db_lim) :
    Agree (fun blocks _ => SameBlocks .XDR_ENCODE chain blocks) (Over .XDR_ENCODE chain)
      (putbytes_loop passed m b_cont x_private x_handy bs) (flat_ops.putbytes f bs) := by
  obtain ⟨within, put⟩ := above.put fits rfl
  have written : flat_ops.putbytes f bs =
      .ok ⟨ByteImages.assign f.bytes f.pos bs.length bs, f.pos + bs.length⟩ := if_pos within
  rw [putbytes_loop_here above.small enough, written]
  exact .ok put

theorem putbytes_loop_agrees
    (above : Over .XDR_ENCODE chain ⟨passed, m, b_cont, x_private, x_handy⟩ f)
    (short : bs.length < 2 ^ 31) (fits : Fits m b_cont x_private x_handy.toNat bs.length) :
    Agree (fun blocks _ => SameBlocks .XDR_ENCODE chain blocks) (Over .XDR_ENCODE chain)
      (putbytes_loop passed m b_cont x_private x_handy bs) (flat_ops.putbytes f bs) := by
  induction b_cont generalizing passed m x_private x_handy bs f with
  | nil =>
    have nonneg : 0 ≤ x_handy := above.handy_nonneg
    have room : (m.db_lim : Int) - x_private ≤ x_handy := above.room
    by_cases enough : (bs.length : Int) ≤ x_handy
    · exact putbytes_here_agrees above enough (by have := fits.1; omega)
    have none : flat_ops.putbytes f bs = .error f.bytes :=
      if_neg (above.short rfl (show m.db_lim < x_private + bs.length by omega))
    have taken : (bs.take x_handy.toNat).length = x_handy.toNat := by
      rw [length_take]
      omega
    have put := (above.store (show x_private + (bs.take x_handy.toNat).length ≤ m.db_lim by
        have := fits.1
        omega)).same
    rw [putbytes_loop_end nonneg above.small (by omega) short, none]
    exact .error put
  | cons next b_cont ih =>
    have nonneg : 0 ≤ x_handy := above.handy_nonneg
    have room : (m.db_lim : Int) - x_private ≤ x_handy := above.room
    by_cases enough : (bs.length : Int) ≤ x_handy
    · exact putbytes_here_agrees above enough (by have := fits.1; omega)
    have taken : (bs.take x_handy.toNat).length = x_handy.toNat := by
      rw [length_take]
      omega
    have inside : x_private + (bs.take x_handy.toNat).length ≤ m.db_lim := by
      have := fits.1
      omega
    obtain ⟨within, put⟩ := above.put inside
      (show (0 : Int) = x_handy - (bs.take x_handy.toNat).length by omega)
    obtain ⟨ok, entered⟩ := put.next_writes rfl
      (show x_private + (bs.take x_handy.toNat).length = m.db_lim by omega)
    have small := ok.small
    have counted : to_int next.db_lim = next.db_lim := to_int_of_small (by omega) (by omega)
    rw [taken] at entered within
    rw [putbytes_loop_next nonneg above.small (by omega) short, counted]
    refine flat_putbytes_split (show x_handy.toNat ≤ bs.length by omega) within ?_
    refine ih entered (by rw [length_drop]; omega) ?_
    rw [length_drop, Int.toNat_natCast]
    exact fits.2 (by omega)

end

/-- The conditions on a request to a message stream, and the lengths that an int can count. -/
def Proper (x : Xdrmblk) (r : Request Int UInt8 Xdrmblk) : Prop := Short x r ∧ Careful x r

instance (x : Xdrmblk) (r : Request Int UInt8 Xdrmblk) : Decidable (Proper x r) :=
  inferInstanceAs (Decidable (_ ∧ _))

theorem decoding_simulates (chain : List Mblk) :
    Simulation (XdrOp.XDR_DECODE = .XDR_DECODE) (XdrOp.XDR_DECODE = .XDR_ENCODE) xdrmblk_ops
      flat_ops Proper (Over .XDR_DECODE chain)
      (fun blocks _ => SameBlocks .XDR_DECODE chain blocks) where
  getword _ _ _ above proper := getlong_agrees above proper.2
  putword := nofun
  getbytes _ _ _ _ above proper := getbytes_loop_agrees above proper.1
  putbytes := nofun
  setpos above marked proper := setpos_agrees above marked proper.2
  left above := above.same

theorem encoding_simulates (chain : List Mblk) :
    Simulation (XdrOp.XDR_ENCODE = .XDR_DECODE) (XdrOp.XDR_ENCODE = .XDR_ENCODE) xdrmblk_ops
      flat_ops Proper (Over .XDR_ENCODE chain)
      (fun blocks _ => SameBlocks .XDR_ENCODE chain blocks) where
  getword := nofun
  putword _ _ _ l above proper := putlong_agrees above l proper.2
  getbytes := nofun
  putbytes _ _ _ _ above proper := putbytes_loop_agrees above proper.1 proper.2
  setpos above marked proper := setpos_agrees above marked proper.2
  left above := above.same

end Xdr
