import Mathlib.Data.List.TakeDrop

/- Pieces of one stream at their positions, and rows of things that lie along it. -/
namespace StreamPieces
open List
variable {α π : Type}

structure Piece (stream : List α) (o : Nat) (data : List α) : Prop where
  inside : o + data.length ≤ stream.length
  same : (stream.drop o).take data.length = data

namespace Piece
variable {stream data : List α} {o k : Nat}

theorem drop (piece : Piece stream o data) (within : k ≤ data.length) :
    Piece stream (o + k) (data.drop k) where
  inside := by
    have := piece.inside
    rw [length_drop]
    omega
  same := by
    conv_rhs => rw [← piece.same]
    rw [drop_take, drop_drop, length_drop]

theorem take (piece : Piece stream o data) (k : Nat) : Piece stream o (data.take k) where
  inside := by
    have := piece.inside
    rw [length_take]
    omega
  same := by
    conv_rhs => rw [← piece.same]
    rw [take_take, length_take]

theorem take_append (piece : Piece stream o data) :
    stream.take o ++ data = stream.take (o + data.length) := by
  rw [take_add, piece.same]

end Piece

/-- Things in a row from `lo` to `hi`, one after the other and without overlap; `at_ q o` says
    that `q` lies at `o`. -/
def Row (at_ : π → Nat → Prop) (length : π → Nat) : Nat → List π → Nat → Prop
  | lo, [], hi => lo ≤ hi
  | lo, q :: rest, hi => ∃ o, lo ≤ o ∧ at_ q o ∧ Row at_ length (o + length q) rest hi

namespace Row
variable {at_ : π → Nat → Prop} {length : π → Nat} {lo mid hi : Nat} {q : π} {xs ys : List π}

theorem lower (row : Row at_ length mid xs hi) (below : lo ≤ mid) : Row at_ length lo xs hi := by
  cases xs with
  | nil => exact Nat.le_trans below row
  | cons q rest =>
    obtain ⟨o, above, placed, rest⟩ := row
    exact ⟨o, Nat.le_trans below above, placed, rest⟩

theorem raise (row : Row at_ length lo xs mid) (above : mid ≤ hi) : Row at_ length lo xs hi := by
  induction xs generalizing lo with
  | nil => exact Nat.le_trans row above
  | cons q rest ih =>
    obtain ⟨o, below, placed, rest⟩ := row
    exact ⟨o, below, placed, ih rest⟩

theorem le (row : Row at_ length lo xs hi) : lo ≤ hi := by
  induction xs generalizing lo with
  | nil => exact row
  | cons q rest ih =>
    obtain ⟨o, below, -, rest⟩ := row
    have := ih rest
    omega

theorem mem (row : Row at_ length lo xs hi) (mem : q ∈ xs) :
    ∃ o, lo ≤ o ∧ at_ q o ∧ o + length q ≤ hi := by
  induction xs generalizing lo with
  | nil => cases mem
  | cons x rest ih =>
    obtain ⟨o, below, placed, rest⟩ := row
    rcases mem_cons.mp mem with rfl | mem
    · exact ⟨o, below, placed, rest.le⟩
    · obtain ⟨o', below', placed', upto⟩ := ih rest mem
      exact ⟨o', by omega, placed', upto⟩

theorem append (first : Row at_ length lo xs mid) (second : Row at_ length mid ys hi) :
    Row at_ length lo (xs ++ ys) hi := by
  induction xs generalizing lo with
  | nil => exact second.lower first
  | cons q rest ih =>
    obtain ⟨o, below, placed, rest⟩ := first
    exact ⟨o, below, placed, ih rest⟩

theorem split (row : Row at_ length lo (xs ++ ys) hi) :
    ∃ mid, Row at_ length lo xs mid ∧ Row at_ length mid ys hi := by
  induction xs generalizing lo with
  | nil => exact ⟨lo, Nat.le_refl lo, row⟩
  | cons q rest ih =>
    obtain ⟨o, below, placed, rest⟩ := row
    obtain ⟨mid, first, second⟩ := ih rest
    exact ⟨mid, ⟨o, below, placed, first⟩, second⟩

/-- The last of a row ends where what precedes it may be taken to end. -/
theorem getLast (row : Row at_ length lo (xs ++ [q]) hi) :
    ∃ o, lo ≤ o ∧ at_ q o ∧ Row at_ length lo (xs ++ [q]) (o + length q) ∧ o + length q ≤ hi := by
  obtain ⟨mid, first, o, above, placed, last⟩ := row.split
  refine ⟨o, Nat.le_trans first.le above, placed, ?_, last⟩
  exact first.append ⟨o, above, placed, Nat.le_refl _⟩

end Row
end StreamPieces
