import Svr4.Xdr.RoundTrip
import Svr4.Xdr.Writing

/- Messages and flat memory carry the same data, where the message stream is used with care. -/
namespace Xdr
open ByteMoves StreamPrograms

variable {α : Type} {bytes : List UInt8} {marks : List Flat} {f : Flat}

def outcome {σ φ : Type} : Except φ (α × σ × List σ) → Option α
  | .ok r => some r.1
  | .error _ => none

structure Message (x_op : XdrOp) (m : Mblk) (b_cont : List Mblk) : Prop where
  ok : ∀ b ∈ m :: b_cont, b.Ok
  small : (contents x_op (m :: b_cont)).length < 2 ^ 31

/-- Decoding through a message and through flat memory of the same bytes comes to the same, which
    is what decoding the run of bytes comes to: there a position is the number of bytes before
    it. -/
def DecodesAlike (α : Type) : Prop :=
  ∀ (p : Filter .XDR_DECODE α) (m : Mblk) (b_cont : List Mblk) (memory : Memory),
    Message .XDR_DECODE m b_cont →
    slice memory 0 (contents .XDR_DECODE (m :: b_cont)).length =
      contents .XDR_DECODE (m :: b_cont) →
    Guarded xdrmblk_ops Proper p (xdrmblk_init m b_cont .XDR_DECODE) [] →
      outcome (run xdrmblk_ops p (xdrmblk_init m b_cont .XDR_DECODE) []) =
        outcome (run xdrmem_ops p
          (xdrmem_create memory (contents .XDR_DECODE (m :: b_cont)).length) []) ∧
      outcome (run xdrmblk_ops p (xdrmblk_init m b_cont .XDR_DECODE) []) =
        outcome (run flat_ops p ⟨contents .XDR_DECODE (m :: b_cont), 0⟩ [])

def left_by {α : Type} : Except (List Mblk) (α × Xdrmblk × List Xdrmblk) → List Mblk
  | .ok r => r.2.1.chain
  | .error blocks => blocks

/-- Encoding into a message and into flat memory of the same room comes to the same, and so do the
    bytes written. Nothing is written past the limit of a block, or elsewhere outside its room. -/
def EncodesAlike (α : Type) : Prop :=
  ∀ (p : Filter .XDR_ENCODE α) (m : Mblk) (b_cont : List Mblk) (memory : Memory),
    Message .XDR_ENCODE m b_cont →
    slice memory 0 (contents .XDR_ENCODE (m :: b_cont)).length =
      contents .XDR_ENCODE (m :: b_cont) →
    Guarded xdrmblk_ops Proper p (xdrmblk_init m b_cont .XDR_ENCODE) [] →
      Agree (fun _ _ => True)
        (fun r r' => r.1 = r'.1 ∧ contents .XDR_ENCODE r.2.1.chain =
          slice r'.2.1.memory 0 (contents .XDR_ENCODE (m :: b_cont)).length)
        (run xdrmblk_ops p (xdrmblk_init m b_cont .XDR_ENCODE) [])
        (run xdrmem_ops p
          (xdrmem_create memory (contents .XDR_ENCODE (m :: b_cont)).length) []) ∧
      outcome (run xdrmblk_ops p (xdrmblk_init m b_cont .XDR_ENCODE) []) =
        outcome (run flat_ops p ⟨contents .XDR_ENCODE (m :: b_cont), 0⟩ []) ∧
      SameBlocks .XDR_ENCODE (m :: b_cont)
        (left_by (run xdrmblk_ops p (xdrmblk_init m b_cont .XDR_ENCODE) []))

/-- What was encoded into a message is decoded from flat memory of these bytes, and from every
    message of these bytes that is decoded with care. -/
def ComesBack (α : Type) : Prop :=
  ∀ (f : Xdrproc α) (dom : α → Prop), Built f dom → ∀ a, dom a →
    ∀ (m : Mblk) (b_cont : List Mblk), Message .XDR_ENCODE m b_cont →
    Guarded xdrmblk_ops Proper (f .XDR_ENCODE a) (xdrmblk_init m b_cont .XDR_ENCODE) [] →
    ∀ r, run xdrmblk_ops (f .XDR_ENCODE a) (xdrmblk_init m b_cont .XDR_ENCODE) [] = .ok r →
    ∀ before,
      (∀ memory, slice memory 0 (contents .XDR_ENCODE r.2.1.chain).length =
          contents .XDR_ENCODE r.2.1.chain →
        outcome (run xdrmem_ops (f .XDR_DECODE before)
          (xdrmem_create memory (contents .XDR_ENCODE r.2.1.chain).length) []) = some a) ∧
      ∀ (m' : Mblk) (b_cont' : List Mblk), Message .XDR_DECODE m' b_cont' →
        contents .XDR_DECODE (m' :: b_cont') = contents .XDR_ENCODE r.2.1.chain →
        Guarded xdrmblk_ops Proper (f .XDR_DECODE before)
          (xdrmblk_init m' b_cont' .XDR_DECODE) [] →
          outcome (run xdrmblk_ops (f .XDR_DECODE before)
            (xdrmblk_init m' b_cont' .XDR_DECODE) []) = some a

theorem over_init {x_op : XdrOp} {m : Mblk} {b_cont : List Mblk} (message : Message x_op m b_cont) :
    Over x_op (m :: b_cont) (xdrmblk_init m b_cont x_op) ⟨contents x_op (m :: b_cont), 0⟩ := by
  have ok := message.ok m (List.mem_cons_self ..)
  have read := ok.read
  have written := ok.written
  have small := ok.small
  have same : ∀ chain : List Mblk, SameBlocks x_op chain chain := by
    intro chain
    induction chain with
    | nil => exact .nil
    | cons b chain ih => exact .cons ⟨rfl, rfl, rfl, fun _ _ => rfl⟩ ih
  unfold xdrmblk_init
  by_cases decode : x_op = .XDR_DECODE
  · subst decode
    rw [if_pos rfl, to_int_of_small (by omega) (by omega)]
    exact ⟨same _, message.ok, rfl, le_refl _, read, by simp [Mblk.start], Int.le_refl _,
      show (m.b_wptr - m.b_rptr : Int) < 2 ^ 31 by omega, fun _ => rfl⟩
  · have start : m.start x_op = m.b_wptr := if_neg decode
    have stop : m.stop x_op = m.db_lim := if_neg decode
    rw [if_neg decode, to_int_of_small (by omega) (by omega)]
    exact ⟨same _, message.ok, rfl, le_of_eq start,
      le_trans written (le_of_eq stop.symm), by simp [start], by rw [stop]; dsimp only; omega,
      show (m.db_lim : Int) < 2 ^ 31 by omega, fun h => absurd h decode⟩

theorem in_memory_create {memory : Memory} (small : bytes.length < 2 ^ 31)
    (same : slice memory 0 bytes.length = bytes) :
    InMemory bytes.length ⟨bytes, 0⟩ (xdrmem_create memory bytes.length) :=
  ⟨same, Nat.zero_le _, rfl, by
    unfold xdrmem_create
    rw [to_int_of_small (by omega) (by omega)]
    dsimp only
    omega⟩

theorem short_carried (x_op : XdrOp) (chain : List Mblk) :
    Carried Proper Short (Over x_op chain) where
  getword _ _ := trivial
  putword _ _ _ := trivial
  getbytes _ _ proper := proper.1
  putbytes _ _ proper := proper.1
  setpos _ _ _ := trivial

theorem outcome_agree {σ τ φ ψ : Type} {E : φ → ψ → Prop} {R : σ → τ → Prop}
    {x : Except φ (α × σ × List σ)} {y : Except ψ (α × τ × List τ)}
    (agree : Agree E (fun r r' => r.1 = r'.1 ∧ R r.2.1 r'.2.1) x y) : outcome x = outcome y := by
  cases agree with
  | ok related => exact congrArg some related.1
  | error related => rfl

theorem decodes_alike (α : Type) : DecodesAlike α := by
  intro p m b_cont memory message same guarded
  have above := over_init message
  have sim := decoding_simulates (m :: b_cont)
  have message_run := sim.run p above .nil guarded
  have short := sim.guarded (short_carried _ _) p above .nil guarded
  have memory_run := (memory_simulates _ _ message.small).run p
    (in_memory_create message.small same) .nil short
  have read := outcome_agree message_run
  exact ⟨read.trans (outcome_agree memory_run), read⟩

theorem left_by_kept {chain : List Mblk} {ψ : Type}
    {x : Except (List Mblk) (α × Xdrmblk × List Xdrmblk)} {y : Except ψ (α × Flat × List Flat)}
    (agree : Agree (fun blocks _ => SameBlocks .XDR_ENCODE chain blocks)
      (fun r r' => r.1 = r'.1 ∧ Over .XDR_ENCODE chain r.2.1 r'.2.1) x y) :
    SameBlocks .XDR_ENCODE chain (left_by x) := by
  cases agree with
  | ok related => exact related.2.same
  | error kept => exact kept

theorem encodes_alike (α : Type) : EncodesAlike α := by
  intro p m b_cont memory message same guarded
  have above := over_init message
  have sim := encoding_simulates (m :: b_cont)
  have message_run := sim.run p above .nil guarded
  have short := sim.guarded (short_carried _ _) p above .nil guarded
  have memory_run := (memory_simulates _ _ message.small).run p
    (in_memory_create message.small same) .nil short
  refine ⟨?_, outcome_agree message_run, left_by_kept message_run⟩
  refine (message_run.trans memory_run).mono (fun _ _ _ => trivial) ?_
  rintro r r' ⟨g, ⟨value, there⟩, value', there'⟩
  exact ⟨value.trans value', there.bytes.symm.trans there'.bytes.symm⟩

theorem short_of_ok {reads writes : Prop} (p : Prog reads writes Int UInt8 α)
    {r : α × Flat × List Flat} (small : f.bytes.length < 2 ^ 31)
    (ok : run flat_ops p f marks = .ok r) : Guarded flat_ops Short p f marks := by
  induction p generalizing f marks with
  | done a => trivial
  | fail => trivial
  | getword h next ih =>
    simp only [run, flat_ops] at ok
    refine ⟨trivial, ?_⟩
    by_cases fits : f.pos + 4 ≤ f.bytes.length
    · rw [if_pos fits] at ok
      simp only [flat_ops, if_pos fits]
      exact ih _ small ok
    · rw [if_neg fits] at ok
      cases ok
  | putword h l next ih =>
    simp only [run, flat_ops] at ok
    refine ⟨trivial, ?_⟩
    by_cases fits : f.pos + 4 ≤ f.bytes.length
    · rw [if_pos fits] at ok
      simp only [flat_ops, if_pos fits]
      exact ih (by dsimp only; rwa [ByteImages.length_assign (length_htonl l) fits]) ok
    · rw [if_neg fits] at ok
      cases ok
  | getbytes h len next ih =>
    simp only [run, flat_ops] at ok
    by_cases fits : f.pos + len ≤ f.bytes.length
    · rw [if_pos fits] at ok
      refine ⟨show len < 2 ^ 31 by omega, ?_⟩
      simp only [flat_ops, if_pos fits]
      exact ih _ small ok
    · rw [if_neg fits] at ok
      cases ok
  | putbytes h bs next ih =>
    simp only [run, flat_ops] at ok
    by_cases fits : f.pos + bs.length ≤ f.bytes.length
    · rw [if_pos fits] at ok
      refine ⟨show bs.length < 2 ^ 31 by omega, ?_⟩
      simp only [flat_ops, if_pos fits]
      exact ih (by dsimp only; rwa [ByteImages.length_assign rfl fits]) ok
    · rw [if_neg fits] at ok
      cases ok
  | getpos next ih => exact ih small ok
  | setpos i next ih =>
    unfold run at ok
    unfold Guarded
    cases known : marks[i]? with
    | some mark =>
      rw [known] at ok
      refine ⟨trivial, ?_⟩
      by_cases fits : mark.pos ≤ f.bytes.length
      · have moved : flat_ops.setpos f (flat_ops.getpos mark) = .ok ⟨f.bytes, mark.pos⟩ :=
          if_pos fits
        dsimp only at ok
        rw [moved] at ok ⊢
        exact ih small ok
      · have refused : flat_ops.setpos f (flat_ops.getpos mark) = .error f.bytes := if_neg fits
        dsimp only at ok
        rw [refused] at ok
        cases ok
    | none => trivial

theorem reads_back {p : Filter .XDR_ENCODE α} {q : Filter .XDR_DECODE α} {a b : α} {w : List UInt8}
    (writes : Writes p a w) (reads : Reads q a w)
    (ok : run flat_ops p ⟨bytes, 0⟩ [] = .ok (b, f, marks)) :
    run flat_ops q ⟨f.bytes, 0⟩ [] = .ok (a, ⟨f.bytes, w.length⟩, []) := by
  obtain ⟨fit, full⟩ := writes ⟨bytes, 0⟩ [] (Nat.zero_le _)
  rw [zero_add] at fit full
  by_cases room : w.length ≤ bytes.length
  · rw [fit room] at ok
    cases ok
    have inside : 0 + w.length ≤ bytes.length := by omega
    have same_length := ByteImages.length_assign (rfl : w.length = w.length) inside
    have written := ByteImages.slice_assign (rfl : w.length = w.length) inside (i := 0)
      (n := w.length) (by omega)
    rw [add_zero, ByteImages.slice_all] at written
    have read := reads ⟨ByteImages.assign bytes 0 w.length w, 0⟩ [] (by dsimp only; omega) written
    rwa [zero_add] at read
  · obtain ⟨e, none⟩ := full room
    rw [none] at ok
    cases ok

theorem comes_back (α : Type) : ComesBack α := by
  intro f dom built a inside m b_cont message guarded r ok before
  obtain ⟨w, writes, reads⟩ := built.round a inside
  have message_run := (encoding_simulates (m :: b_cont)).run (f .XDR_ENCODE a) (over_init message)
    .nil guarded
  rw [ok] at message_run
  cases encoded : run flat_ops (f .XDR_ENCODE a) ⟨contents .XDR_ENCODE (m :: b_cont), 0⟩ [] with
  | error e =>
    rw [encoded] at message_run
    cases message_run
  | ok r' =>
    rw [encoded] at message_run
    cases message_run with
    | ok related =>
      have there := related.2
      have bytes : contents .XDR_ENCODE r.2.1.chain = r'.2.1.bytes := there.bytes.symm
      have small : r'.2.1.bytes.length < 2 ^ 31 := by
        rw [there.total, ← contents_length]
        exact message.small
      have read := reads_back writes (reads before) encoded
      rw [bytes]
      refine ⟨fun memory same => ?_, fun m' b_cont' message' same guarded' => ?_⟩
      · have memory_run := (memory_simulates _ _ small).run (f .XDR_DECODE before)
          (in_memory_create small same) .nil (short_of_ok _ small read)
        rw [read] at memory_run
        exact (outcome_agree memory_run).symm
      · have again := (decoding_simulates (m' :: b_cont')).run (f .XDR_DECODE before)
          (over_init message') .nil guarded'
        rw [same, read] at again
        exact outcome_agree again

/-- Flat memory alone does what the run of its bytes says. -/
def MemoryPlain (α : Type) : Prop :=
  ∀ (x_op : XdrOp) (p : Filter x_op α) (memory : Memory) (size : Nat), size < 2 ^ 31 →
    Guarded flat_ops Short p ⟨slice memory 0 size, 0⟩ [] →
    outcome (run xdrmem_ops p (xdrmem_create memory size) []) =
      outcome (run flat_ops p ⟨slice memory 0 size, 0⟩ [])

theorem memory_plain (α : Type) : MemoryPlain α := by
  intro x_op p memory size small short
  have length : (slice memory 0 size).length = size := length_slice _ _ _
  have whole : slice memory 0 (slice memory 0 size).length = slice memory 0 size := by rw [length]
  have start := in_memory_create (length.symm ▸ small) whole
  rw [length] at start
  exact (outcome_agree ((memory_simulates _ _ small).run p start .nil short)).symm

/-- Message streams that are used with care agree with flat memory, whatever is decoded, encoded
    and repositioned, and give back what was encoded. -/
theorem streams_agree (α : Type) :
    DecodesAlike α ∧ MemoryPlain α ∧ EncodesAlike α ∧ ComesBack α :=
  ⟨decodes_alike α, memory_plain α, encodes_alike α, comes_back α⟩

def bytes_at (bs : List UInt8) : Memory := fun i => bs.getD i 0

def sample : Xdrproc (Int × List UInt8) := in_turn xdr_long (xdr_bytes 8)

def front : Mblk := ⟨bytes_at [], 0, 0, 8⟩

def back : Mblk := ⟨bytes_at [], 0, 0, 16⟩

def written : List UInt8 := [0, 0, 0, 7, 0, 0, 0, 5, 1, 2, 3, 4, 5, 0, 0, 0] ++ List.replicate 8 0

def parted : Mblk × List Mblk :=
  (⟨bytes_at (written.take 8), 0, 8, 8⟩,
    [⟨bytes_at [], 3, 3, 3⟩, ⟨bytes_at (9 :: written.drop 8), 1, 17, 20⟩])

def sent : Except (List Mblk) ((Int × List UInt8) × Xdrmblk × List Xdrmblk) :=
  run xdrmblk_ops (sample .XDR_ENCODE (7, [1, 2, 3, 4, 5])) (xdrmblk_init front [back] .XDR_ENCODE)
    []

theorem streams_agree_sample :
    outcome (run xdrmblk_ops (sample .XDR_DECODE (0, []))
        (xdrmblk_init parted.1 parted.2 .XDR_DECODE) []) =
      outcome (run xdrmem_ops (sample .XDR_DECODE (0, []))
        (xdrmem_create (bytes_at written) 24) []) ∧
    outcome (run xdrmem_ops (sample .XDR_DECODE (0, []))
        (xdrmem_create (bytes_at written) 24) []) = some (7, [1, 2, 3, 4, 5]) ∧
    SameBlocks .XDR_ENCODE [front, back] (left_by sent) := by
  have whole : contents .XDR_DECODE (parted.1 :: parted.2) = written := by decide +kernel
  have blank : contents .XDR_ENCODE [front, back] = List.replicate 24 0 := by decide +kernel
  have message : Message .XDR_DECODE parted.1 parted.2 := by
    refine ⟨fun b member => ?_, by decide +kernel⟩
    simp only [parted, List.mem_cons, List.not_mem_nil, or_false] at member
    rcases member with rfl | rfl | rfl <;> exact ⟨by decide, by decide, by decide⟩
  have room : Message .XDR_ENCODE front [back] := by
    refine ⟨fun b member => ?_, by decide +kernel⟩
    simp only [List.mem_cons, List.not_mem_nil, or_false] at member
    rcases member with rfl | rfl <;> exact ⟨by decide, by decide, by decide⟩
  have careful : Guarded xdrmblk_ops Proper (sample .XDR_ENCODE (7, [1, 2, 3, 4, 5]))
      (xdrmblk_init front [back] .XDR_ENCODE) [] := by decide +kernel
  have encoded : contents .XDR_ENCODE (left_by sent) = written := by decide +kernel
  have some_outcome : (outcome sent).isSome = true := by decide +kernel
  obtain ⟨decodes, -, encodes, comes⟩ := streams_agree (Int × List UInt8)
  have first := decodes (sample .XDR_DECODE (0, [])) _ _ (bytes_at written) message
    (by rw [whole]; decide +kernel) (by decide +kernel)
  refine ⟨first.1, ?_, (encodes (sample .XDR_ENCODE (7, [1, 2, 3, 4, 5])) _ _ (bytes_at []) room
    (by rw [blank]; decide +kernel) careful).2.2⟩
  cases ok : sent with
  | error e =>
    rw [ok] at some_outcome
    cases some_outcome
  | ok r =>
    rw [ok] at encoded
    change contents .XDR_ENCODE r.2.1.chain = written at encoded
    have decoded := (comes sample _ (.in_turn .long (.bytes 8)) (7, [1, 2, 3, 4, 5])
      ⟨⟨by decide, by decide⟩, by decide, by decide⟩ _ _ room careful r ok (0, [])).1
      (bytes_at written) (by rw [encoded]; decide +kernel)
    rw [encoded] at decoded
    exact decoded

def halves : Mblk × List Mblk :=
  (⟨bytes_at [0, 0], 0, 2, 2⟩, [⟨bytes_at [0, 7, 9, 9], 0, 2, 4⟩])

def again : Filter .XDR_DECODE Int :=
  .getword rfl fun _ => .getpos (.getword rfl fun _ => .setpos 0 (.getword rfl .done))

def three_longs : Filter .XDR_ENCODE Unit :=
  .putword rfl 1 (.putword rfl 2 (.putword rfl 3 (.done ())))

/-- A long that crosses blocks, a position, and a long put behind the limit of its block. -/
theorem streams_disagree :
    outcome (run xdrmblk_ops (xdr_long .XDR_DECODE 0)
        (xdrmblk_init halves.1 halves.2 .XDR_DECODE) []) ≠
      outcome (run xdrmem_ops (xdr_long .XDR_DECODE 0)
        (xdrmem_create (bytes_at [0, 0, 0, 7]) 4) []) ∧
    outcome (run xdrmblk_ops again
        (xdrmblk_init ⟨bytes_at [0, 0, 0, 1, 0, 0, 0, 2], 0, 8, 8⟩ [] .XDR_DECODE) []) ≠
      outcome (run xdrmem_ops again
        (xdrmem_create (bytes_at [0, 0, 0, 1, 0, 0, 0, 2]) 8) []) ∧
    ¬ SameBlocks .XDR_ENCODE [⟨bytes_at [], 0, 0, 4⟩, ⟨bytes_at [], 0, 0, 4⟩]
      (left_by (run xdrmblk_ops three_longs
        (xdrmblk_init ⟨bytes_at [], 0, 0, 4⟩ [⟨bytes_at [], 0, 0, 4⟩] .XDR_ENCODE) [])) := by
  refine ⟨by decide +kernel, by decide +kernel, fun same => ?_⟩
  have past : ((left_by (run xdrmblk_ops three_longs
      (xdrmblk_init ⟨bytes_at [], 0, 0, 4⟩ [⟨bytes_at [], 0, 0, 4⟩] .XDR_ENCODE) []))[1]?).map
        (fun m => m.memory 7) = some 3 := by decide +kernel
  revert same past
  generalize left_by (run xdrmblk_ops three_longs _ []) = blocks
  rintro (_ | ⟨_, _ | ⟨second, _⟩⟩) past
  have kept := second.outside 7 (.inr (by decide))
  exact absurd (kept.symm.trans (Option.some.inj past)) (by decide)

end Xdr
