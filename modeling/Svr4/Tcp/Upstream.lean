import Svr4.Runs
import Svr4.Tcp.Splitting

/- Received bytes go upstream once and in order while no urgent byte is split off or queued
   behind others. -/
namespace Tcp
open LabelledRuns Upq List
variable {s s' : Upq} {bp : Msg} {urp : Int} {a : Allocs}

section Marks

theorem mark_append (urp : Int) (xs ys : List Nat) :
    mark urp (xs ++ ys) = mark urp xs ++ mark (urp - xs.length) ys := by
  induction xs generalizing urp with
  | nil =>
    show mark urp ys = mark (urp - (0 : Nat)) ys
    rw [Int.natCast_zero, Int.sub_zero]
  | cons x xs ih =>
    show (x, decide (urp = 0)) :: mark (urp - 1) (xs ++ ys) = _ :: (_ ++ _)
    rw [ih, length_cons, Int.natCast_add, Int.natCast_one, Int.sub_sub, Int.add_comm 1]

theorem mark_outside {bs : List Nat} (outside : urp < 0 ∨ (bs.length : Int) ≤ urp) :
    mark urp bs = bs.map fun b => (b, false) := by
  induction bs generalizing urp with
  | nil => rfl
  | cons b bs ih =>
    rw [length_cons] at outside
    show (b, decide (urp = 0)) :: mark (urp - 1) bs = (b, false) :: _
    rw [ih (by omega), decide_eq_false (by omega)]

end Marks

namespace Upq

/-- What has been put upstream, T_EXDATA_IND bytes marked. -/
def sent (s : Upq) : List (Nat × Bool) :=
  s.put.flatMap fun m => (text m.blocks).map fun b => (b, decide (m.PRIM_type = .T_EXDATA_IND))

def queued (s : Upq) : List Nat := text s.t_qfirst.flatten

/-- The received bytes are those upstream, on the list, where `t_iqurp` has the urgent one, and in
hand; every block is in one place. -/
structure Books (s : Upq) (new : List (Nat × Bool)) (held : Multiset Nat) : Prop where
  received : s.received = s.sent ++ (mark s.t_iqurp s.queued ++ new)
  t_iqsize : s.t_iqsize = s.queued.length
  t_iqurp : s.t_iqurp = -1 ∨ (0 ≤ s.t_iqurp ∧ s.t_iqurp < s.t_iqsize)
  messages : ∀ bp ∈ s.t_qfirst, text bp ≠ []
  blocks : s.Balanced held

def Delivers (s : Upq) : Prop := s.Books [] 0

variable {new : List (Nat × Bool)} {held held' : Multiset Nat}

theorem Books.kept (books : s.Books new held) (kept : Kept s s') (balanced : s'.Balanced held') :
    s'.Books new held' := by
  constructor
  · unfold sent queued
    rw [kept.received, kept.put, kept.t_iqurp, kept.t_qfirst]
    exact books.received
  · unfold queued
    rw [kept.t_iqsize, kept.t_qfirst]
    exact books.t_iqsize
  · rw [kept.t_iqurp, kept.t_iqsize]
    exact books.t_iqurp
  · rw [kept.t_qfirst]
    exact books.messages
  · exact balanced

theorem Books.empty (books : s.Books new held) (zero : s.t_iqsize = 0) :
    s.t_qfirst = [] ∧ s.t_iqurp = -1 := by
  have size := books.t_iqsize
  constructor
  · cases first : s.t_qfirst with
    | nil => rfl
    | cons bp rest =>
      have some_ := books.messages bp (first ▸ mem_cons_self ..)
      have length : s.queued.length = 0 := by omega
      unfold queued at length
      rw [first, flatten_cons, text_append, length_append] at length
      exact absurd (eq_nil_of_length_eq_zero (by omega)) some_
  · have := books.t_iqurp
    omega

theorem queued_enq (s : Upq) (bp : Msg) (urp : Int) :
    (s.tcp_enqdata bp urp).queued = s.queued ++ text bp := by
  unfold queued
  show text (s.t_qfirst ++ [bp]).flatten = _
  rw [flatten_append, text_append, flatten_singleton]

theorem enq_blocks (balanced : s.Balanced (Tcp.ids bp)) (urp : Int) :
    (s.tcp_enqdata bp urp).Balanced 0 := by
  show 0 + (Tcp.ids (s.t_qfirst ++ [bp]).flatten + _ + _) = Multiset.range s.fresh
  rw [← balanced, flatten_append, flatten_singleton, ids_append, zero_add]
  unfold Upq.ids
  ac_rfl

theorem enq_messages (books : s.Books new held) (some_ : text bp ≠ []) (urp : Int) :
    ∀ m ∈ (s.tcp_enqdata bp urp).t_qfirst, text m ≠ [] := by
  intro m mem
  rcases mem_append.mp mem with old | new_
  · exact books.messages m old
  · rw [mem_singleton.mp new_]
    exact some_

theorem enq_plain (books : s.Books ((text bp).map fun b => (b, false)) (Tcp.ids bp))
    (some_ : text bp ≠ []) : (s.tcp_enqdata bp (-1)).Delivers := by
  have size := books.t_iqsize
  have urp := books.t_iqurp
  constructor
  · show s.received = s.sent ++ (mark s.t_iqurp (s.tcp_enqdata bp (-1)).queued ++ [])
    rw [queued_enq, mark_append, append_nil,
      @mark_outside (s.t_iqurp - s.queued.length) (text bp) (.inl (by omega))]
    exact books.received
  · rw [queued_enq, length_append]
    show s.t_iqsize + msgdsize bp = _
    rw [msgdsize_eq, size]
    omega
  · show s.t_iqurp = -1 ∨ (0 ≤ s.t_iqurp ∧ s.t_iqurp < s.t_iqsize + msgdsize bp)
    omega
  · exact enq_messages books some_ (-1)
  · exact enq_blocks books.blocks (-1)

theorem enq_urgent {urp : Nat} (books : s.Books (mark urp (text bp)) (Tcp.ids bp))
    (zero : s.t_iqsize = 0) (inside : urp < (text bp).length) :
    (s.tcp_enqdata bp urp).Delivers := by
  obtain ⟨none_, -⟩ := books.empty zero
  have nothing : s.queued = [] := by
    unfold queued
    rw [none_]
    rfl
  have moved : (s.tcp_enqdata bp urp).t_iqurp = urp := by
    show (if (urp : Int) ≠ -1 then s.t_iqsize + urp else s.t_iqurp) = urp
    rw [if_pos (by omega), zero, Int.zero_add]
  have size : (s.tcp_enqdata bp urp).t_iqsize = (text bp).length := by
    show s.t_iqsize + msgdsize bp = _
    rw [msgdsize_eq, zero, Int.zero_add]
  have some_ : text bp ≠ [] := by
    intro empty
    rw [empty] at inside
    exact absurd inside (Nat.not_lt_zero urp)
  constructor
  · rw [moved, queued_enq, nothing]
    show s.received = s.sent ++ (mark urp (text bp) ++ [])
    rw [append_nil, books.received, nothing]
    rfl
  · rw [size, queued_enq, nothing]
    rfl
  · rw [moved, size]
    omega
  · exact enq_messages books some_ urp
  · exact enq_blocks books.blocks urp

theorem put_plain {nbp : Msg}
    (books : s.Books ((text nbp).map fun b => (b, false)) (Tcp.ids nbp))
    (zero : s.t_iqsize = 0) : (s.putnext ⟨.T_DATA_IND, nbp⟩).Delivers := by
  obtain ⟨none_, -⟩ := books.empty zero
  have nothing : s.queued = [] := by
    unfold queued
    rw [none_]
    rfl
  refine { books with received := ?_, blocks := ?_ }
  · show s.received = (s.put ++ [_]).flatMap _ ++ (mark s.t_iqurp s.queued ++ [])
    rw [flatMap_append, flatMap_singleton, books.received, nothing, append_assoc]
    exact congrArg (s.sent ++ ·) (append_nil _).symm
  · have balanced := books.blocks
    show 0 + (_ + Tcp.ids ((s.put ++ [(⟨.T_DATA_IND, nbp⟩ : Upmsg)]).flatMap Upmsg.blocks) + _) =
      Multiset.range s.fresh
    rw [← balanced, flatMap_append, flatMap_singleton, ids_append, zero_add]
    unfold Upq.ids
    ac_rfl

theorem dump_alone {dup3 : Bool} {urp : Nat} (alone : Alone dup3 (bp.map Mblk.data) urp) :
    Alone dup3 ((dump bp s).1.map Mblk.data) urp := by
  induction bp generalizing s with
  | nil => exact alone
  | cons b rest ih =>
    unfold dump
    split
    · next empty =>
      change (if b.data.length ≤ urp then Alone dup3 (rest.map Mblk.data) (urp - b.data.length)
        else _) at alone
      rw [if_pos (by omega), empty] at alone
      exact ih alone
    · exact alone

theorem sendup_delivers {TH_URG sq canput header : Bool} {urp : Nat}
    (books : s.Books (mark (urgent TH_URG urp (text bp).length) (text bp)) (Tcp.ids bp))
    (some_ : text bp ≠ [])
    (spares : TH_URG = true → urp < (text bp).length →
      s.t_iqsize = 0 ∧ sq = true ∧ canput = true ∧ Spared a (bp.map Mblk.data) urp) :
    ∃ t, s.sendup bp TH_URG urp sq canput header a = some t ∧ t.Delivers := by
  by_cases urg : TH_URG = true ∧ urp < (text bp).length
  · obtain ⟨zero, queue, room, spared⟩ := spares urg.1 urg.2
    unfold urgent at books
    rw [if_pos urg] at books
    obtain ⟨s', failed, kept, balance⟩ := tcp_passoobup_spared (s := s) urg.2 spared
    unfold sendup
    rw [if_pos ⟨zero, queue, room⟩, msgdsize_eq, if_pos urg, failed]
    exact ⟨_, rfl, enq_urgent (books.kept kept (balance _ books.blocks))
      (kept.t_iqsize.trans zero) urg.2⟩
  have plain : s.Books ((text bp).map fun b => (b, false)) (Tcp.ids bp) := by
    unfold urgent at books
    rwa [if_neg urg, mark_outside (.inl (by decide))] at books
  unfold sendup
  split
  · next direct =>
    rw [msgdsize_eq, if_neg urg]
    split
    · next nbp s' made =>
      rcases headerize_cases made with ⟨-, none_⟩ | ⟨head, s'', eq, kept, empty, balance⟩
      · exact absurd none_ (by simp)
      · obtain ⟨rfl, rfl⟩ := Prod.mk.inj (Option.some.inj eq)
        refine ⟨_, rfl, put_plain ?_ (kept.t_iqsize.trans direct.1)⟩
        rw [text_append, empty, nil_append, ids_append]
        exact plain.kept kept (balance _ plain.blocks)
    · exact ⟨_, rfl, enq_plain plain some_⟩
  · exact ⟨_, rfl, enq_plain plain some_⟩

end Upq

/-- An urgent byte comes when it is not queued behind others or cannot be passed on, and is not
split off later. -/
def SparesTurns : List (Bool × Allocs) → List Msg → Int → Prop
  | turn :: turns, bp :: rest, urp =>
      if 0 ≤ urp ∧ urp < msgdsize bp then Spared turn.2 (bp.map Mblk.data) urp.toNat
      else turn.1 = true → SparesTurns turns rest (if 0 ≤ urp then urp - msgdsize bp else urp)
  | _, _, _ => True

def Spares (s : Upq) : Upcall → Prop
  | .sendup data TH_URG ti_urp sq canput _ a => TH_URG = true → ti_urp < data.flatten.length →
      s.t_iqsize = 0 ∧ sq = true ∧ canput = true ∧ Spared a data ti_urp
  | .deqdata turns => SparesTurns turns s.t_qfirst s.t_iqurp

namespace Upq

theorem deq_put {rest : List Msg} {header : Msg} (books : s.Delivers)
    (first : s.t_qfirst = bp :: rest) (plain : ¬ (0 ≤ s.t_iqurp ∧ s.t_iqurp < msgdsize bp))
    (kept : Kept s s') (empty : text header = []) (balanced : s'.Balanced (Tcp.ids header)) :
    Delivers { s' with
      t_qfirst := rest
      t_iqsize := s'.t_iqsize - msgdsize bp
      t_iqurp := if 0 ≤ s'.t_iqurp then s'.t_iqurp - msgdsize bp else s'.t_iqurp
      put := s'.put ++ [⟨.T_DATA_IND, header ++ bp⟩] } := by
  have received := books.received
  have size := books.t_iqsize
  have urp := books.t_iqurp
  rw [msgdsize_eq] at plain ⊢
  have all : s.queued = text bp ++ text rest.flatten := by
    unfold queued
    rw [first, flatten_cons, text_append]
  rw [all, length_append] at size
  constructor
  · show s'.received = (s'.put ++ [_]).flatMap _ ++
      (mark (if 0 ≤ s'.t_iqurp then s'.t_iqurp - (text bp).length else s'.t_iqurp)
        (text rest.flatten) ++ [])
    rw [kept.received, received, kept.put, kept.t_iqurp, all, mark_append,
      @mark_outside s.t_iqurp (text bp) (by omega), append_nil, append_nil,
      flatMap_append, flatMap_singleton, append_assoc]
    rw [text_append, empty, nil_append]
    congr 2
    split
    · rfl
    · rw [mark_outside (.inl (by omega)), mark_outside (.inl (by omega))]
  · show s'.t_iqsize - (text bp).length = (text rest.flatten).length
    rw [kept.t_iqsize]
    omega
  · show (if 0 ≤ s'.t_iqurp then s'.t_iqurp - (text bp).length else s'.t_iqurp) = -1 ∨
      (0 ≤ (if 0 ≤ s'.t_iqurp then s'.t_iqurp - (text bp).length else s'.t_iqurp) ∧
        (if 0 ≤ s'.t_iqurp then s'.t_iqurp - (text bp).length else s'.t_iqurp) <
          s'.t_iqsize - (text bp).length)
    rw [kept.t_iqurp, kept.t_iqsize]
    split <;> omega
  · intro m mem
    exact books.messages m (first ▸ mem_cons_of_mem bp mem)
  · show 0 + (Tcp.ids rest.flatten + Tcp.ids ((s'.put ++ [_]).flatMap Upmsg.blocks) + _) =
      Multiset.range s'.fresh
    rw [← balanced, flatMap_append, flatMap_singleton, ids_append, zero_add]
    unfold Upq.ids
    rw [kept.t_qfirst, first, flatten_cons, ids_append]
    rw [ids_append]
    ac_rfl

theorem tcp_deqdata_delivers {turns : List (Bool × Allocs)} (books : s.Delivers)
    (spares : SparesTurns turns s.t_qfirst s.t_iqurp) :
    ∃ t, tcp_deqdata turns s = some t ∧ t.Delivers := by
  induction turns generalizing s with
  | nil => exact ⟨s, rfl, books⟩
  | cons turn turns ih =>
    unfold tcp_deqdata deq
    cases first : s.t_qfirst with
    | nil => exact ⟨s, rfl, books⟩
    | cons bp rest =>
      rw [first] at spares
      unfold SparesTurns at spares
      dsimp only
      by_cases urgent_ : 0 ≤ s.t_iqurp ∧ s.t_iqurp < msgdsize bp
      · rw [if_pos urgent_] at spares ⊢
        rw [msgdsize_eq] at urgent_
        obtain ⟨s', failed, kept, balance⟩ := tcp_passoobup_spared (s := s) (by omega) spares
        rw [failed]
        exact ⟨s', rfl, books.kept kept (balance 0 books.blocks)⟩
      rw [if_neg urgent_] at spares ⊢
      rcases @headerize_cases s bp turn.1 _ rfl with
        ⟨failed, none_⟩ | ⟨header, s', made, kept, empty, balance⟩
      · rw [none_]
        exact ⟨s, rfl, books⟩
      rw [made]
      have ok : turn.1 = true := by
        unfold headerize at made
        cases eq : turn.1 with
        | true => rfl
        | false =>
          rw [eq] at made
          exact absurd made (by simp)
      refine ih (deq_put books first urgent_ kept empty ?_) ?_
      · exact (balance 0 books.blocks).of_eq (add_zero _)
      · rw [kept.t_iqurp]
        exact spares ok

/-- With room and memory for every message, and no urgent byte, the list is emptied. -/
theorem tcp_deqdata_empties {turns : List (Bool × Allocs)} (plain : s.t_iqurp < 0)
    (room : s.t_qfirst.length ≤ turns.length) (memory : ∀ turn ∈ turns, turn.1 = true) :
    ∃ t, tcp_deqdata turns s = some t ∧ t.t_qfirst = [] := by
  induction turns generalizing s with
  | nil => exact ⟨s, rfl, length_eq_zero_iff.mp (Nat.le_zero.mp room)⟩
  | cons turn turns ih =>
    unfold tcp_deqdata deq headerize
    cases first : s.t_qfirst with
    | nil => exact ⟨s, rfl, first⟩
    | cons bp rest =>
      rw [first] at room
      dsimp only
      rw [if_neg (by omega), if_pos (memory turn mem_cons_self)]
      refine ih ?_ (Nat.le_of_succ_le_succ room) fun next mem => memory next (mem_cons_of_mem _ mem)
      show (if 0 ≤ s.t_iqurp then _ else s.t_iqurp) < 0
      rwa [if_neg (not_le.mpr plain)]

theorem step_delivers {call : Upcall} (books : s.Delivers) (spares : Spares s call) :
    ∃ t, s.step call = some t ∧ t.Delivers := by
  cases call with
  | deqdata turns => exact tcp_deqdata_delivers books spares
  | sendup data TH_URG ti_urp sq canput header a =>
    obtain ⟨bp, s₁, named, kept₁, same, balance₁⟩ := blocks_spec { s with
      received := s.received ++ mark (urgent TH_URG ti_urp data.flatten.length) data.flatten } data
    obtain ⟨bp', s₂, dumped, kept₂, text_same, empty, balance₂⟩ := dump_spec s₁ bp
    have bytes : text bp' = data.flatten := by
      rw [text_same, text_eq, same]
    have arrived : Books { s with
        received := s.received ++ mark (urgent TH_URG ti_urp data.flatten.length) data.flatten }
        (mark (urgent TH_URG ti_urp data.flatten.length) data.flatten) 0 := by
      refine { books with received := ?_ }
      have received := books.received
      rw [append_nil] at received
      show s.received ++ _ = s.sent ++ (mark s.t_iqurp s.queued ++ _)
      rw [received, append_assoc]
    have booked : s₂.Books (mark (urgent TH_URG ti_urp (text bp').length) (text bp'))
        (Tcp.ids bp') := by
      rw [bytes]
      exact arrived.kept (kept₁.trans kept₂)
        ((balance₂ 0 (balance₁ 0 arrived.blocks)).of_eq (add_zero _))
    unfold step
    dsimp only
    rw [named]
    rw [dumped]
    split
    · next nothing =>
      subst nothing
      exact ⟨s₂, rfl, booked⟩
    next some_ =>
    refine sendup_delivers booked (fun none_ => some_ (empty.mpr (text_same ▸ none_))) ?_
    intro urg inside
    rw [bytes] at inside
    obtain ⟨zero, queue, room, spared⟩ := spares urg inside
    refine ⟨((kept₁.trans kept₂).t_iqsize).trans zero, queue, room, spared.imp_right ?_⟩
    rintro ⟨alone, fails⟩
    rw [← same] at alone
    have alone' := @dump_alone s₁ bp _ _ alone
    rw [dumped] at alone'
    rw [← text_eq, bytes]
    exact ⟨alone', fails⟩

end Upq
theorem empty_delivers : Upq.empty.Delivers :=
  ⟨rfl, rfl, .inl rfl, fun _ mem => absurd mem not_mem_nil, rfl⟩

theorem received_once {calls : List Upcall} (run : Guarded Upq.step Spares Upq.empty calls) :
    (∃ s, exec Upq.step Upq.empty calls = some s) ∧
      Throughout Upq.step Upq.Delivers Upq.empty calls ∧
      ∀ s, exec Upq.step Upq.empty calls = some s → s.t_iqurp < 0 → ∀ turns,
        s.t_qfirst.length ≤ turns.length → (∀ turn ∈ turns, turn.1 = true) →
          ∃ t, s.step (.deqdata turns) = some t ∧ t.t_qfirst = [] := by
  refine ⟨?_, ?_, fun s _ plain turns => tcp_deqdata_empties plain⟩
  · exact exec_of_guarded Upq.Delivers (fun _ _ books spares => step_delivers books spares)
      empty_delivers run
  · refine throughout_of_guarded Upq.Delivers (fun _ books => books) ?_ empty_delivers run
    intro s call t books spares taken
    obtain ⟨t', taken', books'⟩ := step_delivers books spares
    obtain rfl := Option.some.inj (taken.symm.trans taken')
    exact books'

def Allocs.all : Allocs := ⟨true, true, true, true, true, true⟩

def waiting : List Upcall :=
  [.sendup [[], [1, 2]] false 0 true false true .all, .deqdata [(true, .all)],
    .sendup [[3, 4]] true 1 true true true { Allocs.all with dup1 := false }]

/-- Data waits for room, and an urgent byte behind it for memory. -/
theorem received_once_waiting : (∃ s, exec Upq.step Upq.empty waiting = some s) ∧
    Throughout Upq.step Upq.Delivers Upq.empty waiting ∧
    ∃ s t, exec Upq.step Upq.empty (waiting.take 1) = some s ∧ s.queued = [1, 2] ∧
      s.step (.deqdata [(true, .all)]) = some t ∧ t.t_qfirst = [] := by
  have run : Guarded Upq.step Spares Upq.empty waiting := by
    refine ⟨fun urg => by contradiction, fun s taken => ?_⟩
    obtain rfl := Option.some.inj taken
    refine ⟨fun _ => trivial, fun s taken => ?_⟩
    obtain rfl := Option.some.inj taken
    exact ⟨fun _ _ => ⟨rfl, rfl, rfl, .inl rfl⟩, fun _ _ => trivial⟩
  obtain ⟨runs, books, -⟩ := received_once run
  have first : Guarded Upq.step Spares Upq.empty (waiting.take 1) := ⟨run.1, fun _ _ => trivial⟩
  obtain ⟨t, taken, empty⟩ := (received_once first).2.2 _ rfl (by decide) [(true, .all)]
    (by decide) (by decide)
  exact ⟨runs, books, _, t, rfl, rfl, taken, empty⟩

/-- An urgent byte goes up from the list and its message stays; one that goes up at once leaves the
block with no one; one that waits for room is not marked. -/
theorem received_again :
    ¬ Throughout Upq.step Upq.Delivers Upq.empty
      [.sendup [[1, 2, 3]] true 1 true true true { Allocs.all with dup1 := false },
        .deqdata [(true, .all), (true, .all)]] ∧
    ¬ Throughout Upq.step Upq.Delivers Upq.empty
      [.sendup [[1, 2, 3]] true 1 true true true .all] ∧
    ¬ Throughout Upq.step Upq.Delivers Upq.empty
      [.sendup [[1, 2, 3]] true 1 true false true .all] := by
  refine ⟨fun run => ?_, fun run => ?_, fun run => ?_⟩
  · have books := ((run.2 _ rfl).2 _ rfl).t_iqsize
    revert books
    decide
  · have books := (run.2 _ rfl).blocks
    revert books
    decide
  · have books := (run.2 _ rfl).received
    revert books
    decide

end Tcp
