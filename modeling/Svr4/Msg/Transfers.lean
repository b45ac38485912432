import Svr4.Msg.Queues

/- How headers, texts and messages pass between the free list, a running process and the queues. -/
namespace MessageQueues
open Function NextChains ResourceMap List Nat

variable {info : MsgInfo} {s t : State} {k p q x cnt spot : Nat} {l hd : Option Nat} {v : View}
  {pre post : List Nat} {qs : Nat → List Nat} {sent : List Message} {type : Int} {a : Snd}

theorem btoq_zero (info : MsgInfo) : btoq info 0 = 0 := by
  have := info.ssz_pos
  exact div_eq_of_lt (by omega)

theorem btoq_pos (info : MsgInfo) {n : Nat} (pos : 0 < n) : 0 < btoq info n := by
  have := info.ssz_pos
  exact div_pos (by omega) this

theorem Snd.Fits.ushort (fits : a.Fits info) : toUshort a.msgsz.toNat = a.msgsz.toNat := by
  have := info.max_le
  have := fits.2
  exact mod_eq_of_lt (by omega)

/-! Between the free list and a process -/

theorem Books.unowned_update {lk hd : Nat → Option Nat} {later : Place} (books : Books info s v lk hd)
    (bare : later = .free → v.span x = (0, 0)) :
    ∀ y, update v.place x later y = .free → v.span y = (0, 0) := by
  intro y there
  rw [update_apply] at there
  split at there
  · rename_i same
    rw [same]
    exact bare there
  · exact books.unowned y there

theorem Running.take (run : Running info s v p l none) (top : s.pool.msgfp = some x) :
    ∃ fs, v.span x = (0, 0) ∧ Running info { s with pool := s.pool.take x }
      { v with fs := fs, place := update v.place x (.held p) } p l (some x) := by
  have books := run.books
  obtain ⟨small, free, fs, -, chained⟩ := books.chained.take_ok top p
  refine ⟨fs, books.unowned x free, { books with
    chained := chained
    segmented := { books.segmented with }
    held := held_update run x small (.inl ⟨rfl, fun q => by rw [free]; exact nofun⟩) (.inl ⟨rfl, rfl⟩)
    unowned := books.unowned_update nofun
    history := { books.history with } }, fun q other => { run.others q other with }⟩

theorem Running.give (run : Running info s v p l (some x)) (empty : v.span x = (0, 0)) :
    Running info { s with pool := s.pool.give x }
      { v with fs := x :: v.fs, place := update v.place x .free } p l none := by
  have books := run.books
  obtain ⟨small, here⟩ := run.own_header rfl
  exact ⟨{ books with
    chained := books.chained.give_ok small here
    segmented := { books.segmented with }
    held := held_update run x small (.inr rfl) (.inr ⟨rfl, nofun⟩)
    unowned := books.unowned_update fun _ => empty
    history := { books.history with } }, fun q other => { run.others q other with }⟩

theorem Running.respan {mp : RMap} {lost : List (Nat × Nat)} {r : Nat × Nat}
    (run : Running info s v p l (some x))
    (segmented : Segmented info { s.pool with msgmap := mp, lost := lost } (update v.span x r)) :
    Running info { s with pool := { s.pool with msgmap := mp, lost := lost } }
      { v with span := update v.span x r } p l (some x) := by
  have books := run.books
  obtain ⟨small, here⟩ := run.own_header rfl
  have off : ∀ y, v.place y ≠ .held p → update v.span x r y = v.span y := by
    intro y other
    apply update_of_ne
    rintro rfl
    exact other here
  refine ⟨{ books with
    chained := { books.chained with }
    segmented := segmented
    unowned := ?_
    queued := ?_
    history := { books.history with } }, ?_⟩
  · intro y free
    dsimp only at free ⊢
    rw [off y (by rw [free]; exact nofun)]
    exact books.unowned y free
  · intro k y mem
    dsimp only at mem ⊢
    rw [off y (by rw [((books.chained.queue_iff k y).mp mem).2]; exact nofun)]
    exact books.queued k y mem
  · intro q other
    refine (run.others q other).keep (fun _ _ => rfl) (fun _ _ => ⟨rfl, fun _ _ => rfl⟩) ?_
    intro y theirs
    apply off
    rw [run.other_header other theirs]
    exact fun eq => other (Place.held.inj eq)

theorem Running.rmalloc {size : Nat} (run : Running info s v p l (some x)) (empty : v.span x = (0, 0))
    (pos : 0 < size) : s.pool.rmalloc size = (0, s.pool) ∨ ∃ r h, r + size ≤ info.msgseg ∧
      s.pool.rmalloc size = (r + 1, h) ∧ h.msgque = s.pool.msgque ∧ Running info { s with pool := h }
        { v with span := update v.span x (size, r + 1) } p l (some x) := by
  obtain ⟨small, -⟩ := run.own_header rfl
  rcases run.books.segmented.rmalloc_ok small empty pos with refused | ⟨r, mp, nonzero, bound, got, segmented⟩
  · exact .inl refused
  · obtain ⟨r, rfl⟩ := exists_eq_add_one_of_ne_zero (ne_of_gt nonzero)
    exact .inr ⟨r, _, by omega, got, rfl, run.respan segmented⟩

variable {received : List (Nat × Nat)} {removed : List Nat} (h : Pool)

theorem rmfree_eq (size a : Nat) :
    ∃ mp lost, h.rmfree size a = { h with msgmap := mp, lost := lost } := by
  unfold Pool.rmfree
  split <;> exact ⟨_, _, rfl⟩

theorem Running.rmfree {size a : Nat} (run : Running info s v p l (some x))
    (owns : v.span x = (size, a)) : Running info { s with pool := s.pool.rmfree size a }
      { v with span := update v.span x (0, 0) } p l (some x) := by
  obtain ⟨mp, lost, same⟩ := rmfree_eq s.pool size a
  have segmented := run.books.segmented.rmfree_ok owns
  rw [same] at segmented ⊢
  exact run.respan segmented

theorem Running.want (run : Running info s v p l hd) :
    Running info { s with pool := s.pool.want } v p l hd :=
  have books := run.books
  ⟨{ books with
    chained := { books.chained with }
    segmented := books.segmented.want
    history := { books.history with } }, fun q other => { run.others q other with }⟩

/-! From a sender to a queue -/

theorem mem_enqueued (qs : Nat → List Nat) (k x j y : Nat) :
    y ∈ update qs k (qs k ++ [x]) j ↔ y ∈ qs j ∨ j = k ∧ y = x := by
  rw [update_apply]
  split
  · rename_i same
    subst same
    simp
  · rename_i other
    simp [other]

theorem History.send {h h' : Pool} (history : History h qs sent received removed)
    (off : ∀ j, x ∉ qs j) (serial : h'.serial = update h.serial x sent.length)
    (types : h'.msg_type = update h.msg_type x type) (ts : h'.msg_ts = update h.msg_ts x cnt) :
    History h' (update qs k (qs k ++ [x])) (sent ++ [⟨k, type, cnt⟩]) received removed := by
  have mem_iff := mem_enqueued qs k x
  have old : ∀ {j y}, y ∈ qs j → h'.serial y = h.serial y ∧ h'.msg_type y = h.msg_type y ∧
      h'.msg_ts y = h.msg_ts y := by
    intro j y mem
    have other : y ≠ x := by
      rintro rfl
      exact off j mem
    rw [serial, types, ts, update_of_ne other, update_of_ne other, update_of_ne other]
    exact ⟨rfl, rfl, rfl⟩
  have new : h'.serial x = sent.length ∧ h'.msg_type x = type ∧ h'.msg_ts x = cnt := by
    rw [serial, types, ts, update_self, update_self, update_self]
    exact ⟨rfl, rfl, rfl⟩
  have earlier : ∀ {j y}, y ∈ qs j → h.serial y < sent.length :=
    fun {j y} mem => (history.ledger _).mpr (.inr (.inr ⟨j, y, mem, rfl⟩))
  refine { history with contents := ?_, order := ?_, gone := ?_, ledger := ?_ }
  · intro j y mem
    rcases (mem_iff j y).mp mem with mem | ⟨rfl, rfl⟩
    · rw [(old mem).1, (old mem).2.1, (old mem).2.2, List.getElem?_append_left (earlier mem)]
      exact history.contents j y mem
    · rw [new.1, new.2.1, new.2.2, List.getElem?_concat_length]
  · intro j
    have kept : (qs j).Pairwise fun x y => h'.serial x < h'.serial y := by
      refine (history.order j).imp_of_mem ?_
      intro y z y_mem z_mem less
      rw [(old y_mem).1, (old z_mem).1]
      exact less
    rw [update_apply]
    split
    · rename_i same
      rw [← same]
      refine pairwise_append.mpr ⟨kept, pairwise_singleton .., ?_⟩
      intro y mem z last
      obtain rfl := mem_singleton.mp last
      rw [(old mem).1, new.1]
      exact earlier mem
    · exact kept
  · intro j y mem
    rcases (mem_iff j y).mp mem with mem | ⟨rfl, rfl⟩
    · rw [(old mem).1]
      exact history.gone j y mem
    · rw [new.1]
      constructor
      · intro listed
        exact lt_irrefl _ ((history.ledger _).mpr (.inl listed))
      · intro listed
        exact lt_irrefl _ ((history.ledger _).mpr (.inr (.inl listed)))
  · intro m
    rw [length_append, length_singleton]
    constructor
    · intro small
      by_cases last : m = sent.length
      · exact .inr (.inr ⟨k, x, (mem_iff k x).mpr (.inr ⟨rfl, rfl⟩), new.1.trans last.symm⟩)
      · rcases (history.ledger m).mp (by omega) with got | dropped | ⟨j, y, mem, eq⟩
        · exact .inl got
        · exact .inr (.inl dropped)
        · exact .inr (.inr ⟨j, y, (mem_iff j y).mpr (.inl mem), (old mem).1.trans eq⟩)
    · rintro (got | dropped | ⟨j, y, mem, eq⟩)
      · exact lt_succ_of_lt ((history.ledger m).mpr (.inl got))
      · exact lt_succ_of_lt ((history.ledger m).mpr (.inr (.inl dropped)))
      · rcases (mem_iff j y).mp mem with mem | ⟨rfl, rfl⟩
        · rw [← eq, (old mem).1]
          exact lt_succ_of_lt (earlier mem)
        · rw [← eq, new.1]
          exact lt_succ_self _

theorem link_frame (k mp : Nat) (type : Int) (cnt spot serial : Nat) :
    (h.link k mp type cnt spot serial).msgmap = h.msgmap ∧
    (h.link k mp type cnt spot serial).lost = h.lost ∧
    (h.link k mp type cnt spot serial).msg_type = update h.msg_type mp type ∧
    (h.link k mp type cnt spot serial).msg_ts = update h.msg_ts mp (toUshort cnt) ∧
    (h.link k mp type cnt spot serial).msg_spot =
      update h.msg_spot mp (toShort (if cnt ≠ 0 then spot else -1)) ∧
    (h.link k mp type cnt spot serial).serial = update h.serial mp serial := by
  unfold Pool.link
  dsimp only
  split <;> exact ⟨rfl, rfl, rfl, rfl, rfl, rfl⟩

theorem link_que (k mp : Nat) (type : Int) (cnt spot serial j : Nat) :
    ((h.link k mp type cnt spot serial).msgque j).alloc = (h.msgque j).alloc ∧
    ((h.link k mp type cnt spot serial).msgque j).msg_qnum =
      (h.msgque j).msg_qnum + (if j = k then 1 else 0) ∧
    ((h.link k mp type cnt spot serial).msgque j).msg_cbytes =
      (h.msgque j).msg_cbytes + if j = k then cnt else 0 := by
  unfold Pool.link Pool.setQueue
  dsimp only
  by_cases same : j = k
  · subst same
    split <;> simp
  · split <;> simp [same]

theorem Running.link (run : Running info s v p (some k) (some x))
    (owns : v.span x = if a.msgsz.toNat = 0 then (0, 0) else (btoq info a.msgsz.toNat, spot + 1))
    (fits : a.Fits info) (typed : 1 ≤ type) (small_spot : spot < 32768)
    (alloc : (s.pool.msgque k).alloc = true) :
    Running info { s with
      pool := s.pool.link k x type a.msgsz.toNat spot s.sent.length
      sent := s.sent ++ [⟨k, type, a.msgsz.toNat⟩] }
      { v with qs := update v.qs k (v.qs k ++ [x]),
               place := update v.place x (.queue k) } p (some k) none := by
  have books := run.books
  obtain ⟨small, here⟩ := run.own_header rfl
  have off : ∀ j, x ∉ v.qs j := fun j => books.chained.off_queue (by rw [here]; exact nofun)
  obtain ⟨map, lost, types, ts, spots, serials⟩ :=
    link_frame s.pool k x type a.msgsz.toNat spot s.sent.length
  have que := link_que s.pool k x type a.msgsz.toNat spot s.sent.length
  rw [fits.ushort] at ts
  have mem_iff := mem_enqueued v.qs k x
  have other_of : ∀ {j y}, y ∈ v.qs j → y ≠ x := by
    rintro j y mem rfl
    exact off j mem
  refine ⟨⟨books.chained.link_ok small here k type _ spot _, books.segmented.congr map lost, ?_, ?_,
    ?_, ?_, ?_, ?_, books.locks, books.mutex, ?_, ?_, ?_⟩, ?_⟩
  · exact held_update run x small (.inr rfl) (.inr ⟨rfl, nofun⟩)
  · exact books.unowned_update nofun
  · intro j y mem
    rw [ts, spots]
    rcases (mem_iff j y).mp mem with mem | ⟨-, rfl⟩
    · rw [update_of_ne (other_of mem), update_of_ne (other_of mem)]
      exact books.queued j y mem
    rw [update_self, update_self, owns]
    by_cases empty : a.msgsz.toNat = 0
    · rw [if_pos empty, empty, btoq_zero]
      rfl
    · rw [if_neg empty, if_pos empty]
      have plain : toShort (spot : Int) = spot := by
        unfold toShort
        rw [Int.bmod_def]
        split <;> omega
      rw [plain]
      rfl
  · intro j y mem
    rw [types]
    rcases (mem_iff j y).mp mem with mem | ⟨-, rfl⟩
    · rw [update_of_ne (other_of mem)]
      exact books.typed j y mem
    · rw [update_self]
      exact typed
  · intro j
    dsimp only
    rw [(que j).2.1, books.qnum, update_apply]
    split
    · rename_i same
      rw [same, length_append, length_singleton]
    · rfl
  · intro j
    have before := books.cbytes j
    have same_ts : (v.qs j).map (update s.pool.msg_ts x a.msgsz.toNat) =
        (v.qs j).map s.pool.msg_ts := by
      apply map_congr_left
      intro y mem
      exact update_of_ne (other_of mem) ..
    dsimp only
    rw [(que j).2.2, ts, update_apply]
    split
    · rename_i same
      subst same
      rw [map_append, same_ts, sum_append_nat, map_singleton, sum_singleton, update_self]
      omega
    · rw [same_ts]
      omega
  · intro j shut
    dsimp only at shut ⊢
    rw [(que j).1] at shut
    rw [update_apply]
    split
    · rename_i same
      rw [same, alloc] at shut
      exact nomatch shut
    · exact books.closed j shut
  · intro j used
    rw [(que j).1] at used
    exact books.range j used
  · exact books.history.send off serials types ts
  · intro q other
    refine (run.others q other).keep ?_ ?_ ?_
    · intro j _
      exact (que j).1
    · intro j theirs
      have differs := run.other_lock other rfl theirs
      refine ⟨update_of_ne differs .., fun y mem => ?_⟩
      rw [types]
      exact update_of_ne (other_of mem) ..
    · intro y theirs
      rfl

/-! From a queue to the free list -/

def Leaves (s : State) (p x : Nat) (received : List (Nat × Nat)) (removed : List Nat) : Prop :=
  received = s.received ++ [(s.pool.serial x, p)] ∧ removed = s.removed ∨
  received = s.received ∧ removed = s.removed ++ [s.pool.serial x]

theorem History.leave {h h' : Pool} {received' : List (Nat × Nat)} {removed' : List Nat}
    (history : History h qs sent received removed) (split : qs k = pre ++ x :: post)
    (nodup : (qs k).Nodup) (serial : h'.serial = h.serial) (types : h'.msg_type = h.msg_type)
    (ts : h'.msg_ts = h.msg_ts)
    (leaves : received' = received ++ [(h.serial x, p)] ∧ removed' = removed ∨ received' = received
      ∧ removed' = removed ++ [h.serial x]) :
    History h' (update qs k (pre ++ post)) sent received' removed' := by
  have here : x ∈ qs k := by
    rw [split]
    simp
  have order := history.order
  have not_gone := history.gone k x here
  -- no other message has this number
  have alone : ∀ j y, y ∈ qs j → h.serial y = h.serial x → j = k ∧ y = x := by
    intro j y mem same
    have one := history.contents j y mem
    have other := history.contents k x here
    rw [same, other] at one
    have key := congrArg Message.queue (Option.some.inj one)
    subst key
    refine ⟨rfl, ?_⟩
    by_contra differs
    have distinct : (qs k).Pairwise fun y z => h.serial y ≠ h.serial z :=
      (order k).imp fun less eq => ne_of_lt less eq
    have : Std.Symm fun y z : Nat => h.serial y ≠ h.serial z := ⟨fun _ _ => Ne.symm⟩
    exact distinct.forall mem here differs same
  have mem_iff : ∀ j y, y ∈ update qs k (pre ++ post) j ↔ y ∈ qs j ∧ ¬ (j = k ∧ y = x) := by
    intro j y
    rw [update_apply]
    by_cases same : j = k
    · subst same
      rw [if_pos rfl, mem_unlinked split nodup]
      simp
    · rw [if_neg same]
      simp [same]
  have stays : ∀ {j y}, y ∈ update qs k (pre ++ post) j → y ∈ qs j ∧ h.serial y ≠ h.serial x := by
    intro j y mem
    obtain ⟨mem, other⟩ := (mem_iff j y).mp mem
    exact ⟨mem, fun same => other (alone j y mem same)⟩
  have received_iff : ∀ m, m ∈ received'.map Prod.fst ∨ m ∈ removed' ↔
      m ∈ received.map Prod.fst ∨ m ∈ removed ∨ m = h.serial x := by
    intro m
    rcases leaves with ⟨rfl, rfl⟩ | ⟨rfl, rfl⟩
    · rw [map_append, mem_append, map_singleton, mem_singleton]
      tauto
    · rw [mem_append, mem_singleton]
  refine ⟨?_, ?_, ?_, ?_, ?_, ?_, ?_⟩
  · intro j y mem
    rw [serial, types, ts]
    exact history.contents j y (stays mem).1
  · intro j
    rw [serial, update_apply]
    split
    · have sub : (pre ++ post).Sublist (qs k) := by
        rw [split]
        exact (List.Sublist.refl pre).append (sublist_cons_self x post)
      exact (order k).sublist sub
    · exact order j
  · rcases leaves with ⟨rfl, -⟩ | ⟨rfl, -⟩
    · rw [map_append, map_singleton, ← concat_eq_append]
      exact history.received_once.concat not_gone.1
    · exact history.received_once
  · rcases leaves with ⟨-, rfl⟩ | ⟨-, rfl⟩
    · exact history.removed_once
    · rw [← concat_eq_append]
      exact history.removed_once.concat not_gone.2
  · intro m got dropped
    rcases leaves with ⟨rfl, rfl⟩ | ⟨rfl, rfl⟩
    · rw [map_append, mem_append, map_singleton, mem_singleton] at got
      rcases got with got | rfl
      · exact history.apart m got dropped
      · exact not_gone.2 dropped
    · rcases mem_append.mp dropped with dropped | last
      · exact history.apart m got dropped
      · obtain rfl := mem_singleton.mp last
        exact not_gone.1 got
  · intro j y mem
    obtain ⟨mem, other⟩ := stays mem
    obtain ⟨not_received, not_removed⟩ := history.gone j y mem
    have neither : ¬ (h.serial y ∈ received'.map Prod.fst ∨ h.serial y ∈ removed') := by
      rw [received_iff]
      rintro (got | dropped | same)
      · exact not_received got
      · exact not_removed dropped
      · exact other same
    rw [serial]
    exact ⟨fun got => neither (.inl got), fun dropped => neither (.inr dropped)⟩
  · intro m
    rw [history.ledger, ← or_assoc, ← or_assoc, received_iff, serial]
    constructor
    · rintro ((got | dropped) | ⟨j, y, mem, rfl⟩)
      · exact .inl (.inl got)
      · exact .inl (.inr (.inl dropped))
      · by_cases mine : j = k ∧ y = x
        · exact .inl (.inr (.inr (by rw [mine.2])))
        · exact .inr ⟨j, y, (mem_iff j y).mpr ⟨mem, mine⟩, rfl⟩
    · rintro ((got | dropped | rfl) | ⟨j, y, mem, rfl⟩)
      · exact .inl (.inl got)
      · exact .inl (.inr dropped)
      · exact .inr ⟨k, x, here, rfl⟩
      · exact .inr ⟨j, y, ((mem_iff j y).mp mem).1, rfl⟩

theorem unlink_que (k mp j : Nat) (pmp : Option Nat) :
    ((h.unlink k pmp mp).msgque j).alloc = (h.msgque j).alloc ∧
    ((h.unlink k pmp mp).msgque j).msg_qnum = (h.msgque j).msg_qnum - (if j = k then 1 else 0) ∧
    ((h.unlink k pmp mp).msgque j).msg_cbytes = (h.msgque j).msg_cbytes := by
  unfold Pool.unlink Pool.setQueue
  dsimp only
  by_cases same : j = k
  · subst same
    split <;> simp
  · split <;> simp [same]

theorem unlink_frame (k mp : Nat) (pmp : Option Nat) :
    (h.unlink k pmp mp).msgmap = h.msgmap ∧ (h.unlink k pmp mp).lost = h.lost ∧
    (h.unlink k pmp mp).msg_type = h.msg_type ∧ (h.unlink k pmp mp).msg_ts = h.msg_ts ∧
    (h.unlink k pmp mp).msg_spot = h.msg_spot ∧ (h.unlink k pmp mp).serial = h.serial := by
  unfold Pool.unlink
  dsimp only
  split <;> exact ⟨rfl, rfl, rfl, rfl, rfl, rfl⟩

theorem Segmented.respan {h : Pool} {span span' : Nat → Nat × Nat} (segmented : Segmented info h span)
    (same : ∀ y, text span' y = text span y) : Segmented info h span' := by
  refine ⟨segmented.map, segmented.slots, ?_, ?_, segmented.free_lost, ?_, ?_, ?_, segmented.lossless⟩
  · simp only [same]
    exact segmented.cover
  · simp only [same]
    exact segmented.free_text
  · simp only [same]
    exact segmented.text_lost
  · simp only [same]
    exact segmented.apart
  · simp only [same]
    exact segmented.headers

theorem Running.unlink (run : Running info s v p (some k) none) (split : v.qs k = pre ++ x :: post)
    (leaves : Leaves s p x received removed) :
    v.span x = (btoq info (s.pool.msg_ts x), (s.pool.msg_spot x + 1).toNat) ∧
    Running info { s with
      pool := s.pool.unlink k pre.getLast? x, received := received, removed := removed }
      { v with
        qs := update v.qs k (pre ++ post)
        place := update v.place x (.held p)
        debt := update v.debt k (v.debt k + s.pool.msg_ts x) } p (some k) (some x) := by
  have books := run.books
  have mem : x ∈ v.qs k := by
    rw [split]
    simp
  obtain ⟨small, here⟩ := (books.chained.queue_iff k x).mp mem
  have que := fun j => unlink_que s.pool k x j pre.getLast?
  obtain ⟨map, lost, types, ts, spots, serials⟩ := unlink_frame s.pool k x pre.getLast?
  have sub : ∀ {j y}, y ∈ update v.qs k (pre ++ post) j → y ∈ v.qs j := by
    intro j y listed
    rw [update_apply] at listed
    split at listed
    · rename_i same
      rw [same, split]
      simp only [mem_append, mem_cons] at listed ⊢
      tauto
    · exact listed
  refine ⟨books.queued k x mem, ⟨books.chained.unlink_ok split p,
    books.segmented.congr map lost, ?_, ?_, ?_, ?_, ?_, ?_, books.locks, books.mutex, ?_, ?_, ?_⟩, ?_⟩
  · refine held_update run x small (.inl ⟨rfl, ?_⟩) (.inl ⟨rfl, rfl⟩)
    intro q
    rw [here]
    exact nofun
  · exact books.unowned_update nofun
  · intro j y listed
    rw [ts, spots]
    exact books.queued j y (sub listed)
  · intro j y listed
    rw [types]
    exact books.typed j y (sub listed)
  · intro j
    dsimp only
    rw [(que j).2.1, books.qnum, update_apply]
    split
    · rename_i same
      rw [same, split]
      simp only [length_append, length_cons]
      omega
    · rfl
  · intro j
    have before := books.cbytes j
    dsimp only
    rw [(que j).2.2, ts, before, update_apply, update_apply]
    split
    · rename_i same
      rw [same, split]
      simp only [map_append, map_cons, sum_append_nat, sum_cons]
      omega
    · rfl
  · intro j shut
    rw [(que j).1] at shut
    have none := books.closed j shut
    apply eq_nil_iff_forall_not_mem.mpr
    intro y listed
    have := sub listed
    rw [none] at this
    exact nomatch this
  · intro j used
    rw [(que j).1] at used
    exact books.range j used
  · exact books.history.leave split (books.chained.queue_nodup k) serials types ts leaves
  · intro q other
    refine (run.others q other).keep ?_ ?_ ?_
    · intro j _
      exact (que j).1
    · intro j theirs
      have differs := run.other_lock other rfl theirs
      refine ⟨update_of_ne differs .., fun y _ => ?_⟩
      rw [types]
    · intro y theirs
      rfl

theorem Running.msgfree {received : List (Nat × Nat)} {removed : List Nat}
    (run : Running info s v p (some k) none) (split : v.qs k = pre ++ x :: post)
    (leaves : Leaves s p x received removed) :
    ∃ fs place span, Running info { s with
      pool := msgfree info s.pool k pre.getLast? x, received := received, removed := removed }
      ⟨fs, update v.qs k (pre ++ post), place, span,
        update v.debt k (v.debt k + s.pool.msg_ts x)⟩ p (some k) none := by
  obtain ⟨owns, run'⟩ := run.unlink split leaves
  obtain ⟨-, -, -, ts, spots, -⟩ := unlink_frame s.pool k x pre.getLast?
  unfold MessageQueues.msgfree
  dsimp only
  rw [ts, spots]
  by_cases empty : s.pool.msg_ts x = 0
  · rw [if_neg (not_not.mpr empty)]
    have bare : v.span x = (0, (s.pool.msg_spot x + 1).toNat) := by
      rw [owns, empty, btoq_zero]
    have same : ∀ y, text (update v.span x (0, 0)) y = text v.span y := by
      intro y
      rw [text_update]
      split
      · rename_i here
        unfold text
        rw [here, bare, range_empty, range_empty]
      · rfl
    have run'' := run'.respan (run'.books.segmented.respan same)
    exact ⟨_, _, _, run''.give (update_self ..)⟩
  · rw [if_pos empty]
    exact ⟨_, _, _, (run'.rmfree owns).give (update_self ..)⟩

theorem setQueue_forall {h : Pool} {qp : MsqidDs} (P : Nat → MsqidDs → Prop) (here : P k qp)
    (there : ∀ j, j ≠ k → P j (h.msgque j)) : ∀ j, P j ((h.setQueue k qp).msgque j) :=
  (forall_update_iff h.msgque P).mpr ⟨here, there⟩

theorem Running.setQueue (run : Running info s v p l hd)
    (alone : ∀ q, q ≠ p → (s.proc q).lock info ≠ some k) (qp : MsqidDs) (debt : Int)
    (first : qp.msg_first = (s.pool.msgque k).msg_first)
    (last : qp.msg_last = (s.pool.msgque k).msg_last) (qnum : qp.msg_qnum = (s.pool.msgque k).msg_qnum)
    (cbytes : (qp.msg_cbytes : Int) = ((v.qs k).map s.pool.msg_ts).sum + debt)
    (closed : qp.alloc = false → v.qs k = []) (range : qp.alloc = true → k < info.msgmni) :
    Running info { s with pool := s.pool.setQueue k qp }
      { v with debt := update v.debt k debt } p l hd := by
  have books := run.books
  refine ⟨{ books with
    chained := books.chained.congr rfl rfl
      (setQueue_forall (fun j q => q.msg_first = (s.pool.msgque j).msg_first) first fun _ _ => rfl)
      (setQueue_forall (fun j q => q.msg_last = (s.pool.msgque j).msg_last) last fun _ _ => rfl)
    segmented := { books.segmented with }
    qnum := setQueue_forall (fun j q => q.msg_qnum = (v.qs j).length) (qnum.trans (books.qnum k))
      fun j _ => books.qnum j
    cbytes := setQueue_forall
      (fun j q => (q.msg_cbytes : Int) = ((v.qs j).map s.pool.msg_ts).sum + update v.debt k debt j)
      ?_ ?_
    closed := setQueue_forall (fun j q => q.alloc = false → v.qs j = []) closed
      fun j _ => books.closed j
    range := setQueue_forall (fun j q => q.alloc = true → j < info.msgmni) range
      fun j _ => books.range j
    history := { books.history with } }, ?_⟩
  · rw [update_self]
    exact cbytes
  · intro j other
    rw [update_of_ne other]
    exact books.cbytes j
  · intro q other
    refine (run.others q other).keep ?_ (fun _ _ => ⟨rfl, fun _ _ => rfl⟩) fun _ _ => rfl
    intro j theirs
    have differs : j ≠ k := by
      rintro rfl
      exact alone q other theirs
    exact congrArg MsqidDs.alloc (update_of_ne differs ..)

end MessageQueues
