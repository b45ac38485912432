import Svr4.Streams.Queueing
import Svr4.Streams.Sides

/- io/stream.c and os/strsubr.c: what a queue does for the writers that found it full. The
   queues of one direction of a stream are numbered from its far end, so the back queue of
   queue `k + 1` is queue `k`. -/
namespace StreamQueues
open Function DoublyLinked List Nat

/-- A queue with the flags that wake service procedures up. The flags of band 0 are those of the
    queue itself. -/
structure Waking where
  queue : Queue
  /-- `QWANTW` and `QB_WANTW` -/
  wantw : Nat → Bool
  /-- `QBACK` and `QB_BACK` -/
  back : Nat → Bool
  /-- `q_flag & QWANTR` -/
  wantr : Bool
  /-- `q_flag & QNOENB` -/
  noenb : Bool
  /-- `q_flag & QENAB` -/
  enab : Bool
  /-- `q_qinfo->qi_srvp` -/
  srvp : Bool

abbrev Side := Nat → Waking

def Queue.count (q : Queue) (i : Nat) : Nat := if i = 0 then q.flow.count else (q.q_bandp i).count

def Queue.lowat (q : Queue) (i : Nat) : Nat := if i = 0 then q.flow.lowat else (q.q_bandp i).lowat

namespace Waking

def qenable (f : Waking) : Waking := if f.srvp then { f with enab := true } else f

/-- `setqback`; new bands have no flags. -/
def setqback (f : Waking) (pri supply : Nat) : Waking :=
  if pri = 0 then { f with back := update f.back 0 true }
  else
    let (q, fine) := f.queue.addBands pri supply
    let f := { f with
      queue := q
      wantw := fun i => f.wantw i && !decide (f.queue.q_nband < i)
      back := fun i => f.back i && !decide (f.queue.q_nband < i) }
    if fine then { f with back := update f.back pri true } else f

def wakeReader (f : Waking) (m : Mblk) : Waking :=
  if QNORM < m.queclass ∨ (f.noenb = false ∧ f.wantr = true) then f.qenable else f

/-- The loop over `qbf` from the last band down. -/
def backLoop (qbf : Nat → Bool) (supply : Nat) : Nat → Waking → Waking
  | 0, f => f
  | bpri + 1, f =>
      backLoop qbf supply bpri (if qbf (bpri + 1) then f.setqback (bpri + 1) supply else f)

end Waking

namespace Side

def nearest (s : Side) : Nat → Option Nat
  | 0 => none
  | k + 1 => if (s k).srvp then some k else nearest s k

/-- The end of `getq` and `rmvq` when a writer wants the band. -/
def backenable (s : Side) (k band supply : Nat) : Side :=
  let s := update s k { s k with wantw := update (s k).wantw band false }
  match nearest s k with
  | some b => update s b ((s b).qenable.setqback band supply)
  | none => s

def rmvq (s : Side) (k mp supply : Nat) : Option Side := do
  let f := s k
  let band := (f.queue.message mp).b_band
  let q ← f.queue.rmvq mp
  let s := update s k { f with queue := q }
  some (if q.count band ≤ q.lowat band ∧ f.wantw band = true then backenable s k band supply
    else s)

/-- `getq`; the second component is its return value. -/
def getq (s : Side) (k supply : Nat) : Option (Side × Option Nat) :=
  let f := s k
  match f.queue.list.first with
  | none =>
    let s := update s k { f with wantr := true }
    some (if f.wantw 0 then backenable s k 0 supply else s, none)
  | some bp =>
    if (f.queue.message bp).noget then
      match DList.skipWhile f.queue.list.next (fun p => (f.queue.message p).noget) f.queue.nmblk
          (some bp) with
      | none => some (s, none)
      | some bp => (rmvq s k bp supply).map fun s => (s, some bp)
    else do
      let band := (f.queue.message bp).b_band
      let q ← f.queue.getFirst bp
      let s := update s k { f with queue := q, wantr := false }
      some (if q.count band ≤ q.lowat band ∧ f.wantw band = true then backenable s k band supply
        else s, some bp)

/-- The end of `flushq`: mark the back queue for the bands in `qbf`. The loop runs over the bands
    of the back queue. -/
def flushBack (s : Side) (k nband : Nat) (qbf : Nat → Bool) (supply : Nat) : Side :=
  if (List.range (nband + 1)).any qbf then
    match nearest s k with
    | some b =>
      let f := (s b).qenable
      let f := f.backLoop qbf supply f.queue.q_nband
      update s b (if qbf 0 then f.setqback 0 supply else f)
    | none => s
  else s

def flushq (s : Side) (k : Nat) (flag : Bool) (supply : Nat) : Option Side := do
  let f := s k
  let (q, _) ← f.queue.flushq flag
  let kept := DList.walk q.list.next q.nmblk q.list.first
  let f := kept.foldl (fun f bp => f.wakeReader (q.message bp)) { f with queue := q }
  let qbf := fun i => decide (i ≤ q.q_nband) && f.wantw i && decide (q.count i ≤ q.lowat i)
  let s := update s k { f with wantw := fun i => f.wantw i && !qbf i }
  some (flushBack s k q.q_nband qbf supply)

end Side
end StreamQueues

/- Which bands a flush marks on the back queue. -/
namespace StreamQueues
open Function DoublyLinked List Nat

namespace Queue
variable {q t : Queue} {l rest held : List Nat} {bp i fuel : Nat} {d : DList Nat}
  {f : Qband → Qband}

theorem Exact.count_eq (books : q.Exact l) (inside : i ≤ q.q_nband) : q.count i = q.total i l := by
  unfold count
  by_cases zero : i = 0
  · rw [if_pos zero, zero, books.flow.count]
  · rw [if_neg zero, (books.bands i (Nat.pos_of_ne_zero zero) inside).flow.count]

theorem total_perm {l' : List Nat} (perm : l'.Perm l) : q.total i l' = q.total i l :=
  ((perm.filter _).map _).sum_eq

theorem enter_lowat (same : ∀ b, (f b).lowat = b.lowat) (entered : q.enter bp d f = some t) :
    t.lowat i = q.lowat i := by
  unfold enter at entered
  dsimp only at entered
  split at entered
  · obtain rfl := Option.some.inj entered
    rfl
  obtain ⟨qbp, found, entered⟩ := Option.bind_eq_some_iff.mp entered
  obtain rfl := Option.some.inj entered
  unfold qband at found
  split at found
  · obtain rfl := Option.some.inj found
    unfold lowat
    dsimp only
    split
    · rfl
    · by_cases here : i = (q.message bp).b_band
      · rw [here, update_self, same]
      · rw [update_of_ne here]
  · exact nomatch found

theorem Fits.putq_lowat (fits : q.Fits bp) {fine : Bool} (put : q.putq bp 0 = some (t, fine)) :
    t.lowat i = q.lowat i := by
  unfold putq at put
  rw [fits.sane_eq] at put
  obtain ⟨d, -, put⟩ := Option.bind_eq_some_iff.mp put
  obtain ⟨u, entered, put⟩ := Option.bind_eq_some_iff.mp put
  obtain rfl := (Prod.mk.inj (Option.some.inj put)).1
  have same : ∀ b, (q.putqBand bp b).lowat = b.lowat := fun _ => rfl
  exact enter_lowat same entered

theorem Exact.cleared_booked (books : q.Exact l) : q.cleared.Booked [] := by
  refine ⟨⟨DList.holds_nil rfl rfl, nofun, Flow.right_cleared books.flow.room, ?_⟩, ?_⟩
  · intro i pos inside
    exact ⟨rfl, rfl, Flow.right_cleared (books.bands i pos inside).flow.room⟩
  · exact fun _ _ => Blocks.together_of_none nofun

theorem Booked.flushLoop_ok (drop : Mblk → Bool) (booked : q.Booked held)
    (forward : DList.Forward q.list.next rest) (enough : rest.length ≤ fuel)
    (fits : ∀ a ∈ rest, q.Fits a) (nodup : (held ++ rest).Nodup) :
    ∃ t l' freed, flushLoop drop fuel q rest.head? = some (t, freed) ∧ t.Booked l' ∧
      l'.Perm (held ++ rest.filter fun a => !drop (q.message a)) ∧ t.message = q.message ∧
      t.q_nband = q.q_nband ∧ ∀ i, t.lowat i = q.lowat i := by
  induction rest generalizing fuel q held with
  | nil =>
    refine ⟨q, held, [], ?_, booked, ?_, rfl, rfl, fun _ => rfl⟩
    · cases fuel <;> rfl
    · rw [filter_nil, append_nil]
  | cons mp rest ih =>
    obtain ⟨next, forward⟩ := forward
    obtain ⟨fuel, rfl⟩ := exists_eq_add_one_of_ne_zero (ne_of_gt (zero_lt_of_lt enough))
    have enough : rest.length ≤ fuel := le_of_succ_le_succ enough
    have fits_rest : ∀ a ∈ rest, q.Fits a := fun a mem => fits a (mem_cons_of_mem _ mem)
    have shorter : (held ++ rest).Sublist (held ++ mp :: rest) :=
      (sublist_cons_self mp rest).append_left held
    rw [head?_cons]
    unfold flushLoop
    rw [next]
    cases dropped : drop (q.message mp) with
    | true =>
      obtain ⟨t, l', freed, looped, rest_ok⟩ :=
        ih booked forward enough fits_rest (nodup.sublist shorter)
      rw [if_pos rfl, looped, filter_cons_of_neg (by simp [dropped])]
      exact ⟨t, l', mp :: freed, rfl, rest_ok⟩
    | false =>
      obtain ⟨-, rest_nodup, apart⟩ := nodup_append.mp nodup
      obtain ⟨off_rest, -⟩ := nodup_cons.mp rest_nodup
      have off : mp ∉ held := fun mem => apart mp mem mp mem_cons_self rfl
      have mp_fits := fits mp mem_cons_self
      obtain ⟨s, held', put, s_booked, perm, s_message, s_nband, s_nmblk, frame⟩ :=
        booked.putq_back mp_fits off
      have s_forward : DList.Forward s.list.next rest := forward.congr fun x mem =>
        frame x (fun early => apart x early x (mem_cons_of_mem _ mem) rfl)
          fun same => off_rest (same ▸ mem)
      have s_nodup : (held' ++ rest).Nodup := by
        refine (Perm.nodup_iff ?_).mpr nodup
        exact (perm.append_right rest).trans perm_middle.symm
      obtain ⟨t, l', freed, looped, t_booked, t_perm, t_message, t_nband, t_lowat⟩ :=
        ih s_booked s_forward enough
          (fun x mem => (fits_rest x mem).congr (congrFun s_message x) s_nmblk s_nband.ge) s_nodup
      rw [if_neg Bool.false_ne_true, put, filter_cons_of_pos (by simp [dropped])]
      rw [s_message] at t_perm
      refine ⟨t, l', freed, looped, t_booked, ?_, t_message.trans s_message,
        t_nband.trans s_nband, fun i => (t_lowat i).trans (mp_fits.putq_lowat put)⟩
      exact t_perm.trans ((perm.append_right _).trans perm_middle.symm)

def kept (q : Queue) (flag : Bool) (l : List Nat) : List Nat :=
  l.filter fun a => !(flag || datamsg (q.message a).db_type)

theorem Exact.flushq_counts (books : q.Exact l) (flag : Bool) :
    ∃ t freed, q.flushq flag = some (t, freed) ∧ t.q_nband = q.q_nband ∧
      ∀ i ≤ q.q_nband, t.count i = q.total i (q.kept flag l) ∧ t.lowat i = q.lowat i := by
  have fits : ∀ a ∈ l, q.cleared.Fits a := fun a mem =>
    (books.fits a mem).congr rfl rfl (le_refl _)
  obtain ⟨t, l', freed, looped, booked, perm, message, nband, lowat⟩ :=
    books.cleared_booked.flushLoop_ok (fun m => flag || datamsg m.db_type) books.links.forward
      books.length_le fits books.links.nodup
  rw [← books.links.first] at looped
  refine ⟨t, freed, looped, nband, fun i inside => ⟨?_, ?_⟩⟩
  · rw [booked.toExact.count_eq (nband ▸ inside), total_message message, total_perm perm]
    rfl
  · rw [lowat i]
    rfl

theorem addBands_known (inside : i ≤ q.q_nband) (supply : Nat) :
    q.addBands i supply = (q, true) := by
  cases supply with
  | zero => exact Prod.ext rfl (decide_eq_true inside)
  | succ supply => exact if_neg (Nat.not_lt_of_le inside)

end Queue

namespace Waking
variable {f : Waking} {m : Mblk} {i n pri supply : Nat}

def Marked (f : Waking) (i : Nat) : Prop := i ≤ f.queue.q_nband ∧ f.back i = true

@[simp] theorem qenable_queue : f.qenable.queue = f.queue := by
  unfold qenable
  split <;> rfl

@[simp] theorem qenable_wantw : f.qenable.wantw = f.wantw := by
  unfold qenable
  split <;> rfl

theorem qenable_enab (srvp : f.srvp = true) : f.qenable.enab = true := by
  unfold qenable
  rw [if_pos srvp]

@[simp] theorem wakeReader_wantw : (f.wakeReader m).wantw = f.wantw := by
  unfold wakeReader
  split
  · exact qenable_wantw
  · rfl

theorem foldl_wantw (message : Nat → Mblk) (kept : List Nat) :
    (kept.foldl (fun f bp => f.wakeReader (message bp)) f).wantw = f.wantw := by
  induction kept generalizing f with
  | nil => rfl
  | cons bp kept ih => rw [foldl_cons, ih, wakeReader_wantw]

theorem setqback_known (inside : pri ≤ f.queue.q_nband) (supply : Nat) :
    (f.setqback pri supply).queue = f.queue ∧ (f.setqback pri supply).enab = f.enab ∧
      ∀ i ≤ f.queue.q_nband, (f.setqback pri supply).back i = true ↔ f.back i = true ∨ i = pri := by
  unfold setqback
  by_cases zero : pri = 0
  · rw [if_pos zero]
    refine ⟨rfl, rfl, fun i _ => ?_⟩
    dsimp only
    by_cases here : i = 0
    · simp [here, zero]
    · rw [update_of_ne here, zero]
      simp [here]
  · rw [if_neg zero, Queue.addBands_known inside]
    refine ⟨rfl, rfl, fun i le => ?_⟩
    dsimp only
    by_cases here : i = pri
    · simp [here]
    · rw [if_pos rfl]
      dsimp only
      rw [update_of_ne here]
      simp [here, le]

theorem setqback_marks (enough : pri ≤ f.queue.q_nband + supply) :
    (f.setqback pri supply).Marked pri ∧ (f.setqback pri supply).enab = f.enab := by
  unfold setqback
  by_cases zero : pri = 0
  · rw [if_pos zero, zero]
    exact ⟨⟨zero_le _, update_self 0 true f.back⟩, rfl⟩
  rw [if_neg zero]
  obtain ⟨bands, result⟩ := Queue.addBands_bands (q := f.queue) pri supply
  cases added : f.queue.addBands pri supply with
  | mk q fine =>
  rw [added] at bands result
  dsimp only at bands result ⊢
  rw [result, if_pos (decide_eq_true enough)]
  refine ⟨⟨?_, ?_⟩, rfl⟩
  · dsimp only
    omega
  · dsimp only
    exact update_self _ _ _

theorem backLoop_marks (qbf : Nat → Bool) (inside : n ≤ f.queue.q_nband) (supply : Nat) :
    (f.backLoop qbf supply n).queue = f.queue ∧ (f.backLoop qbf supply n).enab = f.enab ∧
      ∀ i ≤ f.queue.q_nband, (f.backLoop qbf supply n).back i = true ↔
        f.back i = true ∨ (0 < i ∧ i ≤ n ∧ qbf i = true) := by
  induction n generalizing f with
  | zero =>
    refine ⟨rfl, rfl, fun i _ => ?_⟩
    have none_below : ¬(0 < i ∧ i ≤ 0 ∧ qbf i = true) := by omega
    simp only [backLoop, none_below, or_false]
  | succ n ih =>
    unfold backLoop
    by_cases wanted : qbf (n + 1) = true
    · rw [if_pos wanted]
      obtain ⟨queue, enab, marks⟩ := setqback_known inside supply
      obtain ⟨queue', enab', marks'⟩ := ih (f := f.setqback (n + 1) supply) (by rw [queue]; omega)
      refine ⟨queue'.trans queue, enab'.trans enab, fun i le => ?_⟩
      rw [marks' i (by rw [queue]; exact le), marks i le, or_assoc]
      refine or_congr_right ⟨?_, ?_⟩
      · rintro (rfl | ⟨pos, upper, here⟩)
        · exact ⟨succ_pos n, le_refl _, wanted⟩
        · exact ⟨pos, le_succ_of_le upper, here⟩
      · rintro ⟨pos, upper, here⟩
        rcases lt_or_eq_of_le upper with less | rfl
        · exact .inr ⟨pos, le_of_lt_succ less, here⟩
        · exact .inl rfl
    · rw [if_neg wanted]
      obtain ⟨queue, enab, marks⟩ := ih (le_of_succ_le inside)
      refine ⟨queue, enab, fun i le => ?_⟩
      rw [marks i le]
      refine or_congr_right ⟨fun ⟨pos, upper, here⟩ => ⟨pos, le_succ_of_le upper, here⟩, ?_⟩
      rintro ⟨pos, upper, here⟩
      rcases lt_or_eq_of_le upper with less | rfl
      · exact ⟨pos, le_of_lt_succ less, here⟩
      · exact absurd here wanted

end Waking

namespace Side
variable {s t : Side} {k b i : Nat}

theorem nearest_below (found : nearest s k = some b) : b < k ∧ (s b).srvp = true := by
  induction k with
  | zero => exact nomatch found
  | succ k ih =>
    unfold nearest at found
    split at found
    · rename_i srvp
      obtain rfl := Option.some.inj found
      exact ⟨lt_succ_self k, srvp⟩
    · obtain ⟨below, srvp⟩ := ih found
      exact ⟨lt_succ_of_lt below, srvp⟩

theorem nearest_congr (same : ∀ j < k, t j = s j) : nearest t k = nearest s k := by
  induction k with
  | zero => rfl
  | succ k ih =>
    unfold nearest
    rw [same k (lt_succ_self k), ih fun j less => same j (lt_succ_of_lt less)]

theorem nearest_update (f : Waking) : nearest (update s k f) k = nearest s k :=
  nearest_congr fun _ less => update_of_ne less.ne _ _

def Woken (s t : Side) (k i : Nat) : Prop :=
  (t k).wantw i = false ∧ ∀ b, nearest s k = some b → (t b).enab = true ∧ (t b).Marked i

def Due (s : Side) (k : Nat) (l : List Nat) (flag : Bool) (i : Nat) : Prop :=
  (s k).wantw i = true ∧
    (s k).queue.total i ((s k).queue.kept flag l) ≤ (s k).queue.lowat i

theorem backenable_woken {band supply : Nat}
    (enough : ∀ b, nearest s k = some b → band ≤ (s b).queue.q_nband + supply) :
    Woken s (backenable s k band supply) k band := by
  unfold backenable
  dsimp only
  rw [nearest_update]
  cases found : nearest s k with
  | none =>
    refine ⟨?_, fun b same => ?_⟩
    · dsimp only
      rw [update_self]
      exact update_self _ _ _
    · rw [found] at same
      exact nomatch same
  | some b =>
    obtain ⟨below, srvp⟩ := nearest_below found
    refine ⟨?_, fun b' same => ?_⟩
    · dsimp only
      rw [update_of_ne below.ne', update_self]
      exact update_self _ _ _
    · rw [found] at same
      obtain rfl := Option.some.inj same
      dsimp only
      rw [update_self, update_of_ne below.ne]
      have room : band ≤ (s b).qenable.queue.q_nband + supply := by
        rw [Waking.qenable_queue]
        exact enough b found
      obtain ⟨marked, enab⟩ := Waking.setqback_marks room
      exact ⟨enab.trans (Waking.qenable_enab srvp), marked⟩

/-- A wanted band with room after the removal is woken, unless the back queue cannot have it. -/
def Wakes (s u : Side) (k band supply : Nat) : Prop :=
  (s k).wantw band = true → (u k).queue.count band ≤ (u k).queue.lowat band →
    (∀ b, nearest s k = some b → band ≤ (s b).queue.q_nband + supply) → Woken s u k band

theorem backenable_update_woken {band supply : Nat} (f : Waking)
    (enough : ∀ b, nearest s k = some b → band ≤ (s b).queue.q_nband + supply) :
    Woken s (backenable (update s k f) k band supply) k band := by
  have woken : Woken (update s k f) (backenable (update s k f) k band supply) k band := by
    refine backenable_woken fun b found => ?_
    rw [nearest_update] at found
    rw [update_of_ne (nearest_below found).1.ne]
    exact enough b found
  unfold Woken at woken ⊢
  rwa [nearest_update] at woken

theorem removal_wakes {band supply : Nat} (f : Waking) :
    Wakes s (if f.queue.count band ≤ f.queue.lowat band ∧ (s k).wantw band = true then
      backenable (update s k f) k band supply else update s k f) k band supply := by
  intro wanted low enough
  by_cases due : f.queue.count band ≤ f.queue.lowat band ∧ (s k).wantw band = true
  · rw [if_pos due]
    exact backenable_update_woken f enough
  · rw [if_neg due, update_self] at low
    exact absurd ⟨low, wanted⟩ due

theorem rmvq_wakes {mp supply : Nat} {u : Side} (taken : rmvq s k mp supply = some u) :
    Wakes s u k ((s k).queue.message mp).b_band supply := by
  obtain ⟨q, -, taken⟩ := Option.bind_eq_some_iff.mp taken
  obtain rfl := Option.some.inj taken
  exact removal_wakes { s k with queue := q }

theorem getq_wakes {supply : Nat} {u : Side} {r : Option Nat}
    (taken : getq s k supply = some (u, r)) :
    ((s k).queue.list.first = none → (s k).wantw 0 = true → Woken s u k 0) ∧
      ∀ bp, r = some bp → Wakes s u k ((s k).queue.message bp).b_band supply := by
  unfold getq at taken
  cases first : (s k).queue.list.first with
  | none =>
    simp only [first, Option.some.injEq, Prod.mk.injEq] at taken
    obtain ⟨rfl, rfl⟩ := taken
    refine ⟨fun _ wanted => ?_, nofun⟩
    rw [if_pos wanted]
    exact backenable_update_woken _ fun b _ => zero_le _
  | some bp =>
    refine ⟨nofun, fun bp' got => ?_⟩
    subst got
    simp only [first] at taken
    split at taken
    · split at taken
      · cases taken
      · obtain ⟨t, removed, same⟩ := Option.map_eq_some_iff.mp taken
        simp only [Prod.mk.injEq, Option.some.injEq] at same
        obtain ⟨rfl, rfl⟩ := same
        exact rmvq_wakes removed
    · obtain ⟨q, -, same⟩ := Option.bind_eq_some_iff.mp taken
      simp only [Option.some.injEq, Prod.mk.injEq] at same
      obtain ⟨rfl, rfl⟩ := same
      exact removal_wakes { s k with queue := q, wantr := false }

/-- What `flushq` leaves: the due bands are no longer wanted, and those of them that the back queue
    has are marked on it. -/
theorem flushq_spec {l : List Nat} (books : (s k).queue.Exact l) (flag : Bool) (supply : Nat) :
    ∃ t, flushq s k flag supply = some t ∧ (∀ i ≤ (s k).queue.q_nband,
        ((t k).wantw i = true ↔ (s k).wantw i = true ∧ ¬Due s k l flag i)) ∧
      ∀ b, nearest s k = some b → (t b).queue.q_nband = (s b).queue.q_nband ∧
        ∀ i ≤ (s k).queue.q_nband, Due s k l flag i → (t b).enab = true ∧
          (i ≤ (s b).queue.q_nband → (t b).back i = true) := by
  obtain ⟨q, freed, flushed, nband, counts⟩ := books.flushq_counts flag
  obtain ⟨qbf, qbf_eq⟩ : ∃ qbf : Nat → Bool, qbf = fun i => decide (i ≤ q.q_nband) &&
      (s k).wantw i && decide (q.count i ≤ q.lowat i) := ⟨_, rfl⟩
  have due_iff : ∀ i ≤ (s k).queue.q_nband, (qbf i = true ↔ Due s k l flag i) := by
    intro i inside
    obtain ⟨count, lowat⟩ := counts i inside
    unfold Due
    rw [qbf_eq]
    dsimp only
    rw [count, lowat, nband]
    simp [inside]
  unfold flushq
  dsimp only
  rw [flushed]
  dsimp only [Option.bind_eq_bind, Option.bind_some]
  simp only [Waking.foldl_wantw]
  rw [← qbf_eq]
  obtain ⟨f, f_eq⟩ : ∃ f : Waking, f = foldl (fun f bp => f.wakeReader (q.message bp))
      { s k with queue := q } (DList.walk q.list.next q.nmblk q.list.first) := ⟨_, rfl⟩
  rw [← f_eq]
  have wanted : ∀ i ≤ (s k).queue.q_nband, (((s k).wantw i && !qbf i) = true ↔
      (s k).wantw i = true ∧ ¬Due s k l flag i) := by
    intro i inside
    rw [Bool.and_eq_true, Bool.not_eq_true', ← due_iff i inside, Bool.not_eq_true]
  rw [qbf_eq] at wanted
  have some_due : ∀ i ≤ (s k).queue.q_nband, Due s k l flag i →
      (range (q.q_nband + 1)).any qbf = true := by
    intro i inside due
    refine any_eq_true.mpr ⟨i, mem_range.mpr ?_, (due_iff i inside).mpr due⟩
    rw [nband]
    exact lt_succ_of_le inside
  refine ⟨_, rfl, ?_⟩
  unfold flushBack
  rw [nearest_update]
  by_cases backenable : (range (q.q_nband + 1)).any qbf = true
  swap
  · rw [if_neg backenable]
    refine ⟨fun i inside => ?_, fun b found => ?_⟩
    · rw [update_self]
      exact wanted i inside
    · obtain ⟨below, -⟩ := nearest_below found
      rw [update_of_ne below.ne]
      exact ⟨rfl, fun i inside due => absurd (some_due i inside due) backenable⟩
  rw [if_pos backenable]
  cases found : nearest s k with
  | none =>
    refine ⟨fun i inside => ?_, nofun⟩
    dsimp only
    rw [update_self]
    exact wanted i inside
  | some b =>
    obtain ⟨below, srvp⟩ := nearest_below found
    dsimp only
    rw [update_of_ne below.ne' _ (update s k _), update_self, update_of_ne below.ne]
    refine ⟨wanted, ?_⟩
    rintro b' ⟨⟩
    rw [update_self]
    obtain ⟨queue, enab, marks⟩ := Waking.backLoop_marks qbf
      (le_refl (s b).qenable.queue.q_nband) supply
    rw [Waking.qenable_queue] at queue enab marks ⊢
    by_cases zero : qbf 0 = true
    · rw [if_pos zero]
      obtain ⟨queue', enab', marks'⟩ := Waking.setqback_known
        (f := (s b).qenable.backLoop qbf supply (s b).queue.q_nband) (zero_le _) supply
      rw [queue] at queue' marks'
      rw [queue', enab', enab]
      refine ⟨rfl, fun i inside due => ⟨Waking.qenable_enab srvp, fun upper => ?_⟩⟩
      rw [marks' i upper, marks i upper]
      rcases Nat.eq_zero_or_pos i with rfl | pos
      · exact .inr rfl
      · exact .inl (.inr ⟨pos, upper, (due_iff i inside).mpr due⟩)
    · rw [if_neg zero, queue, enab]
      refine ⟨rfl, fun i inside due => ⟨Waking.qenable_enab srvp, fun upper => ?_⟩⟩
      rw [marks i upper]
      refine .inr ⟨Nat.pos_of_ne_zero ?_, upper, (due_iff i inside).mpr due⟩
      rintro rfl
      exact zero ((due_iff 0 inside).mpr due)

end Side

/-- A flush wakes every band it should, and clears no flag for nothing, iff the back queue has all
the bands due; `getq` and `rmvq` mark theirs for any band that can be allocated. -/
theorem flushq_wakes_iff {s : Side} {k : Nat} {l : List Nat} (books : (s k).queue.Exact l)
    (flag : Bool) (supply : Nat) : ∃ t, Side.flushq s k flag supply = some t ∧
      (((∀ i ≤ (s k).queue.q_nband, Side.Due s k l flag i → Side.Woken s t k i) ∧
          ∀ i ≤ (s k).queue.q_nband, (s k).wantw i = true → (t k).wantw i = false →
            ∀ b, Side.nearest s k = some b → (t b).Marked i) ↔
        ∀ b, Side.nearest s k = some b → ∀ i ≤ (s k).queue.q_nband, Side.Due s k l flag i →
          i ≤ (s b).queue.q_nband) ∧
      (∀ mp u, Side.rmvq s k mp supply = some u →
        Side.Wakes s u k ((s k).queue.message mp).b_band supply) ∧
      ∀ u r, Side.getq s k supply = some (u, r) →
        ((s k).queue.list.first = none → (s k).wantw 0 = true → Side.Woken s u k 0) ∧
        ∀ bp, r = some bp → Side.Wakes s u k ((s k).queue.message bp).b_band supply := by
  obtain ⟨t, flushed, wanted, marked⟩ := Side.flushq_spec books flag supply
  refine ⟨t, flushed, ⟨?_, fun enough => ⟨fun i inside due => ⟨?_, fun b found => ?_⟩, ?_⟩⟩,
    fun _ _ taken => Side.rmvq_wakes taken, fun _ _ taken => Side.getq_wakes taken⟩
  · rintro ⟨woken, -⟩ b found i inside due
    have upper := ((woken i inside due).2 b found).2.1
    rwa [(marked b found).1] at upper
  · by_contra still
    exact ((wanted i inside).mp (by simpa using still)).2 due
  · obtain ⟨nband, marks⟩ := marked b found
    obtain ⟨enab, back⟩ := marks i inside due
    have upper := enough b found i inside due
    exact ⟨enab, nband ▸ upper, back upper⟩
  · intro i inside want cleared b found
    have due : Side.Due s k l flag i := by
      by_contra not_due
      rw [(wanted i inside).mpr ⟨want, not_due⟩] at cleared
      exact Bool.false_ne_true cleared.symm
    obtain ⟨nband, marks⟩ := marked b found
    have upper := enough b found i inside due
    exact ⟨nband ▸ upper, (marks i inside due).2 upper⟩

/-- Two queues with service procedures; a writer wants band 1 of the second, empty one, and the
first has as many bands as told. -/
def twoQueues (bands : Nat) : Side := fun k =>
  { queue := { fourMessages with
      q_nband := if k = 0 then bands else 1
      q_bandp := fun _ => { fourMessages.flow with qb_first := none, qb_last := none } }
    wantw := fun i => decide (k = 1 ∧ i = 1)
    back := fun _ => false
    wantr := false
    noenb := false
    enab := false
    srvp := true }

theorem twoQueues_books (bands : Nat) : ((twoQueues bands) 1).queue.Exact [] := by
  have flow : fourMessages.flow.Right 0 := ⟨by decide, rfl, by decide⟩
  exact ⟨DList.holds_nil rfl rfl, nofun, flow, fun i pos inside => ⟨rfl, rfl, flow⟩⟩

theorem flushq_wakes_iff_two : ∃ t, Side.flushq (twoQueues 1) 1 true 0 = some t ∧
    Side.Woken (twoQueues 1) t 1 1 := by
  obtain ⟨t, flushed, wakes, -⟩ := flushq_wakes_iff (twoQueues_books 1) true 0
  refine ⟨t, flushed, (wakes.mpr ?_).1 1 (le_refl 1) ⟨rfl, zero_le _⟩⟩
  rintro b ⟨⟩ i inside -
  exact inside

/-- Queue 1 holds ten bytes of band 3, past its high water mark, and a writer of the band waits. The
back queue has no bands yet. -/
def fullBand : Side := fun k =>
  { twoQueues 0 0 with
    queue := if k = 1 then ((fourMessages.putq 0 9).map Prod.fst).getD fourMessages else fourMessages
    wantw := fun i => decide (k = 1 ∧ i = 3) }

/-- Band 3 is no longer wanted, and nobody is told. -/
theorem flushq_loses_band : ((fullBand 1).queue.q_bandp 3).full = true ∧
    (fullBand 1).queue.messages = [0] ∧ Side.Due fullBand 1 [0] true 3 ∧
    Side.nearest fullBand 1 = some 0 ∧ ∃ t, Side.flushq fullBand 1 true 9 = some t ∧
      (t 1).wantw 3 = false ∧ (t 0).enab = true ∧ (t 0).back 3 = false ∧
      (t 0).queue.q_nband = 0 := by
  refine ⟨by decide +kernel, by decide +kernel, ⟨rfl, zero_le _⟩, rfl, ?_⟩
  have ran : (Side.flushq fullBand 1 true 9).map (fun t => ((t 1).wantw 3, (t 0).enab,
      (t 0).back 3, (t 0).queue.q_nband)) = some (false, true, false, 0) := by decide +kernel
  obtain ⟨t, flushed, seen⟩ := Option.map_eq_some_iff.mp ran
  exact ⟨t, flushed, by simpa using seen⟩

end StreamQueues
