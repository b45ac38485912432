import Svr4.Runs
import Svr4.TailedLists

/- os/strsubr.c, io/stream.c: the list of the queues whose service procedures are to run, while
   modules are pushed and popped. Open and close routines may sleep, so any number of calls are
   under way at once; `qenable` and `putq` may come from any of them and from interrupts. -/
namespace StreamRuns
open Function LabelledRuns TailedLists List Option

/-- `srvp` is `q_qinfo->qi_srvp`. -/
structure Queue where
  QENAB : Bool
  QREADR : Bool
  QBACK : Bool
  q_next : Option Nat
  srvp : Bool
  deriving DecidableEq

/-- A write queue lies behind its read queue. The lists are the read queues whose open routine runs,
whose `qdetach` has been called, and whose close routine runs; `serving` is the queue whose service
procedure runs. -/
structure Kernel where
  queues : Nat → Option Queue
  q_link : Nat → Option Nat
  qhead : Option Nat
  qtail : Option Nat
  qrunflag : Bool
  queueflag : Bool
  serving : Option Nat
  opening : List Nat
  ready : List Nat
  closing : List Nat

inductive Label
  | qattach (qp rq : Nat) (rsrvp wsrvp : Bool)
  | opened (rq : Nat) (setq : Option (Bool × Bool))
  | open_failed (rq : Nat)
  | qdetach (rq : Nat)
  | close (rq : Nat)
  | detach (rq : Nat) (wantw_read wantw_write : Bool) (rounds : Nat)
  | qenable (q : Nat)
  | putq (q : Nat) (enables : Bool)
  | runqueues
  | serve
  | served
  | done

section
variable (queues : Nat → Option Queue)

def OTHERQ (q : Nat) : Option Nat :=
  (queues q).map fun queue => if queue.QREADR then q + 1 else q - 1

def backq (q : Nat) : Option (Option Nat) :=
  (OTHERQ queues q).bind fun other =>
    (queues other).bind fun queue =>
      match queue.q_next with
      | none => some none
      | some q => (OTHERQ queues q).map some

def nearest : Nat → Option Nat → Option (Option Nat)
  | _, none => some none
  | 0, some _ => none
  | rounds + 1, some q =>
      (queues q).bind fun queue =>
        if queue.srvp then some (some q) else (backq queues q).bind (nearest rounds)

/-- The queue that `flushq` enables for its writers. -/
def back (rounds q : Nat) : Option (Option Nat) := (backq queues q).bind (nearest queues rounds)

end

namespace Kernel

def ends (s : Kernel) : Ends := ⟨s.q_link, s.qhead, s.qtail⟩

def setEnds (s : Kernel) (e : Ends) : Kernel :=
  { s with q_link := e.next, qhead := e.head, qtail := e.tail }

def setQueue (s : Kernel) (q : Nat) (queue : Option Queue) : Kernel :=
  { s with queues := update s.queues q queue }

def enabled (s : Kernel) (q : Nat) : Bool := (s.queues q).any Queue.QENAB

def setNext (s : Kernel) (q : Nat) (q_next : Option Nat) : Option Kernel :=
  (s.queues q).map fun queue => s.setQueue q (some { queue with q_next := q_next })

def allocq (s : Kernel) (rq : Nat) (rd wr : Queue) : Kernel :=
  { (s.setQueue rq (some rd)).setQueue (rq + 1) (some wr) with
    q_link := update (update s.q_link rq none) (rq + 1) none }

/-- `if (WR(qp)->q_next) OTHERQ(WR(qp)->q_next)->q_next = rq;` -/
def join (s : Kernel) (rq : Nat) : Option Nat → Option Kernel
  | none => some s
  | some q => (OTHERQ s.queues q).bind fun other => s.setNext other (some rq)

/-- `qattach` up to the open routine -/
def qattach (s : Kernel) (qp rq : Nat) (rsrvp wsrvp : Bool) : Option Kernel :=
  match s.queues qp, s.queues (qp + 1), s.queues rq, s.queues (rq + 1) with
  | some _, some wr, none, none =>
      let s := s.allocq rq ⟨false, true, false, some qp, rsrvp⟩
        ⟨false, false, false, wr.q_next, wsrvp⟩
      (s.join rq wr.q_next).bind fun s =>
        (s.setNext (qp + 1) (some (rq + 1))).map fun s => { s with opening := rq :: s.opening }
  | _, _, _, _ => none

def setSrvp (s : Kernel) (q : Nat) (srvp : Bool) : Kernel :=
  s.setQueue q ((s.queues q).map fun queue => { queue with srvp := srvp })

def setq (s : Kernel) (rq : Nat) (rsrvp wsrvp : Bool) : Kernel :=
  (s.setSrvp rq rsrvp).setSrvp (rq + 1) wsrvp

def qenable (s : Kernel) (q : Nat) : Kernel :=
  match s.queues q with
  | none => s
  | some queue =>
      if !queue.srvp || queue.QENAB then s
      else
        { (s.setQueue q (some { queue with QENAB := true })).setEnds (enqueue s.ends q) with
          qrunflag := true }

/-- `backq(q)->q_next = q->q_next` -/
def bypass (s : Kernel) (q : Nat) : Option Kernel :=
  (backq s.queues q).bind fun behind =>
    match behind with
    | none => some s
    | some behind => (s.queues q).bind fun queue => s.setNext behind queue.q_next

def release (s : Kernel) (rq : Nat) : Option Kernel :=
  (s.bypass rq).bind fun s => (s.bypass (rq + 1)).map fun s =>
    (s.setQueue rq none).setQueue (rq + 1) none

/-- `for (q = qhead; q; q = q->q_link)`, when one of the two is enabled -/
def unlist (s : Kernel) (rq rounds : Nat) : Option Kernel :=
  if s.enabled rq || s.enabled (rq + 1) then
    (sweep (fun q => q == rq || q == rq + 1) rounds s.ends none s.qhead).map s.setEnds
  else some s

/-- What `flushq` does to other queues: `wantw` says that somebody waits for room in `q`. -/
def flushq (s : Kernel) (q : Nat) (wantw : Bool) (rounds : Nat) : Option Kernel :=
  if wantw then
    (back s.queues rounds q).map fun behind =>
      match behind with
      | none => s
      | some q => s.qenable q
  else some s

def detach (s : Kernel) (rq : Nat) (wantw_read wantw_write : Bool) (rounds : Nat) :
    Option Kernel :=
  (s.unlist rq rounds).bind fun s =>
    (s.flushq rq wantw_read rounds).bind fun s =>
      (s.flushq (rq + 1) wantw_write rounds).bind fun s => s.release rq

/-- One round of the loop of `queuerun` up to the service procedure. -/
def serve (s : Kernel) : Option Kernel :=
  s.qhead.bind fun q =>
    (s.queues q).map fun queue =>
      { (s.setQueue q (some { queue with QENAB := false })).setEnds (dequeue s.ends q) with
        serving := if queue.srvp then some q else none }

/-- Processes do not move while `queuerun` does its work; it does not sleep. -/
def step (s : Kernel) : Label → Option Kernel
  | .qattach qp rq rsrvp wsrvp =>
      if s.queueflag then none else s.qattach qp rq rsrvp wsrvp
  | .opened rq setq =>
      if s.queueflag ∨ rq ∉ s.opening then none
      else
        some { (match setq with
          | none => s
          | some (rsrvp, wsrvp) => s.setq rq rsrvp wsrvp) with opening := s.opening.erase rq }
  | .open_failed rq =>
      if s.queueflag ∨ rq ∉ s.opening then none
      else (s.release rq).map fun t => { t with opening := s.opening.erase rq }
  | .qdetach rq =>
      if s.queueflag ∨ rq ∈ s.opening ++ s.ready ++ s.closing then none
      else some { s with ready := rq :: s.ready }
  | .close rq =>
      if s.queueflag ∨ rq ∉ s.ready then none
      else
        some { s with
          queueflag := s.qrunflag
          ready := s.ready.erase rq
          closing := rq :: s.closing }
  | .detach rq wantw_read wantw_write rounds =>
      if s.queueflag ∨ rq ∉ s.closing then none
      else (s.detach rq wantw_read wantw_write rounds).map fun t =>
        { t with closing := s.closing.erase rq }
  | .qenable q => (s.queues q).map fun _ => s.qenable q
  | .putq q enables => (s.queues q).map fun _ => if enables then s.qenable q else s
  | .runqueues => if s.qrunflag ∧ !s.queueflag then some { s with queueflag := true } else none
  | .serve => if s.queueflag ∧ s.serving = none then s.serve else none
  | .served =>
      s.serving.bind fun q => (s.queues q).map fun queue =>
        { s.setQueue q (some { queue with QBACK := false }) with serving := none }
  | .done =>
      if s.queueflag ∧ s.serving = none ∧ s.qhead = none then
        some { s with qrunflag := false, queueflag := false }
      else none

end Kernel

/-- The run list is a proper list of just the enabled queues, each once, none of them freed. -/
def RunList (s : Kernel) : Prop := ∃ l, Held s.ends l ∧ ∀ q, q ∈ l ↔ s.enabled q = true

/-- A queue of the pair taken off the list is not enabled by the flush of either. -/
def Unmoved (s : Kernel) (rq rounds q : Nat) : Prop :=
  ∀ b ∈ [rq, rq + 1], back s.queues rounds q = some (some b) → s.enabled b = true

instance (s : Kernel) (rq rounds q : Nat) : Decidable (Unmoved s rq rounds q) :=
  inferInstanceAs (Decidable (∀ b ∈ [rq, rq + 1], _ → _))

/-- A failed open leaves neither queue enabled, and flushing a pair off the list does not enable it.
-/
def Careful (s : Kernel) : Label → Prop
  | .open_failed rq => s.enabled rq = false ∧ s.enabled (rq + 1) = false
  | .detach rq wantw_read wantw_write rounds =>
      (wantw_read = true → Unmoved s rq rounds rq) ∧
        (wantw_write = true → Unmoved s rq rounds (rq + 1))
  | _ => True

instance (s : Kernel) : ∀ l, Decidable (Careful s l)
  | .open_failed _ => inferInstanceAs (Decidable (_ ∧ _))
  | .detach .. => inferInstanceAs (Decidable ((_ → _) ∧ (_ → _)))
  | .qattach .. | .opened .. | .qdetach _ | .close _ | .qenable _ | .putq .. | .runqueues
  | .serve | .served | .done =>
    isTrue trivial

section
variable {s t : Kernel} {q rq rounds : Nat} {queue : Queue} {l : List Nat} {goes : Nat → Prop}
  {label : Label} {labels : List Label}

/-- The run list while the queues in `goes`, which may be enabled still, are off it. -/
structure Listed (goes : Nat → Prop) (s : Kernel) (l : List Nat) : Prop where
  held : Held s.ends l
  listed : ∀ q, ¬ goes q → (q ∈ l ↔ s.enabled q = true)
  off : ∀ q, goes q → q ∉ l

theorem RunList.all (runs : RunList s) : ∃ l, Listed (fun _ => False) s l := by
  obtain ⟨l, held, listed⟩ := runs
  exact ⟨l, held, fun q _ => listed q, fun _ => False.elim⟩

theorem Listed.run_list (listed : Listed (fun _ => False) s l) : RunList s :=
  ⟨l, listed.held, fun q => listed.listed q id⟩

theorem Listed.congr (listed : Listed goes s l) (ends : t.ends = s.ends)
    (same : ∀ q, t.enabled q = s.enabled q) : Listed goes t l where
  held := ends ▸ listed.held
  listed q stays := by rw [same, listed.listed q stays]
  off := listed.off

theorem RunList.congr (runs : RunList s) (ends : t.ends = s.ends)
    (same : ∀ q, t.enabled q = s.enabled q) : RunList t := by
  obtain ⟨l, listed⟩ := runs.all
  exact (listed.congr ends same).run_list

theorem enabled_setQueue {x : Option Queue} (same : x.any Queue.QENAB = s.enabled q) (k : Nat) :
    (s.setQueue q x).enabled k = s.enabled k := by
  show (update s.queues q x k).any Queue.QENAB = _
  by_cases here : k = q
  · rw [here, update_self]
    exact same
  · rw [update_of_ne here]
    rfl

theorem enabled_of_queue (here : s.queues q = some queue) : s.enabled q = queue.QENAB := by
  unfold Kernel.enabled
  rw [here]
  rfl

theorem Listed.qenable (listed : Listed goes s l) (harmless : goes q → s.enabled q = true) :
    ∃ l, Listed goes (s.qenable q) l := by
  unfold Kernel.qenable
  split
  · exact ⟨l, listed⟩
  next queue here =>
  split
  · exact ⟨l, listed⟩
  next enables =>
  rw [Bool.not_eq_true, Bool.or_eq_false_iff] at enables
  have idle : s.enabled q = false := (enabled_of_queue here).trans enables.2
  have stays : ¬ goes q := fun going => by
    rw [harmless going] at idle
    cases idle
  have absent : q ∉ l := fun mem => by
    rw [(listed.listed q stays).mp mem] at idle
    cases idle
  refine ⟨l ++ [q], listed.held.enqueue absent, fun k keeps => ?_, fun k going => ?_⟩
  · show _ ↔ (update s.queues q _ k).any Queue.QENAB = true
    by_cases same : k = q
    · rw [same, update_self]
      simp
    · rw [update_of_ne same, mem_append, listed.listed k keeps]
      simp [same, Kernel.enabled]
  · have apart : k ≠ q := by
      rintro rfl
      exact stays going
    simp [listed.off k going, apart]

theorem setNext_same {v : Option Nat} (set : s.setNext q v = some t) :
    t.ends = s.ends ∧ ∀ k, t.enabled k = s.enabled k := by
  obtain ⟨queue, here, rfl⟩ := map_eq_some_iff.mp set
  exact ⟨rfl, enabled_setQueue (enabled_of_queue here).symm⟩

theorem bypass_same (bypassed : s.bypass q = some t) :
    t.ends = s.ends ∧ ∀ k, t.enabled k = s.enabled k := by
  obtain ⟨behind, -, set⟩ := bind_eq_some_iff.mp bypassed
  cases behind with
  | none =>
    cases set
    exact ⟨rfl, fun _ => rfl⟩
  | some behind =>
    obtain ⟨queue, -, set⟩ := bind_eq_some_iff.mp set
    exact setNext_same set

theorem Listed.release (listed : Listed (· ∈ [rq, rq + 1]) s l) (released : s.release rq = some t) :
    RunList t := by
  obtain ⟨u, first, rest⟩ := bind_eq_some_iff.mp released
  obtain ⟨v, second, rfl⟩ := map_eq_some_iff.mp rest
  obtain ⟨ends, same⟩ := bypass_same first
  obtain ⟨ends', same'⟩ := bypass_same second
  have after := (listed.congr ends same).congr ends' same'
  refine ⟨l, after.held, fun q => ?_⟩
  show _ ↔ (update (update v.queues rq none) (rq + 1) none q).any Queue.QENAB = true
  by_cases going : q ∈ [rq, rq + 1]
  · have freed : update (update v.queues rq none) (rq + 1) none q = none := by
      rcases mem_pair.mp going with rfl | rfl
      · rw [update_of_ne (by omega), update_self]
      · rw [update_self]
    rw [freed]
    exact ⟨fun mem => absurd mem (after.off q going), nofun⟩
  · rw [mem_pair, not_or] at going
    rw [update_of_ne going.2, update_of_ne going.1]
    exact after.listed q fun mem => by
      rcases mem_pair.mp mem with same | same
      · exact going.1 same
      · exact going.2 same

theorem RunList.unlist (runs : RunList s) (unlisted : s.unlist rq rounds = some t) :
    t.queues = s.queues ∧ ∃ l, Listed (· ∈ [rq, rq + 1]) t l := by
  obtain ⟨l, held, listed⟩ := runs
  unfold Kernel.unlist at unlisted
  split at unlisted
  · obtain ⟨e, swept, rfl⟩ := map_eq_some_iff.mp unlisted
    have head : s.qhead = l.head? := held.head_eq
    rw [head] at swept
    have after := sweep_held [] _ held swept
    rw [nil_append] at after
    refine ⟨rfl, _, after, fun q stays => ?_, fun q going mem => ?_⟩
    · rw [mem_pair, not_or] at stays
      rw [mem_filter, listed]
      simp [stays.1, stays.2, Kernel.enabled, Kernel.setEnds]
    · rcases mem_pair.mp going with rfl | rfl
      · simp at mem
      · simp at mem
  · next neither =>
    cases unlisted
    rw [Bool.not_eq_true, Bool.or_eq_false_iff] at neither
    refine ⟨rfl, l, held, fun q _ => listed q, fun q going mem => ?_⟩
    have enabled := (listed q).mp mem
    rcases mem_pair.mp going with rfl | rfl
    · rw [neither.1] at enabled
      cases enabled
    · rw [neither.2] at enabled
      cases enabled

def Queue.shape (queue : Queue) : Bool × Option Nat × Bool :=
  (queue.QREADR, queue.q_next, queue.srvp)

theorem back_congr {queues queues' : Nat → Option Queue}
    (same : ∀ q, (queues' q).map Queue.shape = (queues q).map Queue.shape) (rounds q : Nat) :
    back queues' rounds q = back queues rounds q := by
  -- each look at a queue goes by its shape
  have look : ∀ (α : Type) (f : Bool × Option Nat × Bool → Option α) (q : Nat),
      ((queues' q).bind fun queue => f queue.shape) =
        (queues q).bind fun queue => f queue.shape := by
    intro α f q
    have expand : ∀ x : Option Queue,
        (x.bind fun queue => f queue.shape) = (x.map Queue.shape).bind f := by
      intro x
      cases x <;> rfl
    rw [expand, expand, same]
  have other : ∀ q, OTHERQ queues' q = OTHERQ queues q := by
    intro q
    unfold OTHERQ
    rw [map_eq_bind, map_eq_bind]
    exact look Nat (fun shape => some (if shape.1 then q + 1 else q - 1)) q
  have behind : ∀ q, backq queues' q = backq queues q := by
    intro q
    unfold backq
    rw [other]
    congr 1
    funext o
    simp only [other]
    exact look _ (fun shape => match shape.2.1 with
      | none => some none
      | some q => (OTHERQ queues q).map some) o
  have near : ∀ rounds b, nearest queues' rounds b = nearest queues rounds b := by
    intro rounds
    induction rounds with
    | zero => rintro (_ | q) <;> rfl
    | succ rounds ih =>
      rintro (_ | q)
      · rfl
      · simp only [nearest, behind, funext ih]
        exact look _ (fun shape => if shape.2.2 then some (some q)
          else (backq queues q).bind (nearest queues rounds)) q
  unfold back
  rw [behind]
  congr 1
  exact funext (near rounds)

theorem qenable_shape (s : Kernel) (q k : Nat) :
    ((s.qenable q).queues k).map Queue.shape = (s.queues k).map Queue.shape := by
  unfold Kernel.qenable
  split
  · rfl
  next queue here =>
  split
  · rfl
  · show (update s.queues q _ k).map Queue.shape = _
    by_cases same : k = q
    · rw [same, update_self, here]
      rfl
    · rw [update_of_ne same]

theorem enabled_qenable (enabled : s.enabled q = true) (k : Nat) :
    (s.qenable k).enabled q = true := by
  unfold Kernel.qenable
  split
  · exact enabled
  · split
    · exact enabled
    · show (update s.queues k _ q).any Queue.QENAB = true
      rw [update_apply]
      split
      · rfl
      · exact enabled

theorem Listed.flushq {wantw : Bool} (listed : Listed (· ∈ [rq, rq + 1]) s l)
    (unmoved : wantw = true → Unmoved s rq rounds q) (flushed : s.flushq q wantw rounds = some t) :
    (∃ l, Listed (· ∈ [rq, rq + 1]) t l) ∧
      (∀ k, back t.queues rounds k = back s.queues rounds k) ∧
      ∀ k, s.enabled k = true → t.enabled k = true := by
  unfold Kernel.flushq at flushed
  split at flushed
  · next wanted =>
    obtain ⟨behind, found, rfl⟩ := map_eq_some_iff.mp flushed
    cases behind with
    | none => exact ⟨⟨l, listed⟩, fun _ => rfl, fun _ enabled => enabled⟩
    | some b =>
      exact ⟨listed.qenable fun going => unmoved wanted b going found,
        back_congr (qenable_shape s b) rounds, fun _ enabled => enabled_qenable enabled b⟩
  · cases flushed
    exact ⟨⟨l, listed⟩, fun _ => rfl, fun _ enabled => enabled⟩

section
variable (runs : RunList s)
include runs

theorem RunList.detach {wantw_read wantw_write : Bool}
    (careful : Careful s (.detach rq wantw_read wantw_write rounds))
    (detached : s.detach rq wantw_read wantw_write rounds = some t) : RunList t := by
  obtain ⟨u, unlisted, rest⟩ := bind_eq_some_iff.mp detached
  obtain ⟨v, read, rest⟩ := bind_eq_some_iff.mp rest
  obtain ⟨w, write, released⟩ := bind_eq_some_iff.mp rest
  obtain ⟨queues, l, listed⟩ := runs.unlist unlisted
  have enabled : ∀ k, u.enabled k = s.enabled k := fun k => by
    unfold Kernel.enabled
    rw [queues]
  have unmoved : ∀ q, Unmoved s rq rounds q → Unmoved u rq rounds q := by
    intro q unmoved b going found
    rw [queues] at found
    rw [enabled]
    exact unmoved b going found
  obtain ⟨⟨l, listed⟩, same, kept⟩ := listed.flushq (fun want => unmoved _ (careful.1 want)) read
  obtain ⟨⟨l, listed⟩, -, -⟩ := listed.flushq (fun want b going found => by
    rw [same] at found
    exact kept b (unmoved _ (careful.2 want) b going found)) write
  exact listed.release released

theorem RunList.serve (served : s.serve = some t) : RunList t := by
  obtain ⟨q, head, served⟩ := bind_eq_some_iff.mp served
  obtain ⟨queue, here, rfl⟩ := map_eq_some_iff.mp served
  obtain ⟨l, held, listed⟩ := runs
  have front : s.qhead = l.head? := held.head_eq
  obtain ⟨l, rfl⟩ : ∃ rest, l = q :: rest := by
    cases l with
    | nil =>
      rw [front] at head
      cases head
    | cons x rest =>
      rw [front] at head
      exact ⟨rest, by rw [some.inj head]⟩
  have absent := (nodup_cons.mp held.nodup).1
  refine ⟨l, held.dequeue, fun k => ?_⟩
  show _ ↔ (update s.queues q _ k).any Queue.QENAB = true
  by_cases same : k = q
  · rw [same, update_self]
    simp [absent]
  · rw [update_of_ne same]
    have := listed k
    rw [mem_cons, or_iff_right same] at this
    exact this

theorem RunList.qenable (q : Nat) : RunList (s.qenable q) := by
  obtain ⟨l, listed⟩ := runs.all
  obtain ⟨l, listed⟩ := listed.qenable (q := q) False.elim
  exact listed.run_list

theorem RunList.setSrvp (q : Nat) (srvp : Bool) : RunList (s.setSrvp q srvp) := by
  refine runs.congr rfl (enabled_setQueue ?_)
  unfold Kernel.enabled
  cases s.queues q <;> rfl

theorem RunList.allocq {rd wr : Queue} (free : s.queues rq = none)
    (free' : s.queues (rq + 1) = none) (idle : rd.QENAB = false) (idle' : wr.QENAB = false) :
    RunList (s.allocq rq rd wr) := by
  obtain ⟨l, held, listed⟩ := runs
  have dead : ∀ q, s.queues q = none → s.enabled q = false := by
    intro q none
    unfold Kernel.enabled
    rw [none]
    rfl
  have off : ∀ q, s.queues q = none → q ∉ l := fun q none mem => by
    have := (listed q).mp mem
    rw [dead q none] at this
    cases this
  have first := enabled_setQueue (s := s) (q := rq) (x := some rd) (idle.trans (dead rq free).symm)
  have second := enabled_setQueue (s := s.setQueue rq (some rd)) (q := rq + 1) (x := some wr)
    (idle'.trans ((first _).trans (dead _ free')).symm)
  refine ⟨l, ⟨?_, held.nodup, held.last⟩, fun q => ?_⟩
  · exact NextChains.Segment.update (NextChains.Segment.update held.path (off rq free) none)
      (off _ free') none
  · rw [listed, ← first, ← second]
    rfl

theorem RunList.qattach {qp : Nat} {rsrvp wsrvp : Bool}
    (attached : s.qattach qp rq rsrvp wsrvp = some t) : RunList t := by
  unfold Kernel.qattach at attached
  split at attached
  · next wr _ _ free free' =>
    obtain ⟨u, joined, attached⟩ := bind_eq_some_iff.mp attached
    obtain ⟨v, set, rfl⟩ := map_eq_some_iff.mp attached
    have alloc : RunList (s.allocq rq ⟨false, true, false, some qp, rsrvp⟩
        ⟨false, false, false, wr.q_next, wsrvp⟩) := runs.allocq free free' rfl rfl
    have link : RunList u := by
      cases next : wr.q_next with
      | none =>
        rw [next] at joined alloc
        cases joined
        exact alloc
      | some q =>
        rw [next] at joined alloc
        obtain ⟨other, -, set⟩ := bind_eq_some_iff.mp joined
        obtain ⟨ends, same⟩ := setNext_same set
        exact alloc.congr ends same
    obtain ⟨ends, same⟩ := setNext_same set
    exact (link.congr ends same).congr rfl fun _ => rfl
  · cases attached

theorem RunList.release (idle : s.enabled rq = false) (idle' : s.enabled (rq + 1) = false)
    (released : s.release rq = some t) : RunList t := by
  obtain ⟨l, held, listed⟩ := runs
  refine Listed.release ⟨held, fun q _ => listed q, fun q going mem => ?_⟩ released
  have enabled := (listed q).mp mem
  rcases mem_pair.mp going with rfl | rfl
  · rw [idle] at enabled
    cases enabled
  · rw [idle'] at enabled
    cases enabled

theorem RunList.step (careful : Careful s label) (taken : s.step label = some t) : RunList t := by
  cases label with
  | qattach qp rq rsrvp wsrvp =>
    obtain ⟨-, attached⟩ := ite_none_left_eq_some.mp taken
    exact runs.qattach attached
  | opened rq setq =>
    obtain ⟨-, taken⟩ := ite_none_left_eq_some.mp taken
    cases taken
    cases setq with
    | none => exact runs.congr rfl fun _ => rfl
    | some srvps => exact ((runs.setSrvp rq srvps.1).setSrvp _ srvps.2).congr rfl fun _ => rfl
  | open_failed rq =>
    obtain ⟨-, taken⟩ := ite_none_left_eq_some.mp taken
    obtain ⟨u, released, rfl⟩ := map_eq_some_iff.mp taken
    exact (runs.release careful.1 careful.2 released).congr rfl fun _ => rfl
  | qdetach rq | close rq =>
    obtain ⟨-, taken⟩ := ite_none_left_eq_some.mp taken
    cases taken
    exact runs.congr rfl fun _ => rfl
  | detach rq wantw_read wantw_write rounds =>
    obtain ⟨-, taken⟩ := ite_none_left_eq_some.mp taken
    obtain ⟨u, detached, rfl⟩ := map_eq_some_iff.mp taken
    exact (runs.detach careful detached).congr rfl fun _ => rfl
  | qenable q =>
    obtain ⟨-, -, rfl⟩ := map_eq_some_iff.mp taken
    exact runs.qenable q
  | putq q enables =>
    obtain ⟨-, -, rfl⟩ := map_eq_some_iff.mp taken
    split
    · exact runs.qenable q
    · exact runs
  | runqueues | done =>
    obtain ⟨-, taken⟩ := ite_none_right_eq_some.mp taken
    cases taken
    exact runs.congr rfl fun _ => rfl
  | serve =>
    obtain ⟨-, served⟩ := ite_none_right_eq_some.mp taken
    exact runs.serve served
  | served =>
    obtain ⟨q, -, taken⟩ := bind_eq_some_iff.mp taken
    obtain ⟨queue, here, rfl⟩ := map_eq_some_iff.mp taken
    exact runs.congr rfl (enabled_setQueue (enabled_of_queue here).symm)

end

/-- In every state of a run the list is right, as long as no failed open leaves a queue enabled. -/
theorem run_list_holds (start : RunList s) (careful : Guarded Kernel.step Careful s labels) :
    Throughout Kernel.step RunList s labels :=
  throughout_of_guarded RunList (fun _ runs => runs)
    (fun _ _ _ runs careful taken => runs.step careful taken) start careful

end

def head : Kernel where
  queues := fun q =>
    if q = 0 then some ⟨false, true, false, none, false⟩
    else if q = 1 then some ⟨false, false, false, none, false⟩
    else none
  q_link := fun _ => none
  qhead := none
  qtail := none
  qrunflag := false
  queueflag := false
  serving := none
  opening := []
  ready := []
  closing := []

theorem head_run_list : RunList head := by
  refine ⟨[], held_nil, fun q => ?_⟩
  have idle : head.enabled q = false := by
    unfold Kernel.enabled head
    dsimp only
    split
    · rfl
    · split <;> rfl
  simp [idle]

/-- A module whose open routine enables its queue is pushed, runs and is popped. -/
theorem run_list_holds_push_pop :
    Throughout Kernel.step RunList head
      [.qattach 0 2 true true, .qenable 2, .opened 2 none, .runqueues, .serve, .qenable 3, .served,
        .serve, .served, .done, .qdetach 2, .close 2, .qenable 3, .detach 2 false false 9] :=
  run_list_holds head_run_list (by decide +kernel)

/-- Its open routine enables the queue and fails: the queue is freed, and heads the list. -/
theorem failed_open_leaves_queue :
    ∃ t, exec Kernel.step head [.qattach 0 2 true true, .qenable 2, .open_failed 2] = some t ∧
      t.qhead = some 2 ∧ t.queues 2 = none ∧ ¬ RunList t := by
  refine ⟨_, rfl, rfl, rfl, fun runs => ?_⟩
  obtain ⟨l, held, listed⟩ := runs
  have front := held.head_eq
  cases l with
  | nil => cases front
  | cons x l =>
    obtain rfl : 2 = x := some.inj front
    exact absurd ((listed 2).mp mem_cons_self) (by decide)

end StreamRuns
