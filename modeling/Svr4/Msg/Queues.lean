import Mathlib.Algebra.BigOperators.Group.List.Basic
import Mathlib.Algebra.GroupWithZero.Nat
import Svr4.Msg.Headers
import Svr4.Msg.Segments

/- The books of the message queues while processes are at rest, and while one of them runs. -/
namespace MessageQueues
open Function NextChains ResourceMap

variable {info : MsgInfo} {s t : State} {k p q x : Nat} {l hd : Option Nat} {pc : Proc}

/-- The lock and the header that a process has where it is. -/
def Proc.lock (info : MsgInfo) : Proc → Option Nat
  | .sndType a | .sndText a .. => some (key info a.msqid)
  | .rcvType a .. | .rcvText a .. => some (key info a.msqid)
  | _ => none

def Proc.header : Proc → Option Nat
  | .sndText _ _ mp _ => some mp
  | _ => none

def Snd.Fits (info : MsgInfo) (a : Snd) : Prop := 0 ≤ a.msgsz ∧ a.msgsz ≤ info.msgmax

def Stage.Fits (info : MsgInfo) : Stage → Prop
  | .sndGet a type => a.Fits info ∧ 1 ≤ type
  | _ => True

def Proc.Fits (info : MsgInfo) : Proc → Prop
  | .lockWait stage => stage.Fits info
  | .sndType a => a.Fits info
  | .sndWait a type | .sndText a type .. => a.Fits info ∧ 1 ≤ type
  | _ => True

def Chosen (type : Nat → Int) (msgtyp : Int) (pre : List Nat) (x : Nat) (post : List Nat) : Prop :=
  if msgtyp = 0 then pre = []
  else if 0 < msgtyp then type x = msgtyp ∧ ∀ y ∈ pre, type y ≠ msgtyp
  else type x ≤ -msgtyp ∧ (∀ y ∈ pre, type y ≤ -msgtyp → type x < type y) ∧
    ∀ y ∈ post, type y ≤ -msgtyp → type x ≤ type y

/-- Where things are: the free list, the queues, the place of each header and the text it owns, and
the bytes of messages gone that msg_cbytes still counts. -/
structure View where
  fs : List Nat
  qs : Nat → List Nat
  place : Nat → Place
  span : Nat → Nat × Nat
  debt : Nat → Int

/-- Each message that was sent is on its queue, received, or removed. -/
structure History (h : Pool) (qs : Nat → List Nat) (sent : List Message)
    (received : List (Nat × Nat)) (removed : List Nat) : Prop where
  contents : ∀ k, ∀ x ∈ qs k, sent[h.serial x]? = some ⟨k, h.msg_type x, h.msg_ts x⟩
  order : ∀ k, (qs k).Pairwise fun x y => h.serial x < h.serial y
  received_once : (received.map Prod.fst).Nodup
  removed_once : removed.Nodup
  apart : ∀ m ∈ received.map Prod.fst, m ∉ removed
  gone : ∀ k, ∀ x ∈ qs k, h.serial x ∉ received.map Prod.fst ∧ h.serial x ∉ removed
  ledger : ∀ m, m < sent.length ↔
    m ∈ received.map Prod.fst ∨ m ∈ removed ∨ ∃ k, ∃ x ∈ qs k, h.serial x = m

/-- The process `q` has the lock `lk q` and the header `hd q`. -/
structure Books (info : MsgInfo) (s : State) (v : View) (lk hd : Nat → Option Nat) : Prop where
  chained : Chained info.msgtql s.pool v.fs v.qs v.place
  segmented : Segmented info s.pool v.span
  held : ∀ q x, hd q = some x ↔ x < info.msgtql ∧ v.place x = .held q
  unowned : ∀ x, v.place x = .free → v.span x = (0, 0)
  queued : ∀ k, ∀ x ∈ v.qs k,
    v.span x = (btoq info (s.pool.msg_ts x), (s.pool.msg_spot x + 1).toNat)
  typed : ∀ k, ∀ x ∈ v.qs k, 1 ≤ s.pool.msg_type x
  qnum : ∀ k, (s.pool.msgque k).msg_qnum = (v.qs k).length
  cbytes : ∀ k, ((s.pool.msgque k).msg_cbytes : Int) =
    ((v.qs k).map s.pool.msg_ts).sum + v.debt k
  locks : ∀ k, s.msglock k = true ↔ ∃ q, lk q = some k
  mutex : ∀ p q k, lk p = some k → lk q = some k → p = q
  closed : ∀ k, (s.pool.msgque k).alloc = false → v.qs k = []
  range : ∀ k, (s.pool.msgque k).alloc = true → k < info.msgmni
  history : History s.pool v.qs s.sent s.received s.removed

structure At (info : MsgInfo) (s : State) (v : View) (pc : Proc) : Prop where
  fits : pc.Fits info
  alloc : ∀ k, pc.lock info = some k → (s.pool.msgque k).alloc = true
  sending : ∀ a type x spot, pc = .sndText a type x spot →
    v.span x = (btoq info a.msgsz.toNat, spot + 1) ∧ spot < info.msgseg ∧ a.msgsz ≠ 0
  receiving : ∀ a pmp x sz, pc = .rcvType a pmp x sz ∨ pc = .rcvText a pmp x sz →
    ∃ pre post, v.qs (key info a.msqid) = pre ++ x :: post ∧ pmp = pre.getLast? ∧
      Chosen s.pool.msg_type a.msgtyp pre x post

structure Running (info : MsgInfo) (s : State) (v : View) (p : Nat) (l hd : Option Nat) : Prop where
  books : Books info s v (update (fun q => (s.proc q).lock info) p l)
    (update (fun q => (s.proc q).header) p hd)
  others : ∀ q, q ≠ p → At info s v (s.proc q)

structure Resting (info : MsgInfo) (s : State) (v : View) : Prop where
  books : Books info s v (fun q => (s.proc q).lock info) (fun q => (s.proc q).header)
  each : ∀ q, At info s v (s.proc q)
  even : ∀ k, v.debt k = 0

variable {v w : View}

theorem Resting.running (rest : Resting info s v) (p : Nat) :
    Running info s v p ((s.proc p).lock info) (s.proc p).header := by
  refine ⟨?_, fun q _ => rest.each q⟩
  rw [update_eq_self (f := fun q => (s.proc q).lock info),
    update_eq_self (f := fun q => (s.proc q).header)]
  exact rest.books

theorem Running.park (run : Running info s v p (pc.lock info) pc.header) (here : At info s v pc)
    (even : ∀ k, v.debt k = 0) : Resting info (s.setProc p pc) v := by
  have locks : (fun q => ((s.setProc p pc).proc q).lock info) =
      update (fun q => (s.proc q).lock info) p (pc.lock info) := by
    funext q
    unfold State.setProc
    dsimp only
    rw [update_apply, update_apply]
    split <;> rfl
  have headers : (fun q => ((s.setProc p pc).proc q).header) =
      update (fun q => (s.proc q).header) p pc.header := by
    funext q
    unfold State.setProc
    dsimp only
    rw [update_apply, update_apply]
    split <;> rfl
  have books := run.books
  refine ⟨?_, ?_, even⟩
  · rw [locks, headers]
    exact { books with }
  · intro q
    have known : At info s v ((s.setProc p pc).proc q) := by
      unfold State.setProc
      dsimp only
      rw [update_apply]
      split
      · exact here
      · rename_i other
        exact run.others q other
    exact { known with }

theorem at_user (info : MsgInfo) (s : State) (v : View) (r : Result) : At info s v (.user r) :=
  ⟨trivial, nofun, nofun, fun _ _ _ _ impossible => by rcases impossible with eq | eq <;> cases eq⟩

/-! Locks -/

theorem Running.acquire (run : Running info s v p none hd) (free : s.msglock k = false) :
    Running info (s.setLock k true) v p (some k) hd := by
  have books := run.books
  have unowned : ∀ q, update (fun q => (s.proc q).lock info) p none q ≠ some k := by
    intro q here
    rw [(books.locks k).mpr ⟨q, here⟩] at free
    exact nomatch free
  have owners : ∀ q j, update (fun q => (s.proc q).lock info) p (some k) q = some j ↔
      q = p ∧ j = k ∨ update (fun q => (s.proc q).lock info) p none q = some j := by
    intro q j
    by_cases same : q = p
    · subst same
      rw [update_self, update_self]
      simp [eq_comm]
    · rw [update_of_ne same, update_of_ne same]
      simp [same]
  refine ⟨{ books with locks := ?_, mutex := ?_ }, fun q other => { run.others q other with }⟩
  · intro j
    change update s.msglock k true j = true ↔
      ∃ q, update (fun q => (s.proc q).lock info) p (some k) q = some j
    simp only [owners]
    rw [update_apply]
    by_cases same : j = k
    · rw [if_pos same]
      exact ⟨fun _ => ⟨p, .inl ⟨rfl, same⟩⟩, fun _ => rfl⟩
    · rw [if_neg same, books.locks]
      simp [same]
  · intro q r j first second
    rcases (owners q j).mp first with ⟨rfl, rfl⟩ | before
    · rcases (owners r j).mp second with ⟨rfl, -⟩ | before'
      · rfl
      · exact absurd before' (unowned r)
    · rcases (owners r j).mp second with ⟨rfl, rfl⟩ | before'
      · exact absurd before (unowned q)
      · exact books.mutex q r j before before'

theorem Running.release (run : Running info s v p (some k) hd) :
    Running info (s.setLock k false) v p none hd := by
  have books := run.books
  have mine : update (fun q => (s.proc q).lock info) p (some k) p = some k := update_self ..
  have owners : ∀ q j, update (fun q => (s.proc q).lock info) p none q = some j ↔
      update (fun q => (s.proc q).lock info) p (some k) q = some j ∧ q ≠ p := by
    intro q j
    by_cases same : q = p
    · subst same
      rw [update_self]
      simp
    · rw [update_of_ne same, update_of_ne same]
      simp [same]
  refine ⟨{ books with locks := ?_, mutex := ?_ }, fun q other => { run.others q other with }⟩
  · intro j
    change update s.msglock k false j = true ↔
      ∃ q, update (fun q => (s.proc q).lock info) p none q = some j
    simp only [owners]
    rw [update_apply]
    by_cases same : j = k
    · subst same
      rw [if_pos rfl]
      refine ⟨nofun, ?_⟩
      rintro ⟨q, here, other⟩
      exact absurd (books.mutex q p j here mine) other
    rw [if_neg same, books.locks]
    refine exists_congr fun q => ?_
    constructor
    · intro here
      refine ⟨here, ?_⟩
      rintro rfl
      rw [mine] at here
      exact same (Option.some.inj here).symm
    · exact And.left
  · intro q r j first second
    exact books.mutex q r j ((owners q j).mp first).1 ((owners r j).mp second).1

theorem Running.out (run : Running info s v p (some k) none) (even : ∀ k, v.debt k = 0)
    (r : Result) : Resting info (s.out p k r) v :=
  (run.release.park (at_user ..) even : Resting info ((s.setLock k false).setProc p (.user r)) v)

/-! What one process does leaves the others where they are -/

theorem At.keep (known : At info s v pc)
    (alloc : ∀ k, pc.lock info = some k → (t.pool.msgque k).alloc = (s.pool.msgque k).alloc)
    (queue : ∀ k, pc.lock info = some k → w.qs k = v.qs k ∧ ∀ x ∈ v.qs k, t.pool.msg_type x =
      s.pool.msg_type x) (span : ∀ x, pc.header = some x → w.span x = v.span x) :
    At info t w pc := by
  refine ⟨known.fits, ?_, ?_, ?_⟩
  · intro k locked
    rw [alloc k locked]
    exact known.alloc k locked
  · rintro a type x spot rfl
    rw [span x rfl]
    exact known.sending a type x spot rfl
  · intro a pmp x sz place
    have locked : pc.lock info = some (key info a.msqid) := by
      rcases place with rfl | rfl <;> rfl
    obtain ⟨same, types⟩ := queue _ locked
    obtain ⟨pre, post, split, before, chosen⟩ := known.receiving a pmp x sz place
    refine ⟨pre, post, same.trans split, before, ?_⟩
    rw [split] at types
    have pre_same : ∀ y ∈ pre, t.pool.msg_type y = s.pool.msg_type y :=
      fun y mem => types y (List.mem_append_left _ mem)
    have here := types x (List.mem_append_right _ List.mem_cons_self)
    have post_same : ∀ y ∈ post, t.pool.msg_type y = s.pool.msg_type y :=
      fun y mem => types y (List.mem_append_right _ (List.mem_cons_of_mem _ mem))
    unfold Chosen at chosen ⊢
    rw [here]
    split
    · rename_i zero
      rw [if_pos zero] at chosen
      exact chosen
    rename_i other
    rw [if_neg other] at chosen
    split
    · rename_i pos
      rw [if_pos pos] at chosen
      refine ⟨chosen.1, fun y mem => ?_⟩
      rw [pre_same y mem]
      exact chosen.2 y mem
    · rename_i neg
      rw [if_neg neg] at chosen
      refine ⟨chosen.1, fun y mem => ?_, fun y mem => ?_⟩
      · rw [pre_same y mem]
        exact chosen.2.1 y mem
      · rw [post_same y mem]
        exact chosen.2.2 y mem

section
variable (run : Running info s v p l hd)
include run

theorem Running.other_header (other : q ≠ p) (theirs : (s.proc q).header = some x) :
    v.place x = .held q := by
  have owns : update (fun q => (s.proc q).header) p hd q = some x := by
    rw [update_of_ne other]
    exact theirs
  exact ((run.books.held q x).mp owns).2

theorem Running.own_header (mine : hd = some x) : x < info.msgtql ∧ v.place x = .held p := by
  apply (run.books.held p x).mp
  rw [update_self]
  exact mine

theorem Running.other_lock {j : Nat} (other : q ≠ p) (mine : l = some k)
    (theirs : (s.proc q).lock info = some j) : j ≠ k := by
  rintro rfl
  refine other (run.books.mutex q p j ?_ ?_)
  · rw [update_of_ne other]
    exact theirs
  · rw [update_self]
    exact mine

end

theorem held_update {hd' : Option Nat} {place' : Place} (run : Running info s v p l hd) (x : Nat)
    (small : x < info.msgtql) (before : hd = none ∧ (∀ q, v.place x ≠ .held q) ∨ hd = some x)
    (after : hd' = some x ∧ place' = .held p ∨ hd' = none ∧ ∀ q, place' ≠ .held q) :
    ∀ q y, update (fun q => (s.proc q).header) p hd' q = some y ↔
      y < info.msgtql ∧ update v.place x place' y = .held q := by
  intro q y
  have held := run.books.held q y
  by_cases mine : q = p
  · subst mine
    rw [update_self] at held ⊢
    by_cases same : y = x
    · subst same
      rw [update_self]
      rcases after with ⟨rfl, rfl⟩ | ⟨rfl, off⟩
      · simp [small]
      · simp [off q]
    rw [update_of_ne same, ← held]
    have not_now : hd' ≠ some y := by
      rcases after with ⟨rfl, -⟩ | ⟨rfl, -⟩
      · exact fun eq => same (Option.some.inj eq).symm
      · exact nofun
    have not_before : hd ≠ some y := by
      rcases before with ⟨rfl, -⟩ | rfl
      · exact nofun
      · exact fun eq => same (Option.some.inj eq).symm
    exact ⟨fun eq => absurd eq not_now, fun eq => absurd eq not_before⟩
  · rw [update_of_ne mine] at held ⊢
    rw [held]
    by_cases same : y = x
    · subst same
      rw [update_self]
      have not_before : v.place y ≠ .held q := by
        rcases before with ⟨-, off⟩ | rfl
        · exact off q
        · rw [(run.own_header rfl).2]
          exact fun eq => mine (Place.held.inj eq).symm
      have not_now : place' ≠ .held q := by
        rcases after with ⟨-, rfl⟩ | ⟨-, off⟩
        · exact fun eq => mine (Place.held.inj eq).symm
        · exact off q
      exact ⟨fun both => absurd both.2 not_before, fun both => absurd both.2 not_now⟩
    · rw [update_of_ne same]

end MessageQueues
