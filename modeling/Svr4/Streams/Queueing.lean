import Svr4.Runs
import Svr4.Streams.Flushes

/- A queue over whole runs: it stays in order and behaves as the line it represents. -/
namespace StreamQueues
open Function DoublyLinked RankedLists LabelledRuns List

/-- A queue, with the messages it has accepted and those that have left it since. -/
structure Machine where
  queue : Queue
  accepted : List Nat
  gone : List Nat

inductive Op where
  | putq (bp supply : Nat)
  | putbq (bp supply : Nat)
  | getq
  | rmvq (mp : Nat)
  | flushq (flag : Bool)
  | flushband (pri : Fin 256) (flag : Bool)
  /-- Anything may happen to a message that is not on the queue. -/
  | outside (a : Nat) (next prev : Option Nat) (m : Mblk)

/-- The messages on the list, from `q_first` on. -/
def Queue.messages (q : Queue) : List Nat := DList.walk q.list.next q.nmblk q.list.first

namespace Machine

def Allowed (s : Machine) : Op → Prop
  | .putq bp _ | .putbq bp _ => bp < s.queue.nmblk ∧ bp ∉ s.queue.messages
  | .getq | .flushq _ | .flushband .. => True
  | .rmvq mp => mp ∈ s.queue.messages
  | .outside a _ _ _ => a ∉ s.queue.messages

instance (s : Machine) (op : Op) : Decidable (s.Allowed op) := by
  cases op <;> unfold Allowed <;> infer_instance

def take (s : Machine) : Op → Option Machine
  | .putq bp supply => do
      let (q, fine) ← s.queue.putq bp supply
      some ⟨q, if fine then bp :: s.accepted else s.accepted, s.gone⟩
  | .putbq bp supply => do
      let (q, fine) ← s.queue.putbq bp supply
      some ⟨q, if fine then bp :: s.accepted else s.accepted, s.gone⟩
  | .getq => do
      let (q, bp) ← s.queue.getq
      some ⟨q, s.accepted, bp.toList ++ s.gone⟩
  | .rmvq mp => do
      let q ← s.queue.rmvq mp
      some ⟨q, s.accepted, mp :: s.gone⟩
  | .flushq flag => do
      let (q, freed) ← s.queue.flushq flag
      some ⟨q, s.accepted, freed ++ s.gone⟩
  | .flushband pri flag => do
      let (q, freed) ← s.queue.flushband pri flag
      some ⟨q, s.accepted, freed ++ s.gone⟩
  | .outside a next prev m =>
      some { s with queue := { s.queue with
        list := { s.queue.list with
          next := update s.queue.list.next a next
          prev := update s.queue.list.prev a prev }
        message := update s.queue.message a m } }

/-- `none` for what the callers never do, and for a NULL pointer that is followed. -/
def step (s : Machine) (op : Op) : Option Machine := if s.Allowed op then s.take op else none

end Machine

namespace Line

theorem settle_messages (x : Line) (bp supply : Nat) :
    (x.settle bp supply).1.messages = x.messages := rfl

theorem putq_spec (x : Line) (bp supply : Nat) :
    (x.putq bp supply).2 = false ∧ (x.putq bp supply).1.messages = x.messages ∨
    (x.putq bp supply).2 = true ∧ (x.putq bp supply).1.messages =
      insertBack (fun a => ((x.putq bp supply).1.message a).rank) bp x.messages := by
  have same := settle_messages x bp supply
  unfold putq
  cases settled : x.settle bp supply with
  | mk y fine =>
  rw [settled] at same
  rw [← same]
  cases fine with
  | false => exact .inl ⟨rfl, rfl⟩
  | true => exact .inr ⟨rfl, rfl⟩

theorem putbq_spec (x : Line) (bp supply : Nat) :
    (x.putbq bp supply).2 = false ∧ (x.putbq bp supply).1.messages = x.messages ∨
    (x.putbq bp supply).2 = true ∧ (x.putbq bp supply).1.messages =
      insertFront (fun a => ((x.putbq bp supply).1.message a).rank) bp x.messages := by
  have same := settle_messages x bp supply
  unfold putbq
  cases settled : x.settle bp supply with
  | mk y fine =>
  rw [settled] at same
  rw [← same]
  cases fine with
  | false => exact .inl ⟨rfl, rfl⟩
  | true => exact .inr ⟨rfl, rfl⟩

end Line

/-- A line, with the messages it has accepted and those that have left it since. -/
structure Ideal where
  line : Line
  accepted : List Nat
  gone : List Nat

def Ideal.step (x : Ideal) : Op → Ideal
  | .putq bp supply =>
      let (line, fine) := x.line.putq bp supply
      ⟨line, if fine then bp :: x.accepted else x.accepted, x.gone⟩
  | .putbq bp supply =>
      let (line, fine) := x.line.putbq bp supply
      ⟨line, if fine then bp :: x.accepted else x.accepted, x.gone⟩
  | .getq =>
      let (line, bp) := x.line.getq
      ⟨line, x.accepted, bp.toList ++ x.gone⟩
  | .rmvq mp => ⟨x.line.rmvq mp, x.accepted, mp :: x.gone⟩
  | .flushq flag =>
      let (line, freed) := x.line.flushq flag
      ⟨line, x.accepted, freed ++ x.gone⟩
  | .flushband pri flag =>
      let (line, freed) := x.line.flushband pri flag
      ⟨line, x.accepted, freed ++ x.gone⟩
  | .outside a _ _ m =>
      { x with line := { x.line with message := update x.line.message a m } }

namespace Machine

def ideal (s : Machine) : Ideal := ⟨s.queue.line s.queue.messages, s.accepted, s.gone⟩

variable {s t : Machine} {op : Op} {l : List Nat}

theorem messages_eq {q : Queue} (ok : q.Ok l) : q.messages = l := by
  unfold Queue.messages
  rw [ok.links.first]
  exact ok.links.forward.walk_eq ok.length_le

theorem take_ideal (ok : s.queue.Ok s.queue.messages) (allowed : s.Allowed op) : ∃ t,
    s.take op = some t ∧ t.queue.Ok t.queue.messages ∧ t.ideal = s.ideal.step op ∧
      t.queue.nmblk = s.queue.nmblk := by
  have done : ∀ {q : Queue} {x : Line} (accepted gone : List Nat), q.Ok x.messages →
      q.line x.messages = x → (Machine.mk q accepted gone).queue.Ok q.messages ∧
        (Machine.mk q accepted gone).ideal = ⟨x, accepted, gone⟩ := by
    intro q x accepted gone q_ok line
    unfold ideal
    rw [messages_eq q_ok]
    exact ⟨q_ok, by rw [line]⟩
  cases op with
  | putq bp supply =>
    obtain ⟨q, put, q_ok, line, nmblk, -⟩ := ok.putq_ok allowed.2 allowed.1 supply
    obtain ⟨t_ok, t_ideal⟩ := done _ s.gone q_ok line
    unfold take
    dsimp only
    rw [put]
    exact ⟨_, rfl, t_ok, t_ideal, nmblk⟩
  | putbq bp supply =>
    obtain ⟨q, put, q_ok, line, nmblk⟩ := ok.putbq_ok allowed.2 allowed.1 supply
    obtain ⟨t_ok, t_ideal⟩ := done _ s.gone q_ok line
    unfold take
    dsimp only
    rw [put]
    exact ⟨_, rfl, t_ok, t_ideal, nmblk⟩
  | getq =>
    obtain ⟨q, got, q_ok, line, nmblk⟩ := ok.getq_ok
    obtain ⟨t_ok, t_ideal⟩ := done s.accepted _ q_ok line
    unfold take
    rw [got]
    exact ⟨_, rfl, t_ok, t_ideal, nmblk⟩
  | rmvq mp =>
    obtain ⟨q, removed, q_ok, line, nmblk⟩ := ok.rmvq_line allowed
    obtain ⟨t_ok, t_ideal⟩ := done s.accepted _ q_ok line
    unfold take
    dsimp only
    rw [removed]
    exact ⟨_, rfl, t_ok, t_ideal, nmblk⟩
  | flushq flag =>
    obtain ⟨q, flushed, q_ok, line, nmblk⟩ := ok.flushq_ok flag
    obtain ⟨t_ok, t_ideal⟩ := done s.accepted _ q_ok line
    unfold take
    dsimp only
    rw [flushed]
    exact ⟨_, rfl, t_ok, t_ideal, nmblk⟩
  | flushband pri flag =>
    obtain ⟨q, flushed, q_ok, line, nmblk⟩ := ok.flushband_ok pri flag
    obtain ⟨t_ok, t_ideal⟩ := done s.accepted _ q_ok line
    unfold take
    dsimp only
    rw [flushed]
    exact ⟨_, rfl, t_ok, t_ideal, nmblk⟩
  | outside a next prev m =>
    have other : ∀ x ∈ s.queue.messages, x ≠ a := fun x mem same => allowed (same ▸ mem)
    have links : DList.Holds { s.queue.list with
        next := update s.queue.list.next a next
        prev := update s.queue.list.prev a prev } s.queue.messages :=
      ok.links.congr rfl rfl fun x mem =>
        ⟨update_of_ne (other x mem) _ _, update_of_ne (other x mem) _ _⟩
    have q_ok : Queue.Ok { s.queue with
        list := { s.queue.list with
          next := update s.queue.list.next a next
          prev := update s.queue.list.prev a prev }
        message := update s.queue.message a m } s.queue.messages :=
      ok.congr links (fun x mem => update_of_ne (other x mem) _ _) rfl rfl rfl rfl
    refine ⟨_, rfl, ?_, ?_, rfl⟩
    · rwa [messages_eq q_ok]
    · unfold ideal
      rw [messages_eq q_ok]
      rfl

end Machine

namespace Ideal
variable {x : Ideal} {op : Op}

def Balanced (x : Ideal) : Prop := x.accepted.Perm (x.line.messages ++ x.gone)

theorem Balanced.put (balanced : x.Balanced) {messages : List Nat} {bp : Nat}
    (put : messages.Perm (bp :: x.line.messages)) :
    (bp :: x.accepted).Perm (messages ++ x.gone) :=
  (balanced.cons bp).trans (put.append_right x.gone).symm

theorem Balanced.out (balanced : x.Balanced) {messages out : List Nat}
    (taken : x.line.messages.Perm (out ++ messages)) :
    x.accepted.Perm (messages ++ (out ++ x.gone)) := by
  refine balanced.trans ((taken.append_right x.gone).trans ?_)
  rw [← append_assoc]
  exact perm_append_comm.append_right x.gone

theorem Balanced.step (balanced : x.Balanced)
    (known : ∀ mp, op = .rmvq mp → mp ∈ x.line.messages) : (x.step op).Balanced := by
  cases op with
  | putq bp supply =>
    unfold Balanced step
    rcases x.line.putq_spec bp supply with ⟨fine, same⟩ | ⟨fine, put⟩
    · simp only [fine, same]
      exact balanced
    · simp only [fine, put]
      exact balanced.put (insertBack_perm bp x.line.messages)
  | putbq bp supply =>
    unfold Balanced step
    rcases x.line.putbq_spec bp supply with ⟨fine, same⟩ | ⟨fine, put⟩
    · simp only [fine, same]
      exact balanced
    · simp only [fine, put]
      exact balanced.put (insertFront_perm bp x.line.messages)
  | getq =>
    unfold step Line.getq
    cases found : x.line.messages.find? fun a => !(x.line.message a).noget with
    | none => exact balanced
    | some bp =>
      have taken : x.line.messages.Perm ([bp] ++ x.line.messages.erase bp) :=
        perm_cons_erase (mem_of_find?_eq_some found)
      exact balanced.out taken
  | rmvq mp =>
    have taken : x.line.messages.Perm ([mp] ++ x.line.messages.erase mp) :=
      perm_cons_erase (known mp rfl)
    exact balanced.out taken
  | flushq flag | flushband pri flag => exact balanced.out (filter_append_perm _ _).symm
  | outside a next prev m => exact balanced

end Ideal

structure Queue.New (q : Queue) : Prop where
  first : q.list.first = none
  last : q.list.last = none
  count : q.flow.count = 0
  full : q.flow.full = false
  q_nband : q.q_nband = 0

namespace Machine
variable {s t : Machine} {op : Op} {bp supply : Nat}

theorem new_ok {q : Queue} (new : q.New) (room : 0 < q.flow.hiwat) : q.Ok [] := by
  refine ⟨DList.holds_nil new.first new.last, nofun, List.Pairwise.nil, ⟨room, new.count, ?_⟩, ?_⟩
  · rw [new.full, new.count]
    simp only [Bool.false_eq_true, false_iff]
    omega
  · intro i pos inside
    rw [new.q_nband] at inside
    omega

section
variable (ok : s.queue.Ok s.queue.messages)
include ok

theorem step_ideal (taken : s.step op = some t) :
    s.Allowed op ∧ t.queue.Ok t.queue.messages ∧ t.ideal = s.ideal.step op := by
  unfold step at taken
  split at taken
  · rename_i allowed
    obtain ⟨u, took, u_ok, u_ideal, -⟩ := take_ideal ok allowed
    obtain rfl := Option.some.inj (taken.symm.trans took)
    exact ⟨allowed, u_ok, u_ideal⟩
  · exact nomatch taken

theorem run_ideal {ops : List Op} (balanced : s.ideal.Balanced) (run : exec step s ops = some t) :
    t.queue.Ok t.queue.messages ∧ t.ideal = ops.foldl Ideal.step s.ideal ∧ t.ideal.Balanced := by
  induction ops generalizing s with
  | nil =>
    obtain rfl : s = t := by simpa using run
    exact ⟨ok, rfl, balanced⟩
  | cons op ops ih =>
    obtain ⟨u, taken, rest⟩ := exec_cons_eq_some.mp run
    obtain ⟨allowed, u_ok, u_ideal⟩ := step_ideal ok taken
    have u_balanced : u.ideal.Balanced := by
      rw [u_ideal]
      refine balanced.step ?_
      rintro mp rfl
      exact allowed
    obtain ⟨t_ok, t_ideal, t_balanced⟩ := ih u_ok u_balanced rest
    rw [u_ideal] at t_ideal
    exact ⟨t_ok, t_ideal, t_balanced⟩

theorem putq_order (taken : s.step (.putq bp supply) = some t) (accepted : bp ∈ t.queue.messages)
    (r : Nat) :
    ranked t.queue.rank r t.queue.messages = ranked t.queue.rank r s.queue.messages ++
      if t.queue.rank bp = r then [bp] else [] := by
  obtain ⟨⟨-, off⟩, t_ok, t_ideal⟩ := step_ideal ok taken
  have line : t.queue.line t.queue.messages =
      ((s.queue.line s.queue.messages).putq bp supply).1 := congrArg Ideal.line t_ideal
  have put := Line.putq_spec (s.queue.line s.queue.messages) bp supply
  rw [← line] at put
  rcases put with ⟨-, same⟩ | ⟨-, put⟩
  · have unchanged : t.queue.messages = s.queue.messages := same
    rw [unchanged] at accepted
    exact absurd accepted off
  · have inserted : t.queue.messages = insertBack t.queue.rank bp s.queue.messages := put
    have sorted := t_ok.sorted
    rw [inserted] at sorted ⊢
    exact ranked_insertBack (List.Pairwise.sublist (sublist_insertBack bp _) sorted) r

theorem putbq_order (taken : s.step (.putbq bp supply) = some t) (accepted : bp ∈ t.queue.messages)
    (r : Nat) :
    ranked t.queue.rank r t.queue.messages = (if t.queue.rank bp = r then [bp] else []) ++
      ranked t.queue.rank r s.queue.messages := by
  obtain ⟨⟨-, off⟩, t_ok, t_ideal⟩ := step_ideal ok taken
  have line : t.queue.line t.queue.messages =
      ((s.queue.line s.queue.messages).putbq bp supply).1 := congrArg Ideal.line t_ideal
  have put := Line.putbq_spec (s.queue.line s.queue.messages) bp supply
  rw [← line] at put
  rcases put with ⟨-, same⟩ | ⟨-, put⟩
  · have unchanged : t.queue.messages = s.queue.messages := same
    rw [unchanged] at accepted
    exact absurd accepted off
  · have inserted : t.queue.messages = insertFront t.queue.rank bp s.queue.messages := put
    have sorted := t_ok.sorted
    rw [inserted] at sorted ⊢
    exact ranked_insertFront (List.Pairwise.sublist (sublist_insertFront bp _) sorted) r

end

end Machine

/-- In every run list, bands and counts are in order, the list is the line, no message is lost or
doubled, and one that is put stands last, or first, among those of its rank. -/
theorem queue_discipline {q : Queue} (new : q.New) (room : 0 < q.flow.hiwat) {ops : List Op}
    {t : Machine} (run : exec Machine.step ⟨q, [], []⟩ ops = some t) :
    t.queue.Ok t.queue.messages ∧
    t.ideal = ops.foldl Ideal.step (Machine.ideal ⟨q, [], []⟩) ∧
    t.accepted.Perm (t.queue.messages ++ t.gone) ∧
    (∀ op, t.Allowed op → ∃ u, t.step op = some u) ∧
    (∀ bp supply u, t.step (.putq bp supply) = some u → bp ∈ u.queue.messages → ∀ r,
      ranked u.queue.rank r u.queue.messages = ranked u.queue.rank r t.queue.messages ++
        if u.queue.rank bp = r then [bp] else []) ∧
    (∀ bp supply u, t.step (.putbq bp supply) = some u → bp ∈ u.queue.messages → ∀ r,
      ranked u.queue.rank r u.queue.messages = (if u.queue.rank bp = r then [bp] else []) ++
        ranked u.queue.rank r t.queue.messages) := by
  have start := Machine.new_ok new room
  have empty : q.messages = [] := Machine.messages_eq start
  have start_ok : q.Ok q.messages := by rwa [empty]
  have start_balanced : Ideal.Balanced (Machine.ideal ⟨q, [], []⟩) := by
    change List.Perm [] (q.messages ++ [])
    rw [empty]
    exact List.Perm.nil
  obtain ⟨ok, ideal, balanced⟩ := Machine.run_ideal start_ok start_balanced run
  refine ⟨ok, ideal, balanced, ?_, ?_, ?_⟩
  · intro op allowed
    obtain ⟨u, took, -⟩ := Machine.take_ideal ok allowed
    exact ⟨u, (if_pos allowed).trans took⟩
  · intro bp supply u taken accepted r
    exact Machine.putq_order ok taken accepted r
  · intro bp supply u taken accepted r
    exact Machine.putbq_order ok taken accepted r

def fourMessages : Queue where
  list := ⟨fun _ => none, fun _ => none, none, none⟩
  message a := match a with
    | 0 => ⟨3, 0, false, [10]⟩
    | 1 => ⟨3, 0, false, [5, 6]⟩
    | 2 => ⟨0, 0, false, [7]⟩
    | _ => ⟨0, 0x81, false, [1]⟩
  flow := { count := 0, hiwat := 8, lowat := 2, full := false }
  q_nband := 0
  q_bandp _ := { count := 0, hiwat := 0, lowat := 0, full := false, qb_first := none, qb_last := none }
  nmblk := 4

theorem queue_discipline_four : ∃ t,
    exec Machine.step ⟨fourMessages, [], []⟩ [.putq 2 9, .putq 0 9, .putq 3 9, .putbq 1 9, .getq] =
      some t ∧ t.queue.messages = [1, 0, 2] ∧ t.queue.Ok t.queue.messages ∧
      t.accepted.Perm (t.queue.messages ++ t.gone) := by
  have ran : (exec Machine.step ⟨fourMessages, [], []⟩
      [.putq 2 9, .putq 0 9, .putq 3 9, .putbq 1 9, .getq]).map (fun t => t.queue.messages) =
      some [1, 0, 2] := by decide +kernel
  obtain ⟨t, run, messages⟩ := Option.map_eq_some_iff.mp ran
  obtain ⟨ok, -, balanced, -⟩ := queue_discipline ⟨rfl, rfl, rfl, rfl, rfl⟩ (by decide) run
  exact ⟨t, run, messages, ok, balanced⟩

end StreamQueues
