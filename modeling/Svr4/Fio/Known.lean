import Svr4.Fio.Steps

/- Each reference to a file is a slot, or an open or a close in progress. -/
namespace Fio
open Function Counting Option Finset

variable {s : State} {p q r fd : Nat} {fp : Fp}

def Pc.slot (p : Nat) : Pc → Option (Nat × Nat)
  | .opening fd _ => some (p, fd)
  | .closing _ _ (.close fd) => some (p, fd)
  | .closing _ _ (.closeall i) => some (p, i)
  | .closing _ _ (.pexit c i) => some (c, i)
  | _ => none

def Pc.opens (fp : Fp) : Pc → Nat
  | .opening _ f => one (f = fp)
  | _ => 0

def State.openers (s : State) (fp : Fp) : Nat := ∑ p ∈ s.procs, (s.pc p).opens fp

def State.settled (s : State) (fp : Fp) : Nat :=
  ∑ p ∈ s.procs, ∑ fd ∈ Finset.range (s.u p).u_nofiles,
    one (getf (s.u p) fd = some fp ∧ ∀ q ∈ s.procs, (s.pc q).slot q ≠ some (p, fd))

theorem Sound.slot_named (sound : Sound s) (here : (s.pc q).slot q = some (p, fd)) :
    p ∈ s.procs ∧ ∃ f, getf (s.u p) fd = some f ∧
      ∀ fp, (s.pc q).closes fp + (s.pc q).opens fp = (s.pc q).hand fp + one (f = fp) := by
  cases shape : s.pc q with
  | opening k f =>
    have ok := sound.at shape
    rw [shape] at here
    obtain ⟨rfl, rfl⟩ : q = p ∧ k = fd := by simpa [Pc.slot] using here
    exact ⟨ok.1, f, ok.2.1, fun fp => rfl⟩
  | closing f n next =>
    have ok := sound.at shape
    rw [shape] at here
    cases next with
    | close k =>
      obtain ⟨rfl, rfl⟩ : q = p ∧ k = fd := by simpa [Pc.slot] using here
      exact ⟨ok.1, f, ok.2, fun fp => add_comm _ _⟩
    | execclose => cases here
    | closeall k =>
      obtain ⟨rfl, rfl⟩ : q = p ∧ k = fd := by simpa [Pc.slot] using here
      exact ⟨ok.1, f, ok.2.1, fun fp => add_comm _ _⟩
    | pexit c k =>
      obtain ⟨rfl, rfl⟩ : c = p ∧ k = fd := by simpa [Pc.slot] using here
      obtain ⟨-, child_mem, -, named, copies, -⟩ := ok
      exact ⟨child_mem, f, (copies k (le_refl k)).trans named, fun fp => add_comm _ _⟩
  | _ =>
    rw [shape] at here
    cases here

theorem Pc.slot_none {pc : Pc} (here : pc.slot q = none) (fp : Fp) :
    pc.closes fp + pc.opens fp = pc.hand fp := by
  cases pc with
  | opening k f => cases here
  | closing f n next =>
    cases next with
    | execclose => rfl
    | _ => cases here
  | _ => rfl

theorem Sound.slot_alone (sound : Sound s) (first : (s.pc q).slot q = some (p, fd))
    (second : (s.pc r).slot r = some (p, fd)) : q = r := by
  -- a slot of another process is one of a child that waits
  have away : ∀ q, (s.pc q).slot q = some (p, fd) → q = p ∨ s.pc p = .embryo q := by
    intro q here
    cases shape : s.pc q with
    | opening k f =>
      rw [shape] at here
      left
      simpa [Pc.slot] using congrArg (Option.map Prod.fst) here
    | closing f n next =>
      rw [shape] at here
      cases next with
      | execclose => cases here
      | pexit c k =>
        obtain ⟨rfl, rfl⟩ : c = p ∧ k = fd := by simpa [Pc.slot] using here
        exact .inr (sound.at shape).2.2.1
      | _ =>
        left
        simpa [Pc.slot] using congrArg (Option.map Prod.fst) here
    | _ =>
      rw [shape] at here
      cases here
  have none_here : ∀ q r, q = p → s.pc p = .embryo r → (s.pc q).slot q ≠ some (p, fd) := by
    rintro q r rfl waits here
    rw [waits] at here
    cases here
  rcases away q first with rfl | waits
  · rcases away r second with same | waits
    · exact same.symm
    · exact absurd first (none_here q r rfl waits)
  · rcases away r second with rfl | waits'
    · exact absurd second (none_here r q rfl waits)
    · rw [waits] at waits'
      simpa using waits'

theorem Sound.refs_eq (sound : Sound s) (fp : Fp) :
    s.refs fp = s.settled fp + s.closers fp + s.openers fp := by
  have busy : ∀ p ∈ s.procs, slots (s.u p) fp = ∑ fd ∈ range (s.u p).u_nofiles,
        one (getf (s.u p) fd = some fp ∧ ∀ q ∈ s.procs, (s.pc q).slot q ≠ some (p, fd)) +
      ∑ q ∈ s.procs, ∑ fd ∈ range (s.u p).u_nofiles,
        one (getf (s.u p) fd = some fp ∧ (s.pc q).slot q = some (p, fd)) := by
    intro p _
    rw [sum_comm, ← sum_add_distrib]
    refine sum_congr rfl fun fd _ => ?_
    by_cases named : getf (s.u p) fd = some fp
    · simp only [named, true_and]
      by_cases taken : ∃ q ∈ s.procs, (s.pc q).slot q = some (p, fd)
      · obtain ⟨q, mem, here⟩ := taken
        have alone := sum_eq_single_of_mem
          (f := fun q => one ((s.pc q).slot q = some (p, fd))) q mem fun r _ other =>
            one_false fun there => other (sound.slot_alone there here)
        have not_all : ¬ ∀ q ∈ s.procs, (s.pc q).slot q ≠ some (p, fd) := fun all => all q mem here
        rw [alone, one_false not_all, one_true here, one_true trivial]
      · push Not at taken
        have nobody : ∑ q ∈ s.procs, one ((s.pc q).slot q = some (p, fd)) = 0 :=
          sum_eq_zero fun q mem => one_false (taken q mem)
        rw [nobody, one_true taken, one_true trivial]
    · simp only [named, false_and, not_false_eq_true, one_false, sum_const_zero, add_zero]
  have each : ∀ q ∈ s.procs, ∑ p ∈ s.procs, ∑ fd ∈ range (s.u p).u_nofiles,
        one (getf (s.u p) fd = some fp ∧ (s.pc q).slot q = some (p, fd)) + (s.pc q).hand fp =
      (s.pc q).closes fp + (s.pc q).opens fp := by
    intro q _
    cases here : (s.pc q).slot q with
    | none =>
      rw [Pc.slot_none here, sum_eq_zero fun p _ => sum_eq_zero fun fd _ =>
        one_false (fun both => by cases both.2), zero_add]
    | some pair =>
      obtain ⟨p, fd⟩ := pair
      obtain ⟨mem, f, named, total⟩ := sound.slot_named here
      have inside := mem_range.mpr ((sound.tables p).inside named)
      rw [total fp, sum_eq_single_of_mem p mem fun r _ other =>
          sum_eq_zero fun k _ => one_false fun both => ?_,
        sum_eq_single_of_mem fd inside fun k _ other => one_false fun both => ?_]
      · simp only [named, some.injEq, and_true]
        exact add_comm _ _
      · exact other (by simpa using both.2.symm)
      · exact other (by simpa using (congrArg (Option.map Prod.fst) both.2).symm)
  have total : s.refs fp = ∑ p ∈ s.procs, slots (s.u p) fp + ∑ p ∈ s.procs, (s.pc p).hand fp :=
    sum_add_distrib
  rw [total, sum_congr rfl busy, sum_add_distrib, sum_comm (s := s.procs),
    add_assoc, ← sum_add_distrib, sum_congr rfl each, sum_add_distrib,
    ← add_assoc]
  rfl

end Fio

/- What is known of open files in every run. -/
namespace Fio
open Function DoublyLinked Counting LabelledRuns Option Finset

variable {s t : State} {p q r c fd i j : Nat} {fp f : Fp} {u : Table} {next : After} {n : Int}

section
variable (sound : Sound s)
include sound

theorem Sound.fassigns {flag memory : Nat} {fp : Option Fp}
    (taken : step s (.fassign p flag fp memory) = some t) : Sound t := by
  obtain ⟨⟨mem, idle⟩, fresh, taken⟩ := of_free taken
  obtain ⟨after, file⟩ := sound.allocates none flag memory mem idle fresh
  obtain ⟨s', result, made⟩ : ∃ s' result, falloc s p none flag fp memory = (s', result) :=
    ⟨_, _, rfl⟩
  rw [made] at after file taken
  cases result with
  | error error =>
    cases taken
    exact after
  | ok pair =>
    obtain ⟨fd, fp⟩ := pair
    cases taken
    obtain ⟨procs, pc, named, single⟩ := file fd fp rfl
    have still : s'.pc p = .idle := pc ▸ idle
    exact after.sets_out still nofun (fun _ => ⟨rfl, rfl⟩) (fun _ => ⟨rfl, rfl⟩)
      ⟨procs ▸ mem, named, single⟩

theorem Sound.opening_ends {vp : Option Vnode} (taken : step s (.opened p vp) = some t) :
    Sound t := by
  simp only [step] at taken
  cases here : s.pc p with
  | opening fd fp =>
    simp only [here] at taken
    cases vp with
    | some vp =>
      cases taken
      exact sound.opens here
    | none =>
      obtain ⟨mem, named, single⟩ := sound.at here
      exact (sound.takes_back mem named single).2 here t taken
  | _ =>
    simp only [here] at taken
    cases taken

theorem Sound.dups {start memory : Nat} (taken : step s (.dup p fd start memory) = some t)
    (careful : ∀ fp ∈ getf (s.u p) fd, (s.files fp).f_count < 32767) : Sound t := by
  obtain ⟨⟨mem, idle⟩, taken⟩ := of_idle taken
  obtain ⟨fp, named, made⟩ := map_eq_some_iff.mp taken
  have spec := ufalloc_spec (sound.tables p) start memory
  obtain ⟨u, result, answer⟩ : ∃ u r, ufalloc (s.u p) start memory = (u, r) := ⟨_, _, rfl⟩
  rw [answer] at spec made
  have grown := sound.regrow (p := p) spec.ok spec.same
  have own : (s.setTable p u).u p = u := update_self _ _ _
  cases result with
  | error error => exact made ▸ grown
  | ok fd' =>
    obtain ⟨lowest, inside, -⟩ := spec.lowest fd' rfl
    rw [← made]
    refine grown.installs (i := fd) mem idle ?_ ?_ ?_ (careful fp named)
    · rw [own]
      exact inside
    · rw [own]
      exact (spec.same fd').trans lowest.free
    · rw [own]
      exact (spec.same fd).trans named

theorem Sound.goes_step (careful : Round s p (s.pc p)) (taken : go s p = some t) : Sound t := by
  cases here : s.pc p with
  | closing fp n next =>
    obtain ⟨-, t', ends, after⟩ := sound.close_ends here
    unfold go at taken
    simp only [here] at taken
    obtain rfl := some.inj (ends.symm.trans taken)
    exact after
  | closeall i =>
    rw [here] at careful
    exact sound.closeall_round here careful taken
  | pexit c i =>
    rw [here] at careful
    exact sound.pexit_round here careful taken
  | _ =>
    unfold go at taken
    simp only [here] at taken
    cases taken

theorem Sound.after_step {l : Label} (careful : Careful s l) (taken : step s l = some t) :
    Sound t := by
  cases l with
  | falloc p vp flag fp memory =>
    obtain ⟨⟨mem, idle⟩, fresh, taken⟩ := of_free taken
    cases taken
    exact (sound.allocates (some vp) flag memory mem idle fresh).1
  | fassign p flag fp memory => exact sound.fassigns taken
  | opened p vp => exact sound.opening_ends taken
  | unfalloc p fd =>
    obtain ⟨⟨mem, idle⟩, taken⟩ := of_idle taken
    obtain ⟨fp, named, rest⟩ := bind_eq_some_iff.mp taken
    obtain ⟨single, rest⟩ := ite_none_right_eq_some.mp rest
    obtain ⟨s', gone, rfl⟩ := map_eq_some_iff.mp rest
    exact (sound.takes_back mem named single).1 idle s' gone
  | close p fd =>
    obtain ⟨⟨mem, idle⟩, taken⟩ := of_idle taken
    obtain ⟨fp, named, rfl⟩ := map_eq_some_iff.mp taken
    exact (sound.closes mem idle named (careful fp named)).1
  | execclose p fd =>
    obtain ⟨⟨mem, idle⟩, taken⟩ := of_idle taken
    obtain ⟨fp, named, rfl⟩ := map_eq_some_iff.mp taken
    exact (sound.closes mem idle named (careful fp named)).2
  | exit p =>
    obtain ⟨⟨mem, idle⟩, taken⟩ := of_idle taken
    cases taken
    exact sound.sets_out idle nofun (fun _ => ⟨rfl, rfl⟩) (fun _ => ⟨rfl, rfl⟩)
      ⟨mem, fun j before => absurd before (Nat.not_lt_zero j)⟩
  | dup p fd start memory => exact sound.dups taken careful
  | dup2 p fd fd2 =>
    obtain ⟨may, taken⟩ := ite_none_right_eq_some.mp taken
    simp only [Bool.and_eq_true, decide_eq_true_eq, isNone_iff_eq_none] at may
    obtain ⟨⟨free, inside⟩, unused⟩ := may
    obtain ⟨mem, idle⟩ := State.free_iff.mp free
    obtain ⟨fp, named, rfl⟩ := map_eq_some_iff.mp taken
    exact sound.installs mem idle inside unused named (careful fp named)
  | newproc p child =>
    obtain ⟨⟨mem, idle⟩, new, taken⟩ := of_free taken
    cases taken
    exact sound.shares mem idle (of_decide_eq_true new) fun fd fp named =>
      careful fd ((sound.tables p).inside named) fp named
  | procdup p copied =>
    simp only [step] at taken
    cases here : s.pc p with
    | procdup c =>
      simp only [here] at taken
      cases taken
      obtain ⟨done, failed⟩ := sound.copies here
      split
      · exact done
      · exact failed
    | _ =>
      simp only [here] at taken
      cases taken
  | setrlimit p rlim_cur =>
    obtain ⟨-, taken⟩ := of_idle taken
    cases taken
    have ok := sound.tables p
    exact sound.regrow { ok with } fun _ => rfl
  | go p => exact sound.goes_step careful taken

end

theorem finit_sound (rlim_cur : Nat) : Sound (finit rlim_cur) := by
  have empty : ∀ p fd, getf ((finit rlim_cur).u p) fd = none := by
    intro p fd
    unfold getf finit
    simp only [ofile, zeroed]
    split
    · rfl
    · split
      · rfl
      · rfl
  have nothing : ∀ f, (finit rlim_cur).refs f = 0 := by
    intro f
    refine sum_eq_zero fun p _ => ?_
    unfold State.mine
    rw [slots_empty (empty p)]
    rfl
  have unallocated : ∀ fp, (finit rlim_cur).allocated fp ≠ true := fun _ => Bool.false_ne_true
  refine ⟨fun p => ⟨by simp [finit], by simp [finit]⟩, ?_, fun fp live => absurd live
    (unallocated fp), fun fp live => absurd live (unallocated fp), fun f _ => nothing f,
    fun p => trivial, fun fp live => absurd live (unallocated fp),
    fun e mem => absurd mem List.not_mem_nil⟩
  exact ⟨[], DList.holds_nil rfl rfl, rfl, fun fp => by simp [finit]⟩

/-- What is known of open files. One that is not freed was told of its last close, or nobody makes
it; and whoever closes a file can do so, once. -/
structure Right (s : State) : Prop where
  counted : ∀ fp, s.allocated fp = true →
    (s.files fp).f_count = s.settled fp + s.closers fp + s.openers fp
  named : ∀ p ∈ s.procs, ∀ fd fp, getf (s.u p) fd = some fp → s.allocated fp = true
  filed : Filed s
  closing : ∀ fp, s.allocated fp = true → Closing s fp
  closes : ∀ p fp n next, s.pc p = .closing fp n next →
    s.allocated fp = true ∧ (go s p).isSome = true
  ended : ∀ e ∈ s.ended, e.Right
  ufalloc : ∀ p start memory,
    Allocated (s.u p) start memory (ufalloc (s.u p) start memory).1 (ufalloc (s.u p) start memory).2

theorem Sound.right (sound : Sound s) : Right s := by
  refine ⟨fun fp live => ?_, fun p mem fd fp here => sound.named mem (sound.mine_slot here),
    sound.filed, sound.closing, fun p fp n next here => ?_, sound.ended,
    fun p start memory => ufalloc_spec (sound.tables p) start memory⟩
  · rw [(sound.counts fp live).1, sound.refs_eq fp]
    omega
  · obtain ⟨live, t, ends, -⟩ := sound.close_ends here
    refine ⟨live, ?_⟩
    unfold go
    simp only [here, ends]
    rfl

/-- Open files are counted, and closed exactly once. -/
theorem counted_and_closed_once (rlim_cur : Nat) (ls : List Label)
    (careful : Guarded step Careful (finit rlim_cur) ls) :
    Throughout step Right (finit rlim_cur) ls :=
  throughout_of_guarded Sound (fun _ sound => sound.right)
    (fun _ _ _ sound careful taken => sound.after_step careful taken) (finit_sound rlim_cur) careful

def share_and_close : List Label :=
  [.falloc 0 7 1 (some 5) 0, .newproc 0 1, .procdup 0 true, .dup 1 0 30 1, .close 0 0, .go 0,
    .close 1 0, .go 1, .exit 1, .go 1]

theorem counted_and_closed_once_shared :
    (exec step (finit 40) share_and_close).isSome = true ∧
      Throughout step Right (finit 40) share_and_close :=
  ⟨by decide +kernel, counted_and_closed_once 40 share_and_close (by decide +kernel)⟩

/-- Two processes close a shared file at once: both tell that there are two references, then it is
freed. -/
theorem last_close_untold :
    ∃ s, exec step (finit 40) [.falloc 0 7 1 (some 5) 0, .newproc 0 1, .procdup 0 true,
      .close 0 0, .close 1 0, .go 0, .go 1] = some s ∧ ¬ Right s := by
  obtain ⟨s, run⟩ := isSome_iff_exists.mp (show (exec step (finit 40)
    [.falloc 0 7 1 (some 5) 0, .newproc 0 1, .procdup 0 true, .close 0 0, .close 1 0, .go 0,
      .go 1]).isSome = true by decide +kernel)
  have ended : (exec step (finit 40) [.falloc 0 7 1 (some 5) 0, .newproc 0 1, .procdup 0 true,
      .close 0 0, .close 1 0, .go 0, .go 1]).map State.ended = some [.closed 0 2] := by
    decide +kernel
  refine ⟨s, run, fun right => ?_⟩
  rw [run] at ended
  have told := right.ended (.closed 0 2) (by simp [some.inj ended])
  exact absurd told.1 (by decide)

end Fio
