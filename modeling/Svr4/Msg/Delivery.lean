import Svr4.Msg.Choice

/- Runs of msgget, msgsnd, msgrcv and msgctl(IPC_RMID) by any number of processes. -/
namespace MessageQueues
open Function NextChains ResourceMap LabelledRuns List Option Nat

inductive Steps (info : MsgInfo) (s : State) : Label → State → Prop
  | msgget {k t} (made : msgget info s k = some t) : Steps info s (.msgget k) t
  | msgsnd {p a r} (here : s.proc p = .user r) : Steps info s (.msgsnd p a) (snd_start info s p a)
  | msgrcv {p a r} (here : s.proc p = .user r) : Steps info s (.msgrcv p a) (rcv_start info s p a)
  | rmid {p id access r} (here : s.proc p = .user r) :
      Steps info s (.rmid p id access) (rmid info s p id access)
  | retry {p stage} (here : s.proc p = .lockWait stage) :
      Steps info s (.retry p) (resume info s p stage)
  | typed {p type a} (here : s.proc p = .sndType a) :
      Steps info s (.typed p type) (snd_typed info s p a type)
  | snd_copied {p a type mp spot} (here : s.proc p = .sndText a type mp spot) :
      Steps info s (.copied p) (snd_link info s p a type mp spot)
  | rcv_typed {p a pmp mp sz} (here : s.proc p = .rcvType a pmp mp sz) : Steps info s (.copied p)
      (if sz = 0 then rcv_done info s p a pmp mp sz else s.setProc p (.rcvText a pmp mp sz))
  | rcv_copied {p a pmp mp sz} (here : s.proc p = .rcvText a pmp mp sz) :
      Steps info s (.copied p) (rcv_done info s p a pmp mp sz)
  | type_fault {p a} (here : s.proc p = .sndType a) :
      Steps info s (.fault p) (s.out p (key info a.msqid) (.error .EFAULT))
  | snd_fault {p a type mp spot} (here : s.proc p = .sndText a type mp spot) :
      Steps info s (.fault p) (snd_fault info s p a mp spot)
  | rcv_fault {p a pmp mp sz}
      (here : s.proc p = .rcvType a pmp mp sz ∨ s.proc p = .rcvText a pmp mp sz) :
      Steps info s (.fault p) (s.out p (key info a.msqid) (.error .EFAULT))
  | snd_wake {p a type} (here : s.proc p = .sndWait a type) :
      Steps info s (.wake p) (snd_get info s p a type)
  | rcv_wake {p a} (here : s.proc p = .rcvWait a) : Steps info s (.wake p) (rcv_find info s p a)
  | lock_intr {p stage} (here : s.proc p = .lockWait stage) :
      Steps info s (.intr p) (s.setProc p (.user (.error .EINTR)))
  | snd_intr {p a type} (here : s.proc p = .sndWait a type) :
      Steps info s (.intr p) (snd_intr info s p a)
  | rcv_intr {p a} (here : s.proc p = .rcvWait a) :
      Steps info s (.intr p) (s.setProc p (.user (.error .EINTR)))

theorem step_cases {info : MsgInfo} {s t : State} {l : Label} (taken : step info s l = some t) :
    Steps info s l t := by
  cases l with
  | msgget k => exact .msgget taken
  | fault p =>
    unfold step at taken
    dsimp only at taken
    split at taken <;> cases taken
    · exact .type_fault ‹_›
    · exact .snd_fault ‹_›
    · exact .rcv_fault (.inl ‹_›)
    · exact .rcv_fault (.inr ‹_›)
  | intr p =>
    unfold step at taken
    dsimp only at taken
    split at taken <;> cases taken
    · exact .lock_intr ‹_›
    · exact .snd_intr ‹_›
    · exact .rcv_intr ‹_›
  | msgsnd | msgrcv | rmid | retry | typed | copied | wake =>
    unfold step at taken
    dsimp only at taken
    split at taken <;> cases taken <;> constructor <;> assumption

variable {info : MsgInfo} {s t : State} {k p q x spot : Nat} {l hd pmp : Option Nat} {v : View}
  {found : State → State} {access : Bool} {stage : Stage} {l : Label} {id : Int}

/-! What each piece of code does -/

theorem Running.leave (run : Running info s v p none none) (even : ∀ k, v.debt k = 0) (r : Result) :
    ∃ w, Resting info (s.setProc p (.user r)) w :=
  ⟨v, run.park (at_user ..) even⟩

theorem Running.exit (run : Running info s v p (some k) none) (even : ∀ k, v.debt k = 0) (r : Result) :
    ∃ w, Resting info (s.out p k r) w :=
  ⟨v, run.out even r⟩

theorem Running.copy (pc : Proc) (run : Running info s v p (pc.lock info) pc.header)
    (even : ∀ k, v.debt k = 0)
    (here : At info s v pc) : ∃ w, Resting info (s.setProc p pc) w :=
  ⟨v, run.park here even⟩

theorem Running.rest (pc : Proc) (run : Running info s v p none none) (even : ∀ k, v.debt k = 0)
    (bare : pc.lock info = none ∧ pc.header = none) (fits : pc.Fits info) :
    ∃ w, Resting info (s.setProc p pc) w := by
  have run' : Running info s v p (pc.lock info) pc.header := by
    rw [bare.1, bare.2]
    exact run
  refine ⟨v, run'.park ⟨fits, ?_, ?_, ?_⟩ even⟩
  · intro k locked
    rw [bare.1] at locked
    exact nomatch locked
  · rintro a type x spot rfl
    exact nomatch bare.2
  · rintro a pmp x sz (rfl | rfl)
    · exact nomatch bare.1
    · exact nomatch bare.1

theorem msgconv_rests (stage : Stage) (run : Running info s v p none none)
    (even : ∀ k, v.debt k = 0) (fits : stage.Fits info)
    (goes_on : Running info (s.setLock (key info stage.msqid) true) v p (some (key info
      stage.msqid)) none → (s.pool.msgque (key info stage.msqid)).alloc = true → ∃ w, Resting info
      (found (s.setLock (key info stage.msqid) true)) w) :
    ∃ w, Resting info (msgconv info s p stage found) w := by
  unfold msgconv
  split
  · exact run.leave even _
  split
  · exact run.rest (.lockWait stage) even ⟨rfl, rfl⟩ fits
  rename_i free
  split
  · rename_i ok
    refine goes_on (run.acquire (Bool.eq_false_iff.mpr free)) ?_
    unfold valid at ok
    simp only [Bool.and_eq_true] at ok
    exact ok.1
  · exact run.leave even _

/-! msgsnd -/

variable {a : Snd} {type : Int} {sz : Nat}

theorem snd_link_rests (run : Running info s v p (some (key info a.msqid)) (some x))
    (even : ∀ k, v.debt k = 0)
    (owns : v.span x = if a.msgsz.toNat = 0 then (0, 0) else (btoq info a.msgsz.toNat, spot + 1))
    (fits : a.Fits info) (typed : 1 ≤ type) (small_spot : spot < 32768)
    (alloc : (s.pool.msgque (key info a.msqid)).alloc = true) :
    ∃ w, Resting info (snd_link info s p a type x spot) w :=
  (run.link owns fits typed small_spot alloc).exit even _

theorem snd_wait_rests (run : Running info s v p (some k) none) (even : ∀ k, v.debt k = 0)
    (fits : a.Fits info) (typed : 1 ≤ type) : ∃ w, Resting info (snd_wait s p k a type) w := by
  unfold snd_wait
  split
  · exact run.exit even _
  · exact run.release.rest (.sndWait a type) even ⟨rfl, rfl⟩ ⟨fits, typed⟩

theorem snd_alloc_rests (run : Running info s v p (some (key info a.msqid)) none)
    (even : ∀ k, v.debt k = 0) (fits : a.Fits info) (typed : 1 ≤ type)
    (alloc : (s.pool.msgque (key info a.msqid)).alloc = true) :
    ∃ w, Resting info (snd_alloc info s p a type) w := by
  unfold snd_alloc
  dsimp only
  split
  · exact snd_wait_rests run even fits typed
  cases top : s.pool.msgfp with
  | none => exact snd_wait_rests run even fits typed
  | some mp =>
    obtain ⟨fs, empty, taken⟩ := run.take top
    dsimp only
    split
    · rename_i zero
      refine snd_link_rests taken even ?_ fits typed (by omega) alloc
      rw [if_pos zero]
      exact empty
    rename_i nonzero
    have pos := btoq_pos info (Nat.pos_of_ne_zero nonzero)
    rcases taken.rmalloc empty pos with refused | ⟨r, h, bound, got, same, holds⟩
    · rw [refused]
      dsimp only
      split
      · exact (taken.give empty).exit even _
      · have run' := (taken.want.give empty).release
        exact run'.rest (.sndWait a type) even ⟨rfl, rfl⟩ ⟨fits, typed⟩
    · rw [got]
      have owns : update v.span mp (btoq info a.msgsz.toNat, r + 1) mp =
          (btoq info a.msgsz.toNat, r + 1) := update_self ..
      refine Running.copy (.sndText a type mp r) holds even ⟨⟨fits, typed⟩, ?_, ?_, ?_⟩
      · intro j locked
        obtain rfl := some.inj locked
        rw [same]
        exact alloc
      · intro a' type' x spot eq
        obtain ⟨rfl, rfl, rfl, rfl⟩ := Proc.sndText.inj eq
        refine ⟨owns, by omega, ?_⟩
        rintro none
        rw [none] at nonzero
        exact nonzero rfl
      · rintro a' pmp x sz (eq | eq) <;> exact nomatch eq

theorem snd_get_rests (run : Running info s v p none none) (even : ∀ k, v.debt k = 0)
    (fits : a.Fits info) (typed : 1 ≤ type) : ∃ w, Resting info (snd_get info s p a type) w :=
  msgconv_rests (.sndGet a type) run even ⟨fits, typed⟩
    fun locked alloc => snd_alloc_rests locked even fits typed alloc

theorem snd_start_rests (run : Running info s v p none none) (even : ∀ k, v.debt k = 0) :
    ∃ w, Resting info (snd_start info s p a) w := by
  refine msgconv_rests (.sndStart a) run even trivial fun locked alloc => ?_
  split
  · exact locked.exit even _
  split
  · exact locked.exit even _
  · have fits : a.Fits info := ⟨by omega, by omega⟩
    refine Running.copy (.sndType a) locked even ⟨fits, ?_, nofun, ?_⟩
    · intro j mine
      obtain rfl := some.inj mine
      exact alloc
    · rintro a' pmp x sz (eq | eq) <;> exact nomatch eq

theorem snd_typed_rests (run : Running info s v p (some (key info a.msqid)) none)
    (even : ∀ k, v.debt k = 0) (fits : a.Fits info) :
    ∃ w, Resting info (snd_typed info s p a type) w := by
  unfold snd_typed
  split
  · exact run.exit even _
  · exact snd_get_rests run.release even fits (by omega)

theorem snd_intr_rests (run : Running info s v p none none) (even : ∀ k, v.debt k = 0) :
    ∃ w, Resting info (snd_intr info s p a) w :=
  msgconv_rests (.sndIntr a) run even trivial fun locked _ => locked.exit even _

theorem snd_fault_rests (run : Running info s v p (some (key info a.msqid)) (some x))
    (even : ∀ k, v.debt k = 0) (owns : v.span x = (btoq info a.msgsz.toNat, spot + 1)) :
    ∃ w, Resting info (snd_fault info s p a x spot) w := by
  have freed := (run.rmfree owns).give (update_self ..)
  exact freed.exit even _

/-! msgrcv -/

theorem at_rcv {a : Rcv} {pc : Proc} {pre post : List Nat}
    (here : pc = .rcvType a pmp x sz ∨ pc = .rcvText a pmp x sz)
    (alloc : (s.pool.msgque (key info a.msqid)).alloc = true)
    (parts : v.qs (key info a.msqid) = pre ++ x :: post) (before : pmp = pre.getLast?)
    (chosen : Chosen s.pool.msg_type a.msgtyp pre x post) : At info s v pc := by
  refine ⟨?_, ?_, ?_, ?_⟩
  · rcases here with rfl | rfl <;> trivial
  · intro j mine
    rcases here with rfl | rfl <;> (obtain rfl := some.inj mine; exact alloc)
  · rcases here with rfl | rfl <;> exact nofun
  · rintro a' pmp' x' sz' there
    rcases here with rfl | rfl <;> rcases there with eq | eq <;> cases eq <;>
      exact ⟨pre, post, parts, before, chosen⟩

theorem rcv_find_rests {a : Rcv} (run : Running info s v p none none) (even : ∀ k, v.debt k = 0) :
    ∃ w, Resting info (rcv_find info s p a) w := by
  refine msgconv_rests (.rcvFind a) run even trivial fun locked alloc => ?_
  dsimp only
  split
  · rename_i pmp mp found
    have books := locked.books
    obtain ⟨pre, post, parts, before, chosen⟩ :=
      select_some books.chained (books.typed (key info a.msqid)) a.long found
    have here : ∀ sz, ∃ w, Resting info ((s.setLock (key info a.msqid) true).setProc p
        (.rcvType a pmp mp sz)) w := fun sz => Running.copy (.rcvType a pmp mp sz) locked even
      (at_rcv (.inl rfl) alloc parts before chosen)
    split
    · split
      · exact here _
      · exact locked.exit even _
    · exact here _
  · split
    · exact locked.exit even _
    · exact locked.release.rest (.rcvWait a) even ⟨rfl, rfl⟩ trivial

theorem rcv_start_rests {a : Rcv} (run : Running info s v p none none) (even : ∀ k, v.debt k = 0) :
    ∃ w, Resting info (rcv_start info s p a) w := by
  refine msgconv_rests (.rcvStart a) run even trivial fun locked _ => ?_
  split
  · exact locked.exit even _
  · split
    · exact locked.exit even _
    · exact rcv_find_rests locked.release even

theorem rcv_done_rests {a : Rcv} {pre post : List Nat}
    (run : Running info s v p (some (key info a.msqid)) none) (even : ∀ k, v.debt k = 0)
    (parts : v.qs (key info a.msqid) = pre ++ x :: post)
    (alloc : (s.pool.msgque (key info a.msqid)).alloc = true) :
    ∃ w, Resting info (rcv_done info s p a pre.getLast? x sz) w := by
  have books := run.books
  have bytes := books.cbytes (key info a.msqid)
  have enough : s.pool.msg_ts x ≤ ((v.qs (key info a.msqid)).map s.pool.msg_ts).sum := by
    rw [parts]
    simp only [map_append, map_cons, sum_append_nat, sum_cons]
    omega
  rw [even] at bytes
  -- the bytes of the message are subtracted before it leaves
  let qp := { s.pool.msgque (key info a.msqid) with
    msg_cbytes := (s.pool.msgque (key info a.msqid)).msg_cbytes - s.pool.msg_ts x }
  have counted : (qp.msg_cbytes : Int) =
      ((v.qs (key info a.msqid)).map s.pool.msg_ts).sum + -(s.pool.msg_ts x : Int) := by
    change (((s.pool.msgque (key info a.msqid)).msg_cbytes - s.pool.msg_ts x : Nat) : Int) = _
    omega
  have less := run.setQueue (fun q other theirs => run.other_lock other rfl theirs rfl) qp _ rfl rfl rfl counted
    (fun shut => nomatch (show true = false from alloc.symm.trans shut)) (books.range _)
  obtain ⟨fs, place, span, freed⟩ := less.msgfree parts (.inl ⟨rfl, rfl⟩)
  refine freed.exit ?_ _
  intro j
  dsimp only
  rw [update_idem, update_apply]
  split
  · have ts : (s.pool.setQueue (key info a.msqid) qp).msg_ts x = s.pool.msg_ts x := rfl
    rw [update_self, ts]
    omega
  · exact even j

/-! msgctl(IPC_RMID) -/

theorem rmid_loop_ok : ∀ (fuel : Nat) (s : State) (v : View), Running info s v p (some k) none →
    (v.qs k).length ≤ fuel →
    let r := rmid_loop info k fuel (s.pool, s.removed)
    ∃ w, Running info { s with pool := r.1, removed := r.2 } w p (some k) none ∧
      w.qs k = [] ∧ (∀ j, j ≠ k → w.debt j = v.debt j) ∧
      (∀ j, (r.1.msgque j).alloc = (s.pool.msgque j).alloc) ∧
      r.2 = s.removed ++ (v.qs k).map s.pool.serial := by
  intro fuel
  induction fuel with
  | zero =>
    intro s v run short
    have empty := length_eq_zero_iff.mp (le_zero.mp short)
    refine ⟨v, run, empty, fun _ _ => rfl, fun _ => rfl, ?_⟩
    rw [empty]
    exact (append_nil _).symm
  | succ fuel ih =>
    intro s v run short
    have first := run.books.chained.first_eq k
    unfold rmid_loop
    cases queue : v.qs k with
    | nil =>
      rw [queue] at first
      rw [first]
      exact ⟨v, run, queue, fun _ _ => rfl, fun _ => rfl, (append_nil _).symm⟩
    | cons x post =>
      rw [queue] at first short
      rw [first]
      have parts : v.qs k = [] ++ x :: post := queue
      obtain ⟨fs, place, span, freed⟩ := run.msgfree parts (.inr ⟨rfl, rfl⟩)
      have shorter : (update v.qs k ([] ++ post) k).length ≤ fuel := by
        rw [update_self]
        exact le_of_succ_le_succ short
      obtain ⟨w, run', empty, debt, alloc, removed⟩ := ih _ _ freed shorter
      have same : (msgfree info s.pool k none x).serial = s.pool.serial ∧
          ∀ j, ((msgfree info s.pool k none x).msgque j).alloc = (s.pool.msgque j).alloc := by
        have que := fun j => (unlink_que s.pool k x j none).1
        obtain ⟨-, -, -, -, -, serial⟩ := unlink_frame s.pool k x none
        unfold msgfree
        dsimp only
        split
        · obtain ⟨mp, lost, same⟩ := rmfree_eq (s.pool.unlink k none x)
            (btoq info ((s.pool.unlink k none x).msg_ts x))
            ((s.pool.unlink k none x).msg_spot x + 1).toNat
          rw [same]
          exact ⟨serial, que⟩
        · exact ⟨serial, que⟩
      refine ⟨w, run', empty, ?_, ?_, ?_⟩
      · intro j other
        rw [debt j other]
        exact update_of_ne other ..
      · intro j
        exact (alloc j).trans (same.2 j)
      · have left : update v.qs k ([] ++ post) k = post := update_self ..
        refine removed.trans ?_
        dsimp only
        rw [left, List.getLast?_nil, same.1, append_assoc, map_cons, singleton_append]

theorem rmid_rests (run : Running info s v p none none) (even : ∀ k, v.debt k = 0) :
    ∃ w, Resting info (rmid info s p id access) w := by
  refine msgconv_rests (.rmid id access) run even trivial fun locked _ => ?_
  split
  · exact locked.exit even _
  have short := locked.books.chained.short (key info id)
  obtain ⟨w, emptied, empty, debt, -, -⟩ := rmid_loop_ok info.msgtql _ v locked short
  have closed := emptied.setQueue (fun q other theirs => emptied.other_lock other rfl theirs rfl)
    { (rmid_loop info (key info id) info.msgtql (s.pool, s.removed)).1.msgque (key info id) with
      alloc := false
      seq := if (INT16_MAX : Int) < id + info.msgmni then 0 else
        ((rmid_loop info (key info id) info.msgtql (s.pool, s.removed)).1.msgque (key info id)).seq + 1
      msg_cbytes := 0 } 0 rfl rfl rfl (by rw [empty]; rfl) (fun _ => empty) nofun
  refine closed.exit ?_ _
  intro j
  dsimp only
  rw [update_apply]
  split
  · rfl
  · rename_i other
    exact (debt j other).trans (even j)

/-! The machine -/

section
variable (rest : Resting info s v)
include rest

theorem msgget_rests (taken : msgget info s k = some t) : ∃ w, Resting info t w := by
  unfold msgget at taken
  split at taken
  · rename_i guard
    obtain rfl := some.inj taken
    obtain ⟨small, shut⟩ := guard
    have books := rest.books
    have empty := books.closed k shut
    have first := books.chained.first_eq k
    have last := books.chained.last k
    have qnum := books.qnum k
    have bytes := books.cbytes k
    rw [empty] at first last qnum bytes
    rw [rest.even] at bytes
    -- nobody has the queue locked
    have unlocked : ∀ q, (s.proc q).lock info ≠ some k := by
      intro q locked
      rw [(rest.each q).alloc k locked] at shut
      exact nomatch shut
    let qp : MsqidDs := { s.pool.msgque k with
      alloc := true, msg_first := none, msg_last := none, msg_qnum := 0
      msg_qbytes := toUshort info.msgmnb }
    have changed := fun p => (rest.running p).setQueue (fun q _ => unlocked q) qp 0 first.symm
      last.symm qnum.symm (by rw [empty]; exact bytes) nofun (fun _ => small)
    have held := (changed 0).books
    rw [update_eq_self (f := fun q => (s.proc q).lock info),
      update_eq_self (f := fun q => (s.proc q).header)] at held
    refine ⟨_, held, ?_, ?_⟩
    · intro q
      by_cases zero : q = 0
      · exact (changed 1).others q (by omega)
      · exact (changed 0).others q zero
    · intro j
      dsimp only
      rw [update_apply]
      split
      · rfl
      · exact rest.even j
  · exact nomatch taken

theorem Resting.bare {pc : Proc} (here : s.proc p = pc)
    (bare : pc.lock info = none ∧ pc.header = none) : Running info s v p none none := by
  have run := rest.running p
  rw [here, bare.1, bare.2] at run
  exact run

theorem resume_rests (here : s.proc p = .lockWait stage) :
    ∃ w, Resting info (resume info s p stage) w := by
  have run := rest.bare here ⟨rfl, rfl⟩
  have fits := (rest.each p).fits
  rw [here] at fits
  cases stage with
  | sndStart a => exact snd_start_rests run rest.even
  | sndGet a type => exact snd_get_rests run rest.even fits.1 fits.2
  | sndIntr a => exact snd_intr_rests run rest.even
  | rcvStart a => exact rcv_start_rests run rest.even
  | rcvFind a => exact rcv_find_rests run rest.even
  | rmid id access => exact rmid_rests run rest.even

theorem copying_rests {a : Rcv}
    (here : s.proc p = .rcvType a pmp x sz ∨ s.proc p = .rcvText a pmp x sz) :
    Running info s v p (some (key info a.msqid)) none ∧
      (∃ w, Resting info (rcv_done info s p a pmp x sz) w) ∧
      ∃ w, Resting info (s.setProc p (.rcvText a pmp x sz)) w := by
  have known := rest.each p
  obtain ⟨pre, post, parts, before, chosen⟩ := known.receiving a pmp x sz here
  have locked : (s.proc p).lock info = some (key info a.msqid) := by
    rcases here with here | here <;> rw [here] <;> rfl
  have bare : (s.proc p).header = none := by
    rcases here with here | here <;> rw [here] <;> rfl
  have run := rest.running p
  rw [locked, bare] at run
  have alloc := known.alloc _ locked
  refine ⟨run, ?_, Running.copy (.rcvText a pmp x sz) run rest.even
    (at_rcv (.inr rfl) alloc parts before chosen)⟩
  rw [before]
  exact rcv_done_rests run rest.even parts alloc

theorem step_rests (taken : step info s l = some t) : ∃ w, Resting info t w := by
  cases step_cases taken with
  | msgget made => exact msgget_rests rest made
  | msgsnd here => exact snd_start_rests (rest.bare here ⟨rfl, rfl⟩) rest.even
  | msgrcv here => exact rcv_start_rests (rest.bare here ⟨rfl, rfl⟩) rest.even
  | rmid here => exact rmid_rests (rest.bare here ⟨rfl, rfl⟩) rest.even
  | retry here => exact resume_rests rest here
  | @typed p type a here =>
    have run := rest.running p
    have fits := (rest.each p).fits
    rw [here] at run fits
    exact snd_typed_rests run rest.even fits
  | @snd_copied p a type mp spot here =>
    have run := rest.running p
    have known := rest.each p
    rw [here] at run known
    obtain ⟨owns, small, nonzero⟩ := known.sending a type mp spot rfl
    have seg := info.seg_lt
    have positive := known.fits.1.1
    refine snd_link_rests run rest.even ?_ known.fits.1 known.fits.2 (by omega) (known.alloc _ rfl)
    rw [if_neg (by omega)]
    exact owns
  | rcv_typed here =>
    obtain ⟨-, done, text⟩ := copying_rests rest (.inl here)
    split
    · exact done
    · exact text
  | rcv_copied here => exact (copying_rests rest (.inr here)).2.1
  | @type_fault p a here =>
    have run := rest.running p
    rw [here] at run
    exact Running.exit run rest.even _
  | @snd_fault p a type mp spot here =>
    have run := rest.running p
    have known := rest.each p
    rw [here] at run known
    exact snd_fault_rests run rest.even (known.sending a type mp spot rfl).1
  | rcv_fault here => exact (copying_rests rest here).1.exit rest.even _
  | @snd_wake p a type here =>
    have fits := (rest.each p).fits
    rw [here] at fits
    exact snd_get_rests (rest.bare here ⟨rfl, rfl⟩) rest.even fits.1 fits.2
  | rcv_wake here => exact rcv_find_rests (rest.bare here ⟨rfl, rfl⟩) rest.even
  | lock_intr here | rcv_intr here => exact (rest.bare here ⟨rfl, rfl⟩).leave rest.even _
  | snd_intr here => exact snd_intr_rests (rest.bare here ⟨rfl, rfl⟩) rest.even

end

/-! The first state -/

theorem msginit_segmented (info : MsgInfo) : Segmented info (msginit info) fun _ => (0, 0) := by
  have large := info.map_ge
  have seg := info.seg_lt
  obtain ⟨c, capacity⟩ : ∃ c, info.msgmap = c + 2 := ⟨info.msgmap - 2, by omega⟩
  have shaped : Shaped (mapinit info.msgmap) [] := by
    rw [capacity]
    exact mapinit_shaped c
  have wf := shaped.wellFormed
  have none : freeUnits (mapinit info.msgmap) = ∅ := by
    unfold freeUnits
    rw [shaped.live_eq]
    ext u
    simp [units]
  have legal : Legal (mapinit info.msgmap) (.rmfree info.msgseg 1) := by
    refine ⟨?_, le_refl 1, by decide, ?_, ?_⟩
    · unfold word
      omega
    · unfold word
      omega
    · intro u _
      rw [none]
      exact Set.notMem_empty u
  obtain ⟨out, run, freed⟩ := rmfree_spec wf legal
  have size : (mapinit info.msgmap).mapsize = info.msgmap - 2 := rfl
  have kept : out.overflow = false := by
    rw [← Bool.not_eq_true]
    intro beyond
    have := overflow_full run beyond
    omega
  have map : (msginit info).msgmap = out.mp := by
    unfold msginit
    rw [run]
    rfl
  have units : freeUnits (msginit info).msgmap = rangeOf info.msgseg 1 := by
    rw [map, freed.added kept, none, Set.empty_union]
  have no_text : ∀ u x, u ∉ text (fun _ => (0, 0)) x := by
    intro u x
    unfold text
    rw [range_empty]
    exact Set.notMem_empty u
  have no_lost : ∀ u, u ∉ (msginit info).lostUnits := by
    rintro u ⟨r, mem, -⟩
    exact absurd mem not_mem_nil
  refine ⟨map ▸ freed.wellFormed, ?_, ?_, ?_, ?_, ?_, ?_, ?_, fun _ => rfl⟩
  · rw [map]
    have before := wellFormed_length wf
    have after := wellFormed_length freed.wellFormed
    have same := freed.slots
    have live_nil : live (mapinit info.msgmap) = [] := shaped.live_eq
    rw [live_nil, length_nil] at before
    omega
  · intro u
    rw [units]
    unfold rangeOf
    simp only [Set.mem_ofPred_eq]
    constructor
    · intro inside
      exact .inl (by omega)
    · rintro (free | ⟨x, mine⟩ | lost)
      · omega
      · exact absurd mine (no_text u x)
      · exact absurd lost (no_lost u)
  · exact fun u x _ => no_text u x
  · exact fun u _ => no_lost u
  · exact fun u x mine => absurd mine (no_text u x)
  · exact fun u x _ mine => absurd mine (no_text u x)
  · exact fun u x mine => absurd mine (no_text u x)

theorem start_rests (info : MsgInfo) : Resting info (start info)
    ⟨List.range info.msgtql, fun _ => [], fun _ => .free, fun _ => (0, 0), fun _ => 0⟩ := by
  have path : Path (msginit info).msg_next (some 0) (List.range info.msgtql) :=
    path_array info.tql_pos (fun _ inside => if_pos inside) (if_neg (by omega))
  refine ⟨⟨⟨path, nodup_range, ?_, fun _ => rfl, fun _ => rfl, fun _ => nodup_nil, ?_⟩,
    msginit_segmented info, ?_, fun _ _ => rfl, nofun, nofun, fun _ => rfl, fun _ => rfl, ?_, nofun,
    fun _ _ => rfl, nofun, ⟨nofun, fun _ => List.Pairwise.nil, nodup_nil, nodup_nil, nofun,
      nofun, ?_⟩⟩, fun _ => at_user .., fun _ => rfl⟩
  · intro x
    simp
  · intro k x
    simp
  · intro q x
    exact ⟨nofun, fun both => nomatch both.2⟩
  · intro k
    exact ⟨nofun, fun ⟨q, impossible⟩ => nomatch impossible⟩
  · intro m
    simp [start]

/-! What becomes of the messages -/

@[simp] theorem Pool.setQueue_self (h : Pool) (k : Nat) (qp : MsqidDs) :
    (h.setQueue k qp).msgque k = qp := update_self ..

theorem ok_update {f : Nat → Proc} {pc : Proc} {n : Nat}
    (told : update f p pc q = .user (.ok n)) : f q = .user (.ok n) ∨ q = p ∧ pc = .user (.ok n) := by
  rw [update_apply] at told
  split at told
  · rename_i same
    exact .inr ⟨same, told⟩
  · exact .inl told

/-- None is received or removed, and one message is sent if a call ends well. -/
structure Sends (s t : State) : Prop where
  received : t.received = s.received
  removed : t.removed = s.removed
  sent : t.sent = s.sent ∨ ∃ m p, t.sent = s.sent ++ [m] ∧ t.proc p = .user (.ok 0)
  told : ∀ p n, t.proc p = .user (.ok n) → s.proc p = .user (.ok n) ∨ ∃ m, t.sent = s.sent ++ [m]

theorem msgconv_cases (P : State → Prop) (out : ∀ e, P (s.setProc p (.user (.error e))))
    (waits : P (s.setProc p (.lockWait stage)))
    (goes_on : P (found (s.setLock (key info stage.msqid) true))) :
    P (msgconv info s p stage found) := by
  unfold msgconv
  split
  · exact out _
  · split
    · exact waits
    · split
      · exact goes_on
      · exact out _

theorem Sends.same {pc : Proc} (received : t.received = s.received) (removed : t.removed = s.removed)
    (sent : t.sent = s.sent) (acts : t.proc = update s.proc p pc)
    (other : ∀ n, pc ≠ .user (.ok n)) : Sends s t := by
  refine ⟨received, removed, .inl sent, fun q n told => .inl ?_⟩
  rw [acts] at told
  rcases ok_update told with before | ⟨-, impossible⟩
  · exact before
  · exact absurd impossible (other n)

theorem snd_alloc_sends (info : MsgInfo) (s : State) (p : Nat) (a : Snd) (type : Int) :
    Sends s (snd_alloc info s p a type) := by
  have waits : Sends s (snd_wait s p (key info a.msqid) a type) := by
    unfold snd_wait
    split <;> exact .same rfl rfl rfl rfl nofun
  unfold snd_alloc
  dsimp only
  split
  · exact waits
  split
  · exact waits
  · split
    · exact ⟨rfl, rfl, .inr ⟨_, p, rfl, update_self ..⟩,
        fun q n told => (ok_update told).imp_right fun _ => ⟨_, rfl⟩⟩
    · split
      · split <;> exact .same rfl rfl rfl rfl nofun
      · exact .same rfl rfl rfl rfl nofun

theorem snd_get_sends (info : MsgInfo) (s : State) (p : Nat) (a : Snd) (type : Int) :
    Sends s (snd_get info s p a type) :=
  msgconv_cases (Sends s) (fun _ => .same rfl rfl rfl rfl nofun) (.same rfl rfl rfl rfl nofun)
    { snd_alloc_sends info (s.setLock _ true) p a type with }

theorem snd_start_sends (info : MsgInfo) (s : State) (p : Nat) (a : Snd) :
    Sends s (snd_start info s p a) := by
  refine msgconv_cases (Sends s) (fun _ => .same rfl rfl rfl rfl nofun)
    (.same rfl rfl rfl rfl nofun) ?_
  split
  · exact .same rfl rfl rfl rfl nofun
  · split <;> exact .same rfl rfl rfl rfl nofun

theorem snd_intr_sends (info : MsgInfo) (s : State) (p : Nat) (a : Snd) :
    Sends s (snd_intr info s p a) :=
  msgconv_cases (Sends s) (fun _ => .same rfl rfl rfl rfl nofun) (.same rfl rfl rfl rfl nofun)
    (.same rfl rfl rfl rfl nofun)

theorem rcv_find_sends (info : MsgInfo) (s : State) (p : Nat) (a : Rcv) :
    Sends s (rcv_find info s p a) := by
  refine msgconv_cases (Sends s) (fun _ => .same rfl rfl rfl rfl nofun)
    (.same rfl rfl rfl rfl nofun) ?_
  dsimp only
  split
  · split
    · split <;> exact .same rfl rfl rfl rfl nofun
    · exact .same rfl rfl rfl rfl nofun
  · split <;> exact .same rfl rfl rfl rfl nofun

theorem rcv_start_sends (info : MsgInfo) (s : State) (p : Nat) (a : Rcv) :
    Sends s (rcv_start info s p a) := by
  refine msgconv_cases (Sends s) (fun _ => .same rfl rfl rfl rfl nofun)
    (.same rfl rfl rfl rfl nofun) ?_
  split
  · exact .same rfl rfl rfl rfl nofun
  · split
    · exact .same rfl rfl rfl rfl nofun
    · exact { rcv_find_sends info ((s.setLock _ true).setLock _ false) p a with }

/-- One step of a run: what was sent stays; a message is received by the process that has chosen it
from its queue; all messages of a removed queue go; and no call ends well without one of these. -/
structure Moves (info : MsgInfo) (s : State) (v : View) (t : State) : Prop where
  sent : t.sent = s.sent ∨ ∃ m p, t.sent = s.sent ++ [m] ∧ t.proc p = .user (.ok 0)
  received : t.received = s.received ∨ ∃ p a pmp x sz pre post,
    (s.proc p = .rcvType a pmp x sz ∨ s.proc p = .rcvText a pmp x sz) ∧
    t.proc p = .user (.ok sz) ∧ t.received = s.received ++ [(s.pool.serial x, p)] ∧
    v.qs (key info a.msqid) = pre ++ x :: post ∧ Chosen s.pool.msg_type a.msgtyp pre x post
  removed : t.removed = s.removed ∨ ∃ k, t.removed = s.removed ++ (v.qs k).map s.pool.serial ∧
    (t.pool.msgque k).alloc = false
  told : ∀ p n, t.proc p = .user (.ok n) → s.proc p = .user (.ok n) ∨
    (∃ m, t.sent = s.sent ++ [m]) ∨ (∃ m, t.received = s.received ++ [(m, p)]) ∨
    ∃ k, (s.pool.msgque k).alloc = true ∧ (t.pool.msgque k).alloc = false

theorem Sends.moves (sends : Sends s t) : Moves info s v t :=
  ⟨sends.sent, .inl sends.received, .inl sends.removed,
    fun p n told => (sends.told p n told).imp_right .inl⟩

theorem Moves.same {pc : Proc} (received : t.received = s.received) (removed : t.removed = s.removed)
    (sent : t.sent = s.sent) (acts : t.proc = update s.proc p pc)
    (other : ∀ n, pc ≠ .user (.ok n)) : Moves info s v t :=
  (Sends.same received removed sent acts other).moves

theorem rcv_done_moves (rest : Resting info s v) {a : Rcv}
    (here : s.proc p = .rcvType a pmp x sz ∨ s.proc p = .rcvText a pmp x sz) :
    Moves info s v (rcv_done info s p a pmp x sz) := by
  obtain ⟨pre, post, parts, -, chosen⟩ := (rest.each p).receiving a pmp x sz here
  refine ⟨.inl rfl, .inr ⟨p, a, pmp, x, sz, pre, post, here, ?_, rfl, parts, chosen⟩, .inl rfl, ?_⟩
  · exact update_self ..
  · intro q n told
    rcases ok_update told with before | ⟨rfl, -⟩
    · exact .inl before
    · exact .inr (.inr (.inl ⟨_, rfl⟩))

theorem rmid_moves (run : Running info s v p none none) :
    Moves info s v (rmid info s p id access) := by
  unfold rmid msgconv
  split
  · exact Moves.same rfl rfl rfl rfl nofun
  split
  · exact Moves.same rfl rfl rfl rfl nofun
  rename_i free
  split
  · rename_i ok
    unfold valid at ok
    simp only [Bool.and_eq_true] at ok
    split
    · exact Moves.same rfl rfl rfl rfl nofun
    have locked := run.acquire (Bool.eq_false_iff.mpr free)
    have short := locked.books.chained.short (key info id)
    obtain ⟨w, -, -, -, -, removed⟩ := rmid_loop_ok info.msgtql _ v locked short
    have shut : ∀ qp : MsqidDs, qp.alloc = false → ∀ h : Pool,
        ((h.setQueue (key info id) qp).msgque (key info id)).alloc = false := by
      rintro qp gone h
      rw [Pool.setQueue_self, gone]
    exact ⟨.inl rfl, .inl rfl, .inr ⟨key info id, removed, shut _ rfl _⟩, fun q n told =>
      (ok_update told).imp_right fun _ => .inr (.inr ⟨_, ok.1, shut _ rfl _⟩)⟩
  · exact Moves.same rfl rfl rfl rfl nofun

theorem step_moves (rest : Resting info s v) (taken : step info s l = some t) :
    Moves info s v t := by
  cases step_cases taken with
  | msgget made =>
    unfold msgget at made
    split at made <;> cases made
    exact ⟨.inl rfl, .inl rfl, .inl rfl, fun _ _ => .inl⟩
  | msgsnd => exact (snd_start_sends ..).moves
  | msgrcv => exact (rcv_start_sends ..).moves
  | rmid here => exact rmid_moves (rest.bare here ⟨rfl, rfl⟩)
  | @retry p stage here =>
    cases stage with
    | sndStart => exact (snd_start_sends ..).moves
    | sndGet => exact (snd_get_sends ..).moves
    | sndIntr => exact (snd_intr_sends ..).moves
    | rcvStart => exact (rcv_start_sends ..).moves
    | rcvFind => exact (rcv_find_sends ..).moves
    | rmid => exact rmid_moves (rest.bare here ⟨rfl, rfl⟩)
  | @typed p type a here =>
    unfold snd_typed
    split
    · exact Moves.same rfl rfl rfl rfl nofun
    · exact Sends.moves { snd_get_sends info (s.setLock (key info a.msqid) false) p a type with }
  | @snd_copied p a type mp spot here =>
    exact ⟨.inr ⟨_, p, rfl, update_self ..⟩, .inl rfl, .inl rfl,
      fun q n told => (ok_update told).imp_right fun _ => .inl ⟨_, rfl⟩⟩
  | rcv_typed here =>
    split
    · exact rcv_done_moves rest (.inl here)
    · exact Moves.same rfl rfl rfl rfl nofun
  | rcv_copied here => exact rcv_done_moves rest (.inr here)
  | snd_wake => exact (snd_get_sends ..).moves
  | rcv_wake => exact (rcv_find_sends ..).moves
  | snd_intr => exact (snd_intr_sends ..).moves
  | type_fault | snd_fault | rcv_fault | lock_intr | rcv_intr =>
    exact Moves.same rfl rfl rfl rfl nofun

/-- A receiver finds the message it is to get, if any; with the smallest long as its type, whose
negation overflows, it finds none. -/
structure Finds (info : MsgInfo) (s : State) (v : View) (k : Nat) (msgtyp : Int) : Prop where
  right : ∀ pmp x, select info s.pool k msgtyp = some (pmp, x) → ∃ pre post,
    v.qs k = pre ++ x :: post ∧ pmp = pre.getLast? ∧ Chosen s.pool.msg_type msgtyp pre x post
  none_left : -2 ^ 31 < msgtyp → select info s.pool k msgtyp = none →
    ∀ x ∈ v.qs k, ¬ Wanted s.pool.msg_type msgtyp x

/-- In every state the books are in order, receivers find the right message, and the next step moves
messages as it should. -/
theorem messages_accounted (info : MsgInfo) {ls : List Label}
    (run : exec (step info) (start info) ls = some s) : ∃ v, Resting info s v ∧
      (∀ k msgtyp, -2 ^ 31 ≤ msgtyp → msgtyp < 2 ^ 31 → Finds info s v k msgtyp) ∧
      ∀ l t, step info s l = some t → Moves info s v t := by
  obtain ⟨v, rest⟩ := exec_preserves (fun s => ∃ v, Resting info s v)
    (fun _ _ _ ⟨_, rest⟩ taken => step_rests rest taken) ⟨_, start_rests info⟩ run
  have books := rest.books
  refine ⟨v, rest, ?_, fun l t taken => step_moves rest taken⟩
  intro k msgtyp low high
  exact ⟨fun pmp x found => select_some books.chained (books.typed k) ⟨low, high⟩ found,
    fun long none => select_none books.chained long high none⟩

/-! A map with few slots -/

def mtune : MsgInfo :=
  ⟨10, 2048, 4096, 50, 8, 40, 1024, by decide, by decide, by decide, by decide, by decide, by decide⟩

def post (id : Int) : List Label := [.msgsnd 0 ⟨id, 8, true, true⟩, .typed 0 1, .copied 0]

def fragments : List Label :=
  [.msgget 0, .msgget 1] ++ (List.replicate 8 (post 0 ++ post 1)).flatten ++ [.rmid 0 0 true]

/-- The map has no slot for the eighth piece, which rmfree loses; the smallest long as a type finds
nothing. -/
theorem segment_lost : (∃ s, exec (step mtune) (start mtune) fragments = some s ∧
    ∃ u, 1 ≤ u ∧ u ≤ mtune.msgseg ∧ u ∉ freeUnits s.pool.msgmap ∧
      ∀ v, Resting mtune s v → ∀ x, u ∉ text v.span x) ∧
    ∃ s x, exec (step mtune) (start mtune) (.msgget 0 :: post 0) = some s ∧
      (s.pool.msgque 0).msg_first = some x ∧ Wanted s.pool.msg_type (-2 ^ 31) x ∧
      select mtune s.pool 0 (-2 ^ 31) = none := by
  refine ⟨?_, ?_⟩
  · have final : (exec (step mtune) (start mtune) fragments).map (fun s => s.pool.lost) =
        some [(1, 15)] := by decide +kernel
    obtain ⟨s, run, lost⟩ := map_eq_some_iff.mp final
    have gone : 15 ∈ s.pool.lostUnits :=
      ⟨(1, 15), lost ▸ mem_singleton_self _, le_refl 15, lt_succ_self 15⟩
    obtain ⟨v, rest⟩ := exec_preserves (fun s => ∃ v, Resting mtune s v)
      (fun _ _ _ ⟨_, rest⟩ taken => step_rests rest taken) ⟨_, start_rests mtune⟩ run
    refine ⟨s, run, 15, by decide, by decide, ?_, ?_⟩
    · intro free
      exact rest.books.segmented.free_lost 15 free gone
    · intro w held x mine
      exact held.books.segmented.text_lost 15 x mine gone
  · have final : (exec (step mtune) (start mtune) (.msgget 0 :: post 0)).map (fun s =>
        ((s.pool.msgque 0).msg_first, s.pool.msg_type 0, select mtune s.pool 0 (-2 ^ 31))) =
        some (some 0, 1, none) := by decide +kernel
    obtain ⟨s, run, result⟩ := map_eq_some_iff.mp final
    obtain ⟨first, rest⟩ := Prod.mk.inj result
    obtain ⟨type, missed⟩ := Prod.mk.inj rest
    refine ⟨s, 0, run, first, .inr (.inr ⟨by decide, ?_⟩), missed⟩
    rw [type]
    decide

theorem messages_accounted_fragments : ∃ s, exec (step mtune) (start mtune) (fragments ++
    [.msgrcv 0 { msqid := 1, msgsz := 8, msgtyp := 1, nowait := true, noerror := true, access := true },
      .copied 0, .copied 0]) = some s ∧ s.received = [(1, 0)] ∧ ∃ v, Resting mtune s v := by
  have final : (exec (step mtune) (start mtune) (fragments ++
      [.msgrcv 0 { msqid := 1, msgsz := 8, msgtyp := 1, nowait := true, noerror := true, access := true },
        .copied 0, .copied 0])).map (fun s => s.received) = some [(1, 0)] := by
    decide +kernel
  obtain ⟨s, run, received⟩ := map_eq_some_iff.mp final
  obtain ⟨v, rest, -⟩ := messages_accounted mtune run
  exact ⟨s, run, received, v, rest⟩

end MessageQueues
