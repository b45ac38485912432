import Svr4.Sem.Machine

/- The semaphores that one call of semop reads or modifies. Other processes may do anything to the
   sets while the call sleeps, and while copyin does. -/
namespace Semaphores
open List
namespace Access

/-- The semaphore with this number is used for an operation that alters it, or for one that waits
    for zero. -/
structure Touch where
  sem_num : Nat
  alters : Bool
deriving DecidableEq

def touch (op : Sembuf) : Touch := ⟨op.sem_num, decide (op.sem_op ≠ 0)⟩

/-- What `semundo` touches, the last operation first. -/
def undo_touches : List Sembuf → List Touch
  | [] => []
  | op :: ops => undo_touches ops ++ if op.sem_op = 0 then [] else [touch op]

/-- What the loop over the operations touches. At the end `sempid` is updated for all of them. -/
def loop_touches (info : SemInfo) (slot id base : Nat) (s : Sem) (did : List Sembuf) :
    List Sembuf → List Touch
  | [] => did.map touch
  | op :: ops => touch op ::
    match semop_one info slot id base s op with
    | (.done, s) => loop_touches info slot id base s (did ++ [op]) ops
    | _ => undo_touches did

def blocked (info : SemInfo) (slot id base : Nat) (s : Sem) : List Sembuf → Option Sembuf
  | [] => none
  | op :: ops =>
    match semop_one info slot id base s op with
    | (.done, s) => blocked info slot id base s ops
    | (.sleep, _) => some op
    | _ => none

structure Seen where
  sema : Nat → SemidDs
  touch : Touch

/-- How a sleep ends: by a signal, or a wake-up, after which the operations are copied in again. The
states have what others did. -/
inductive Event
  | signal (s : Sem)
  | wakeup (s : Sem) (semops : Option (List Sembuf)) (copied : Sem)

/-- The set `k`, as `semconv` finds it. -/
def Named (info : SemInfo) (sema : Nat → SemidDs) (id k : Nat) : Prop :=
  id % info.semmni = k ∧ (sema k).alloc = true ∧ id / info.semmni = (sema k).seq

def pass_seen (info : SemInfo) (slot id k : Nat) (s : Sem) (ops : List Sembuf) : List Seen :=
  (loop_touches info slot id (s.sema k).sem_base s [] ops).map fun t => ⟨s.sema, t⟩

def again (info : SemInfo) (slot id k : Nat) : List Event → Sembuf → List Seen
  | [], _ => []
  | .signal s :: _, op => [⟨s.sema, touch op⟩]
  | .wakeup s semops copied :: events, _ =>
    match semconv info s id, semops with
    | some _, some ops =>
      pass_seen info slot id k copied ops ++
        match blocked info slot id (copied.sema k).sem_base copied ops with
        | some op => again info slot id k events op
        | none => []
    | _, _ => []

/-- A call of semop. `alter` and `read` tell what ipcaccess permits. -/
def semop_seen (info : SemInfo) (slot id : Nat) (s : Sem) (semops : Option (List Sembuf))
    (copied : Sem) (alter read : Bool) (events : List Event) : List Seen :=
  match semconv info s id, semops with
  | some k, some ops =>
    if info.semopm < ops.length then []
    else
      match verify (copied.sema k) alter read ops with
      | some _ => []
      | none =>
        pass_seen info slot id k copied ops ++
          match blocked info slot id (copied.sema k).sem_base copied ops with
          | some op => again info slot id k events op
          | none => []
  | _, _ => []

def Allowed (info : SemInfo) (id : Nat) (checked : List Sembuf) (seen : Seen) : Prop :=
  Named info seen.sema id (id % info.semmni) ∧
    seen.touch.sem_num < (seen.sema (id % info.semmni)).sem_nsems ∧
    ∃ op ∈ checked, (touch op).alters = seen.touch.alters

/-- The set is there each time the call goes on, and operations copied in again are for its
semaphores, with checked permissions. `last` has those copied in before. -/
def Steady (info : SemInfo) (id : Nat) (checked : List Sembuf) : List Sembuf → List Event → Prop
  | _, [] => True
  | last, .signal s :: _ => Named info s.sema id (id % info.semmni) ∧
      ∀ op ∈ last, op.sem_num < (s.sema (id % info.semmni)).sem_nsems
  | _, .wakeup _ none _ :: _ => True
  | _, .wakeup _ (some ops) copied :: events =>
      Named info copied.sema id (id % info.semmni) ∧
        (∀ op ∈ ops, op.sem_num < (copied.sema (id % info.semmni)).sem_nsems ∧
          ∃ c ∈ checked, (touch c).alters = (touch op).alters) ∧
        Steady info id checked ops events

section
variable {info : SemInfo} {slot id base k : Nat} {s : Sem} {did ops checked : List Sembuf}
  {op : Sembuf} {t : Touch} {events : List Event}

theorem undo_touches_mem (mem : t ∈ undo_touches ops) : ∃ op ∈ ops, touch op = t := by
  induction ops with
  | nil => cases mem
  | cons op ops ih =>
    rcases mem_append.mp mem with mem | mem
    · obtain ⟨o, here, same⟩ := ih mem
      exact ⟨o, mem_cons_of_mem _ here, same⟩
    · split at mem
      · cases mem
      · exact ⟨op, mem_cons_self, (mem_singleton.mp mem).symm⟩

theorem loop_touches_mem (mem : t ∈ loop_touches info slot id base s did ops) :
    ∃ op, (op ∈ did ∨ op ∈ ops) ∧ touch op = t := by
  induction ops generalizing s did with
  | nil =>
    obtain ⟨op, here, same⟩ := mem_map.mp mem
    exact ⟨op, .inl here, same⟩
  | cons op ops ih =>
    rcases mem_cons.mp mem with same | mem
    · exact ⟨op, .inr mem_cons_self, same.symm⟩
    split at mem
    · obtain ⟨o, which, same⟩ := ih mem
      refine ⟨o, ?_, same⟩
      rcases which with done | later
      · rcases mem_append.mp done with done | here
        · exact .inl done
        · exact .inr (mem_cons.mpr (.inl (mem_singleton.mp here)))
      · exact .inr (mem_cons_of_mem _ later)
    · obtain ⟨o, here, same⟩ := undo_touches_mem mem
      exact ⟨o, .inl here, same⟩

/-! What is not touched keeps its value. -/

theorem semundo_frame {c : Nat}
    (apart : ∀ t ∈ undo_touches ops, t.alters = true → c ≠ base + t.sem_num) :
    (semundo info slot id base s ops).semval c = s.semval c := by
  induction ops with
  | nil => rfl
  | cons op ops ih =>
    have rest := ih fun t mem => apart t (mem_append_left _ mem)
    unfold semundo
    by_cases zero : op.sem_op = 0
    · simpa only [if_pos zero] using rest
    · have other : c ≠ base + op.sem_num := by
        refine apart (touch op) (mem_append_right _ ?_) (decide_eq_true zero)
        rw [if_neg zero]
        exact mem_singleton_self _
      simp only [if_neg zero]
      split <;> exact (Function.update_of_ne other _ _).trans rest

theorem semop_one_frame {c : Nat} (apart : op.sem_op ≠ 0 → c ≠ base + op.sem_num) :
    (semop_one info slot id base s op).2.semval c = s.semval c := by
  have change : op.sem_op ≠ 0 → (semop_change info slot id base s op).2.semval c = s.semval c := by
    intro alters
    unfold semop_change
    split
    · split
      · rfl
      · exact Function.update_of_ne (apart alters) _ _
    · exact Function.update_of_ne (apart alters) _ _
  rw [semop_one_eq]
  split
  · split
    · rfl
    · exact change (by omega)
  · split
    · split
      · exact change (by omega)
      · rfl
    · split <;> rfl

/-- semop writes the values only of semaphores that it touches to alter them. -/
theorem semop_loop_frame {c : Nat}
    (apart : ∀ t ∈ loop_touches info slot id base s did ops, t.alters = true → c ≠ base + t.sem_num) :
    (semop_loop info slot id base s did ops).2.semval c = s.semval c := by
  induction ops generalizing s did with
  | nil => rfl
  | cons op ops ih =>
    unfold loop_touches at apart
    have one : (semop_one info slot id base s op).2.semval c = s.semval c :=
      semop_one_frame fun alters => apart (touch op) mem_cons_self (decide_eq_true alters)
    have later := fun t mem => apart t (mem_cons_of_mem _ mem)
    unfold semop_loop
    rcases result : semop_one info slot id base s op with ⟨out, v⟩
    rw [result] at one later
    cases out with
    | done => exact (ih later).trans one
    | error e => exact (semundo_frame later).trans one
    | sleep => exact (semundo_frame later).trans one

theorem blocked_mem (here : blocked info slot id base s ops = some op) : op ∈ ops := by
  induction ops generalizing s with
  | nil => cases here
  | cons o ops ih =>
    unfold blocked at here
    split at here
    · exact mem_cons_of_mem _ (ih here)
    · exact mem_cons.mpr (.inl (Option.some.inj here).symm)
    · cases here

theorem verify_none {sp : SemidDs} {alter read : Bool} (passed : verify sp alter read ops = none) :
    ∀ op ∈ ops, op.sem_num < sp.sem_nsems := by
  induction ops with
  | nil => exact fun op mem => absurd mem not_mem_nil
  | cons o ops ih =>
    unfold verify at passed
    by_cases refused : (if o.sem_op = 0 then read else alter) = false
    · rw [if_pos refused] at passed
      cases passed
    rw [if_neg refused] at passed
    by_cases outside : sp.sem_nsems ≤ o.sem_num
    · rw [if_pos outside] at passed
      cases passed
    rw [if_neg outside] at passed
    intro op mem
    rcases mem_cons.mp mem with rfl | mem
    · exact Nat.not_le.mp outside
    · exact ih passed op mem

theorem pass_allowed (named : Named info s.sema id (id % info.semmni))
    (inside : ∀ op ∈ ops, op.sem_num < (s.sema (id % info.semmni)).sem_nsems ∧
      ∃ c ∈ checked, (touch c).alters = (touch op).alters) :
    ∀ seen ∈ pass_seen info slot id (id % info.semmni) s ops, Allowed info id checked seen := by
  intro seen mem
  obtain ⟨t, touched, rfl⟩ := mem_map.mp mem
  obtain ⟨op, none_done | here, rfl⟩ := loop_touches_mem touched
  · cases none_done
  · exact ⟨named, inside op here⟩

theorem again_allowed (steady : Steady info id checked ops events) (mem : op ∈ ops)
    (kinds : ∀ op ∈ ops, ∃ c ∈ checked, (touch c).alters = (touch op).alters) :
    ∀ seen ∈ again info slot id (id % info.semmni) events op, Allowed info id checked seen := by
  induction events generalizing ops op with
  | nil => exact fun _ mem => absurd mem not_mem_nil
  | cons event events ih =>
    cases event with
    | signal s =>
      intro seen here
      rw [mem_singleton.mp here]
      exact ⟨steady.1, steady.2 op mem, kinds op mem⟩
    | wakeup s semops copied =>
      unfold again
      cases semconv info s id with
      | none => exact fun _ mem => absurd mem not_mem_nil
      | some _ =>
        cases semops with
        | none => exact fun _ mem => absurd mem not_mem_nil
        | some ops' =>
          obtain ⟨named, inside, rest⟩ := steady
          intro seen here
          rcases mem_append.mp here with passed | later
          · exact pass_allowed named inside seen passed
          cases wait :
              blocked info slot id (copied.sema (id % info.semmni)).sem_base copied ops' with
          | none =>
            rw [wait] at later
            cases later
          | some op' =>
            rw [wait] at later
            exact ih rest (blocked_mem wait) (fun op mem => (inside op mem).2) seen later

end

/-- semop touches only semaphores of its set, for which the permission has been checked. -/
theorem touches_allowed (info : SemInfo) (slot id : Nat) (s : Sem) (ops : List Sembuf)
    (copied : Sem) (alter read : Bool) (events : List Event)
    (named : Named info copied.sema id (id % info.semmni))
    (steady : Steady info id ops ops events) :
    ∀ seen ∈ semop_seen info slot id s (some ops) copied alter read events,
      Allowed info id ops seen := by
  have kinds : ∀ op ∈ ops, ∃ c ∈ ops, (touch c).alters = (touch op).alters :=
    fun op mem => ⟨op, mem, rfl⟩
  unfold semop_seen
  cases conv : semconv info s id with
  | none => exact fun _ mem => absurd mem not_mem_nil
  | some k =>
    have index : k = id % info.semmni := by
      unfold semconv at conv
      simp only at conv
      split at conv
      · cases conv
      · exact (Option.some.inj conv).symm
    subst index
    simp only
    split_ifs
    · exact fun _ mem => absurd mem not_mem_nil
    cases checks : verify (copied.sema (id % info.semmni)) alter read ops with
    | some e => exact fun _ mem => absurd mem not_mem_nil
    | none =>
      have inside := verify_none checks
      intro seen here
      rcases mem_append.mp here with passed | later
      · exact pass_allowed named (fun op mem => ⟨inside op mem, kinds op mem⟩) seen passed
      · cases wait : blocked info slot id (copied.sema (id % info.semmni)).sem_base copied ops with
        | none =>
          rw [wait] at later
          cases later
        | some op =>
          rw [wait] at later
          exact again_allowed steady (blocked_mem wait) kinds seen later

instance {sema : Nat → SemidDs} {id k : Nat} {info : SemInfo} : Decidable (Named info sema id k) :=
  inferInstanceAs (Decidable (_ ∧ _ ∧ _))

instance {info : SemInfo} {id : Nat} {checked : List Sembuf} {seen : Seen} :
    Decidable (Allowed info id checked seen) :=
  inferInstanceAs (Decidable (_ ∧ _ ∧ ∃ op ∈ checked, (touch op).alters = seen.touch.alters))

def two_sets : Sem :=
  { start mtune with sema := fun k => if k = 0 then ⟨true, 0, 0, 2⟩ else ⟨true, 0, 2, 3⟩ }

def waits_and_adds (num : Nat) : List Seen :=
  semop_seen mtune 0 0 two_sets (some [⟨0, -1, false, false, short_minus_one⟩]) two_sets true true
    [.wakeup two_sets (some [⟨num, 1, false, false, short_one⟩]) two_sets]

theorem touches_allowed_second : (waits_and_adds 1).length = 3 ∧ ∀ seen ∈ waits_and_adds 1,
    Allowed mtune 0 [⟨0, -1, false, false, by decide⟩] seen := by
  refine ⟨by decide +kernel, ?_⟩
  refine touches_allowed mtune 0 0 two_sets [⟨0, -1, false, false, by decide⟩] two_sets true true
    [.wakeup two_sets (some [⟨1, 1, false, false, by decide⟩]) two_sets] (by decide +kernel) ?_
  refine ⟨by decide +kernel, fun op mem => ?_, trivial⟩
  rw [mem_singleton.mp mem]
  exact ⟨by decide, _, mem_singleton_self _, rfl⟩

/-- The number is not checked again, and a semaphore of the other set is touched. -/
theorem other_set_touched : ¬ ∀ seen ∈ waits_and_adds 3,
    Allowed mtune 0 [⟨0, -1, false, false, by decide⟩] seen := by
  decide +kernel

end Access
end Semaphores
