import Svr4.Runs
import Svr4.Sem.Undos

/- A pass of semop over its operations does all of them or none. -/
namespace Semaphores
open Function NextChains List

variable {info : SemInfo} {s t v r : Sem} {slot id base : Nat} {op : Sembuf} {did ops : List Sembuf}
  {out : Outcome}

structure Sem.Sound (info : SemInfo) (s : Sem) : Prop where
  undos : ∃ free active, s.undos.Ok info free active
  values : ∀ c, s.semval c ≤ info.semvmx

structure Sem.Frame (s t : Sem) : Prop where
  sema : t.sema = s.sema
  asleep : t.asleep = s.asleep
  net : t.net = s.net
  skipped : t.skipped = s.skipped

theorem Sem.Frame.trans (first : s.Frame t) (second : t.Frame v) : s.Frame v :=
  ⟨second.sema.trans first.sema, second.asleep.trans first.asleep, second.net.trans first.net,
    second.skipped.trans first.skipped⟩

theorem toUshort_eq {x : Int} (low : 0 ≤ x) (high : x ≤ 65535) : (toUshort x : Int) = x := by
  unfold toUshort
  omega

theorem short_op (op : Sembuf) : toShort op.sem_op = op.sem_op := toShort_eq op.short.1 op.short.2

theorem addVal_eq {c : Nat} {n : Int} (low : 0 ≤ s.semval c + n) (high : s.semval c + n ≤ 65535)
    (d : Nat) : ((s.addVal c n).semval d : Int) = s.semval d + if d = c then n else 0 := by
  unfold Sem.addVal
  dsimp only
  rw [update_apply]
  by_cases same : d = c
  · rw [if_pos same, if_pos same, toUshort_eq low high, same]
  · rw [if_neg same, if_neg same, Int.add_zero]

/-! One operation -/

structure DoneOne (info : SemInfo) (slot id base : Nat) (s : Sem) (op : Sembuf) (t : Sem) : Prop where
  low : 0 ≤ s.semval (base + op.sem_num) + op.sem_op
  high : s.semval (base + op.sem_num) + op.sem_op ≤ info.semvmx
  effect : op.sem_op = 0 ∧ t = s ∨ op.sem_op ≠ 0 ∧ ∃ u,
    t = Sem.addVal { s with undos := u } (base + op.sem_num) op.sem_op ∧
    (op.undo = true ∧ semaoe info s.undos slot op.sem_op id op.sem_num = (none, u) ∨
      op.undo = false ∧ u = s.undos)

theorem semop_one_done (sound : s.Sound info)
    (taken : semop_one info slot id base s op = (.done, t)) : DoneOne info slot id base s op t := by
  have bound := sound.values (base + op.sem_num)
  rw [semop_one_eq] at taken
  -- the value is fine and semaoe, if it is called, succeeds
  have change : ∀ (low : 0 ≤ (s.semval (base + op.sem_num) : Int) + op.sem_op)
      (high : (s.semval (base + op.sem_num) : Int) + op.sem_op ≤ info.semvmx) (other : op.sem_op ≠ 0),
      semop_change info slot id base s op = (.done, t) → DoneOne info slot id base s op t := by
    intro low high other taken
    unfold semop_change at taken
    split at taken
    · rename_i undo
      split at taken
      · cases taken
      · rename_i u called
        obtain rfl := (Prod.mk.inj taken).2
        exact ⟨low, high, .inr ⟨other, u, rfl, .inl ⟨undo, called⟩⟩⟩
    · rename_i plain
      obtain rfl := (Prod.mk.inj taken).2
      exact ⟨low, high, .inr ⟨other, s.undos, rfl, .inr ⟨Bool.eq_false_iff.mpr plain, rfl⟩⟩⟩
  split at taken
  · split at taken
    · cases taken
    · exact change (by omega) (by omega) (by omega) taken
  split at taken
  · split at taken
    · exact change (by omega) (by omega) (by omega) taken
    · split at taken <;> cases taken
  · split at taken
    · split at taken <;> cases taken
    · obtain rfl := (Prod.mk.inj taken).2
      exact ⟨by omega, by omega, .inl ⟨by omega, rfl⟩⟩

/-- An operation that is not done writes at most to the undo table, in a failing call of semaoe. -/
theorem semop_one_not (taken : semop_one info slot id base s op = (out, t)) (other : out ≠ .done) :
    ∃ u, t = { s with undos := u } ∧
      (u = s.undos ∨ ∃ e, semaoe info s.undos slot op.sem_op id op.sem_num = (some e, u)) := by
  rw [semop_one_eq] at taken
  have change : semop_change info slot id base s op = (out, t) → ∃ u, t = { s with undos := u } ∧
        (u = s.undos ∨ ∃ e, semaoe info s.undos slot op.sem_op id op.sem_num = (some e, u)) := by
    intro taken
    unfold semop_change at taken
    split at taken
    · split at taken
      · rename_i e u called
        obtain rfl := (Prod.mk.inj taken).2
        exact ⟨u, rfl, .inr ⟨e, called⟩⟩
      · exact absurd (Prod.mk.inj taken).1.symm other
    · exact absurd (Prod.mk.inj taken).1.symm other
  have nothing : s = t → ∃ u, t = { s with undos := u } ∧
      (u = s.undos ∨ ∃ e, semaoe info s.undos slot op.sem_op id op.sem_num = (some e, u)) := by
    rintro rfl
    exact ⟨s.undos, rfl, .inl rfl⟩
  split at taken
  · split at taken
    · exact nothing (Prod.mk.inj taken).2
    · exact change taken
  · split at taken
    · split at taken
      · exact change taken
      · exact nothing (Prod.mk.inj taken).2
    · split at taken
      · exact nothing (Prod.mk.inj taken).2
      · exact nothing (Prod.mk.inj taken).2

section
variable (done : DoneOne info slot id base s op t)
include done

theorem DoneOne.semval (sound : s.Sound info) (c : Nat) : (t.semval c : Int) =
    s.semval c + if c = base + op.sem_num then op.sem_op else 0 := by
  have low := done.low
  have high := done.high
  have vmx := info.vmx_le
  rcases done.effect with ⟨zero, rfl⟩ | ⟨-, u, rfl, -⟩
  · rw [zero]
    simp
  · exact addVal_eq (s := { s with undos := u }) low (by dsimp only; omega) c

theorem DoneOne.sound (sound : s.Sound info) : t.Sound info := by
  have semval := done.semval sound
  have high := done.high
  refine ⟨?_, ?_⟩
  · obtain ⟨free, active, ok⟩ := sound.undos
    rcases done.effect with ⟨-, rfl⟩ | ⟨-, u, rfl, ⟨-, called⟩ | ⟨-, rfl⟩⟩
    · exact ⟨free, active, ok⟩
    · obtain ⟨good, -, -⟩ := semaoe_ok ok (short_op op) slot id op.sem_num
      rw [called] at good
      exact good
    · exact ⟨free, active, ok⟩
  · intro c
    have now := semval c
    have before := sound.values c
    split at now
    · rename_i same
      rw [same] at now ⊢
      omega
    · omega

theorem DoneOne.frame : s.Frame t := by
  rcases done.effect with ⟨-, rfl⟩ | ⟨-, u, rfl, -⟩ <;> exact ⟨rfl, rfl, rfl, rfl⟩

theorem DoneOne.adjust (sound : s.Sound info) (p i n : Nat) : t.undos.adjust p i n =
    s.undos.adjust p i n -
      if p = slot ∧ i = id then (if n = op.sem_num ∧ op.undo then op.sem_op else 0) else 0 := by
  obtain ⟨free, active, ok⟩ := sound.undos
  rcases done.effect with ⟨zero, rfl⟩ | ⟨-, u, rfl, ⟨undo, called⟩ | ⟨plain, rfl⟩⟩
  · rw [zero]
    simp
  · obtain ⟨-, -, adjust⟩ := semaoe_ok ok (short_op op) slot id op.sem_num
    rw [called] at adjust
    have := adjust rfl p i n
    change u.adjust p i n = _
    rw [this, undo]
    by_cases mine : p = slot ∧ i = id
    · simp [mine]
    · rw [if_neg mine, if_neg (fun all => mine ⟨all.1, all.2.1⟩)]
  · rw [plain]
    change s.undos.adjust p i n = _
    simp

end

/-! Undoing -/

theorem semundo_append (info : SemInfo) (slot id base : Nat) (v : Sem) (a b : List Sembuf) :
    semundo info slot id base v (a ++ b) =
      semundo info slot id base (semundo info slot id base v b) a := by
  induction a with
  | nil => rfl
  | cons op a ih =>
    rw [cons_append]
    unfold semundo
    rw [ih]

/-- From any state that is like `s`, semundo gets back to one like `r`. -/
def Undoable (info : SemInfo) (slot id base : Nat) (r s : Sem) (did : List Sembuf) : Prop :=
  ∀ v : Sem, v.semval = s.semval → (∃ free active, v.undos.Ok info free active) →
    Alike slot s.undos v.undos → (semundo info slot id base v did).semval = r.semval ∧
      (∃ free active, (semundo info slot id base v did).undos.Ok info free active) ∧
      Alike slot r.undos (semundo info slot id base v did).undos ∧
      v.Frame (semundo info slot id base v did)

theorem undoable_nil (info : SemInfo) (slot id base : Nat) (s : Sem) : Undoable info slot id base s s [] :=
  fun _ same ok alike => ⟨same, ok, alike, rfl, rfl, rfl, rfl⟩

theorem DoneOne.undoable (done : DoneOne info slot id base s op t) (sound : s.Sound info) :
    Undoable info slot id base s t [op] := by
  intro v same ok alike
  have semval := done.semval sound
  have vmx := info.vmx_le
  obtain ⟨free, active, oks⟩ := sound.undos
  dsimp only [semundo]
  rcases done.effect with ⟨zero, rfl⟩ | ⟨nonzero, u, rfl, calls⟩
  · rw [if_pos zero]
    exact ⟨same, ok, alike, rfl, rfl, rfl, rfl⟩
  have back : (v.addVal (base + op.sem_num) (-op.sem_op)).semval = s.semval := by
    have here := semval (base + op.sem_num)
    rw [if_pos rfl, ← same] at here
    funext c
    have value := addVal_eq (s := v) (c := base + op.sem_num) (n := -op.sem_op) (by omega)
      (by have := sound.values (base + op.sem_num); omega) c
    have now := semval c
    rw [← same] at now
    split at value <;> split at now <;> omega
  rw [if_neg nonzero]
  rcases calls with ⟨undo, called⟩ | ⟨plain, rfl⟩
  · obtain ⟨free', active', ok'⟩ := ok
    have result := semaoe_back (v := v.undos) oks (short_op op) nonzero (by rw [called]) ok'
      (by rw [called]; exact alike)
    rw [if_pos undo]
    exact ⟨back, result.1, result.2, rfl, rfl, rfl, rfl⟩
  · rw [plain, if_neg (by decide)]
    exact ⟨back, ok, alike, rfl, rfl, rfl, rfl⟩

theorem Undoable.snoc (undoable : Undoable info slot id base r s did)
    (done : DoneOne info slot id base s op t) (sound : s.Sound info) :
    Undoable info slot id base r t (did ++ [op]) := by
  intro v same ok alike
  obtain ⟨same', ok', alike', frame⟩ := done.undoable sound v same ok alike
  rw [semundo_append]
  obtain ⟨same'', ok'', alike'', frame'⟩ := undoable _ same' ok' alike'
  exact ⟨same'', ok'', alike'', frame.trans frame'⟩

/-! The whole pass -/

def sum_ops (num : Nat) (ops : List Sembuf) : Int :=
  (ops.map fun op => if num = op.sem_num then op.sem_op else 0).sum

def sum_undo (num : Nat) (ops : List Sembuf) : Int :=
  (ops.map fun op => if num = op.sem_num ∧ op.undo then op.sem_op else 0).sum

theorem sum_ops_cons (num : Nat) (op : Sembuf) (ops : List Sembuf) : sum_ops num (op :: ops) =
    (if num = op.sem_num then op.sem_op else 0) + sum_ops num ops := sum_cons

theorem sum_undo_cons (num : Nat) (op : Sembuf) (ops : List Sembuf) : sum_undo num (op :: ops) =
    (if num = op.sem_num ∧ op.undo then op.sem_op else 0) + sum_undo num ops := sum_cons

structure Untouched (s t : Sem) : Prop where
  semval : t.semval = s.semval
  adjust : ∀ p i n, t.undos.adjust p i n = s.undos.adjust p i n

structure Performed (info : SemInfo) (s : Sem) (slot id base : Nat) (ops : List Sembuf) (t : Sem) :
    Prop where
  semval : ∀ num, (t.semval (base + num) : Int) = s.semval (base + num) + sum_ops num ops
  others : ∀ c, c < base → t.semval c = s.semval c
  between : ∀ k num, 0 ≤ s.semval (base + num) + sum_ops num (ops.take k) ∧
    s.semval (base + num) + sum_ops num (ops.take k) ≤ info.semvmx
  adjust : ∀ p i n, t.undos.adjust p i n =
    s.undos.adjust p i n - if p = slot ∧ i = id then sum_undo n ops else 0

theorem Performed.nil (sound : s.Sound info) : Performed info s slot id base [] s := by
  refine ⟨fun num => by simp [sum_ops], fun _ _ => rfl, ?_, fun p i n => by simp [sum_undo]⟩
  intro k num
  have := sound.values (base + num)
  rw [take_nil]
  simp only [sum_ops, map_nil, sum_nil]
  omega

theorem Performed.cons (done : DoneOne info slot id base s op t) (sound : s.Sound info)
    (rest : Performed info t slot id base ops v) : Performed info s slot id base (op :: ops) v := by
  have semval := fun num => done.semval sound (base + num)
  refine ⟨?_, ?_, ?_, ?_⟩
  · intro num
    have later := rest.semval num
    have now := semval num
    rw [sum_ops_cons]
    omega
  · intro c below
    have now := done.semval sound c
    have later := rest.others c below
    omega
  · intro k num
    cases k with
    | zero =>
      have := sound.values (base + num)
      rw [take_zero]
      simp only [sum_ops, map_nil, sum_nil]
      omega
    | succ k =>
      have later := rest.between k num
      have now := semval num
      rw [take_succ_cons, sum_ops_cons]
      omega
  · intro p i n
    rw [rest.adjust, done.adjust sound, sum_undo_cons]
    split <;> omega

theorem semop_loop_ok (start : r.Sound info) : ∀ ops did s, s.Sound info →
    Undoable info slot id base r s did →
    (semop_loop info slot id base s did ops).2.Sound info ∧
      s.Frame (semop_loop info slot id base s did ops).2 ∧
      ((semop_loop info slot id base s did ops).1 ≠ .done →
        (semop_loop info slot id base s did ops).2.semval = r.semval ∧
        Alike slot r.undos (semop_loop info slot id base s did ops).2.undos) ∧
      ((semop_loop info slot id base s did ops).1 = .done →
        Performed info s slot id base ops (semop_loop info slot id base s did ops).2) := by
  intro ops
  induction ops with
  | nil =>
    intro did s sound _
    exact ⟨sound, ⟨rfl, rfl, rfl, rfl⟩, fun other => absurd rfl other, fun _ => Performed.nil sound⟩
  | cons op ops ih =>
    intro did s sound undoable
    unfold semop_loop
    rcases result : semop_one info slot id base s op with ⟨out, t⟩
    by_cases finished : out = .done
    · subst finished
      have done := semop_one_done sound result
      obtain ⟨sound', frame, failed, performed⟩ :=
        ih (did ++ [op]) t (done.sound sound) (undoable.snoc done sound)
      exact ⟨sound', done.frame.trans frame, failed, fun all => (performed all).cons done sound⟩
    obtain ⟨u, rfl, wrote⟩ := semop_one_not result finished
    obtain ⟨free, active, ok⟩ := sound.undos
    have alike : (∃ free active, u.Ok info free active) ∧ Alike slot s.undos u := by
      rcases wrote with rfl | ⟨e, called⟩
      · exact ⟨⟨free, active, ok⟩, Alike.refl slot _⟩
      · obtain ⟨good, failed, -⟩ := semaoe_ok ok (short_op op) slot id op.sem_num
        rw [called] at good failed
        exact ⟨good, failed nofun⟩
    obtain ⟨back, good, same, frame⟩ := undoable { s with undos := u } rfl alike.1 alike.2
    have sound' : (semundo info slot id base { s with undos := u } did).Sound info :=
      ⟨good, fun c => back ▸ start.values c⟩
    cases out with
    | done => exact absurd rfl finished
    | error e =>
      exact ⟨sound', { frame with },
        fun _ => ⟨back, same⟩, nofun⟩
    | sleep =>
      exact ⟨sound', { frame with },
        fun _ => ⟨back, same⟩, nofun⟩

theorem semop_pass_ok (sound : s.Sound info) (slot id base : Nat) (ops : List Sembuf) :
    (semop_pass info s slot id base ops).2.Sound info ∧
      s.Frame (semop_pass info s slot id base ops).2 ∧
      ((semop_pass info s slot id base ops).1 ≠ .done →
        Untouched s (semop_pass info s slot id base ops).2) ∧
      ((semop_pass info s slot id base ops).1 = .done →
        Performed info s slot id base ops (semop_pass info s slot id base ops).2) := by
  obtain ⟨sound', frame, failed, performed⟩ :=
    semop_loop_ok sound ops [] s sound (undoable_nil info slot id base s)
  exact ⟨sound', frame, fun other => ⟨(failed other).1, fun _ _ _ => (failed other).2.adjust⟩,
    performed⟩

/-! Before the first call -/

theorem seminit_ok (info : SemInfo) : (seminit info).Ok info (List.range info.semmnu) [] := by
  have path : Path (seminit info).un_np (some 0) (List.range info.semmnu) := by
    refine path_array info.mnu_pos (fun i inside => if_pos ?_) (if_neg (Nat.lt_irrefl _))
    omega
  refine ⟨path, rfl, nodup_range, nodup_nil, ?_, nofun, nofun, ?_, fun _ _ => rfl, ?_⟩
  · intro x
    rw [mem_range]
    exact ⟨fun small => ⟨small, nofun⟩, And.left⟩
  · intro x
    exact ⟨nofun, fun filled => absurd rfl filled.1⟩
  · exact fun x => ⟨List.Pairwise.nil, Nat.zero_le _, nofun⟩

def start (info : SemInfo) : Sem where
  sema := fun _ => ⟨false, 0, 0, 0⟩
  semval := fun _ => 0
  undos := seminit info
  asleep := fun _ => none
  net := fun _ => 0
  skipped := fun _ => false

theorem start_sound (info : SemInfo) : (start info).Sound info :=
  ⟨⟨_, _, seminit_ok info⟩, fun _ => Nat.zero_le _⟩

/-- semop is atomic. -/
theorem semop_atomic (sound : s.Sound info) (slot id base : Nat) (ops : List Sembuf) :
    ((semop_pass info s slot id base ops).1 ≠ .done →
      Untouched s (semop_pass info s slot id base ops).2) ∧
    ((semop_pass info s slot id base ops).1 = .done →
      Performed info s slot id base ops (semop_pass info s slot id base ops).2) :=
  (semop_pass_ok sound slot id base ops).2.2

theorem short_one : -32768 ≤ (1 : Int) ∧ (1 : Int) ≤ 32767 := by decide

theorem short_minus_one : -32768 ≤ (-1 : Int) ∧ (-1 : Int) ≤ 32767 := by decide

def grab : List Sembuf := [⟨0, 2, true, true, by decide⟩, ⟨1, 1, true, true, by decide⟩,
  ⟨0, -2, true, true, by decide⟩, ⟨1, -2, true, true, by decide⟩]

def mtune : SemInfo :=
  ⟨10, 60, 30, 25, 10, 10, 32767, 16384, by decide, by decide, by decide, by decide⟩

theorem semop_atomic_grab :
    (semop_pass mtune (start mtune) 3 0 0 grab).1 = .error .EAGAIN ∧
      Untouched (start mtune) (semop_pass mtune (start mtune) 3 0 0 grab).2 :=
  ⟨by decide +kernel, (semop_atomic (start_sound mtune) 3 0 0 grab).1 (by decide +kernel)⟩

end Semaphores

/- The calls of semget, semctl, semop and semexit by any number of processes. A call runs
   without interruption until it sleeps or returns. -/
namespace Semaphores
open Function NextChains List

/-- What rmalloc promises: semaphores that no set has. -/
def fresh (info : SemInfo) (s : Sem) (base nsems : Nat) : Bool :=
  base + nsems ≤ info.semmns && (List.range info.semmni).all fun k =>
    !(s.sema k).alloc || base + nsems ≤ (s.sema k).sem_base ||
      (s.sema k).sem_base + (s.sema k).sem_nsems ≤ base

/-- The ghost fields of the semaphores of a set start again. -/
def Sem.reset (s : Sem) (low high : Nat) (value : Nat → Int) : Sem :=
  { s with
    net := fun c => if low ≤ c ∧ c < high then value c else s.net c
    skipped := fun c => if low ≤ c ∧ c < high then false else s.skipped c }

/-- A new set: ipcget has found the free header `sp`, rmalloc the semaphores from `base` on. -/
def semget (info : SemInfo) (s : Sem) (sp nsems base : Nat) : Option Sem :=
  if sp < info.semmni ∧ (s.sema sp).alloc = false ∧ 0 < nsems ∧ nsems ≤ info.semmsl ∧
      fresh info s base nsems then
    some { s.reset base (base + nsems) fun _ => 0 with
      sema := update s.sema sp ⟨true, (s.sema sp).seq, base, nsems⟩ }
  else none

def setval (info : SemInfo) (s : Sem) (id num arg : Nat) : Option Sem :=
  (semconv info s id).bind fun k =>
    let sp := s.sema k
    if num < sp.sem_nsems ∧ arg ≤ info.semvmx then
      let p := sp.sem_base + num
      some { s.reset p (p + 1) fun _ => arg with
        semval := update s.semval p (toUshort arg)
        undos := semunrm info s.undos id num num }
    else none

def Sem.wake (s : Sem) (slot : Nat) : Sem := { s with asleep := update s.asleep slot none }

def Sem.rest (s : Sem) (slot : Nat) (w : Sleeper) : Sem :=
  { s with asleep := update s.asleep slot (some w) }

/-- semctl(SETALL) up to its copyin. -/
def setall (info : SemInfo) (s : Sem) (slot id : Nat) : Option Sem :=
  (semconv info s id).map fun k => s.rest slot ⟨id, k, 0, .setall⟩

/-- The values have been copied in: as many as the header `k` has semaphores now. -/
def setall_copied (info : SemInfo) (s : Sem) (id k : Nat) (semvals : List Nat) : Sem :=
  let sp := s.sema k
  if ∀ v ∈ semvals, v ≤ info.semvmx then
    { s.reset sp.sem_base (sp.sem_base + sp.sem_nsems)
        (fun c => semvals.getD (c - sp.sem_base) 0) with
      undos := semunrm info s.undos id 0 sp.sem_nsems
      semval := fun c => if sp.sem_base ≤ c ∧ c < sp.sem_base + sp.sem_nsems then
        semvals.getD (c - sp.sem_base) 0 else s.semval c }
  else s

def rmid (info : SemInfo) (s : Sem) (id : Nat) : Option Sem :=
  (semconv info s id).map fun k =>
    let sp := s.sema k
    { s with
      undos := semunrm info s.undos id 0 sp.sem_nsems
      semval := fun c => if sp.sem_base ≤ c ∧ c < sp.sem_base + sp.sem_nsems then 0 else s.semval c
      sema := update s.sema k { sp with
        alloc := false
        seq := if INT16_MAX < id + info.semmni then 0 else sp.seq + 1 } }

/-! semexit -/

def semexit_one (info : SemInfo) (s : Sem) (e : Undo) : Sem :=
  match semconv info s e.un_id with
  | none => s
  | some k =>
      let semp := (s.sema k).sem_base + e.un_num
      let v := s.semval semp + e.un_aoe
      if v < 0 ∨ (info.semvmx : Int) < v then
        { s with skipped := update s.skipped semp true }
      else { s with semval := update s.semval semp (toUshort v) }

def semexit_loop (info : SemInfo) (s : Sem) : List Undo → Sem
  | [] => s
  | e :: es => semexit_one info (semexit_loop info s es) e

def Undos.release (info : SemInfo) (u : Undos) (slot x : Nat) : Undos :=
  let u := if u.un_ent x = [] then u else (u.setEntries x []).unlink info x
  { u with
    un_np := update u.un_np x u.semfup
    semfup := some x
    sem_undo := update u.sem_undo slot none }

def semexit (info : SemInfo) (s : Sem) (slot : Nat) : Sem :=
  match s.undos.sem_undo slot with
  | none => s
  | some x =>
      { semexit_loop info s (s.undos.un_ent x) with undos := s.undos.release info slot x }

/-! semop -/

/-- The first error of the loop that checks permissions and semaphore numbers. -/
def verify (sp : SemidDs) (alter read : Bool) : List Sembuf → Option Errno
  | [] => none
  | op :: ops =>
      if (if op.sem_op = 0 then read else alter) = false then some .EACCES
      else if sp.sem_nsems ≤ op.sem_num then some .EFBIG
      else verify sp alter read ops

/-- Operations without SEM_UNDO change the value that the adjustments lead back to. -/
def Sem.account (s : Sem) (base : Nat) (ops : List Sembuf) : Sem :=
  { s with net := fun c =>
      if base ≤ c then s.net c + (sum_ops (c - base) ops - sum_undo (c - base) ops) else s.net c }

/-- A pass from the label `check` on, with the operations that have been copied in. -/
def semop_check (info : SemInfo) (s : Sem) (slot id k : Nat) (ops : List Sembuf) : Outcome × Sem :=
  match semop_pass info s slot id (s.sema k).sem_base ops with
  | (.done, t) => (.done, t.account (s.sema k).sem_base ops)
  | (.error e, t) => (.error e, t)
  | (.sleep, t) => (.sleep, t.rest slot ⟨id, k, ops.length, .waits⟩)

/-- semop up to its first copyin. -/
def semop (info : SemInfo) (s : Sem) (slot id nsops : Nat) : Outcome × Sem :=
  match semconv info s id with
  | none => (.error .EINVAL, s)
  | some k =>
      if info.semopm < nsops then (.error .E2BIG, s)
      else (.sleep, s.rest slot ⟨id, k, nsops, .first⟩)

/-- `ops` have been copied in; `alter` and `read` tell what ipcaccess permits. -/
def semop_copied (info : SemInfo) (s : Sem) (slot id k : Nat) (ops : List Sembuf)
    (alter read : Bool) : Outcome × Sem :=
  match verify (s.sema k) alter read ops with
  | some e => (.error e, s)
  | none => semop_check info s slot id k ops

/-- The sleeper goes on, to the second copyin. The operations are not checked again. -/
def semop_again (info : SemInfo) (s : Sem) (slot : Nat) (w : Sleeper) : Outcome × Sem :=
  match semconv info s w.semid with
  | none => (.error .EIDRM, s)
  | some _ => (.sleep, s.rest slot { w with place := .again })

/-! The machine -/

/-- `copied` and `stored` go on after the copyin of semop and of SETALL, whose buffer `semtmp` is
shared. `leave` is a sleeper that gives up: EINTR, or EFAULT from a copyin. -/
inductive Label
  | semget (sp nsems base : Nat)
  | setval (id num arg : Nat)
  | setall (slot id : Nat)
  | stored (slot : Nat) (semvals : List Nat)
  | rmid (id : Nat)
  | semop (slot id nsops : Nat)
  | copied (slot : Nat) (ops : List Sembuf) (alter read : Bool)
  | again (slot : Nat)
  | leave (slot : Nat)
  | semexit (slot : Nat)

/-- There are `nproc` process slots. -/
def step (info : SemInfo) (nproc : Nat) (s : Sem) : Label → Option Sem
  | .semget sp nsems base => semget info s sp nsems base
  | .setval id num arg => setval info s id num arg
  | .setall slot id => if (s.asleep slot).isNone then setall info s slot id else none
  | .stored slot semvals =>
      (s.asleep slot).bind fun w =>
        if w.place = .setall ∧ semvals.length = (s.sema w.sp).sem_nsems then
          some (setall_copied info (s.wake slot) w.semid w.sp semvals)
        else none
  | .rmid id => rmid info s id
  | .semop slot id nsops =>
      if (s.asleep slot).isNone then some (semop info s slot id nsops).2 else none
  | .copied slot ops alter read =>
      (s.asleep slot).bind fun w =>
        if slot < nproc ∧ ops.length = w.nsops then
          match w.place with
          | .first => some (semop_copied info (s.wake slot) slot w.semid w.sp ops alter read).2
          | .again => some (semop_check info (s.wake slot) slot w.semid w.sp ops).2
          | _ => none
        else none
  | .again slot =>
      (s.asleep slot).bind fun w =>
        if w.place = .waits then some (semop_again info (s.wake slot) slot w).2 else none
  | .leave slot => (s.asleep slot).map fun _ => s.wake slot
  | .semexit slot =>
      if slot < nproc ∧ (s.asleep slot).isNone then some (semexit info s slot) else none

/-- When a copyin returns, the set is there, and operations read in after a sleep name semaphores of
it. -/
def InRange (info : SemInfo) (s : Sem) : Label → Prop
  | .stored slot _ => ∀ w, s.asleep slot = some w → semconv info s w.semid = some w.sp
  | .copied slot ops _ _ => ∀ w, s.asleep slot = some w → semconv info s w.semid = some w.sp ∧
      (w.place = .again → ∀ op ∈ ops, op.sem_num < (s.sema w.sp).sem_nsems)
  | _ => True

end Semaphores
