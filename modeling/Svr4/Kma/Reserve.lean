import Mathlib.Data.BitVec
import Mathlib.Tactic.LinearCombination
import Mathlib.Tactic.Ring

/- The pages that the allocator leaves in reserve, in 32-bit arithmetic. -/
namespace MemoryReserve

abbrev Word := BitVec 32

/-- All four are of type `int`. -/
structure Counters where
  availrmem : Word
  availsmem : Word
  t_minarmem : Word
  t_minasmem : Word

def btoc (x : Word) : Word := (x + 4095) >>> 12

def SMALLCLICKS : Word := btoc 4096

def BIGCLICKS : Word := btoc 16384

def MAXASMALL : Word := 256

def MAXABIG : Word := 4096

/-- The pages are unsigned, and so the comparisons are. -/
def short (m : Counters) (clicks : Word) : Bool :=
  (m.availrmem - clicks).ult m.t_minarmem || (m.availsmem - clicks).ult m.t_minasmem

inductive Pool
  | small
  | big

inductive PoolResult
  | SUCCESS
  | TRYAGAIN
  | FAILURE
  | unfinished
  deriving DecidableEq

/-- `unfinished` is a call that has run out of fuel, asleep or about to try again. -/
inductive Outcome
  | buffer
  | null
  | unfinished
  deriving DecidableEq

/-- What the calls meet: whether a free list has a buffer, `Km_SmAllocOn` or `Km_BgAllocOn` is set,
`sptalloc` has memory. It and `sleep` also tell what others added to `availrmem` and `availsmem`
meanwhile. -/
structure Env (W : Type) where
  search : W → W × Bool
  allocOn : W → Pool → Bool
  sptalloc : W → Word → Bool → W × Bool × Word × Word
  sleep : W → W × Word × Word

/-- The last four are a record: what others have added, the counters at every test of the reserve
with the pages asked for, and those at which pages were subtracted. -/
structure Run (W : Type) where
  world : W
  mem : Counters
  othersr : Word
  otherss : Word
  asked : List (Counters × Word)
  taken : List (Counters × Word)

variable {W : Type} {m : Counters} {u : Run W}

def Run.adds (r : Run W) (availrmem availsmem : Word) : Run W :=
  { r with
    mem := { r.mem with
      availrmem := r.mem.availrmem + availrmem
      availsmem := r.mem.availsmem + availsmem }
    othersr := r.othersr + availrmem
    otherss := r.otherss + availsmem }

def Run.request (r : Run W) (clicks : Word) : Run W × Bool :=
  if short r.mem clicks then ({ r with asked := (r.mem, clicks) :: r.asked }, false)
  else
    ({ r with
      asked := (r.mem, clicks) :: r.asked
      taken := (r.mem, clicks) :: r.taken
      mem := { r.mem with
        availrmem := r.mem.availrmem - clicks
        availsmem := r.mem.availsmem - clicks } }, true)

def Run.restore (r : Run W) (clicks : Word) : Run W :=
  { r with
    mem := { r.mem with
      availrmem := r.mem.availrmem + clicks
      availsmem := r.mem.availsmem + clicks } }

def Run.sptalloc (env : Env W) (r : Run W) (clicks : Word) (nosleep : Bool) : Run W × Bool :=
  let (world, memory, availrmem, availsmem) := env.sptalloc r.world clicks nosleep
  ({ r with world := world }.adds availrmem availsmem, memory)

def Run.sleep (env : Env W) (r : Run W) : Run W :=
  let (world, availrmem, availsmem) := env.sleep r.world
  { r with world := world }.adds availrmem availsmem

def kmem_allocspool (env : Env W) (nosleep : Bool) (r : Run W) : Run W × PoolResult :=
  if env.allocOn r.world .small then (r, .TRYAGAIN)
  else
    match r.request SMALLCLICKS with
    | (r, false) => (r, .FAILURE)
    | (r, true) =>
      match r.sptalloc env SMALLCLICKS nosleep with
      | (r, false) => (r.restore SMALLCLICKS, .FAILURE)
      | (r, true) => (r, .SUCCESS)

/-- The requests that are met from pools. `top` searches the free lists, at `allocTop`; otherwise a
new pool is asked for, at `newspool` or `newbpool`, which has a buffer. -/
def pooled (env : Env W) (newpool : Run W → Run W × PoolResult) (nosleep : Bool) :
    Nat → Bool → Run W → Run W × Outcome
  | 0, _, r => (r, .unfinished)
  | fuel + 1, true, r =>
    match env.search r.world with
    | (world, true) => ({ r with world := world }, .buffer)
    | (world, false) => pooled env newpool nosleep fuel false { r with world := world }
  | fuel + 1, false, r =>
    match newpool r with
    | (r, .unfinished) => (r, .unfinished)
    | (r, .SUCCESS) => (r, .buffer)
    | (r, .TRYAGAIN) =>
      if nosleep then (r, .null) else pooled env newpool nosleep fuel false (r.sleep env)
    | (r, .FAILURE) =>
      if nosleep then (r, .null) else pooled env newpool nosleep fuel true (r.sleep env)

/-- The call of `kmem_alloc` is for the `bufpool`, which is small. -/
def kmem_allocbpool (env : Env W) (fuel : Nat) (nosleep : Bool) (r : Run W) : Run W × PoolResult :=
  if env.allocOn r.world .big then (r, .TRYAGAIN)
  else
    match r.request BIGCLICKS with
    | (r, false) => (r, .FAILURE)
    | (r, true) =>
      match r.sptalloc env BIGCLICKS nosleep with
      | (r, false) => (r.restore BIGCLICKS, .FAILURE)
      | (r, true) =>
        match pooled env (kmem_allocspool env nosleep) nosleep fuel true r with
        | (r, .null) => (r.restore BIGCLICKS, .FAILURE)
        | (r, .unfinished) => (r, .unfinished)
        | (r, .buffer) => (r, .SUCCESS)

/-- The requests that are outside the limit of the big pools, from `osizeagain` on. -/
def osize (env : Env W) (clicks : Word) (nosleep : Bool) : Nat → Run W → Run W × Outcome
  | 0, r => (r, .unfinished)
  | fuel + 1, r =>
    match r.request clicks with
    | (r, false) =>
      if nosleep then (r, .null) else osize env clicks nosleep fuel (r.sleep env)
    | (r, true) =>
      match r.sptalloc env clicks nosleep with
      | (r, false) =>
        if nosleep then (r.restore clicks, .null)
        else osize env clicks nosleep fuel ((r.restore clicks).sleep env)
      | (r, true) => (r, .buffer)

def kmem_alloc (env : Env W) (fuel : Nat) (size : Word) (nosleep : Bool) (r : Run W) :
    Run W × Outcome :=
  if size = 0 then (r, .null)
  else if size.ule MAXASMALL then
    pooled env (kmem_allocspool env nosleep) nosleep fuel true r
  else if size.ule MAXABIG then
    pooled env (kmem_allocbpool env fuel nosleep) nosleep fuel true r
  else osize env (btoc size) nosleep fuel r

def Kept (m : Counters) (clicks : Word) : Prop :=
  m.t_minarmem.toInt ≤ m.availrmem.toInt - clicks.toNat ∧
    m.t_minasmem.toInt ≤ m.availsmem.toInt - clicks.toNat

def Covered (m : Counters) (clicks : Word) : Prop :=
  short m clicks = true ∨
    ((clicks.toNat : Int) ≤ m.availrmem.toInt ∧ (clicks.toNat : Int) ≤ m.availsmem.toInt)

def Counters.Reserved (m : Counters) : Prop := 0 ≤ m.t_minarmem.toInt ∧ 0 ≤ m.t_minasmem.toInt

def Restored (r t : Run W) : Prop :=
  t.mem.availrmem - t.othersr = r.mem.availrmem - r.othersr ∧
    t.mem.availsmem - t.otherss = r.mem.availsmem - r.otherss

structure Recorded (r : Run W) : Prop where
  reserved : r.mem.Reserved
  asked : ∀ m clicks, (m, clicks) ∈ r.asked → m.Reserved
  taken : ∀ m clicks, (m, clicks) ∈ r.taken ↔ (m, clicks) ∈ r.asked ∧ short m clicks = false

section
variable {env : Env W} {m : Counters} {r t : Run W} {clicks : Word} {nosleep : Bool} {fuel : Nat}

theorem kept_iff {avail reserve : Word} (reserved : 0 ≤ reserve.toInt)
    (enough : (avail - clicks).ult reserve = false) :
    reserve.toInt ≤ avail.toInt - clicks.toNat ↔ (clicks.toNat : Int) ≤ avail.toInt := by
  rw [BitVec.toInt_eq_toNat_cond] at *
  rw [BitVec.toInt_eq_toNat_cond avail]
  simp only [BitVec.ult, decide_eq_false_iff_not, BitVec.toNat_sub] at enough
  split at reserved <;> split <;> omega

theorem Restored.refl (r : Run W) : Restored r r := ⟨rfl, rfl⟩

theorem Restored.trans (first : Restored r t) (second : Restored t u) : Restored r u :=
  ⟨second.1.trans first.1, second.2.trans first.2⟩

theorem restored_adds (dr ds : Word) : Restored r (r.adds dr ds) := by
  have same : ∀ a b c : Word, a + c - (b + c) = a - b := by
    intro a b c
    ring
  exact ⟨same _ _ _, same _ _ _⟩

theorem Recorded.restore (recorded : Recorded r) : Recorded (r.restore clicks) :=
  { recorded with }

theorem Recorded.sleep (recorded : Recorded r) : Recorded (r.sleep env) :=
  { recorded with }

theorem restored_sleep : Restored r (r.sleep env) := restored_adds (r := { r with world := _ }) _ _

theorem Recorded.sptalloc (recorded : Recorded r) : Recorded (r.sptalloc env clicks nosleep).1 :=
  { recorded with }

theorem restored_sptalloc : Restored r (r.sptalloc env clicks nosleep).1 :=
  restored_adds (r := { r with world := _ }) _ _

theorem Recorded.request (recorded : Recorded r) (clicks : Word) :
    Recorded (r.request clicks).1 := by
  have asked : ∀ m c, (m, c) ∈ (r.mem, clicks) :: r.asked → m.Reserved := by
    intro m c mem
    rcases List.mem_cons.mp mem with same | mem
    · rw [(Prod.mk.inj same).1]
      exact recorded.reserved
    · exact recorded.asked m c mem
  unfold Run.request
  by_cases refused : short r.mem clicks = true
  · rw [if_pos refused]
    refine ⟨recorded.reserved, asked, fun m c => ?_⟩
    rw [recorded.taken m c]
    constructor
    · rintro ⟨mem, passed⟩
      exact ⟨List.mem_cons_of_mem _ mem, passed⟩
    · rintro ⟨mem, passed⟩
      rcases List.mem_cons.mp mem with same | mem
      · obtain ⟨rfl, rfl⟩ := Prod.mk.inj same
        rw [refused] at passed
        cases passed
      · exact ⟨mem, passed⟩
  · rw [if_neg refused]
    refine ⟨recorded.reserved, asked, fun m c => ?_⟩
    simp only [List.mem_cons, recorded.taken m c]
    constructor
    · rintro (same | ⟨mem, passed⟩)
      · obtain ⟨rfl, rfl⟩ := Prod.mk.inj same
        exact ⟨.inl rfl, Bool.eq_false_iff.mpr refused⟩
      · exact ⟨.inr mem, passed⟩
    · rintro ⟨same | mem, passed⟩
      · exact .inl same
      · exact .inr ⟨mem, passed⟩

theorem restored_refused (refused : r.request clicks = (t, false)) : Restored r t := by
  unfold Run.request at refused
  split at refused
  · obtain ⟨rfl, -⟩ := Prod.mk.inj refused
    exact ⟨rfl, rfl⟩
  · cases refused

theorem restored_restore (passed : r.request clicks = (t, true))
    (between : Restored (t.sptalloc env clicks nosleep).1 u) : Restored r (u.restore clicks) := by
  have since : Restored t u := restored_sptalloc.trans between
  unfold Run.request at passed
  split at passed
  · cases passed
  · obtain ⟨rfl, -⟩ := Prod.mk.inj passed
    obtain ⟨resident, swappable⟩ := since
    have back : ∀ {a b c d : Word}, a - b = c - clicks - d → a + clicks - b = c - d := by
      intro a b c d same
      linear_combination same
    exact ⟨back resident, back swappable⟩

def PoolKeeps (newpool : Run W → Run W × PoolResult) : Prop :=
  ∀ r, Recorded r → Recorded (newpool r).1 ∧
    ((newpool r).2 = .TRYAGAIN ∨ (newpool r).2 = .FAILURE → Restored r (newpool r).1)

theorem kmem_allocspool_keeps (env : Env W) (nosleep : Bool) :
    PoolKeeps (kmem_allocspool env nosleep) := by
  intro r recorded
  unfold kmem_allocspool
  by_cases busy : env.allocOn r.world .small = true
  · rw [if_pos busy]
    exact ⟨recorded, fun _ => .refl r⟩
  rw [if_neg busy]
  obtain ⟨t, passed, request⟩ : ∃ t passed, r.request SMALLCLICKS = (t, passed) := ⟨_, _, rfl⟩
  have asked := recorded.request SMALLCLICKS
  rw [request] at asked ⊢
  cases passed with
  | false => exact ⟨asked, fun _ => restored_refused request⟩
  | true =>
    have recorded' : Recorded (t.sptalloc env SMALLCLICKS nosleep).1 := asked.sptalloc
    have back := restored_restore request (.refl (t.sptalloc env SMALLCLICKS nosleep).1)
    obtain ⟨u, memory, got⟩ : ∃ u memory, t.sptalloc env SMALLCLICKS nosleep = (u, memory) :=
      ⟨_, _, rfl⟩
    simp only [got] at recorded' back ⊢
    cases memory with
    | false => exact ⟨recorded'.restore, fun _ => back⟩
    | true => exact ⟨recorded', by simp⟩

theorem pooled_keeps {newpool : Run W → Run W × PoolResult} (keeps : PoolKeeps newpool)
    (env : Env W) (nosleep : Bool) (fuel : Nat) (top : Bool) (r : Run W) (recorded : Recorded r) :
    Recorded (pooled env newpool nosleep fuel top r).1 ∧
      ((pooled env newpool nosleep fuel top r).2 = .null →
        Restored r (pooled env newpool nosleep fuel top r).1) := by
  induction fuel generalizing top r with
  | zero => exact ⟨recorded, nofun⟩
  | succ fuel ih =>
    cases top with
    | true =>
      unfold pooled
      obtain ⟨world, found, answer⟩ : ∃ world found, env.search r.world = (world, found) :=
        ⟨_, _, rfl⟩
      rw [answer]
      cases found with
      | true => exact ⟨{ recorded with }, nofun⟩
      | false => exact ih false _ { recorded with }
    | false =>
      unfold pooled
      obtain ⟨t, result, made⟩ : ∃ t result, newpool r = (t, result) := ⟨_, _, rfl⟩
      obtain ⟨recorded', restored⟩ := keeps r recorded
      rw [made] at recorded' restored ⊢
      have tries : ∀ top, Restored r t → Recorded (if nosleep = true then (t, .null)
            else pooled env newpool nosleep fuel top (t.sleep env)).1 ∧
          ((if nosleep = true then (t, .null)
            else pooled env newpool nosleep fuel top (t.sleep env)).2 = Outcome.null →
          Restored r (if nosleep = true then (t, .null)
            else pooled env newpool nosleep fuel top (t.sleep env)).1) := by
        intro top back
        by_cases quick : nosleep = true
        · simp only [if_pos quick]
          exact ⟨recorded', fun _ => back⟩
        · simp only [if_neg quick]
          obtain ⟨later, fails⟩ := ih top (t.sleep env) recorded'.sleep
          exact ⟨later, fun null => (back.trans restored_sleep).trans (fails null)⟩
      cases result with
      | SUCCESS => exact ⟨recorded', nofun⟩
      | unfinished => exact ⟨recorded', nofun⟩
      | TRYAGAIN => exact tries false (restored (.inl rfl))
      | FAILURE => exact tries true (restored (.inr rfl))

theorem kmem_allocbpool_keeps (env : Env W) (fuel : Nat) (nosleep : Bool) :
    PoolKeeps (kmem_allocbpool env fuel nosleep) := by
  intro r recorded
  unfold kmem_allocbpool
  by_cases busy : env.allocOn r.world .big = true
  · rw [if_pos busy]
    exact ⟨recorded, fun _ => .refl r⟩
  rw [if_neg busy]
  obtain ⟨t, passed, request⟩ : ∃ t passed, r.request BIGCLICKS = (t, passed) := ⟨_, _, rfl⟩
  have asked := recorded.request BIGCLICKS
  rw [request] at asked ⊢
  cases passed with
  | false => exact ⟨asked, fun _ => restored_refused request⟩
  | true =>
    have recorded' : Recorded (t.sptalloc env BIGCLICKS nosleep).1 := asked.sptalloc
    have back : ∀ u, Restored (t.sptalloc env BIGCLICKS nosleep).1 u →
        Restored r (u.restore BIGCLICKS) := fun u => restored_restore request
    obtain ⟨u, memory, got⟩ : ∃ u memory, t.sptalloc env BIGCLICKS nosleep = (u, memory) :=
      ⟨_, _, rfl⟩
    simp only [got] at recorded' back ⊢
    cases memory with
    | false => exact ⟨recorded'.restore, fun _ => back u (.refl u)⟩
    | true =>
      obtain ⟨later, restored⟩ := pooled_keeps (kmem_allocspool_keeps env nosleep) env nosleep fuel
        true u recorded'
      obtain ⟨v, outcome, header⟩ : ∃ v outcome,
        pooled env (kmem_allocspool env nosleep) nosleep fuel true u = (v, outcome) := ⟨_, _, rfl⟩
      simp only [header] at later restored ⊢
      cases outcome with
      | buffer => exact ⟨later, by simp⟩
      | null => exact ⟨later.restore, fun _ => back v (restored rfl)⟩
      | unfinished => exact ⟨later, by simp⟩

theorem osize_keeps (env : Env W) (clicks : Word) (nosleep : Bool) (fuel : Nat) (r : Run W)
    (recorded : Recorded r) :
    Recorded (osize env clicks nosleep fuel r).1 ∧ ((osize env clicks nosleep fuel r).2 = .null →
        Restored r (osize env clicks nosleep fuel r).1) := by
  induction fuel generalizing r with
  | zero => exact ⟨recorded, nofun⟩
  | succ fuel ih =>
    unfold osize
    obtain ⟨t, passed, request⟩ : ∃ t passed, r.request clicks = (t, passed) := ⟨_, _, rfl⟩
    have asked := recorded.request clicks
    rw [request] at asked ⊢
    have tries : ∀ {u : Run W}, Recorded u → Restored r u →
        Recorded (if nosleep = true then (u, .null)
          else osize env clicks nosleep fuel (u.sleep env)).1 ∧
        ((if nosleep = true then (u, .null)
          else osize env clicks nosleep fuel (u.sleep env)).2 = Outcome.null →
        Restored r (if nosleep = true then (u, .null)
          else osize env clicks nosleep fuel (u.sleep env)).1) := by
      intro u recorded back
      by_cases quick : nosleep = true
      · simp only [if_pos quick]
        exact ⟨recorded, fun _ => back⟩
      · simp only [if_neg quick]
        obtain ⟨later, fails⟩ := ih (u.sleep env) recorded.sleep
        exact ⟨later, fun null => (back.trans restored_sleep).trans (fails null)⟩
    cases passed with
    | false => exact tries asked (restored_refused request)
    | true =>
      have recorded' : Recorded (t.sptalloc env clicks nosleep).1 := asked.sptalloc
      have back := restored_restore request (.refl (t.sptalloc env clicks nosleep).1)
      obtain ⟨u, memory, got⟩ : ∃ u memory, t.sptalloc env clicks nosleep = (u, memory) :=
        ⟨_, _, rfl⟩
      simp only [got] at recorded' back ⊢
      cases memory with
      | false => exact tries recorded'.restore back
      | true => exact ⟨recorded', nofun⟩

theorem kmem_alloc_keeps (env : Env W) (fuel : Nat) (size : Word) (nosleep : Bool) (r : Run W)
    (recorded : Recorded r) :
    Recorded (kmem_alloc env fuel size nosleep r).1 ∧
      ((kmem_alloc env fuel size nosleep r).2 = .null →
        Restored r (kmem_alloc env fuel size nosleep r).1) := by
  unfold kmem_alloc
  split_ifs
  · exact ⟨recorded, fun _ => .refl r⟩
  · exact pooled_keeps (kmem_allocspool_keeps env nosleep) env nosleep fuel true r recorded
  · exact pooled_keeps (kmem_allocbpool_keeps env fuel nosleep) env nosleep fuel true r recorded
  · exact osize_keeps env (btoc size) nosleep fuel r recorded

end

def Run.start (world : W) (m : Counters) : Run W := ⟨world, m, 0, 0, [], []⟩

/-- Pages are taken only if the reserve is kept, and a failing call leaves the counters as they were
but for others. -/
def Respected (m : Counters) (t : Run W) (failed : Prop) : Prop :=
  (∀ a ∈ t.taken, Kept a.1 a.2) ∧
    (failed → t.mem.availrmem = m.availrmem + t.othersr ∧
      t.mem.availsmem = m.availsmem + t.otherss)

def AllCovered (t : Run W) : Prop := ∀ a ∈ t.asked, Covered a.1 a.2

theorem respected_iff {world : W} {t : Run W} {failed : Prop} (recorded : Recorded t)
    (restored : failed → Restored (.start world m) t) :
    Respected m t failed ↔ AllCovered t := by
  constructor
  · rintro ⟨kept, -⟩ ⟨c, clicks⟩ asked
    rcases Bool.eq_false_or_eq_true (short c clicks) with refused | passed
    · exact .inl refused
    · right
      obtain ⟨reserved_r, reserved_s⟩ := recorded.asked c clicks asked
      obtain ⟨kept_r, kept_s⟩ := kept (c, clicks) ((recorded.taken c clicks).mpr ⟨asked, passed⟩)
      obtain ⟨enough_r, enough_s⟩ := Bool.or_eq_false_iff.mp passed
      exact ⟨(kept_iff reserved_r enough_r).mp kept_r, (kept_iff reserved_s enough_s).mp kept_s⟩
  · intro covered
    refine ⟨?_, fun fails => ?_⟩
    · rintro ⟨c, clicks⟩ taken
      obtain ⟨asked, passed⟩ := (recorded.taken c clicks).mp taken
      obtain ⟨reserved_r, reserved_s⟩ := recorded.asked c clicks asked
      obtain ⟨enough_r, enough_s⟩ := Bool.or_eq_false_iff.mp passed
      rcases covered (c, clicks) asked with refused | ⟨pages_r, pages_s⟩
      · rw [passed] at refused
        cases refused
      · constructor
        · exact (kept_iff reserved_r enough_r).mpr pages_r
        · exact (kept_iff reserved_s enough_s).mpr pages_s
    · obtain ⟨resident, swappable⟩ := restored fails
      have back : ∀ {a b c : Word}, a - b = c - 0 → a = c + b := by
        intro a b c same
        linear_combination same
      exact ⟨back resident, back swappable⟩

theorem start_recorded (reserved : m.Reserved) (world : W) : Recorded (.start world m) :=
  ⟨reserved, fun _ _ mem => absurd mem List.not_mem_nil, fun _ _ => by simp [Run.start]⟩

/-- The reserve is respected if and only if every test of it is `Covered`. -/
theorem reserve_respected_iff (env : Env W) (fuel : Nat) (world : W) (m : Counters)
    (nosleep : Bool) (reserved : m.Reserved) :
    (∀ size,
      Respected m (kmem_alloc env fuel size nosleep (.start world m)).1
          ((kmem_alloc env fuel size nosleep (.start world m)).2 = .null) ↔
        AllCovered (kmem_alloc env fuel size nosleep (.start world m)).1) ∧
    (Respected m (kmem_allocspool env nosleep (.start world m)).1
        ((kmem_allocspool env nosleep (.start world m)).2 = .TRYAGAIN ∨
          (kmem_allocspool env nosleep (.start world m)).2 = .FAILURE) ↔
      AllCovered (kmem_allocspool env nosleep (.start world m)).1) ∧
    (Respected m (kmem_allocbpool env fuel nosleep (.start world m)).1
        ((kmem_allocbpool env fuel nosleep (.start world m)).2 = .TRYAGAIN ∨
          (kmem_allocbpool env fuel nosleep (.start world m)).2 = .FAILURE) ↔
      AllCovered (kmem_allocbpool env fuel nosleep (.start world m)).1) := by
  have start := start_recorded reserved world
  refine ⟨fun size => ?_, ?_, ?_⟩
  · obtain ⟨recorded, restored⟩ := kmem_alloc_keeps env fuel size nosleep _ start
    exact respected_iff recorded restored
  · obtain ⟨recorded, restored⟩ := kmem_allocspool_keeps env nosleep _ start
    exact respected_iff recorded restored
  · obtain ⟨recorded, restored⟩ := kmem_allocbpool_keeps env fuel nosleep _ start
    exact respected_iff recorded restored

instance {m : Counters} {clicks : Word} : Decidable (Kept m clicks) :=
  inferInstanceAs (Decidable (_ ∧ _))

instance {m : Counters} {clicks : Word} : Decidable (Covered m clicks) :=
  inferInstanceAs (Decidable (_ ∨ _))

instance {t : Run W} : Decidable (AllCovered t) :=
  inferInstanceAs (Decidable (∀ a ∈ t.asked, Covered a.1 a.2))

def plenty : Env Unit where
  search := fun w => (w, false)
  allocOn := fun _ _ => false
  sptalloc := fun w _ _ => (w, true, 0, 0)
  sleep := fun w => (w, 0, 0)

theorem reserve_respected_quarter :
    Respected ⟨1000, 900, 25, 25⟩
      (kmem_alloc plenty 5 1048576 true (.start () ⟨1000, 900, 25, 25⟩)).1
      ((kmem_alloc plenty 5 1048576 true (.start () ⟨1000, 900, 25, 25⟩)).2 = .null) :=
  ((reserve_respected_iff plenty 5 () ⟨1000, 900, 25, 25⟩ true ⟨by decide, by decide⟩).1
    1048576).mpr (by decide +kernel)

/-- With 100 pages left, 256 are taken. -/
theorem reserve_overdrawn :
    ¬ Respected ⟨100, 100, 25, 25⟩
      (kmem_alloc plenty 5 1048576 true (.start () ⟨100, 100, 25, 25⟩)).1
      ((kmem_alloc plenty 5 1048576 true (.start () ⟨100, 100, 25, 25⟩)).2 = .null) := by
  intro respected
  have beyond : ¬ ∀ a ∈ (kmem_alloc plenty 5 1048576 true (.start () ⟨100, 100, 25, 25⟩)).1.taken,
      Kept a.1 a.2 := by
    decide +kernel
  exact beyond respected.1

end MemoryReserve
