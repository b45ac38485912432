import Svr4.Shm.Lifetime

/- os/shm.c: what each step does to the references of the shared segments. -/
namespace ShmSegments
open Counting LabelledRuns List Option Nat Function

section
variable {nproc : Nat} {info : Shminfo} {s s' t : Sys nproc} {p cp c : Fin nproc}
  {sp : Fin SHMMNI} {tight ok : Bool} {shmid size addr amp : Nat} {granted reserved : Bool}
  {d e : Doing nproc} {R : Nat → Nat} {q : Proc nproc} {A : Nat → Option AnonMap}
  {H : Fin SHMMNI → ShmidDs nproc}

theorem ne_of_acts (acts : (s.procs p).doing.acts = true) (idle : (s.procs c).doing.acts = false) :
    c ≠ p := by
  rintro rfl
  rw [acts] at idle
  cases idle

theorem go_same (doing : (s.procs p).doing = d) : s.go p d = s := by
  rw [← doing]
  exact congrArg (fun procs => { s with procs := procs }) (update_eq_self p s.procs)

theorem go_go : (s.go p d).go p e = s.go p e := by
  simp [Sys.go, Sys.put]

theorem go_comm (other : c ≠ p) : (s.go p d).go c e = (s.go c e).go p d := by
  simp only [Sys.go, Sys.put, update_of_ne other, update_of_ne other.symm]
  rw [update_comm other]

/-- The headers keep their maps, and those that another process has locked stay. -/
structure Turned (s : Sys nproc) (p : Fin nproc) (H : Fin SHMMNI → ShmidDs nproc) : Prop where
  same : ∀ sp, (H sp).shm_amp = (s.shmem sp).shm_amp
  headers : ∀ sp, Header (H sp)
  others : ∀ sp q, (s.shmem sp).locked = some q → q ≠ p → H sp = s.shmem sp

section
variable (held : Held tight s)
include held

theorem Held.turned : Turned s p s.shmem := ⟨fun _ => rfl, held.headers, fun _ _ _ _ => rfl⟩

theorem Held.turned_header {h : ShmidDs nproc} (header : Header h)
    (same : h.shm_amp = (s.shmem sp).shm_amp)
    (mine : (s.shmem sp).locked = none ∨ (s.shmem sp).locked = some p) :
    Turned s p (s.putShm sp h).shmem :=
  ⟨putShm_amp same, putShm_forall header held.headers, putShm_others mine⟩

theorem Held.unlocked (locked : (s.shmem sp).locked = some p)
    (shm_amp : (s.shmem sp).shm_amp = some amp) : Turned s p (s.unlock sp).shmem :=
  held.turned_header ((held.headers sp).unlock (by simp [shm_amp])) rfl (.inr locked)

section
variable (acts : (s.procs p).doing.acts = true)
include acts

/-- A step of a process, and of a child that it makes or gives up. -/
theorem Held.moved
    (child : c = p ∨ (s.procs c).doing = .embryo p ∨ (s.procs c).doing = .unused)
    (others : ∀ q, q ≠ p → q ≠ c → t.procs q = s.procs q) (turned : Turned s p t.shmem)
    (refs' : ∀ a, refs t a = R a) (counted : ∀ a, Counted (t.amps a) (R a))
    (settled : tight = true → ∀ a, t.amps a ≠ none → 0 < R a) (sizes : Sized t.amps)
    (here : Proper tight t p (t.procs p)) (there : c ≠ p → Proper tight t c (t.procs c)) :
    Held tight t where
  counted a := refs' a ▸ counted a
  settled exact_ a live := refs' a ▸ settled exact_ a live
  sizes := sizes
  headers := turned.headers
  unique sp sp' a first second :=
    held.unique sp sp' a (turned.same sp ▸ first) (turned.same sp' ▸ second)
  proper := held.others acts child others turned.others here there

/-- A step in which a process takes or gives up references of its own. -/
theorem Held.act (turned : Turned s p H) (counted : ∀ a, Counted (A a) (R a))
    (settled : tight = true → ∀ a, A a ≠ none → 0 < R a) (sizes : Sized A)
    (more : ∀ a, R a + own (s.procs p) a = refs s a + own q a)
    (here : Proper tight (Sys.put ⟨H, A, s.procs⟩ p q) p q) :
    Held tight (Sys.put ⟨H, A, s.procs⟩ p q) := by
  refine held.moved acts (.inl rfl) (fun r other _ => put_ne other) turned (fun a => ?_) counted
    settled sizes (by rwa [put_self]) fun other => absurd rfl other
  have change : refs (Sys.put ⟨H, A, s.procs⟩ p q) a + own (s.procs p) a = _ := refs_change
    (identifiers_same (a := a) turned.same) fun r other => by rw [put_ne other]
  have more := more a
  rw [put_self] at change
  omega

theorem Held.turn (turned : Turned s p H)
    (phase : Phase tight (Sys.go ⟨H, s.amps, s.procs⟩ p d) p { s.procs p with doing := d } d) :
    Held tight (Sys.go ⟨H, s.amps, s.procs⟩ p d) := by
  have here := held.proper p
  exact held.act acts turned held.counted held.settled held.sizes (fun _ => rfl)
    { here with phase }

/-- A step in which a process makes a child, or gives it references. -/
theorem Held.child (child : (s.procs c).doing = .embryo p ∨ (s.procs c).doing = .unused)
    (counted : ∀ a, Counted (A a) (R a)) (settled : tight = true → ∀ a, A a ≠ none → 0 < R a)
    (sizes : Sized A) (more : ∀ a, R a + own (s.procs c) a = refs s a + own q a)
    (here : ∀ t : Sys nproc, t.procs c = q → Phase tight t p { s.procs p with doing := d } d)
    (there : ∀ t, Proper tight t c q) :
    Held tight ((Sys.put ⟨s.shmem, A, s.procs⟩ c q).go p d) := by
  have other : c ≠ p := by
    refine ne_of_acts acts ?_
    rcases child with young | young <;> rw [young] <;> rfl
  generalize made : (Sys.put ⟨s.shmem, A, s.procs⟩ c q).go p d = t
  have at_child : t.procs c = q := by simp [← made, Sys.go, other]
  have at_parent : t.procs p = { s.procs p with doing := d } := by simp [← made, Sys.go, other.symm]
  have shmem : t.shmem = s.shmem := by rw [← made]; rfl
  have amps : t.amps = A := by rw [← made]; rfl
  have elsewhere : ∀ r, r ≠ p → r ≠ c → t.procs r = s.procs r := by
    intro r first second
    simp [← made, Sys.go, first, second]
  have parent := held.proper p
  refine held.moved acts (.inr child) elsewhere (shmem ▸ held.turned) (fun a => ?_)
    (amps ▸ counted) (amps ▸ settled) (amps ▸ sizes) ?_ fun _ => at_child ▸ there t
  · have change : refs t a + own (s.procs c) a = _ := refs_change
      (identifiers_same fun _ => by rw [shmem]) fun r this => by
        by_cases parent : r = p
        · rw [parent, at_parent]
          rfl
        · rw [elsewhere r parent this]
    have more := more a
    rw [at_child] at change
    omega
  · rw [at_parent]
    exact { parent with phase := here t at_child }

end

theorem shmget_held (taken : shmget info s p sp size reserved = some s') : Held tight s' := by
  unfold shmget at taken
  split at taken
  · cases taken
  next idle =>
  rw [not_not] at idle
  split at taken
  · cases taken
    exact held
  next free =>
  split at taken
  · cases taken
  split at taken
  · cases taken
    exact held
  next ok =>
  cases taken
  have unused := (held.headers sp).free (Bool.eq_false_iff.mpr free)
  have kept : Kept tight (s.procs p) := held.phase idle
  refine held.turn (idle ▸ rfl) (held.turned_header
    ⟨fun h => by simp at h, fun _ h => by simp at h⟩ rfl (.inl unused.2)) ⟨kept.go, by omega, ?_⟩
  simp [Sys.go, unused.1]

theorem created_held (taken : created s p amp = some s') : Held tight s' := by
  unfold created at taken
  split at taken
  · next sp size doing =>
    split at taken
    · cases taken
    next fresh =>
    rw [not_not] at fresh
    have made := some.inj taken
    obtain ⟨kept, positive, locked, empty⟩ := held.phase doing
    have header : Header
        (⟨(s.shmem sp).alloc, (s.shmem sp).seq, none, some amp⟩ : ShmidDs nproc) := by
      refine ⟨fun free => ?_, fun _ _ => by simp⟩
      rw [((held.headers sp).free free).2] at locked
      cases locked
    have unreferred : refs s amp = 0 := by
      have counted := held.counted amp
      rwa [fresh] at counted
    have shm : s'.shmem = (s.putShm sp
        ⟨(s.shmem sp).alloc, (s.shmem sp).seq, none, some amp⟩).shmem := by
      rw [← made]
      rfl
    have amps : s'.amps = update s.amps amp (some ⟨2, pages size⟩) := by
      rw [← made]
      rfl
    have more : ∀ a, refs s' a = refs s a + one (amp = a) := by
      intro a
      have change : refs s' a + one ((s.shmem sp).shm_amp = some a) = _ := refs_header
        (fun sp' other => by rw [shm, putShm_ne other]) fun q => by
          by_cases same : q = p
          · simp [← made, Sys.go, same, own]
          · simp [← made, Sys.go, same]
      rw [shm, putShm_self, empty, one_false (show ¬ (none : Option Nat) = some a by simp)] at change
      simpa only [some.injEq, add_zero] using change
    refine ⟨fun a => ?_, fun exact_ a live => ?_, fun a m found => ?_, fun sp' => ?_, ?_, ?_⟩
    · rw [amps, more]
      by_cases same : a = amp
      · subst same
        rw [update_self, unreferred, one_true rfl]
        rfl
      · rw [update_of_ne same, one_false (Ne.symm same), add_zero]
        exact held.counted a
    · rw [more]
      rw [amps] at live
      by_cases same : a = amp
      · rw [one_true same.symm]
        omega
      · rw [update_of_ne same] at live
        exact Nat.add_pos_left (held.settled exact_ a live) _
    · rw [amps] at found
      rw [update_apply] at found
      split at found
      · cases found
        show 0 < pages size
        unfold pages
        omega
      · exact held.sizes a m found
    · rw [shm]
      exact putShm_forall header held.headers sp'
    · -- no other header refers to the new map
      have alone : ∀ sp', (s.shmem sp').shm_amp ≠ some amp := by
        intro sp' other
        have := header_refs other
        omega
      intro sp₁ sp₂ a first second
      rw [shm] at first second
      by_cases h₁ : sp₁ = sp <;> by_cases h₂ : sp₂ = sp
      · rw [h₁, h₂]
      · rw [h₁, putShm_self] at first
        rw [putShm_ne h₂, ← first] at second
        exact absurd second (alone sp₂)
      · rw [h₂, putShm_self] at second
        rw [putShm_ne h₁, ← second] at first
        exact absurd first (alone sp₁)
      · rw [putShm_ne h₁] at first
        rw [putShm_ne h₂] at second
        exact held.unique sp₁ sp₂ a first second
    · have here := held.proper p
      refine held.others (c := p) (doing ▸ rfl) (.inl rfl)
        (fun q other _ => by rw [← made]; exact put_ne other)
        (fun sp' q own other => by rw [shm]; exact putShm_others (.inr locked) sp' q own other) ?_
        fun other => absurd rfl other
      rw [show s'.procs p = { s.procs p with doing := .idle } by simp [← made, Sys.go]]
      exact { here with phase := kept.go }
  · cases taken

theorem shmat_held (taken : shmat info s p shmid addr granted = some s') : Held tight s' := by
  unfold shmat at taken
  dsimp only at taken
  generalize Fin.ofNat SHMMNI shmid = sp at taken
  split at taken
  · cases taken
  next idle =>
  obtain ⟨idle, free⟩ : (s.procs p).doing = .idle ∧ (s.shmem sp).locked = none := by
    simpa using idle
  split at taken
  · cases taken
    exact held
  split at taken
  · cases taken
    exact held
  split at taken
  · cases taken
  next m used =>
  split at taken
  · cases taken
    exact held
  next gap =>
  cases taken
  obtain ⟨amp, shm_amp, found⟩ := bind_eq_some_iff.mp used
  have kept : Kept tight (s.procs p) := held.phase idle
  refine held.turn (idle ▸ rfl) (held.turned_header
    ⟨fun unused => ?_, fun _ h => by simp at h⟩ rfl (.inl free))
    ⟨kept.go, held.sizes amp m found, by simpa using gap, ?_⟩
  · exact absurd ((held.headers sp).free unused).1 (by simp [shm_amp])
  · simp [Sys.go, shm_amp]

/-- References to a live map are taken, and held by whoever asks. -/
theorem Held.hold_counted (live : 0 < refs s amp) :
    ∀ a, Counted (hold s.amps amp a) (refs s a + one (amp = a)) :=
  counted_hold held.counted live fun _ => rfl

theorem Held.hold_settled (exact_ : tight = true) (a : Nat) (there : hold s.amps amp a ≠ none) :
    0 < refs s a + one (amp = a) :=
  Nat.add_pos_left (held.settled exact_ a fun free => there (hold_none free)) _

theorem mapped_held {result : Mapped} (sound : tight = true → result ≠ .not_locked false)
    (taken : mapped s p result = some s') :
    Held tight s' := by
  unfold mapped at taken
  split at taken
  · next sp addr size doing =>
    have here := held.proper p
    obtain ⟨kept, some, gap, locked, -⟩ := held.phase doing
    split at taken
    · cases taken
    next amp shm_amp =>
    have apart : Apart (seg_alloc (s.procs p).a_segs ⟨addr, size, amp⟩) :=
      apart_alloc here.apart gap some
    -- the reference of the new mapping
    have counted := held.hold_counted (header_refs shm_amp)
    have settled : tight = true → ∀ a, hold s.amps amp a ≠ none → 0 < refs s a + one (amp = a) :=
      held.hold_settled
    have alloc : ∀ a, maps (seg_alloc (s.procs p).a_segs ⟨addr, size, amp⟩) a =
      maps (s.procs p).a_segs a + one (amp = a) := fun a => maps_alloc
    have more : ∀ a, refs s a + one (amp = a) + own (s.procs p) a = refs s a +
        (maps (seg_alloc (s.procs p).a_segs ⟨addr, size, amp⟩) a +
          recs (s.procs p).p_segacct a) := by
      intro a
      rw [alloc, own]
      omega
    split at taken
    · cases taken
      exact held.act (doing ▸ rfl) held.turned counted settled (held.sizes.hold amp) more
        ⟨apart, here.sorted, here.aiocount, kept.number, locked, amp, shm_amp,
          kept.listed.add here.apart ⟨addr, size, amp⟩⟩
    · cases taken
      exact held.turn (doing ▸ rfl) (held.unlocked locked shm_amp) kept.go
    · cases taken
      have back : as_unmap (seg_alloc (s.procs p).a_segs ⟨addr, size, amp⟩) addr size =
        (s.procs p).a_segs := unmap_alloc gap some
      rw [back]
      refine held.act (doing ▸ rfl) (held.unlocked locked shm_amp)
        (counted_unmap counted fun a => ?_)
        (fun exact_ a there => held.settled exact_ a fun free => there (unmap_none (hold_none free)))
        ((held.sizes.hold amp).unmap _ _ _) (fun a => rfl)
        { here with phase := kept.go }
      have parts : maps (seg_alloc (s.procs p).a_segs ⟨addr, size, amp⟩) a =
        maps (as_unmap _ addr size) a + _ := maps_unmap
      rw [back, alloc] at parts
      omega
    · cases taken
      obtain rfl : tight = false := Bool.eq_false_iff.mpr fun exact_ => sound exact_ rfl
      exact held.act (doing ▸ rfl) (held.unlocked locked shm_amp) counted settled
        (held.sizes.hold amp) more
        ⟨apart, here.sorted, here.aiocount, kept.listed.stray, kept.number⟩
  · cases taken

theorem recorded_held (taken : recorded s p = some s') : Held tight s' := by
  unfold recorded at taken
  split at taken
  · next sp addr size doing =>
    have here := held.proper p
    obtain ⟨number, locked, amp, shm_amp, listed⟩ := held.phase doing
    rw [shm_amp] at taken
    cases taken
    refine held.act (doing ▸ rfl) (held.unlocked locked shm_amp)
      (held.hold_counted (header_refs shm_amp)) held.hold_settled (held.sizes.hold amp)
      (fun a => ?_) ⟨here.apart, (sorted_acct here.apart).sublist listed.1, here.aiocount, listed,
        ?_⟩
    · simp only [own, recs_add]
      omega
    · show (s.procs p).u_nshmseg + 1 = _
      rw [number]
      exact (orderedInsert_length _ _ _).symm
  · cases taken

theorem kshmdt_held {exits : Bool} (kept : Kept tight (s.procs p))
    (acts : (s.procs p).doing.acts = true) (taken : kshmdt s p addr exits = some s') :
    Held tight s' := by
  unfold kshmdt at taken
  split at taken
  · cases taken
  · obtain ⟨sap, found, rfl⟩ := map_eq_some_iff.mp taken
    exact held.turn acts held.turned ⟨kept.go, sap, mem_of_find found⟩

theorem shmdt_held (taken : shmdt s p addr = some s') : Held tight s' := by
  unfold shmdt at taken
  split at taken
  · cases taken
  next idle =>
  rw [not_not] at idle
  have made := some.inj taken
  cases detach : kshmdt s p addr false with
  | none =>
    rw [detach] at made
    exact made ▸ held
  | some t =>
    rw [detach] at made
    exact made ▸ kshmdt_held held (held.phase idle) (idle ▸ rfl) detach

theorem unmapped_held (sound : tight = true → ok = true) (taken : unmapped s p ok = some s') :
    Held tight s' := by
  unfold unmapped at taken
  split at taken
  · next addr exits doing =>
    have here := held.proper p
    obtain ⟨kept, there⟩ := held.phase doing
    obtain ⟨sap, found, made⟩ := map_eq_some_iff.mp taken
    obtain ⟨mem, rfl⟩ := mem_of_find found
    have parts : ∀ a, maps (s.procs p).a_segs a =
        maps (as_unmap (s.procs p).a_segs sap.sa_addr sap.sa_len) a + _ := fun a => maps_unmap
    have before : ∀ a, maps (s.procs p).a_segs a + recs (s.procs p).p_segacct a ≤ refs s a :=
      fun a => own_le
    split at made
    · subst made
      refine held.act (doing ▸ rfl) held.turned (R := fun a => refs s a -
          maps ((s.procs p).a_segs.filter (overlaps sap.sa_addr sap.sa_len)) a)
        (counted_unmap held.counted fun a => ?_) (fun exact_ a live => ?_) (held.sizes.unmap _ _ _)
        (fun a => ?_) ⟨⟨here.apart.sorted.filter _,
          fun x mem => here.apart.size x (mem_of_mem_filter mem)⟩, here.sorted, here.aiocount,
          kept.number, there, kept.listed.del here.apart mem⟩
      · have parts := parts a
        have before := before a
        omega
      · -- the record of the mapping is still there
        have positive := held.settled exact_ a fun free => live (unmap_none free)
        have parts := parts a
        have before := before a
        by_cases mapped : maps (s.procs p).a_segs a = 0
        · omega
        · obtain ⟨seg, mem, rfl⟩ := mem_of_maps (pos_of_ne_zero mapped)
          have record : acct seg ∈ (s.procs p).p_segacct := by
            rw [kept.listed.2 exact_]
            exact mem_map_of_mem mem
          have recorded : 0 < recs (s.procs p).p_segacct seg.amp := recs_pos record
          omega
      · have parts := parts a
        have before := before a
        simp only [own]
        omega
    · next failed =>
      obtain rfl : tight = false := Bool.eq_false_iff.mpr fun exact_ => failed (sound exact_)
      rw [← made]
      exact held.turn (doing ▸ rfl) held.turned ⟨kept.number, there, kept.listed.forgotten⟩
  · cases taken

theorem detached_held (taken : detached s p = some s') : Held tight s' := by
  unfold detached at taken
  split at taken
  · next addr exits doing =>
    have here := held.proper p
    obtain ⟨number, -, listed⟩ := held.phase doing
    obtain ⟨sap, found, rfl⟩ := map_eq_some_iff.mp taken
    obtain ⟨mem, rfl⟩ := mem_of_find found
    have del : ∀ a, recs (s.procs p).p_segacct a = _ := fun a => recs_del here.sorted mem
    have less : ∀ a, refs s a = refs s a - one (sap.sa_amp = a) + one (sap.sa_amp = a) := by
      intro a
      have before := own_le (s := s) (p := p) (a := a)
      have del := del a
      unfold own at before
      omega
    have length := (del_perm here.sorted mem).length_eq
    rw [length_cons] at length
    have kept : Kept tight ({ s.procs p with
        p_segacct := sa_del (s.procs p).p_segacct sap.sa_addr
        u_nshmseg := (s.procs p).u_nshmseg - 1
        doing := if exits = true then .exiting else .idle } : Proc nproc) :=
      ⟨listed, show (s.procs p).u_nshmseg - 1 = (sa_del _ _).length by omega⟩
    refine held.act (doing ▸ rfl) held.turned (counted_unhold (le_refl 1) held.counted less)
      (fun exact_ a live => settled_unhold held.counted (held.settled exact_) less a live)
      (held.sizes.unhold _ _) (fun a => ?_) ⟨here.apart, del_sorted here.sorted, here.aiocount, ?_⟩
    · have less := less a
      have del := del a
      simp only [own]
      omega
    · cases exits <;> exact kept
  · cases taken

theorem rmid_held (taken : rmid s p shmid granted = some s') : Held tight s' := by
  unfold rmid at taken
  dsimp only at taken
  generalize Fin.ofNat SHMMNI shmid = sp at taken
  split at taken
  · cases taken
  next idle =>
  obtain ⟨idle, free⟩ : (s.procs p).doing = .idle ∧ (s.shmem sp).locked = none := by
    simpa using idle
  split at taken
  · cases taken
    exact held
  obtain ⟨amp, shm_amp, made⟩ := map_eq_some_iff.mp taken
  have unchanged : s'.procs = s.procs := by
    rw [← made]
    rfl
  have elsewhere : ∀ sp', sp' ≠ sp → s'.shmem sp' = s.shmem sp' := by
    rw [← made]
    exact fun sp' other => putShm_ne other
  have gone : (s'.shmem sp).shm_amp = none := by rw [← made, putShm_self]
  have less : ∀ a, refs s a = refs s' a + one (amp = a) := by
    intro a
    have change := refs_header (a := a) elsewhere fun q => by rw [unchanged]
    rw [gone, shm_amp, one_false (show ¬ (none : Option Nat) = some a by simp)] at change
    simpa only [some.injEq, add_zero] using change.symm
  refine ⟨fun a => ?_, fun exact_ a live => ?_, ?_, ?_, fun sp₁ sp₂ a first second => ?_,
    held.others (c := p) (idle ▸ rfl) (.inl rfl) (fun q _ _ => by rw [unchanged])
      (fun sp' q own other => ?_) ?_ fun other => absurd rfl other⟩
  · rw [← made]
    exact counted_unhold (le_refl 1) held.counted (made ▸ less) a
  · rw [← made] at live
    exact settled_unhold held.counted (held.settled exact_) less a live
  · rw [← made]
    exact held.sizes.unhold _ _
  · rw [← made]
    exact putShm_forall ⟨fun _ => ⟨rfl, rfl⟩, fun used => by cases used⟩ held.headers
  · have kept : ∀ sp', (s'.shmem sp').shm_amp = some a → (s.shmem sp').shm_amp = some a := by
      intro sp' still
      by_cases this : sp' = sp
      · rw [this, gone] at still
        cases still
      · rwa [elsewhere sp' this] at still
    exact held.unique sp₁ sp₂ a (kept sp₁ first) (kept sp₂ second)
  · rw [← made]
    exact putShm_others (.inl free) sp' q own other
  · obtain ⟨apart, sorted, aiocount, phase⟩ := held.proper p
    rw [unchanged]
    rw [idle] at phase
    exact ⟨apart, sorted, aiocount, idle ▸ phase⟩

theorem fork_held (taken : fork s p cp = some s') : Held tight s' := by
  unfold fork at taken
  split at taken
  · cases taken
  next ok =>
  obtain ⟨idle, unused⟩ : (s.procs p).doing = .idle ∧ (s.procs cp).doing = .unused := by
    simpa using ok
  have kept : Kept tight (s.procs p) := held.phase idle
  have empty : (s.procs cp).a_segs = [] ∧ (s.procs cp).p_segacct = [] := held.phase unused
  cases taken
  refine held.child (idle ▸ rfl) (.inr unused) held.counted held.settled held.sizes (fun a => ?_)
    (fun t at_child => ?_) fun t => ⟨⟨List.Pairwise.nil, fun _ h => by cases h⟩,
      List.Pairwise.nil, rfl, trivial⟩
  · simp [own, empty.1, empty.2]
  · rw [Phase, at_child]
    exact ⟨kept.go, rfl, rfl, rfl⟩

theorem copied_held (taken : copied s p ok = some s') : Held tight s' := by
  unfold copied at taken
  split at taken
  · next cp rest doing =>
    have here := held.proper p
    have child := held.proper cp
    obtain ⟨kept, embryo, none_yet, segs⟩ := held.phase doing
    have other : cp ≠ p := ne_of_acts (s := s) (doing ▸ rfl) (embryo ▸ rfl)
    split at taken
    · cases taken
      refine held.turn (doing ▸ rfl) held.turned (.inr ⟨kept.go, ?_⟩)
      rw [Sys.go, put_ne other]
      exact ⟨embryo, none_yet, fun seg mem => segs ▸ mem_append_left rest mem⟩
    split at taken
    · next seg rest =>
      cases taken
      have shared : seg ∈ (s.procs p).a_segs := segs ▸ by simp
      have next_segs : (s.procs cp).a_segs ++ [seg] ++ rest = (s.procs p).a_segs := by
        rw [append_assoc]
        exact segs
      have apart : Apart ((s.procs cp).a_segs ++ [seg]) := Apart.left (next_segs ▸ here.apart)
      have last := alloc_last apart
      have live : 0 < refs s seg.amp :=
        Nat.lt_of_lt_of_le (Nat.add_pos_left (maps_pos shared) _) (own_le (p := p))
      refine held.child (doing ▸ rfl) (.inl embryo) (held.hold_counted live) held.hold_settled
        (held.sizes.hold _) (fun a => ?_) (fun t at_child => ?_)
        fun t => ⟨last ▸ apart, child.sorted, child.aiocount, ?_⟩
      · simp only [own, maps_alloc]
        omega
      · rw [Phase, at_child, last]
        exact ⟨kept.go, embryo, none_yet, next_segs⟩
      · rw [embryo]
        trivial
    · cases taken
      rw [append_nil] at segs
      refine held.child (doing ▸ rfl) (.inl embryo) held.counted held.settled held.sizes
        (fun a => rfl) (fun t at_child => ?_)
        fun t => { child with phase := ?_ }
      · have all : (if (s.procs p).u_nshmseg = 0 then [] else (s.procs p).p_segacct) =
            (s.procs p).p_segacct := by
          split
          · next zero =>
            rw [kept.number] at zero
            exact (eq_nil_of_length_eq_zero zero).symm
          · rfl
        rw [Phase, at_child, none_yet, nil_append, all]
        exact ⟨kept.go, embryo, segs, rfl, rfl⟩
      · rw [embryo]
        trivial
  · cases taken

theorem accounted_held (taken : accounted s p = some s') : Held tight s' := by
  have here := held.proper p
  unfold accounted at taken
  split at taken
  · next cp sap rest doing =>
    have child := held.proper cp
    obtain ⟨kept, embryo, segs, number, list⟩ := held.phase doing
    cases taken
    have shared : sap ∈ (s.procs p).p_segacct := list ▸ by simp
    have next_list : (s.procs cp).p_segacct ++ [sap] ++ rest = (s.procs p).p_segacct := by
      rw [append_assoc]
      exact list
    have sorted : Sorted ((s.procs cp).p_segacct ++ [sap]) :=
      List.Pairwise.sublist (sublist_append_left _ rest) (next_list ▸ here.sorted)
    have last := add_last sorted
    have live : 0 < refs s sap.sa_amp :=
      Nat.lt_of_lt_of_le (Nat.add_pos_right _ (recs_pos shared)) (own_le (p := p))
    refine held.child (doing ▸ rfl) (.inl embryo) (held.hold_counted live) held.hold_settled
      (held.sizes.hold _) (fun a => ?_) (fun t at_child => ?_)
      fun t => ⟨child.apart, last ▸ sorted, child.aiocount, ?_⟩
    · simp only [own, recs_add]
      omega
    · rw [Phase, at_child, last]
      exact ⟨kept.go, embryo, segs, number, next_list⟩
    · rw [embryo]
      trivial
  · next cp doing =>
    have child := held.proper cp
    obtain ⟨kept, embryo, segs, number, list⟩ := held.phase doing
    rw [append_nil] at list
    cases taken
    refine held.child (doing ▸ rfl) (.inl embryo) held.counted held.settled held.sizes
      (fun a => rfl) (fun _ _ => kept.go)
      fun t => ⟨child.apart, child.sorted, child.aiocount, ?_, ?_⟩
    · rw [segs, list]
      exact kept.listed
    · rw [number, list]
      exact kept.number
  · cases taken

theorem exit_held (taken : exit s p = some s') : Held tight s' := by
  unfold exit at taken
  split at taken
  · cases taken
  next idle =>
  rw [not_not] at idle
  have kept : Kept tight (s.procs p) := held.phase idle
  cases taken
  refine held.turn (idle ▸ rfl) held.turned ?_
  by_cases zero : (s.procs p).u_nshmseg = 0
  · rw [if_pos zero]
    rw [kept.number] at zero
    have empty := eq_nil_of_length_eq_zero zero
    exact .inl ⟨rfl, empty, empty ▸ kept.listed⟩
  · rw [if_neg zero]
    exact kept.go

theorem shmexit_held (taken : shmexit s p = some s') : Held tight s' := by
  unfold shmexit at taken
  split at taken
  · cases taken
  next exiting =>
  rw [not_not] at exiting
  have kept : Kept tight (s.procs p) := held.phase exiting
  split at taken
  · next empty =>
    cases taken
    exact held.turn (exiting ▸ rfl) held.turned (.inl ⟨rfl, empty, empty ▸ kept.listed⟩)
  next sap rest list =>
  -- no asynchronous operation is under way, so the detach is not refused
  obtain ⟨r, found⟩ := find_of_mem (show sap ∈ (s.procs p).p_segacct by simp [list])
  have detach : kshmdt s p sap.sa_addr true = some (s.go p (.unmapping sap.sa_addr true)) := by
    unfold kshmdt
    rw [if_neg (not_not.mpr (held.proper p).aiocount), found]
    rfl
  rw [detach] at taken
  cases taken
  exact kshmdt_held held kept (exiting ▸ rfl) detach

theorem freed_held (taken : freed s p = some s') : Held tight s' := by
  unfold freed at taken
  split at taken
  · next cp doing =>
    have phase := held.phase doing
    have child := held.proper cp
    split at taken
    · next seg segs list =>
      have apart : Apart segs := (list ▸ child.apart).tail
      have less : ∀ a, refs s a = refs s a - one (seg.amp = a) + one (seg.amp = a) := by
        intro a
        have within := own_le (s := s) (p := cp) (a := a)
        rw [own, list, maps_cons] at within
        omega
      have more : ∀ a, refs s a - one (seg.amp = a) + own (s.procs cp) a =
          refs s a + (maps segs a + recs (s.procs cp).p_segacct a) := by
        intro a
        have less := less a
        rw [own, list, maps_cons]
        omega
      have counted := counted_unhold (zero_le 1) held.counted less
      cases taken
      rcases phase with ⟨rfl, none_left, listed⟩ | ⟨kept, embryo, none_left, within⟩
      · -- nothing is left to unmap
        have settled : tight = true → False := fun exact_ => by
          have := listed.2 exact_
          rw [list] at this
          cases this
        refine held.act (doing ▸ rfl) held.turned counted (fun exact_ => (settled exact_).elim)
          (held.sizes.unhold _ _) more { child with apart, phase := ?_ }
        rw [doing]
        exact .inl ⟨rfl, none_left, nil_sublist _, fun exact_ => (settled exact_).elim⟩
      · have other : cp ≠ p := ne_of_acts (s := s) (doing ▸ rfl) (embryo ▸ rfl)
        have still : (((⟨s.shmem, unhold s.amps seg.amp 0, s.procs⟩ : Sys nproc).put cp
            { s.procs cp with a_segs := segs }).procs p).doing = .freeing cp := by
          rw [put_ne other.symm]
          exact doing
        rw [← go_same still]
        refine held.child (doing ▸ rfl) (.inl embryo) counted (fun exact_ a live => ?_)
          (held.sizes.unhold _ _) more (fun t at_child => .inr ?_)
          fun t => { child with apart, phase := ?_ }
        · have before := held.settled exact_ a fun free => live (unhold_none free)
          have less := less a
          by_cases same : seg.amp = a
          · have both := own_two_le (s := s) (a := a) other
            have here : 0 < maps (s.procs p).a_segs a := same ▸ maps_pos (within seg (by simp [list]))
            rw [own, own, list, maps_cons, one_true same] at both
            rw [one_true same]
            omega
          · rw [one_false same]
            omega
        · rw [at_child]
          exact ⟨kept.go, embryo, none_left, fun x mem => within x (by simp [list, mem])⟩
        · rw [embryo]
          trivial
    · next empty =>
      cases taken
      rcases phase with ⟨rfl, none_left, -⟩ | ⟨kept, embryo, none_left, -⟩
      · rw [go_go]
        exact held.turn (doing ▸ rfl) held.turned ⟨empty, none_left⟩
      · have other : cp ≠ p := ne_of_acts (s := s) (doing ▸ rfl) (embryo ▸ rfl)
        rw [go_comm other]
        exact held.child (doing ▸ rfl) (.inl embryo) held.counted held.settled held.sizes
          (fun a => rfl) (fun _ _ => kept.go)
          fun t => ⟨child.apart, child.sorted, child.aiocount, empty, none_left⟩
  · cases taken

theorem step_held {l : Label nproc} (sound : tight = true → l.unmap_fails = false)
    (taken : step info s l = some s') :
    Held tight s' := by
  cases l with
  | shmget p sp size reserved => exact shmget_held held taken
  | created p amp => exact created_held held taken
  | shmat p shmid addr granted => exact shmat_held held taken
  | mapped p result =>
    refine mapped_held held (fun exact_ failed => ?_) taken
    have := sound exact_
    rw [failed] at this
    cases this
  | recorded p => exact recorded_held held taken
  | shmdt p addr => exact shmdt_held held taken
  | unmapped p ok =>
    refine unmapped_held held (fun exact_ => ?_) taken
    cases ok with
    | true => rfl
    | false => cases sound exact_
  | detached p => exact detached_held held taken
  | rmid p shmid granted => exact rmid_held held taken
  | fork p cp => exact fork_held held taken
  | copied p ok => exact copied_held held taken
  | accounted p => exact accounted_held held taken
  | exit p => exact exit_held held taken
  | shmexit p => exact shmexit_held held taken
  | freed p => exact freed_held held taken

end

theorem boot_held (started : Fin nproc → Bool) : Held tight (boot started) where
  counted a := by
    show refs (boot started) a = 0
    rw [refs_eq]
    simp [identifiers, mappings, records, boot]
  settled _ a live := absurd rfl live
  sizes a m found := by cases found
  headers sp := ⟨fun _ => ⟨rfl, rfl⟩, fun used => by cases used⟩
  unique sp sp' a first := by cases first
  proper p := by
    refine ⟨⟨List.Pairwise.nil, fun x mem => by cases mem⟩, List.Pairwise.nil, rfl, ?_⟩
    cases start : started p
    · simp [boot, start, Phase]
    · simp only [boot, start, if_true]
      exact ⟨⟨List.Sublist.refl _, fun _ => rfl⟩, rfl⟩

theorem run_held {ls : List (Label nproc)} (held : Held tight s)
    (sound : tight = true → ∀ l ∈ ls, l.unmap_fails = false)
    (ran : exec (step info) s ls = some s') : Held tight s' := by
  induction ls generalizing s with
  | nil =>
    cases ran
    exact held
  | cons l ls ih =>
    obtain ⟨t, taken, rest⟩ := exec_cons_eq_some.mp ran
    exact ih (step_held held (fun exact_ => sound exact_ l mem_cons_self) taken)
      (fun exact_ l mem => sound exact_ l (mem_cons_of_mem _ mem)) rest

theorem identifiers_le (held : Held tight s) (a : Nat) : identifiers s a ≤ 1 := by
  by_cases some : ∃ sp, (s.shmem sp).shm_amp = some a
  · obtain ⟨sp, here⟩ := some
    unfold identifiers
    rw [Finset.sum_eq_single sp]
    · split <;> omega
    · intro sp' _ other
      exact if_neg fun there => other (held.unique sp' sp a there here)
    · exact fun missing => absurd (Finset.mem_univ sp) missing
  · refine (le_of_eq ?_).trans (zero_le 1)
    exact Finset.sum_eq_zero fun sp _ => if_neg fun here => some ⟨sp, here⟩

/-- However processes attach, detach, fork, exit and remove: the count is one more than the
identifier, the mappings and the records, and no map is released before. While no unmapping fails,
the last of them releases it, and a quiet process's records are its mappings. -/
theorem segment_lifetime (info : Shminfo) (started : Fin nproc → Bool) (ls : List (Label nproc))
    (ran : exec (step info) (boot started) ls = some s) :
    (∀ a m, s.amps a = some m →
      m.refcnt = 1 + (identifiers s a + mappings s a + records s a)) ∧
    (∀ a, s.amps a = none → identifiers s a = 0 ∧ mappings s a = 0 ∧ records s a = 0) ∧
    (∀ a, identifiers s a ≤ 1) ∧
    (∀ p, (s.procs p).doing = .idle →
      (s.procs p).p_segacct.Sublist ((s.procs p).a_segs.map acct)) ∧
    ((∀ l ∈ ls, l.unmap_fails = false) →
      (∀ a, s.amps a ≠ none → 0 < identifiers s a + mappings s a + records s a) ∧
      ∀ p, (s.procs p).doing = .idle → (s.procs p).p_segacct = (s.procs p).a_segs.map acct) := by
  have held : Held false s := run_held (boot_held started) (fun never => by cases never) ran
  have idle : ∀ {tight}, Held tight s → ∀ p, (s.procs p).doing = .idle →
      Kept tight (s.procs p) := fun held _ doing => held.phase doing
  refine ⟨fun a m found => ?_, fun a free => ?_, identifiers_le held,
    fun p doing => (idle held p doing).listed.1, fun sound => ?_⟩
  · have counted := held.counted a
    rw [found] at counted
    rw [← refs_eq, add_comm]
    exact counted
  · have counted := held.counted a
    rw [free] at counted
    have none_left : refs s a = 0 := counted
    rw [refs_eq] at none_left
    omega
  · have tight : Held true s := run_held (boot_held started) (fun _ => sound) ran
    exact ⟨fun a live => refs_eq s a ▸ tight.settled rfl a live,
      fun p doing => (idle tight p doing).listed.2 rfl⟩

end

/-- A segment is made, attached and detached, its identifier removed, and the process exits; the
unmapping works or not. -/
def detaching (ok : Bool) : List (Label 1) :=
  [.shmget 0 0 4096 true, .created 0 7, .shmat 0 0 65536 true, .mapped 0 .made, .recorded 0,
    .shmdt 0 65536, .unmapped 0 ok, .detached 0, .rmid 0 0 true, .exit 0, .freed 0]

def tunables : Shminfo := ⟨524288, 6⟩

theorem detaching_releases :
    ∃ s, exec (step tunables) (boot fun _ => true) (detaching true) = some s ∧
      identifiers s 7 = 0 ∧ mappings s 7 = 0 ∧ records s 7 = 0 := by
  have outcome : (exec (step tunables) (boot fun _ => true) (detaching true)).map
    (fun s => s.amps 7) = some none := by decide +kernel
  obtain ⟨s, ran, gone⟩ := map_eq_some_iff.mp outcome
  exact ⟨s, ran, (segment_lifetime tunables (fun _ => true) _ ran).2.1 7 gone⟩

/-- A new segment counts 2; if the unmapping of a detach fails, the mapping has no record and does
not release the map. -/
theorem detaching_strays :
    (¬ ∀ (ls : List (Label 1)) s a m, exec (step tunables) (boot fun _ => true) ls = some s →
      s.amps a = some m → m.refcnt = identifiers s a + mappings s a + records s a) ∧
    (¬ ∀ (ls : List (Label 1)) s p, exec (step tunables) (boot fun _ => true) ls = some s →
      (s.procs p).doing = .idle → (s.procs p).p_segacct = (s.procs p).a_segs.map acct) ∧
    (¬ ∀ (ls : List (Label 1)) s a, exec (step tunables) (boot fun _ => true) ls = some s →
      s.amps a ≠ none → 0 < identifiers s a + mappings s a + records s a) := by
  refine ⟨fun all => ?_, fun all => ?_, fun all => ?_⟩
  · have outcome : (exec (step tunables) (boot fun _ => true) ((detaching true).take 2)).map
        (fun s => (s.amps 7, identifiers s 7 + mappings s 7 + records s 7)) =
      some (some ⟨2, 4096⟩, 1) := by decide +kernel
    obtain ⟨s, ran, both⟩ := map_eq_some_iff.mp outcome
    have count := all _ s 7 ⟨2, 4096⟩ ran (congrArg (·.1) both)
    rw [show identifiers s 7 + mappings s 7 + records s 7 = 1 from congrArg (·.2) both] at count
    cases count
  · have outcome : (exec (step tunables) (boot fun _ => true) ((detaching false).take 8)).map
        (fun s => (s.procs 0)) = some ⟨[], [⟨65536, 4096, 7⟩], 0, 0, .idle⟩ := by decide +kernel
    obtain ⟨s, ran, stray⟩ := map_eq_some_iff.mp outcome
    have same := all _ s 0 ran (by rw [stray])
    rw [stray] at same
    cases same
  · have outcome : (exec (step tunables) (boot fun _ => true)
        (detaching false ++ [.freed 0])).map
        (fun s => (s.amps 7, identifiers s 7 + mappings s 7 + records s 7)) =
      some (some ⟨1, 4096⟩, 0) := by decide +kernel
    obtain ⟨s, ran, both⟩ := map_eq_some_iff.mp outcome
    have some := all _ s 7 ran (by
      rw [show s.amps 7 = some ⟨1, 4096⟩ from congrArg (·.1) both]
      exact some_ne_none _)
    rw [show identifiers s 7 + mappings s 7 + records s 7 = 0 from congrArg (·.2) both] at some
    cases some

section Names
variable {nproc : Nat} {s : Sys nproc} {p : Fin nproc}

theorem mapped_live (held : Held false s) {seg : Seg} (mem : seg ∈ (s.procs p).a_segs) :
    s.amps seg.amp ≠ none := by
  intro free
  have counted := held.counted seg.amp
  rw [free] at counted
  have none_left : refs s seg.amp = 0 := counted
  rw [refs_eq] at none_left
  have counts : mappings s seg.amp = 0 := by omega
  unfold mappings at counts
  have here := Finset.sum_eq_zero_iff.mp counts p (Finset.mem_univ p)
  exact countP_eq_zero.mp here seg mem (by simp)

/-- No identifier names a released map, and no address space has one mapped. -/
theorem no_released_map_named (info : Shminfo) (started : Fin nproc → Bool)
    (ls : List (Label nproc)) (ran : exec (step info) (boot started) ls = some s) :
    (∀ sp, (s.shmem sp).alloc = true → (s.shmem sp).locked = none → ∃ a m,
      (s.shmem sp).shm_amp = some a ∧ s.amps a = some m ∧ 0 < m.size ∧
      ∀ sp', (s.shmem sp').shm_amp = some a → sp' = sp) ∧
    ∀ p, Apart (s.procs p).a_segs ∧ Sorted (s.procs p).p_segacct ∧
      ∀ seg ∈ (s.procs p).a_segs, s.amps seg.amp ≠ none := by
  have held : Held false s := run_held (boot_held started) (fun never => by cases never) ran
  refine ⟨fun sp used unlocked => ?_, fun p => ⟨(held.proper p).apart, (held.proper p).sorted,
    fun seg mem => mapped_live held mem⟩⟩
  obtain ⟨a, named⟩ := ne_none_iff_exists'.mp ((held.headers sp).used used unlocked)
  have counted := held.counted a
  cases found : s.amps a with
  | none =>
    rw [found] at counted
    have none_left : refs s a = 0 := counted
    rw [refs_eq] at none_left
    have some_left := identifiers_pos named
    omega
  | some m => exact ⟨a, m, named, found, held.sizes a m found,
      fun sp' same => held.unique sp' sp a same named⟩

theorem no_released_map_named_detaching : ∃ s, exec (step tunables) (boot fun _ => true)
    ((detaching true).take 5) = some s ∧ ∀ seg ∈ (s.procs 0).a_segs, s.amps seg.amp ≠ none := by
  have some_state : ((exec (step tunables) (boot fun _ => true)
      ((detaching true).take 5)).isSome = true) := by decide +kernel
  obtain ⟨s, ran⟩ := isSome_iff_exists.mp some_state
  exact ⟨s, ran, ((no_released_map_named tunables (fun _ => true) _ ran).2 0).2.2⟩

end Names

end ShmSegments
