import Svr4.Flock.Exclusion
import Svr4.WaitGraph

/- deadflck on the wait-for graph that sleeplcks records. It follows the first entry of
   each owner, so it is right as long as an owner's entries name one blocker. -/
namespace RecordLocks
open LinkedCells SpanMap LabelledRuns Relation WaitGraph List Option

def blockerOf (f : Filock) : Int × Int := (f.stat.blkSysid, f.stat.pid)

def WaitsFor (ys : List (Nat × Filock)) (o b : Int × Int) : Prop :=
  ∃ y ∈ ys, ownerOf y.2.set = o ∧ blockerOf y.2 = b

def firstBlocker (ys : List (Nat × Filock)) (o : Int × Int) : Option (Int × Int) :=
  (ys.find? fun y => ownerOf y.2.set = o).map fun y => blockerOf y.2

structure Waits (ys : List (Nat × Filock)) : Prop where
  one : ∀ y ∈ ys, ∀ z ∈ ys, ownerOf y.2.set = ownerOf z.2.set → blockerOf y.2 = blockerOf z.2
  acyclic : Acyclic (WaitsFor ys)

variable {l : CellList Filock} {ys : List (Nat × Filock)}

theorem deadflck_eq_follow (links : Links l ys) (lckdat : Flock) (rounds : Nat) (o : Int × Int) :
    deadflck l lckdat rounds o = follow (firstBlocker ys) (ownerOf lckdat) rounds o := by
  induction rounds generalizing o with
  | zero => rfl
  | succ rounds ih =>
    have goal : (o.2 = lckdat.lPid ∧ o.1 = lckdat.lSysid) ↔ o = ownerOf lckdat := by
      obtain ⟨sysid, pid⟩ := o
      simp only [ownerOf, Prod.mk.injEq]
      exact and_comm
    have key : (fun sf : Filock => decide (o.2 = sf.set.lPid ∧ o.1 = sf.set.lSysid)) =
        fun sf => decide (ownerOf sf.set = o) := by
      funext sf
      obtain ⟨sysid, pid⟩ := o
      simp only [ownerOf, Prod.mk.injEq, decide_eq_decide]
      exact ⟨fun h => ⟨h.2.symm, h.1.symm⟩, fun h => ⟨h.2.symm, h.1.symm⟩⟩
    have search := findRecord_eq (fun sf : Filock => decide (ownerOf sf.set = o)) links
    simp only [deadflck, follow, goal, key]
    by_cases here : o = ownerOf lckdat
    · simp [here]
    rw [if_neg here, if_neg here]
    cases found : ys.find? (fun y => decide (ownerOf y.2.set = o)) with
    | none =>
      simp [search, firstBlocker, found]
    | some y =>
      obtain ⟨us, vs, rfl⟩ := append_of_mem (mem_of_find?_eq_some found)
      simp only [search, map_some, bind_eq_bind, bind_some, links.cell_eq, firstBlocker, found]
      exact ih _

theorem Waits.edge_iff (waits : Waits ys) (o b : Int × Int) :
    firstBlocker ys o = some b ↔ WaitsFor ys o b := by
  constructor
  · intro first
    obtain ⟨y, found, rfl⟩ := map_eq_some_iff.mp first
    exact ⟨y, mem_of_find?_eq_some found, by simpa using find?_some found, rfl⟩
  · rintro ⟨y, mem, owner, rfl⟩
    cases found : ys.find? (fun y => decide (ownerOf y.2.set = o)) with
    | none =>
      have := find?_eq_none.mp found y mem
      simp [owner] at this
    | some z =>
      have same : ownerOf z.2.set = o := by simpa using find?_some found
      have named := waits.one z (mem_of_find?_eq_some found) y mem (same.trans owner.symm)
      simp [firstBlocker, found, named]

theorem Waits.edges (waits : Waits ys) : (fun o b => firstBlocker ys o = some b) = WaitsFor ys := by
  funext o b
  exact propext (waits.edge_iff o b)

theorem firstBlocker_known (o b : Int × Int) (first : firstBlocker ys o = some b) :
    o ∈ ys.map fun y => ownerOf y.2.set := by
  obtain ⟨y, found, -⟩ := map_eq_some_iff.mp first
  exact mem_map.mpr ⟨y, mem_of_find?_eq_some found, by simpa using find?_some found⟩

theorem Waits.deadflck_exact (links : Links l ys) (waits : Waits ys) {lckdat : Flock} {n : Nat}
    {o : Int × Int} {r : Bool} (ends : deadflck l lckdat n o = some r) :
    r = true ↔ ReflTransGen (WaitsFor ys) o (ownerOf lckdat) := by
  rw [deadflck_eq_follow links] at ends
  rw [follow_exact ends, waits.edges]

theorem Waits.deadflck_ends (links : Links l ys)
    (waits : Waits ys) (lckdat : Flock) (o : Int × Int) :
    ∃ n r, deadflck l lckdat n o = some r := by
  have acyclic : Acyclic fun o b => firstBlocker ys o = some b := by
    rw [waits.edges]
    exact waits.acyclic
  obtain ⟨r, ends⟩ := follow_ends acyclic firstBlocker_known (ownerOf lckdat) o
  exact ⟨_, r, by rw [deadflck_eq_follow links]; exact ends⟩

theorem Waits.sublist {ys' : List (Nat × Filock)} (waits : Waits ys) (sub : ys'.Sublist ys) :
    Waits ys' :=
  ⟨fun y hy z hz => waits.one y (sub.subset hy) z (sub.subset hz),
    waits.acyclic.mono fun _ _ ⟨y, mem, edge⟩ => ⟨y, sub.subset mem, edge⟩⟩

theorem Waits.cons {sf : Nat} {ld f : Flock} (waits : Waits ys)
    (one : ∀ y ∈ ys, ownerOf y.2.set = ownerOf ld → blockerOf y.2 = ownerOf f)
    (apart : ¬ ReflTransGen (WaitsFor ys) (ownerOf f) (ownerOf ld)) :
    Waits ((sf, ⟨ld, ⟨f.lSysid, f.lPid⟩⟩) :: ys) := by
  constructor
  · intro y hy z hz same
    rcases mem_cons.mp hy with rfl | hy <;> rcases mem_cons.mp hz with rfl | hz
    · rfl
    · exact (one z hz same.symm).symm
    · exact one y hy same
    · exact waits.one y hy z hz same
  · refine (waits.acyclic.add apart).mono fun o b edge => ?_
    obtain ⟨y, mem, owner, named⟩ := edge
    rcases mem_cons.mp mem with rfl | mem
    · exact .inr ⟨owner.symm, named.symm⟩
    · exact .inl ⟨y, mem, owner, named⟩

def waitEdge (s : Sys) (l : Label) : Option ((Int × Int) × (Int × Int)) := do
  let (r, ld) ← requestOf s l
  if r.slpflck ∧ (ld.lType = .rdlck ∨ ld.lType = .wrlck) then
    let (found, _) ← blocked (s.locks r.vp) ld
    let c ← (s.locks r.vp).cell (← found)
    return (ownerOf ld, ownerOf c.val.set)
  else none

/-- No request that sleeps has another entry of its owner that names someone else, unless it closes
a cycle. -/
def OneBlocker (s : Sys) (l : Label) : Prop :=
  ∀ o b, waitEdge s l = some (o, b) →
    ¬ ReflTransGen (WaitsFor (remaining l (contents s.sleeplcks))) b o →
    ∀ y ∈ remaining l (contents s.sleeplcks), ownerOf y.2.set = o → blockerOf y.2 = b

theorem remaining_sublist (l : Label) (ys : List (Nat × Filock)) : (remaining l ys).Sublist ys := by
  cases l with
  | call r => exact Sublist.refl ys
  | resume sf => exact filter_sublist
  | interrupt sf => exact Sublist.refl ys

theorem act_waits {env : Env} {s t : Sys} {l : Label} {reply : Reply} (tidy : Tidy s)
    (sleeping : Links s.sleeplcks ys) (waits : Waits ys) (one : OneBlocker s l)
    (take : act env s l = some (t, reply)) : ∃ ys', Links t.sleeplcks ys' ∧ Waits ys' := by
  rcases act_cases tidy sleeping take with ⟨r, ld, s', request, range, tidy', same, queue, run⟩ |
    ⟨-, -, -, ys', queue, sub⟩
  · have waits' := waits.sublist (remaining_sublist l ys)
    obtain ⟨zs, links, unchanged | ⟨sf, insrt, found, c, rfl, slp, type, stopped, here, safe⟩⟩ :=
      (pass_cases run).queue queue
    · exact ⟨zs, links, waits'.sublist unchanged⟩
    rw [same] at stopped here
    have edge : waitEdge s l = some (ownerOf ld, ownerOf c.val.set) := by
      simp [waitEdge, request, slp, type, stopped, here]
    have apart : ¬ ReflTransGen (WaitsFor (remaining l ys)) (ownerOf c.val.set) (ownerOf ld) := by
      intro path
      have found_dead := (waits'.deadflck_exact queue safe).mpr path
      cases found_dead
    have named := one _ _ edge
    rw [sleeping.contents_eq] at named
    exact ⟨_, links, waits'.cons (named apart) apart⟩
  · exact ⟨ys', queue, waits.sublist sub⟩

/-- While no request is recorded for an owner with another blocker, deadflck ends, and finds exactly
the requesters that the recorded blockers lead to. -/
theorem deadflck_total_and_exact {env : Env} {ls : List Label} {s : Sys}
    (guarded : Guarded (step env) OneBlocker boot ls) (run : exec (step env) boot ls = some s)
    (found lckdat : Flock) :
    ∃ n r, deadflck s.sleeplcks lckdat n (ownerOf found) = some r ∧
      (r = true ↔
        ReflTransGen (WaitsFor (contents s.sleeplcks)) (ownerOf found) (ownerOf lckdat)) := by
  have invariant : Tidy s ∧ ∃ ys, Links s.sleeplcks ys ∧ Waits ys := by
    refine exec_invariant (fun s => Tidy s ∧ ∃ ys, Links s.sleeplcks ys ∧ Waits ys) ?_ ?_ guarded run
    · rintro s l t ⟨tidy, ys, sleeping, waits⟩ one take
      obtain ⟨⟨t', reply⟩, act, rfl⟩ := map_eq_some_iff.mp take
      exact ⟨act_tidy tidy act, act_waits tidy sleeping waits one act⟩
    · refine ⟨boot_tidy, [], links_empty, by simp, fun o loop => ?_⟩
      obtain ⟨b, ⟨y, mem, -⟩, -⟩ := TransGen.head'_iff.mp loop
      simp at mem
  obtain ⟨-, ys, sleeping, waits⟩ := invariant
  obtain ⟨n, r, ends⟩ := waits.deadflck_ends sleeping lckdat (ownerOf found)
  rw [sleeping.contents_eq]
  exact ⟨n, r, ends, waits.deadflck_exact sleeping ends⟩

def setlkw (vp : Nat) (byte pid : Int) : Req :=
  ⟨vp, ⟨.wrlck, 0, byte, 1, 0, pid⟩, true, true, false, true, true, 0, .ok 0⟩

def rsetlkw (vp : Nat) (byte pid : Int) : Req :=
  ⟨vp, ⟨.wrlck, 0, byte, 1, 1, pid⟩, true, true, true, true, true, 0, .ok 0⟩

def rsetlk (vp : Nat) (type : LockType) (byte pid : Int) : Req :=
  ⟨vp, ⟨type, 0, byte, 1, 1, pid⟩, true, false, true, true, true, 0, .ok 0⟩

theorem deadflck_total_and_exact_sleeper :
    ∃ s, exec (step ample) boot [.call (setlkw 0 7 1), .call (setlkw 0 7 2)] = some s ∧
      ∃ n r, deadflck s.sleeplcks (setlkw 0 7 1).lckdat n (0, 2) = some r ∧
        (r = true ↔ ReflTransGen (WaitsFor (contents s.sleeplcks)) (0, 2) (0, 1)) := by
  have quiet : ∀ s : Sys, contents s.sleeplcks = [] → ∀ r, OneBlocker s (.call r) := by
    intro s none_asleep r o b _ _ y mem
    simp [remaining, none_asleep] at mem
  have first : (exec (step ample) boot [.call (setlkw 0 7 1)]).map
      (fun s => decide ((contents s.sleeplcks).length = 0)) = some true := by decide
  obtain ⟨s, run⟩ := isSome_iff_exists.mp
    (show (exec (step ample) boot [.call (setlkw 0 7 1), .call (setlkw 0 7 2)]).isSome = true by
      decide)
  have guarded : Guarded (step ample) OneBlocker boot
      [.call (setlkw 0 7 1), .call (setlkw 0 7 2)] := by
    refine ⟨quiet boot rfl _, fun u hu => ⟨quiet u ?_ _, fun _ _ => trivial⟩⟩
    have only : exec (step ample) boot [.call (setlkw 0 7 1)] = some u := by simp [exec, hu]
    rw [only] at first
    exact length_eq_zero_iff.mp (by simpa using first)
  exact ⟨s, run, deadflck_total_and_exact guarded run (setlkw 0 7 2).lckdat (setlkw 0 7 1).lckdat⟩

/-- Process (1,1) waits remotely for (0,2) on vnode 1 and for (0,3) on vnode 2; (0,2) sleeps on a
lock of (1,1) on vnode 3, which deadflck allows as it follows only the newer entry; (0,3) unlocks,
the retry removes that entry, and the cycle stands. -/
def hidden : List Label :=
  [.call (setlkw 1 10 2), .call (setlkw 2 0 3), .call (rsetlk 3 .wrlck 0 1),
    .call (rsetlkw 1 10 1), .call (rsetlkw 2 0 1), .call (setlkw 3 0 2),
    .call (setlk 2 .unlck 0 0 3), .call (rsetlkw 2 0 1)]

theorem follow_cycle {next : (Int × Int) → Option (Int × Int)} {a b goal : Int × Int}
    (there : next a = some b) (back : next b = some a) (a_not : a ≠ goal) (b_not : b ≠ goal)
    (n : Nat) : follow next goal n a = none ∧ follow next goal n b = none := by
  induction n with
  | zero => exact ⟨rfl, rfl⟩
  | succ n ih => simp [follow, there, back, a_not, b_not, ih.1, ih.2]

/-- A later request for the lock of (1,1) on vnode 3 keeps deadflck in its loop. -/
theorem deadflck_spins : ∃ s, exec (step ample) boot hidden = some s ∧ ∃ a insrt c,
    blocked (s.locks 3) ⟨.wrlck, 0, 0, 0, 0, 4⟩ = some (some a, insrt) ∧
    (s.locks 3).cell a = some c ∧
    ∀ n, deadflck s.sleeplcks ⟨.wrlck, 0, 0, 0, 0, 4⟩ n (ownerOf c.val.set) = none := by
  have facts : (exec (step ample) boot hidden).map (fun s =>
      ((blocked (s.locks 3) ⟨.wrlck, 0, 0, 0, 0, 4⟩).bind fun x =>
          (x.1.bind (s.locks 3).cell).map fun c => ownerOf c.val.set,
        firstBlocker (contents s.sleeplcks) (1, 1), firstBlocker (contents s.sleeplcks) (0, 2))) =
      some (some (1, 1), some (0, 2), some (1, 1)) := by
    decide
  obtain ⟨s, run, seen⟩ := map_eq_some_iff.mp facts
  simp only [Prod.mk.injEq] at seen
  obtain ⟨stopped, there, back⟩ := seen
  obtain ⟨⟨found, insrt⟩, scan, read⟩ := bind_eq_some_iff.mp stopped
  obtain ⟨c, here, owner⟩ := map_eq_some_iff.mp read
  obtain ⟨a, rfl, here⟩ := bind_eq_some_iff.mp here
  obtain ⟨ys, sleeping⟩ := (run_tidy run).sleeplcks
  rw [sleeping.contents_eq] at there back
  refine ⟨s, run, a, insrt, c, scan, here, fun n => ?_⟩
  rw [deadflck_eq_follow sleeping, owner]
  exact (follow_cycle there back (by decide) (by decide) n).1

end RecordLocks
