import Svr4.Fio.Opens

/- What every step keeps. -/
namespace Fio
open Function DoublyLinked Counting Option

variable {s t s' : State} {p q r c fd i j : Nat} {fp f : Fp} {u : Table} {next : After} {n : Int}
  {pc : Pc}

theorem State.free_iff : s.free p = true ↔ p ∈ s.procs ∧ s.pc p = .idle := by
  simp [State.free]

theorem of_free {b : Bool} {x : Option State}
    (taken : (if (s.free p && b) = true then x else none) = some t) :
    (p ∈ s.procs ∧ s.pc p = .idle) ∧ b = true ∧ x = some t := by
  obtain ⟨may, taken⟩ := ite_none_right_eq_some.mp taken
  obtain ⟨free, may⟩ := Bool.and_eq_true_iff.mp may
  exact ⟨State.free_iff.mp free, may, taken⟩

theorem of_idle {x : Option State} (taken : (if s.free p = true then x else none) = some t) :
    (p ∈ s.procs ∧ s.pc p = .idle) ∧ x = some t := by
  obtain ⟨free, taken⟩ := ite_none_right_eq_some.mp taken
  exact ⟨State.free_iff.mp free, taken⟩

section
variable (sound : Sound s)
include sound

theorem Sound.rests (here : s.pc p = pc) (acts : ∀ r, pc ≠ .embryo r)
    (quiet : ∀ f, pc.closes f = 0 ∧ pc.hand f = 0) : Sound (s.goes p .idle) :=
  sound.sets_out here acts quiet (fun _ => ⟨rfl, rfl⟩) trivial

theorem Sound.child_rests (here : s.pc p = pc) (acts : ∀ r, pc ≠ .embryo r)
    (quiet : ∀ f, pc.closes f = 0 ∧ pc.hand f = 0) (waits : s.pc c = .embryo p) :
    Sound ((s.goes p .idle).goes c .idle) := by
  have apart := apart_of (acts_of here acts) waits
  have still : (s.goes p .idle).pc c = .embryo p := (update_of_ne apart _ _).trans waits
  refine (sound.rests here acts quiet).goes_on (fun q embryo => ?_) (fun f => ?_)
    (fun _ => ⟨rfl, rfl⟩) trivial
  · rw [still] at embryo
    obtain rfl : p = q := by simpa using embryo
    exact update_self _ _ _
  · rw [still]
    exact ⟨rfl, rfl⟩

theorem Sound.starts {table : Nat → Table} (here : s.pc p = pc) (acts : ∀ r, pc ≠ .embryo r)
    (quiet : ∀ f, pc.closes f = 0) (tables : ∀ r, (table r).Ok)
    (others : ∀ r, r ≠ p → table r = s.u r)
    (mine : ∀ f n, slots (table p) f + (Pc.closing fp n next).hand f = s.mine f p)
    (mem : p ∈ s.procs) (named : 0 < s.mine fp p) (careful : Unhurried s fp)
    (closing : ∀ t : State, t.procs = s.procs → t.u = table →
      (∀ r, r ≠ p → t.pc r = s.pc r) → (Pc.closing fp (s.files fp).f_count next).Ok t p) :
    Sound (closef { s with u := table } p fp next) := by
  have live := sound.named mem named
  have count := (sound.counts fp live).1
  have positive := sound.live fp live
  unfold closef
  rw [if_neg (show ¬ (s.files fp).f_count ≤ 0 by omega)]
  exact sound.begins mem (acts_of here acts) (here ▸ quiet) tables others (fun f => mine f _)
    named rfl careful rfl (closing _ rfl rfl fun _ other => update_of_ne other _ _)

theorem Sound.starts_at (here : s.pc p = pc) (acts : ∀ r, pc ≠ .embryo r)
    (quiet : ∀ f, pc.closes f = 0 ∧ pc.hand f = 0) (kept : next ≠ .execclose) (mem : p ∈ s.procs)
    (named : getf (s.u p) fd = some fp) (careful : Unhurried s fp)
    (closing : ∀ t : State, t.procs = s.procs → t.u = s.u →
      (∀ r, r ≠ p → t.pc r = s.pc r) → (Pc.closing fp (s.files fp).f_count next).Ok t p) :
    Sound (closef s p fp next) := by
  refine sound.starts here acts (fun f => (quiet f).1) sound.tables (fun _ _ => rfl)
    (fun f n => ?_) mem (sound.mine_slot named) careful closing
  unfold State.mine
  rw [here, (quiet f).2]
  cases next with
  | execclose => exact absurd rfl kept
  | _ => rfl

theorem Sound.closeall_round (here : s.pc p = .closeall i)
    (careful : ∀ fp ∈ getf (s.u p) i, Unhurried s fp) (taken : go s p = some t) : Sound t := by
  obtain ⟨mem, cleared⟩ := sound.at here
  unfold go at taken
  simp only [here] at taken
  by_cases more : i < (s.u p).u_nofiles
  · rw [if_pos more] at taken
    cases slot : getf (s.u p) i with
    | none =>
      simp only [slot, some.injEq] at taken
      subst taken
      refine sound.sets_out here nofun (fun _ => ⟨rfl, rfl⟩) (fun _ => ⟨rfl, rfl⟩)
        ⟨mem, fun j before => ?_⟩
      rcases Nat.lt_succ_iff_lt_or_eq.mp before with earlier | rfl
      · exact cleared j earlier
      · exact slot
    | some fp =>
      simp only [slot, some.injEq] at taken
      subst taken
      refine sound.starts_at here nofun (fun _ => ⟨rfl, rfl⟩) nofun mem slot (careful fp slot)
        fun t procs u _ => ?_
      rw [Pc.Ok, procs, u]
      exact ⟨mem, slot, cleared⟩
  · rw [if_neg more] at taken
    cases taken
    refine (sound.rests here nofun fun _ => ⟨rfl, rfl⟩).leaves (update_self _ _ _) fun fd => ?_
    by_contra used
    obtain ⟨f, named⟩ := ne_none_iff_exists'.mp used
    have inside := (sound.tables p).inside named
    exact used (cleared fd (by omega))

theorem Sound.pexit_round (here : s.pc p = .pexit c i)
    (careful : ∀ fp ∈ getf (s.u p) i, Unhurried s fp) (taken : go s p = some t) : Sound t := by
  obtain ⟨mem, child_mem, waits, copies, cleared⟩ := sound.at here
  have apart := apart_of (acts_of here nofun) waits
  unfold go at taken
  simp only [here] at taken
  by_cases more : i < (s.u p).u_nofiles
  · rw [if_pos more] at taken
    cases slot : getf (s.u p) i with
    | none =>
      simp only [slot, some.injEq] at taken
      subst taken
      refine sound.sets_out here nofun (fun _ => ⟨rfl, rfl⟩) (fun _ => ⟨rfl, rfl⟩)
        ⟨mem, child_mem, (update_of_ne apart _ _).trans waits, fun j later => copies j (by omega),
          fun j before => ?_⟩
      rcases Nat.lt_succ_iff_lt_or_eq.mp before with earlier | rfl
      · exact cleared j earlier
      · exact (copies j (le_refl j)).trans slot
    | some fp =>
      simp only [slot, some.injEq] at taken
      subst taken
      refine sound.starts_at here nofun (fun _ => ⟨rfl, rfl⟩) nofun mem slot (careful fp slot)
        fun t procs u pcs => ?_
      rw [Pc.Ok, procs, u]
      exact ⟨mem, child_mem, (pcs c apart).trans waits, slot, copies, cleared⟩
  · rw [if_neg more] at taken
    cases taken
    have gone := (sound.child_rests here nofun (fun _ => ⟨rfl, rfl⟩) waits).leaves (p := c)
      (update_self _ _ _) fun fd => by
        by_contra used
        by_cases before : fd < i
        · exact used (cleared fd before)
        · have same := copies fd (by omega)
          obtain ⟨f, named⟩ := ne_none_iff_exists'.mp used
          have inside := (sound.tables p).inside (same.symm.trans named)
          omega
    have order : (s.exits c).goes p .idle =
        { (s.goes p .idle).goes c .idle with procs := s.procs.erase c } := by
      unfold State.exits State.goes
      simp only
      rw [update_comm apart]
    rw [order]
    exact gone

theorem Sound.close_ends (here : s.pc p = .closing fp n next) :
    s.allocated fp = true ∧ ∃ t, closed s p fp n next = some t ∧ Sound t := by
  obtain ⟨mem, positive, -⟩ := sound.closing_mem here
  have allocated := sound.named mem positive
  have count := (sound.counts fp allocated).1
  have live := sound.live fp allocated
  refine ⟨allocated, ?_⟩
  unfold closed
  by_cases shared : 1 < (s.files fp).f_count
  · rw [if_pos (.inl shared)]
    exact ⟨_, rfl, sound.ends_shared here shared⟩
  · rw [if_neg (by omega), discard, if_pos allocated]
    refine ⟨_, rfl, ?_⟩
    dsimp only
    rw [resume_eq]
    exact sound.ends_last here (by omega) rfl rfl rfl rfl rfl rfl rfl rfl

end

def Round (s : State) (p : Nat) : Pc → Prop
  | .closeall i | .pexit _ i => ∀ fp ∈ getf (s.u p) i, Unhurried s fp
  | _ => True

def Careful (s : State) : Label → Prop
  | .close p fd | .execclose p fd => ∀ fp ∈ getf (s.u p) fd, Unhurried s fp
  | .dup p fd _ _ | .dup2 p fd _ => ∀ fp ∈ getf (s.u p) fd, (s.files fp).f_count < 32767
  | .newproc p _ => ∀ fd < (s.u p).u_nofiles, ∀ fp ∈ getf (s.u p) fd,
      (s.files fp).f_count + slots (s.u p) fp ≤ 32767
  | .go p => Round s p (s.pc p)
  | _ => True

instance : Decidable (Unhurried s fp) := inferInstanceAs (Decidable (_ ∨ _))

instance Round.decidable (s : State) (p : Nat) : (pc : Pc) → Decidable (Round s p pc)
  | .closeall i | .pexit _ i => inferInstanceAs (Decidable (∀ fp ∈ getf (s.u p) i, Unhurried s fp))
  | .idle | .opening .. | .closing .. | .procdup _ | .embryo _ => inferInstanceAs (Decidable True)

instance Careful.decidable (s : State) : (l : Label) → Decidable (Careful s l)
  | .close p fd | .execclose p fd =>
    inferInstanceAs (Decidable (∀ fp ∈ getf (s.u p) fd, Unhurried s fp))
  | .dup p fd _ _ | .dup2 p fd _ =>
      inferInstanceAs (Decidable (∀ fp ∈ getf (s.u p) fd, (s.files fp).f_count < 32767))
  | .newproc p _ =>
      inferInstanceAs (Decidable (∀ fd < (s.u p).u_nofiles, ∀ fp ∈ getf (s.u p) fd,
        (s.files fp).f_count + slots (s.u p) fp ≤ 32767))
  | .go p => Round.decidable s p (s.pc p)
  | .falloc .. | .fassign .. | .opened .. | .unfalloc .. | .exit _ | .procdup .. | .setrlimit .. =>
      inferInstanceAs (Decidable True)

theorem Sound.allocates {fp : Option Fp} (sound : Sound s) (vp : Option Vnode) (flag memory : Nat)
    (mem : p ∈ s.procs) (idle : s.pc p = .idle) (fresh : s.fresh fp = true) :
    Sound (falloc s p vp flag fp memory).1 ∧
      ∀ fd f, (falloc s p vp flag fp memory).2 = .ok (fd, f) →
        (falloc s p vp flag fp memory).1.procs = s.procs ∧
        (falloc s p vp flag fp memory).1.pc = s.pc ∧
        getf ((falloc s p vp flag fp memory).1.u p) fd = some f ∧
        ((falloc s p vp flag fp memory).1.files f).f_count = 1 := by
  have spec := ufalloc_spec (sound.tables p) 0 memory
  unfold falloc
  obtain ⟨u, r, result⟩ : ∃ u r, ufalloc (s.u p) 0 memory = (u, r) := ⟨_, _, rfl⟩
  rw [result] at spec ⊢
  have grown := sound.regrow (p := p) spec.ok spec.same
  cases r with
  | error error => exact ⟨grown, nofun⟩
  | ok fd =>
    cases fp with
    | none => exact ⟨grown, nofun⟩
    | some fp =>
      obtain ⟨lowest, inside, -⟩ := spec.lowest fd rfl
      have unused : getf u fd = none := (spec.same fd).trans lowest.free
      have own : (s.setTable p u).u p = u := update_self _ _ _
      have free : s.allocated fp = false := by simpa [State.fresh] using fresh
      rw [← own] at inside unused
      have made := grown.creates ⟨flag, 1, vp, 0⟩ mem idle inside unused free rfl rfl
      rw [own] at inside
      have table : update (s.setTable p u).u p (setf ((s.setTable p u).u p) fd (some fp)) =
          update s.u p (setf u fd (some fp)) := by
        rw [own]
        exact update_idem _ _ _
      rw [table] at made
      refine ⟨made, fun fd' f same => ?_⟩
      obtain ⟨rfl, rfl⟩ : fd = fd' ∧ fp = f := by simpa using same
      refine ⟨rfl, rfl, ?_, ?_⟩
      · show getf (update s.u p _ p) fd = _
        rw [update_self, spec.ok.getf_setf inside, if_pos rfl]
      · show (update s.files fp _ fp).f_count = 1
        rw [update_self]

theorem Sound.closes (sound : Sound s) (mem : p ∈ s.procs) (idle : s.pc p = .idle)
    (named : getf (s.u p) fd = some fp) (careful : Unhurried s fp) :
    Sound (closef s p fp (.close fd)) ∧
      Sound (closef (s.setTable p (setf (s.u p) fd none)) p fp .execclose) := by
  constructor
  · refine sound.starts_at idle nofun (fun _ => ⟨rfl, rfl⟩) nofun mem named careful
      fun t procs u _ => ?_
    rw [Pc.Ok, procs, u]
    exact ⟨mem, named⟩
  · refine sound.starts idle nofun (fun _ => rfl) (update_ok sound.tables (sound.tables p).setf)
      (fun r other => update_of_ne other _ _) (fun f n => ?_) mem (sound.mine_slot named) careful
      fun t procs u _ => ⟨procs ▸ mem, trivial⟩
    unfold State.mine
    rw [update_self, idle]
    exact sound.slot_cleared named f

theorem unfalloc_eq (single : (s.files fp).f_count = 1) (allocated : s.allocated fp = true) :
    unfalloc s fp = some { s with
      file := s.file.remove fp
      filecnt := s.filecnt - 1
      files := update s.files fp { s.files fp with f_count := 0 }
      allocated := update s.allocated fp false
      ended := .dropped (s.files fp).calls :: s.ended } := by
  have zero : cnt ((s.files fp).f_count - 1) = 0 := by
    rw [single]
    decide
  unfold unfalloc State.setCount discard
  simp [zero, allocated]

theorem Sound.takes_back (sound : Sound s) (mem : p ∈ s.procs) (named : getf (s.u p) fd = some fp)
    (single : (s.files fp).f_count = 1) :
    (s.pc p = .idle → ∀ t, unfalloc s fp = some t → Sound (t.setTable p (setf (t.u p) fd none))) ∧
    (s.pc p = .opening fd fp → ∀ t,
      unfalloc ((s.setTable p (setf (s.u p) fd none)).goes p .idle) fp = some t → Sound t) := by
  have allocated := sound.named mem (sound.mine_slot named)
  constructor
  · intro idle t taken
    rw [unfalloc_eq single allocated] at taken
    cases taken
    refine sound.drops (.inl idle) mem named single rfl rfl rfl rfl
      (fun f other => update_of_ne other _ _) rfl rfl ?_
    exact (update_eq_self_iff.mpr idle.symm).symm
  · intro opening t taken
    rw [unfalloc_eq (s := (s.setTable p (setf (s.u p) fd none)).goes p .idle) single allocated]
      at taken
    cases taken
    exact sound.drops (.inr opening) mem named single rfl rfl rfl rfl
      (fun f other => update_of_ne other _ _) rfl rfl rfl

theorem Sound.opens (sound : Sound s) {vp : Option Vnode} (here : s.pc p = .opening fd fp) :
    Sound { s with
      files := update s.files fp { s.files fp with f_vnode := vp }
      pc := update s.pc p .idle } := by
  have files : ∀ f, (update s.files fp { s.files fp with f_vnode := vp } f).f_count =
      (s.files f).f_count ∧
      (update s.files fp { s.files fp with f_vnode := vp } f).calls = (s.files f).calls := by
    intro f
    by_cases same : f = fp
    · rw [same, update_self]
      exact ⟨rfl, rfl⟩
    · rw [update_of_ne same]
      exact ⟨rfl, rfl⟩
  have idles := sound.rests here nofun fun _ => ⟨rfl, rfl⟩
  refine idles.keeps ⟨rfl, rfl, rfl, rfl⟩ idles.tables files (fun _ => rfl) (fun _ => rfl)
    (fun _ _ _ _ here => here) fun q => ?_
  exact (idles.pcs q).frame (fun _ => rfl) rfl (fun _ _ mem => mem) (fun _ _ => ⟨rfl, fun _ => rfl⟩)
    fun _ f _ => (files f).1

theorem Sound.copies (sound : Sound s) (here : s.pc p = .procdup c) :
    Sound ((s.goes c .idle).goes p .idle) ∧ Sound (s.goes p (.pexit c 0)) := by
  obtain ⟨mem, child_mem, waits, copies⟩ := sound.at here
  have apart := apart_of (acts_of here nofun) waits
  constructor
  · have order : (s.goes c .idle).goes p .idle = (s.goes p .idle).goes c .idle := by
      unfold State.goes
      simp only
      rw [update_comm apart]
    rw [order]
    exact sound.child_rests here nofun (fun _ => ⟨rfl, rfl⟩) waits
  · refine sound.sets_out here nofun (fun _ => ⟨rfl, rfl⟩) (fun _ => ⟨rfl, rfl⟩)
      ⟨mem, child_mem, (update_of_ne apart _ _).trans waits, fun j _ => copies j, ?_⟩
    exact fun j before => absurd before (Nat.not_lt_zero j)

end Fio
