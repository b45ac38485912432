import Svr4.Fio.Counts

/- The beginning and the end of a close. -/
namespace Fio
open Function DoublyLinked Counting

variable {s t s' : State} {p q r c fd i j : Nat} {fp f : Fp} {u : Table} {next : After} {n : Int}

def State.acts (s : State) (p : Nat) : Prop := ∀ r, s.pc p ≠ .embryo r

/-- A close that begins is of the last reference, or somebody else has one that is not being closed.
-/
def Unhurried (s : State) (fp : Fp) : Prop :=
  (s.files fp).f_count = 1 ∨ (s.closers fp : Int) + 1 < (s.files fp).f_count

theorem cnt_eq (low : -32768 ≤ n) (high : n ≤ 32767) : cnt n = n := by
  unfold cnt
  omega

theorem Sound.closing_mem (sound : Sound s) (here : s.pc p = .closing fp n next) :
    p ∈ s.procs ∧ 0 < s.mine fp p ∧ 0 < s.closers fp := by
  have mem := (sound.at here).1
  have own : (s.pc p).closes fp = 1 := by simp [here, Pc.closes]
  have mine := closes_le (sound.tables p) (sound.pcs p) fp
  have part := term_le (f := fun p => (s.pc p).closes fp) mem
  rw [own] at mine part
  exact ⟨mem, mine, part⟩

theorem apart_of (acts : s.acts p) (waits : s.pc c = .embryo q) : c ≠ p := by
  rintro rfl
  exact acts q waits

theorem acts_of {pc : Pc} (here : s.pc p = pc) (waits : ∀ r, pc ≠ .embryo r) : s.acts p :=
  fun r embryo => waits r (here.symm.trans embryo)

theorem Sound.begins (sound : Sound s) {table : Nat → Table} (mem : p ∈ s.procs)
    (acts : s.acts p) (quiet : ∀ f, (s.pc p).closes f = 0) (tables : ∀ r, (table r).Ok)
    (others : ∀ r, r ≠ p → table r = s.u r)
    (mine : ∀ f, slots (table p) f + (Pc.closing fp n next).hand f = s.mine f p)
    (named : 0 < s.mine fp p) (count : (s.files fp).f_count = n) (careful : Unhurried s fp)
    (made : t = { s with
      u := table
      files := update s.files fp { s.files fp with calls := (s.files fp).calls + one (n = 1) }
      pc := update s.pc p (.closing fp n next) })
    (here : (Pc.closing fp n next).Ok t p) : Sound t := by
  have pc_p : t.pc p = .closing fp n next := by
    rw [made]
    exact update_self _ _ _
  have pcs : ∀ q, q ≠ p → t.pc q = s.pc q := fun q other => by
    rw [made]
    exact update_of_ne other _ _
  have table_eq : ∀ q, q ≠ p → t.u q = s.u q := fun q other => by
    rw [made]
    exact others q other
  have procs : t.procs = s.procs := by rw [made]
  have alloc : t.allocated = s.allocated := by rw [made]
  have counts : ∀ f, (t.files f).f_count = (s.files f).f_count ∧
      (t.files f).calls = (s.files f).calls + if f = fp then one (n = 1) else 0 := by
    intro f
    rw [made]
    by_cases same : f = fp
    · subst same
      simp
    · simp [same]
  have refs : ∀ f, t.refs f = s.refs f := by
    intro f
    refine refs_same procs fun q _ => ?_
    by_cases self : q = p
    · subst self
      rw [← mine f, State.mine, pc_p, made]
    · unfold State.mine
      rw [pcs q self, table_eq q self]
  have closers : ∀ f, t.closers f = s.closers f + one (fp = f) := by
    intro f
    have change := closers_change procs mem (fun q _ other => pcs q other) f
    rw [quiet f, pc_p] at change
    exact change
  have closing : ∀ f r m o, t.pc r = .closing f m o →
      s.pc r = .closing f m o ∨ f = fp ∧ m = n := by
    intro f r m o here
    by_cases self : r = p
    · rw [self, pc_p] at here
      cases here
      exact .inr ⟨rfl, rfl⟩
    · exact .inl ((pcs r self).symm.trans here)
  refine ⟨?_, ?_, ?_, ?_, ?_, ?_, ?_, ?_⟩
  · rw [made]
    exact tables
  · rw [made]
    exact sound.filed
  · intro f live
    rw [(counts f).1, refs]
    exact sound.counts f (alloc ▸ live)
  · intro f live
    rw [refs]
    exact sound.live f (alloc ▸ live)
  · intro f free
    rw [refs]
    exact sound.dead f (alloc ▸ free)
  · intro q
    by_cases self : q = p
    · rw [self, PcOk, pc_p]
      exact here
    · exact sound.stands acts self pcs table_eq procs fun _ f _ => (counts f).1
  · intro f live
    rw [alloc] at live
    have grown := closers f
    obtain ⟨same_count, calls⟩ := counts f
    by_cases same : f = fp
    · subst same
      have few := sound.closers_lt mem (quiet f) named
      have total := (sound.counts f live).1
      rw [one_true rfl] at grown
      rw [if_pos rfl] at calls
      rcases sound.closing f live with ⟨none_told, -, others⟩ | ⟨-, single, last, -⟩
      · by_cases last : n = 1
        · right
          refine ⟨?_, by omega, same_count.trans (count.trans last), fun r m o here => ?_⟩
          · rw [calls, none_told, one_true last]
          · rcases closing f r m o here with before | ⟨-, now⟩
            · have := (sound.closing_mem before).2.2
              omega
            · exact now.trans last
        · left
          refine ⟨?_, ?_, fun r m o here => ?_⟩
          · rw [calls, none_told, one_false last]
          · rw [same_count, grown]
            rcases careful with one_left | more
            · exact absurd (count.symm.trans one_left) last
            · omega
          · rcases closing f r m o here with before | ⟨-, now⟩
            · exact others r m o before
            · exact now ▸ last
      · omega
    · rw [one_false (Ne.symm same)] at grown
      rw [if_neg same] at calls
      refine (sound.closing f live).frame same_count calls grown fun r m o here => ?_
      rcases closing f r m o here with before | ⟨now, -⟩
      · exact before
      · exact absurd now same
  · rw [made]
    exact sound.ended

def After.owner (p : Nat) : After → Nat
  | .pexit c _ => c
  | _ => p

def After.pc : After → Pc
  | .close _ => .idle
  | .execclose => .idle
  | .closeall i => .closeall (i + 1)
  | .pexit c i => .pexit c (i + 1)

def After.table (u : Nat → Table) (p : Nat) : After → Nat → Table
  | .close fd => update u p (setf (u p) fd none)
  | .execclose => u
  | .closeall i => update u p (setf (u p) i none)
  | .pexit c i => update u c (setf (u c) i none)

theorem resume_eq : resume s p next =
    { s with u := next.table s.u p, pc := update s.pc p next.pc } := by
  cases next
  all_goals rfl

theorem table_ok (tables : ∀ r, (s.u r).Ok) (r : Nat) : (next.table s.u p r).Ok := by
  cases next with
  | close fd => exact update_ok tables (tables p).setf r
  | execclose => exact tables r
  | closeall i => exact update_ok tables (tables p).setf r
  | pexit c i => exact update_ok tables (tables c).setf r

theorem table_other (other : r ≠ next.owner p) : next.table s.u p r = s.u r := by
  cases next with
  | close fd | closeall i | pexit c i => exact update_of_ne other _ _
  | execclose => rfl

@[simp] theorem after_closes : next.pc.closes f = 0 := by cases next <;> rfl

@[simp] theorem after_hand : next.pc.hand f = 0 := by cases next <;> rfl

section
variable (sound : Sound s) (here : s.pc p = .closing fp n next) (tables : t.u = next.table s.u p)
  (pcs : t.pc = update s.pc p next.pc) (procs : t.procs = s.procs)
include sound here tables pcs procs

/-- The reference that was being closed is gone, and with it the close. -/
structure GivesUp (s t : State) (fp : Fp) : Prop where
  refs : ∀ f, t.refs f + one (fp = f) = s.refs f
  closers : ∀ f, t.closers f + one (fp = f) = s.closers f
  closing : ∀ f r m o, t.pc r = .closing f m o → s.pc r = .closing f m o

theorem Sound.refs_closed (f : Fp) : t.refs f + one (fp = f) = s.refs f := by
  obtain ⟨mem, ok⟩ := sound.at here
  have other : ∀ q, q ≠ p → (t.pc q).hand f = (s.pc q).hand f := fun q other => by
    rw [pcs, update_of_ne other]
  have now : (t.pc p).hand f = 0 := by rw [pcs, update_self, after_hand]
  have by_slot : ∀ o i, o ∈ s.procs → getf (s.u o) i = some fp →
      t.u = update s.u o (setf (s.u o) i none) → (s.pc p).hand f = 0 →
      t.refs f + one (fp = f) = s.refs f := by
    intro o i o_mem named tables was
    have hand : ∀ q, (t.pc q).hand f = (s.pc q).hand f := by
      intro q
      by_cases self : q = p
      · rw [self, now, was]
      · exact other q self
    have change := refs_change f procs o_mem fun q _ away => by
      unfold State.mine
      rw [hand, tables, update_of_ne away]
    have slot := sound.slot_cleared named f
    unfold State.mine at change
    rw [hand, tables, update_self] at change
    omega
  cases next with
  | close fd => exact by_slot p fd mem ok tables (by rw [here]; rfl)
  | closeall i => exact by_slot p i mem ok.1 tables (by rw [here]; rfl)
  | pexit c i =>
    obtain ⟨child_mem, -, named, copies, -⟩ := ok
    exact by_slot c i child_mem ((copies i (le_refl i)).trans named) tables (by rw [here]; rfl)
  | execclose =>
    have change := refs_change f procs mem fun q _ away => by
      unfold State.mine
      rw [other q away, tables]
      rfl
    unfold State.mine at change
    rw [now, here, tables] at change
    have hand : (Pc.closing fp n .execclose).hand f = one (fp = f) := rfl
    have same : After.execclose.table s.u p p = s.u p := rfl
    rw [same] at change
    omega

theorem Sound.gives_up : GivesUp s t fp := by
  refine ⟨sound.refs_closed here tables pcs procs, fun f => ?_, fun f r m o closing => ?_⟩
  · have change := closers_change procs (sound.at here).1
      (fun q _ other => by rw [pcs, update_of_ne other]) f
    rw [pcs, update_self, after_closes, here] at change
    exact change
  · by_cases self : r = p
    · subst self
      rw [pcs, update_self] at closing
      cases next <;> cases closing
    · rwa [pcs, update_of_ne self] at closing

theorem Sound.after_close
    (counts : ∀ f, f ≠ fp → (t.files f).f_count = (s.files f).f_count) (q : Nat) : PcOk t q := by
  have positive := (sound.closing_mem here).2.1
  obtain ⟨mem, ok⟩ := sound.at here
  have acts : s.acts p := acts_of here nofun
  have pc_other : ∀ q, q ≠ p → t.pc q = s.pc q := fun q other => by rw [pcs, update_of_ne other]
  by_cases self : q = p
  · subst self
    rw [PcOk, pcs, update_self]
    cases next with
    | close fd => trivial
    | execclose => trivial
    | closeall i =>
      refine ⟨procs ▸ mem, fun j before => ?_⟩
      have read : getf (setf (s.u q) i none) j = _ :=
        (sound.tables q).getf_setf ((sound.tables q).inside ok.1) j
      rw [tables]
      show getf (update s.u q _ q) j = none
      rw [update_self, read]
      split
      · rfl
      · exact ok.2 j (by omega)
    | pexit c i =>
      obtain ⟨child_mem, waits, named, copies, cleared⟩ := ok
      have apart := apart_of acts waits
      have own : t.u q = s.u q := by
        rw [tables]
        exact update_of_ne (Ne.symm apart) _ _
      have inside := (sound.tables c).inside ((copies i (le_refl i)).trans named)
      have slot : ∀ j, getf (t.u c) j = if j = i then none else getf (s.u c) j := by
        intro j
        have read : getf (setf (s.u c) i none) j = _ := (sound.tables c).getf_setf inside j
        rw [tables]
        simpa [After.table] using read
      refine ⟨procs ▸ mem, procs ▸ child_mem, (pc_other c apart).trans waits, ?_, ?_⟩
      · intro j later
        rw [slot, if_neg (by omega), own, copies j (by omega)]
      · intro j before
        rw [slot]
        split
        · rfl
        · exact cleared j (by omega)
  · by_cases waits : s.pc q = .embryo p
    · rw [PcOk, pc_other q self, waits]
      show q ∈ t.procs
      exact procs ▸ sound.at waits
    -- the table of a child that waits for `q` is not touched
    have away : ∀ r, r = q ∨ s.pc r = .embryo q → r ≠ p → t.u r = s.u r := by
      intro r which other
      rw [tables]
      refine table_other ?_
      intro same
      cases next with
      | pexit c i =>
        obtain ⟨-, waits', -, -, -⟩ := ok
        obtain rfl : r = c := same
        rcases which with rfl | child
        · exact waits waits'
        · rw [waits'] at child
          exact self (by simpa using child.symm)
      | close fd | execclose | closeall i => exact other same
    refine (sound.pcs q).frame (fun fd => by rw [away q (.inl rfl) self]) (pc_other q self)
      (fun r _ hr => procs ▸ hr) (fun r child => ?_) fun fd f opening => counts f ?_
    · have other := apart_of acts child
      exact ⟨pc_other r other, fun fd => by rw [away r (.inr child) other]⟩
    · rintro rfl
      exact sound.opening_apart opening self mem positive

end

theorem Filed.removes (filed : Filed s) (allocated : s.allocated fp = true)
    (file : t.file = s.file.remove fp) (filecnt : t.filecnt = s.filecnt - 1)
    (alloc : t.allocated = update s.allocated fp false) : Filed t := by
  unfold Filed
  rw [file, filecnt, alloc]
  obtain ⟨xs, holds, length, members⟩ := filed
  obtain ⟨as, bs, split⟩ := List.append_of_mem ((members fp).mp allocated)
  subst split
  have nodup := holds.nodup
  rw [List.nodup_middle, List.nodup_cons] at nodup
  refine ⟨as ++ bs, holds.remove_ok, ?_, fun f => ?_⟩
  · rw [length]
    simp
  · by_cases same : f = fp
    · subst same
      simpa using nodup.1
    · rw [update_of_ne same, members]
      simp [same]

/-- A file goes with its only reference. -/
theorem Sound.frees (sound : Sound s) (allocated : s.allocated fp = true)
    (single : (s.files fp).f_count = 1) (file : t.file = s.file.remove fp)
    (filecnt : t.filecnt = s.filecnt - 1) (alloc : t.allocated = update s.allocated fp false)
    (files : ∀ f, f ≠ fp → t.files f = s.files f) (tables : ∀ r, (t.u r).Ok)
    (refs : ∀ f, t.refs f + one (fp = f) = s.refs f)
    (closers : ∀ f, f ≠ fp → t.closers f = s.closers f)
    (closing : ∀ f r m o, t.pc r = .closing f m o → s.pc r = .closing f m o)
    (pcs : ∀ q, PcOk t q) (ended : ∀ e ∈ t.ended, e.Right) : Sound t := by
  have still : ∀ f, t.allocated f = true → f ≠ fp ∧ s.allocated f = true := by
    intro f live
    rw [alloc] at live
    by_cases same : f = fp
    · subst same
      simp at live
    · exact ⟨same, by simpa [same] using live⟩
  have same_refs : ∀ f, f ≠ fp → t.refs f = s.refs f := by
    intro f other
    have total := refs f
    rw [one_false (Ne.symm other)] at total
    exact total
  refine ⟨tables, sound.filed.removes allocated file filecnt alloc, fun f live => ?_,
    fun f live => ?_, fun f free => ?_, pcs, fun f live => ?_, ended⟩
  · obtain ⟨other, live⟩ := still f live
    rw [files f other, same_refs f other]
    exact sound.counts f live
  · obtain ⟨other, live⟩ := still f live
    rw [same_refs f other]
    exact sound.live f live
  · by_cases same : f = fp
    · subst same
      have total := refs f
      have count := (sound.counts f allocated).1
      rw [one_true rfl] at total
      omega
    · rw [same_refs f same]
      rw [alloc, update_of_ne same] at free
      exact sound.dead f free
  · obtain ⟨other, live⟩ := still f live
    exact (sound.closing f live).frame (by rw [files f other]) (by rw [files f other])
      (closers f other) (closing f)

theorem GivesUp.closers_other (gives : GivesUp s t fp) (other : f ≠ fp) :
    t.closers f = s.closers f := by
  have total := gives.closers f
  rw [one_false (Ne.symm other)] at total
  exact total

theorem Sound.ends_shared (sound : Sound s) (here : s.pc p = .closing fp n next)
    (shared : 1 < (s.files fp).f_count) :
    Sound (resume (s.setCount fp ((s.files fp).f_count - 1)) p next) := by
  obtain ⟨t, made⟩ : ∃ t, t = resume (s.setCount fp ((s.files fp).f_count - 1)) p next := ⟨_, rfl⟩
  rw [← made]
  rw [resume_eq] at made
  have tables : t.u = next.table s.u p := by rw [made]; rfl
  have pcs : t.pc = update s.pc p next.pc := by rw [made]; rfl
  have procs : t.procs = s.procs := by rw [made]; rfl
  have alloc : t.allocated = s.allocated := by rw [made]; rfl
  obtain ⟨refs, closers, closing⟩ := sound.gives_up here tables pcs procs
  obtain ⟨mem, positive, -⟩ := sound.closing_mem here
  have allocated := sound.named mem positive
  obtain ⟨count, bound⟩ := sound.counts fp allocated
  have now : (t.files fp).f_count = (s.files fp).f_count - 1 ∧
      (t.files fp).calls = (s.files fp).calls := by
    rw [made]
    show (update s.files fp _ fp).f_count = _ ∧ (update s.files fp _ fp).calls = _
    rw [update_self]
    exact ⟨cnt_eq (by omega) (by omega), rfl⟩
  have other_files : ∀ f, f ≠ fp → t.files f = s.files f := by
    intro f other
    rw [made]
    exact update_of_ne other _ _
  refine ⟨?_, ?_, ?_, ?_, ?_, ?_, ?_, ?_⟩
  · rw [tables]
    exact table_ok sound.tables
  · rw [made]
    exact sound.filed
  · intro f live
    rw [alloc] at live
    have total := refs f
    by_cases same : f = fp
    · subst same
      rw [one_true rfl] at total
      exact ⟨by omega, by omega⟩
    · rw [one_false (Ne.symm same)] at total
      rw [other_files f same, show t.refs f = s.refs f by omega]
      exact sound.counts f live
  · intro f live
    rw [alloc] at live
    have total := refs f
    by_cases same : f = fp
    · subst same
      rw [one_true rfl] at total
      omega
    · rw [one_false (Ne.symm same)] at total
      have := sound.live f live
      omega
  · intro f free
    rw [alloc] at free
    have total := refs f
    have := sound.dead f free
    omega
  · exact sound.after_close here tables pcs procs fun f other => by rw [other_files f other]
  · intro f live
    rw [alloc] at live
    have total := closers f
    by_cases same : f = fp
    · subst same
      rw [one_true rfl] at total
      left
      rcases sound.closing f live with ⟨none_told, few, others⟩ | ⟨-, -, last, -⟩
      · refine ⟨now.2.trans none_told, by omega, fun r m o ends => ?_⟩
        exact others r m o (closing f r m o ends)
      · omega
    · rw [one_false (Ne.symm same)] at total
      exact (sound.closing f live).frame (by rw [other_files f same]) (by rw [other_files f same])
        total (closing f)
  · rw [made]
    exact sound.ended

theorem Sound.ends_last (sound : Sound s) (here : s.pc p = .closing fp n next)
    (last : (s.files fp).f_count = 1) (file : t.file = s.file.remove fp)
    (filecnt : t.filecnt = s.filecnt - 1) (alloc : t.allocated = update s.allocated fp false)
    (files : t.files = s.files) (tables : t.u = next.table s.u p)
    (pcs : t.pc = update s.pc p next.pc) (procs : t.procs = s.procs)
    (ended : t.ended = .closed (s.files fp).calls n :: s.ended) : Sound t := by
  obtain ⟨mem, positive, some_closer⟩ := sound.closing_mem here
  have allocated := sound.named mem positive
  have gives := sound.gives_up here tables pcs procs
  refine sound.frees allocated last file filecnt alloc (fun f _ => by rw [files])
    (tables ▸ table_ok sound.tables) gives.refs (fun f other => gives.closers_other other)
    gives.closing (sound.after_close here tables pcs procs fun f _ => by rw [files]) ?_
  rw [ended]
  intro e mem
  rcases List.mem_cons.mp mem with rfl | mem
  · rcases sound.closing fp allocated with ⟨-, few, -⟩ | ⟨told, -, -, others⟩
    · omega
    · exact ⟨told, others p n next here⟩
  · exact sound.ended e mem

end Fio
