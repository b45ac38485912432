import Svr4.Fio.Closes

/- The steps that give references, and those that leave them alone. -/
namespace Fio
open Function DoublyLinked Counting Option Finset

variable {s t s' : State} {p q r c fd i j : Nat} {fp f : Fp} {u : Table} {next : After} {n : Int}
  {files : Fp → File}

section
variable (sound : Sound s)
include sound

/-- Files get `extra` references that are counted; those that get any are not about to be freed. -/
theorem Sound.grows (extra : Fp → Nat)
    (files : t.file = s.file ∧ t.filecnt = s.filecnt ∧ t.allocated = s.allocated ∧ t.ended =
      s.ended) (tables : ∀ r, (t.u r).Ok)
    (counts : ∀ f, s.allocated f = true → (t.files f).f_count = (s.files f).f_count + extra f ∧
      (t.files f).calls = (s.files f).calls) (refs : ∀ f, t.refs f = s.refs f + extra f)
    (closers : ∀ f, t.closers f = s.closers f)
    (shared : ∀ f, 0 < extra f → s.allocated f = true ∧ s.closers f < s.refs f ∧ s.refs f + extra f
      ≤ 32767) (from_s : ∀ f r m o, t.pc r = .closing f m o → s.pc r = .closing f m o)
    (pcs : ∀ q, PcOk t q) : Sound t := by
  obtain ⟨file, filecnt, alloc, ended⟩ := files
  refine ⟨tables, ?_, ?_, ?_, ?_, pcs, ?_, ?_⟩
  · unfold Filed
    rw [file, filecnt, alloc]
    exact sound.filed
  · intro f live
    rw [alloc] at live
    obtain ⟨count, bound⟩ := sound.counts f live
    rw [(counts f live).1, refs f, count]
    refine ⟨by omega, ?_⟩
    rcases eq_zero_or_pos (extra f) with nothing | more
    · omega
    · exact (shared f more).2.2
  · intro f live
    rw [alloc] at live
    rw [refs f]
    have := sound.live f live
    omega
  · intro f free
    rw [alloc] at free
    rw [refs f]
    rcases eq_zero_or_pos (extra f) with nothing | more
    · have := sound.dead f free
      omega
    · rw [(shared f more).1] at free
      cases free
  · intro f live
    rw [alloc] at live
    obtain ⟨count, calls⟩ := counts f live
    rcases eq_zero_or_pos (extra f) with nothing | more
    · exact (sound.closing f live).frame (by omega) calls (closers f) (from_s f)
    obtain ⟨-, open_file, -⟩ := shared f more
    have total := (sound.counts f live).1
    rcases sound.closing f live with ⟨none_told, few, others⟩ | ⟨-, single, last, -⟩
    · left
      refine ⟨calls.trans none_told, ?_, fun r m o here => others r m o (from_s f r m o here)⟩
      rw [closers f]
      omega
    · omega
  · rw [ended]
    exact sound.ended

theorem Sound.keeps
    (files : t.file = s.file ∧ t.filecnt = s.filecnt ∧ t.allocated = s.allocated ∧ t.ended =
      s.ended) (tables : ∀ r, (t.u r).Ok)
    (counts : ∀ f, (t.files f).f_count = (s.files f).f_count ∧ (t.files f).calls = (s.files
      f).calls) (refs : ∀ f, t.refs f = s.refs f) (closers : ∀ f, t.closers f = s.closers f)
    (from_s : ∀ f r m o, t.pc r = .closing f m o → s.pc r = .closing f m o) (pcs : ∀ q, PcOk t q) :
    Sound t := by
  refine sound.grows (fun _ => 0) files tables (fun f _ => ?_) refs closers ?_ from_s pcs
  · exact ⟨(counts f).1.trans (add_zero _).symm, (counts f).2⟩
  · exact fun f more => absurd more (lt_irrefl 0)

theorem Sound.regrow (ok : u.Ok) (same : ∀ fd, getf u fd = getf (s.u p) fd) :
    Sound (s.setTable p u) := by
  have slot : ∀ q fd, getf ((s.setTable p u).u q) fd = getf (s.u q) fd := by
    intro q fd
    show getf (update s.u p u q) fd = _
    by_cases self : q = p
    · rw [self, update_self, same]
    · rw [update_of_ne self]
  have ok_all : ∀ q, ((s.setTable p u).u q).Ok := update_ok sound.tables ok
  refine sound.keeps ⟨rfl, rfl, rfl, rfl⟩ ok_all (fun _ => ⟨rfl, rfl⟩) (fun f => ?_) (fun _ => rfl)
    (fun _ _ _ _ here => here) fun q => ?_
  · refine refs_same rfl fun q _ => ?_
    unfold State.mine
    rw [slots_congr (sound.tables q) (ok_all q) (slot q)]
    rfl
  · refine (sound.pcs q).frame (slot q) rfl (fun r _ mem => mem) (fun c _ => ⟨rfl, slot c⟩) ?_
    exact fun _ _ _ => rfl

theorem Sound.goes_on {pc : Pc} (acts : ∀ q, s.pc p = .embryo q → s.pc q = .idle)
    (from_pc : ∀ f, (s.pc p).closes f = 0 ∧ (s.pc p).hand f = 0)
    (to_pc : ∀ f, pc.closes f = 0 ∧ pc.hand f = 0) (ok : pc.Ok (s.goes p pc) p) :
    Sound (s.goes p pc) := by
  have other_pc : ∀ q, q ≠ p → (s.goes p pc).pc q = s.pc q := fun q other => update_of_ne other _ _
  have pc_p : (s.goes p pc).pc p = pc := update_self _ _ _
  refine sound.keeps ⟨rfl, rfl, rfl, rfl⟩ sound.tables (fun _ => ⟨rfl, rfl⟩) (fun f => ?_)
    (fun f => ?_) (fun f r m o here => ?_) fun q => ?_
  · refine refs_same rfl fun q _ => ?_
    unfold State.mine
    by_cases self : q = p
    · rw [self, pc_p, (to_pc f).2, (from_pc f).2]
      rfl
    · rw [other_pc q self]
      rfl
  · refine sum_congr rfl fun q _ => ?_
    by_cases self : q = p
    · rw [self, pc_p, (to_pc f).1, (from_pc f).1]
    · rw [other_pc q self]
  · by_cases self : r = p
    · rw [self, pc_p] at here
      have closes := (to_pc f).1
      rw [here] at closes
      simp [Pc.closes] at closes
    · rwa [other_pc r self] at here
  · by_cases self : q = p
    · rw [self, PcOk, pc_p]
      exact ok
    by_cases idle : s.pc q = .idle
    · rw [PcOk, other_pc q self, idle]
      trivial
    · refine (sound.pcs q).frame (fun _ => rfl) (other_pc q self) (fun _ _ mem => mem) ?_
        fun _ _ _ => rfl
      intro c waits
      refine ⟨other_pc c ?_, fun _ => rfl⟩
      rintro rfl
      exact idle (acts q waits)

theorem Sound.sets_out {old pc : Pc} (here : s.pc p = old) (acts : ∀ q, old ≠ .embryo q)
    (from_pc : ∀ f, old.closes f = 0 ∧ old.hand f = 0)
    (to_pc : ∀ f, pc.closes f = 0 ∧ pc.hand f = 0) (ok : pc.Ok (s.goes p pc) p) :
    Sound (s.goes p pc) :=
  sound.goes_on (fun q waits => absurd waits (acts_of here acts q)) (here ▸ from_pc) to_pc ok

theorem Sound.leaves (idle : s.pc p = .idle) (empty : ∀ fd, getf (s.u p) fd = none) :
    Sound { s with procs := s.procs.erase p } := by
  have gone : ∀ f, s.mine f p = 0 := by
    intro f
    unfold State.mine
    rw [slots_empty empty, idle]
    rfl
  refine sound.keeps ⟨rfl, rfl, rfl, rfl⟩ sound.tables (fun _ => ⟨rfl, rfl⟩) (fun f => ?_)
    (fun f => ?_) (fun _ _ _ _ here => here) fun q => ?_
  · exact sum_erase _ (gone f)
  · refine sum_erase _ ?_
    rw [idle]
    rfl
  · by_cases self : q = p
    · unfold PcOk
      rw [self, idle]
      trivial
    refine (sound.pcs q).frame (fun _ => rfl) rfl (fun r which mem => ?_)
      (fun _ _ => ⟨rfl, fun _ => rfl⟩) fun _ _ _ => rfl
    refine mem_erase.mpr ⟨?_, mem⟩
    rintro rfl
    rcases which with same | waits
    · exact self same.symm
    · rw [idle] at waits
      cases waits

theorem Sound.refs_installed (mem : p ∈ s.procs) (inside : fd < (s.u p).u_nofiles)
    (unused : getf (s.u p) fd = none) (tables : t.u = update s.u p (setf (s.u p) fd (some fp)))
    (pcs : t.pc = s.pc) (procs : t.procs = s.procs) (f : Fp) :
    t.refs f = s.refs f + one (fp = f) := by
  have change := refs_change (t := t) f procs mem fun q _ other => by
    unfold State.mine
    rw [tables, update_of_ne other, pcs]
  have slot := slots_change f (o := some fp) (sound.tables p) inside
  rw [unused, one_false (by nofun)] at slot
  simp only [some.injEq] at slot
  unfold State.mine at change
  rw [pcs, tables, update_self] at change
  omega

theorem Sound.installs (mem : p ∈ s.procs) (idle : s.pc p = .idle) (inside : fd < (s.u p).u_nofiles)
    (unused : getf (s.u p) fd = none) (named : getf (s.u p) i = some fp)
    (few : (s.files fp).f_count < 32767) :
    Sound (install s p fd fp) := by
  have positive := sound.mine_slot named
  have live := sound.named mem positive
  obtain ⟨count, bound⟩ := sound.counts fp live
  have no_close : (s.pc p).closes fp = 0 := by
    rw [idle]
    rfl
  have few_closers := sound.closers_lt mem no_close positive
  have files : ∀ f, ((install s p fd fp).files f).f_count = (s.files f).f_count + one (fp = f) ∧
      ((install s p fd fp).files f).calls = (s.files f).calls := by
    intro f
    show (update s.files fp _ f).f_count = _ ∧ (update s.files fp _ f).calls = _
    by_cases same : f = fp
    · subst same
      rw [update_self, one_true rfl]
      exact ⟨cnt_eq (by omega) (by omega), rfl⟩
    · rw [update_of_ne same, one_false (Ne.symm same)]
      exact ⟨(add_zero _).symm, rfl⟩
  refine sound.grows (fun f => one (fp = f)) ⟨rfl, rfl, rfl, rfl⟩
    (update_ok sound.tables (sound.tables p).setf) (fun f _ => files f)
    (sound.refs_installed mem inside unused rfl rfl rfl) (fun _ => rfl) (fun f more => ?_)
    (fun f r m o here => here) fun q => ?_
  · by_cases same : f = fp
    · subst same
      rw [one_true rfl]
      exact ⟨live, few_closers, by omega⟩
    · rw [one_false (Ne.symm same)] at more
      exact absurd more (lt_irrefl 0)
  · by_cases self : q = p
    · show (s.pc q).Ok _ _
      rw [self, idle]
      trivial
    · refine sound.stands (acts_of idle (by simp)) self (fun _ _ => rfl)
        (fun r other => update_of_ne other _ _) rfl fun k f opening => ?_
      rw [(files f).1, one_false]
      · exact add_zero _
      · rintro rfl
        exact sound.opening_apart opening self mem positive

end

theorem share_upto (low : 0 ≤ (files f).f_count) (n : Nat)
    (bound : (files f).f_count + ∑ fd ∈ Finset.range n, one (getf u fd = some f) ≤ 32767) :
    let shared := (List.range n).foldl (fun files n =>
      match getf u n with
      | none => files
      | some fp => update files fp { files fp with f_count := cnt ((files fp).f_count + 1) }) files
    (shared f).f_count = (files f).f_count + ∑ fd ∈ range n, one (getf u fd = some f) ∧
      (shared f).calls = (files f).calls := by
  induction n with
  | zero => exact ⟨(add_zero _).symm, rfl⟩
  | succ n ih =>
    rw [sum_range_succ] at bound ⊢
    obtain ⟨count, calls⟩ := ih (by omega)
    simp only [List.range_succ, List.foldl_append, List.foldl_cons, List.foldl_nil]
    cases slot : getf u n with
    | none => exact ⟨count, calls⟩
    | some fp =>
      rw [slot] at bound
      by_cases same : fp = f
      · subst same
        simp only [update_self, one_true]
        rw [one_true rfl] at bound
        refine ⟨?_, calls⟩
        rw [count, cnt_eq (by omega) (by omega)]
        omega
      · have other : some fp ≠ some f := fun here => same (some.inj here)
        simp only [update_of_ne (Ne.symm same), one_false other]
        exact ⟨count, calls⟩

theorem share_spec (low : 0 ≤ (files f).f_count) (bound : (files f).f_count + slots u f ≤ 32767) :
    (share u files f).f_count = (files f).f_count + slots u f ∧
      (share u files f).calls = (files f).calls :=
  share_upto low u.u_nofiles bound

theorem Sound.shares (sound : Sound s) (mem : p ∈ s.procs) (idle : s.pc p = .idle)
    (new : c ∉ s.procs)
    (few : ∀ fd fp, getf (s.u p) fd = some fp →
      (s.files fp).f_count + slots (s.u p) fp ≤ 32767) : Sound (newproc s p c) := by
  obtain ⟨t, made⟩ : ∃ t, t = newproc s p c := ⟨_, rfl⟩
  rw [← made]
  have old : ∀ q ∈ s.procs, q ≠ c := fun q hq same => new (same ▸ hq)
  have apart := old p mem
  have procs : t.procs = insert c s.procs := by rw [made]; rfl
  have files : t.files = share (s.u p) s.files := by rw [made]; rfl
  have other_table : ∀ q, q ≠ c → t.u q = s.u q := by
    intro q other
    rw [made]
    exact update_of_ne other _ _
  have child_table : t.u c = s.u p := by
    rw [made]
    exact update_self _ _ _
  have pc_p : t.pc p = .procdup c := by
    rw [made]
    exact update_self _ _ _
  have pc_c : t.pc c = .embryo p := by
    rw [made]
    show update (update s.pc c _) p _ c = _
    rw [update_of_ne (Ne.symm apart), update_self]
  have other_pc : ∀ q, q ≠ p → q ≠ c → t.pc q = s.pc q := by
    intro q not_p not_c
    rw [made]
    show update (update s.pc c _) p _ q = _
    rw [update_of_ne not_p, update_of_ne not_c]
  have child_idle : s.pc c = .idle := by
    cases shape : s.pc c with
    | idle => rfl
    | embryo r => exact absurd (sound.at shape) new
    | _ => exact absurd (sound.at shape).1 new
  have within : ∀ f, 0 < slots (s.u p) f → ∃ fd, getf (s.u p) fd = some f := by
    intro f more
    by_contra nowhere
    push Not at nowhere
    have nothing : slots (s.u p) f = 0 := sum_eq_zero fun fd _ => one_false (nowhere fd)
    omega
  have count : ∀ f, s.allocated f = true →
      (t.files f).f_count = (s.files f).f_count + slots (s.u p) f ∧
        (t.files f).calls = (s.files f).calls := by
    intro f live
    obtain ⟨count, bound⟩ := sound.counts f live
    rw [files]
    refine share_spec (by omega) ?_
    rcases eq_zero_or_pos (slots (s.u p) f) with nothing | more
    · omega
    · obtain ⟨fd, named⟩ := within f more
      exact few fd f named
  refine sound.grows (slots (s.u p)) ?_ (fun r => ?_) count (fun f => ?_) (fun f => ?_)
    (fun f more => ?_) (fun f r m o here => ?_) fun q => ?_
  · rw [made]
    exact ⟨rfl, rfl, rfl, rfl⟩
  · by_cases self : r = c
    · rw [self, child_table]
      exact sound.tables p
    · rw [other_table r self]
      exact sound.tables r
  · unfold State.refs
    rw [procs, sum_insert new, add_comm]
    congr 1
    · refine sum_congr rfl fun q hq => ?_
      unfold State.mine
      rw [other_table q (old q hq)]
      by_cases self : q = p
      · rw [self, pc_p, idle]
        rfl
      · rw [other_pc q self (old q hq)]
    · unfold State.mine
      rw [child_table, pc_c]
      rfl
  · unfold State.closers
    rw [procs, sum_insert new, pc_c]
    show 0 + _ = _
    rw [zero_add]
    refine sum_congr rfl fun q hq => ?_
    by_cases self : q = p
    · rw [self, pc_p, idle]
      rfl
    · rw [other_pc q self (old q hq)]
  · obtain ⟨fd, named⟩ := within f more
    have positive := sound.mine_slot named
    have live := sound.named mem positive
    have total := few fd f named
    have counts := (sound.counts f live).1
    refine ⟨live, sound.closers_lt mem ?_ positive, by omega⟩
    rw [idle]
    rfl
  · by_cases not_p : r = p
    · rw [not_p, pc_p] at here
      cases here
    by_cases not_c : r = c
    · rw [not_c, pc_c] at here
      cases here
    · rwa [other_pc r not_p not_c] at here
  · by_cases not_p : q = p
    · rw [PcOk, not_p, pc_p, Pc.Ok, procs]
      refine ⟨mem_insert_of_mem mem, mem_insert_self _ _, pc_c, fun j => ?_⟩
      rw [child_table, other_table p apart]
    by_cases not_c : q = c
    · rw [PcOk, not_c, pc_c, Pc.Ok, procs]
      exact mem_insert_self _ _
    refine (sound.pcs q).frame (fun _ => by rw [other_table q not_c])
      (other_pc q not_p not_c) (fun r _ hr => procs ▸ mem_insert_of_mem hr)
      (fun e waits => ?_) fun k f opening => ?_
    · have e_not_c := apart_of (acts_of child_idle (by simp)) waits
      exact ⟨other_pc e (apart_of (acts_of idle (by simp)) waits) e_not_c,
        fun _ => by rw [other_table e e_not_c]⟩
    · obtain ⟨q_mem, q_named, -⟩ := sound.at opening
      rw [(count f (sound.named q_mem (sound.mine_slot q_named))).1]
      rcases eq_zero_or_pos (slots (s.u p) f) with nothing | more
      · omega
      · obtain ⟨fd, named⟩ := within f more
        exact (sound.opening_apart opening not_p mem (sound.mine_slot named)).elim

theorem Sound.unheard (sound : Sound s) (free : s.allocated f = false) :
    s.closers f = 0 ∧ ∀ r m o, s.pc r ≠ .closing f m o := by
  have nothing := sound.dead f free
  have few : s.closers f ≤ s.refs f :=
    sum_le_sum fun p _ => closes_le (sound.tables p) (sound.pcs p) f
  refine ⟨by omega, fun r m o here => ?_⟩
  have := (sound.closing_mem here).2.2
  omega

theorem Sound.creates (sound : Sound s) (file : File) (mem : p ∈ s.procs) (idle : s.pc p = .idle)
    (inside : fd < (s.u p).u_nofiles) (unused : getf (s.u p) fd = none)
    (free : s.allocated fp = false) (count : file.f_count = 1) (calls : file.calls = 0) :
    Sound { s with
      file := s.file.pushFront fp
      filecnt := s.filecnt + 1
      u := update s.u p (setf (s.u p) fd (some fp))
      files := update s.files fp file
      allocated := update s.allocated fp true } := by
  obtain ⟨t, made⟩ : ∃ t : State, t = { s with
      file := s.file.pushFront fp
      filecnt := s.filecnt + 1
      u := update s.u p (setf (s.u p) fd (some fp))
      files := update s.files fp file
      allocated := update s.allocated fp true } := ⟨_, rfl⟩
  rw [← made]
  have tables : t.u = update s.u p (setf (s.u p) fd (some fp)) := by rw [made]
  have pcs : t.pc = s.pc := by rw [made]
  have procs : t.procs = s.procs := by rw [made]
  have alloc : t.allocated = update s.allocated fp true := by rw [made]
  have this_file : t.files fp = file := by
    rw [made]
    exact update_self _ _ _
  have other_files : ∀ f, f ≠ fp → t.files f = s.files f := by
    intro f other
    rw [made]
    exact update_of_ne other _ _
  have refs := sound.refs_installed mem inside unused tables pcs procs
  have closers : ∀ f, t.closers f = s.closers f := by
    intro f
    unfold State.closers
    rw [procs, pcs]
  obtain ⟨no_closer, nobody⟩ := sound.unheard free
  have nothing := sound.dead fp free
  have before : ∀ f, f ≠ fp → t.allocated f = s.allocated f := by
    intro f other
    rw [alloc, update_of_ne other]
  refine ⟨tables ▸ update_ok sound.tables (sound.tables p).setf, ?_, fun f live => ?_,
    fun f live => ?_, fun f dead => ?_, fun q => ?_, fun f live => ?_, ?_⟩
  · obtain ⟨xs, holds, length, members⟩ := sound.filed
    have off : fp ∉ xs := by
      intro here
      rw [(members fp).mpr here] at free
      cases free
    rw [made]
    refine ⟨fp :: xs, holds.pushFront_ok off, by simp [length], fun f => ?_⟩
    by_cases same : f = fp
    · simp [same]
    · simp [same, members f]
  · have total := refs f
    by_cases same : f = fp
    · subst same
      rw [one_true rfl] at total
      rw [this_file, count]
      omega
    · rw [one_false (Ne.symm same)] at total
      rw [before f same] at live
      rw [other_files f same, total]
      exact sound.counts f live
  · rw [refs f]
    by_cases same : f = fp
    · rw [one_true same.symm]
      omega
    · rw [before f same] at live
      have := sound.live f live
      omega
  · have other : f ≠ fp := by
      rintro rfl
      rw [alloc, update_self] at dead
      cases dead
    rw [before f other] at dead
    rw [refs f, one_false (Ne.symm other)]
    exact sound.dead f dead
  · by_cases self : q = p
    · rw [PcOk, self, pcs, idle]
      trivial
    · refine sound.stands (acts_of idle (by simp)) self (fun _ _ => by rw [pcs])
        (fun r other => by rw [tables, update_of_ne other]) procs fun k f opening => ?_
      rw [other_files f]
      rintro rfl
      obtain ⟨q_mem, q_named, -⟩ := sound.at opening
      rw [sound.named q_mem (sound.mine_slot q_named)] at free
      cases free
  · by_cases same : f = fp
    · subst same
      left
      rw [this_file, calls, count, closers, no_closer]
      refine ⟨rfl, by omega, fun r m o here => ?_⟩
      rw [pcs] at here
      exact absurd here (nobody r m o)
    · rw [before f same] at live
      refine (sound.closing f live).frame (by rw [other_files f same]) (by rw [other_files f same])
        (closers f) fun r m o here => ?_
      rwa [pcs] at here
  · rw [made]
    exact sound.ended

theorem Sound.drops (sound : Sound s) (from_pc : s.pc p = .idle ∨ s.pc p = .opening fd fp)
    (mem : p ∈ s.procs) (named : getf (s.u p) fd = some fp) (single : (s.files fp).f_count = 1)
    (file : t.file = s.file.remove fp) (filecnt : t.filecnt = s.filecnt - 1)
    (alloc : t.allocated = update s.allocated fp false)
    (ended : t.ended = .dropped (s.files fp).calls :: s.ended)
    (files : ∀ f, f ≠ fp → t.files f = s.files f) (procs : t.procs = s.procs)
    (tables : t.u = update s.u p (setf (s.u p) fd none)) (pcs : t.pc = update s.pc p .idle) :
    Sound t := by
  have positive := sound.mine_slot named
  have allocated := sound.named mem positive
  obtain ⟨quiet, acts⟩ : (∀ f, (s.pc p).closes f = 0 ∧ (s.pc p).hand f = 0) ∧ s.acts p := by
    rcases from_pc with here | here
    · exact ⟨by rw [here]; exact fun _ => ⟨rfl, rfl⟩, acts_of here (by simp)⟩
    · exact ⟨by rw [here]; exact fun _ => ⟨rfl, rfl⟩, acts_of here (by simp)⟩
  have few := sound.closers_lt mem (quiet fp).1 positive
  have count := (sound.counts fp allocated).1
  have pc_p : t.pc p = .idle := by rw [pcs, update_self]
  have pc_other : ∀ q, q ≠ p → t.pc q = s.pc q := fun q other => by rw [pcs, update_of_ne other]
  have table_other : ∀ q, q ≠ p → t.u q = s.u q := fun q other => by
    rw [tables, update_of_ne other]
  refine sound.frees allocated single file filecnt alloc files
    (tables ▸ update_ok sound.tables (sound.tables p).setf) (fun f => ?_) (fun f _ => ?_)
    (fun f r m o here => ?_) (fun q => ?_) ?_
  · have change := refs_change (t := t) f procs mem fun q _ other => by
      unfold State.mine
      rw [table_other q other, pc_other q other]
    have slot := sound.slot_cleared named f
    unfold State.mine at change
    rw [pc_p, tables, update_self, (quiet f).2] at change
    have hand : Pc.idle.hand f = 0 := rfl
    omega
  · have change := closers_change procs mem (fun q _ other => pc_other q other) f
    rw [pc_p, (quiet f).1] at change
    exact change
  · by_cases self : r = p
    · rw [self, pc_p] at here
      cases here
    · rwa [pc_other r self] at here
  · by_cases self : q = p
    · rw [PcOk, self, pc_p]
      trivial
    · refine sound.stands acts self pc_other table_other procs fun k f opening => ?_
      rw [files f]
      rintro rfl
      exact sound.opening_apart opening self mem positive
  · rw [ended]
    intro e mem
    rcases List.mem_cons.mp mem with rfl | mem
    · rcases sound.closing fp allocated with ⟨none_told, -, -⟩ | ⟨-, closer, -, -⟩
      · exact none_told
      · omega
    · exact sound.ended e mem

end Fio
