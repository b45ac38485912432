import Svr4.Pgrp.Calls

/- Which groups are orphaned, and which calls leave the marks as they should be. -/
namespace Pgrp
open Function List

variable {s t : State} {p q g sp pp cp : Nat} {T : Prop}

def Live (s : State) (m : Nat) : Prop := (s.procs m).p_stat ≠ .SZOMB

instance (s : State) (m : Nat) : Decidable (Live s m) := inferInstanceAs (Decidable (_ ≠ _))

def LiveLink (s : State) (g : Nat) : Prop :=
  ∃ m ∈ (s.pids g).pid_pglink, Live s m ∧ pglinked s.procs m = true

instance (s : State) (g : Nat) : Decidable (LiveLink s g) :=
  inferInstanceAs (Decidable (∃ _ ∈ _, _))

/-- The groups that have members are marked if and only if they are orphaned. -/
def Right (s : State) : Prop :=
  ∀ g, (s.pids g).pid_pglink ≠ [] → ((s.pids g).pid_pgorphaned = true ↔ ¬ LiveLink s g)

def Independent (s : State) (p g : Nat) : Prop :=
  ∃ m ∈ (s.pids g).pid_pglink,
    m ≠ p ∧ (s.procs m).p_parent ≠ some p ∧ Live s m ∧ pglinked s.procs m = true

def ZombieLink (s : State) (p g : Nat) : Prop :=
  ∃ m ∈ (s.pids g).pid_pglink,
    m ≠ p ∧ (s.procs m).p_parent ≠ some p ∧ ¬ Live s m ∧ pglinked s.procs m = true

instance (s : State) (p g : Nat) : Decidable (Independent s p g) :=
  inferInstanceAs (Decidable (∃ _ ∈ _, _))

instance (s : State) (p g : Nat) : Decidable (ZombieLink s p g) :=
  inferInstanceAs (Decidable (∃ _ ∈ _, _))

def LinkedApart (s : State) (p m : Nat) : Prop :=
  if (s.procs m).p_parent = some p then (s.procs p).p_sessp = (s.procs m).p_sessp
  else pglinked s.procs m = true

instance (s : State) (p m : Nat) : Decidable (LinkedApart s p m) :=
  inferInstanceAs (Decidable (ite _ _ _))

def LinkedInto (s : State) (p g : Nat) : Prop :=
  ∃ pp ∈ (s.procs p).p_parent,
    pp ≠ p ∧ (s.procs pp).p_pgidp ≠ some g ∧ (s.procs pp).p_sessp = (s.procs p).p_sessp

instance (s : State) (p g : Nat) : Decidable (LinkedInto s p g) :=
  inferInstanceAs (Decidable (∃ _ ∈ _, _))

/-- `p` may go away from its group: if a dead member is linked then so is a live one. -/
def CarefulFailure (s : State) (p : Nat) : Prop :=
  ∀ a ∈ (s.procs p).p_pgidp,
    (s.pids a).pid_pgorphaned = false → ZombieLink s p a → Independent s p a

def NoneRescued (s : State) (p a : Nat) : Prop :=
  (s.pids a).pid_pgorphaned = true → ∀ m ∈ (s.pids a).pid_pglink,
    (s.procs m).p_parent = some p → Live s m → (s.procs p).p_sessp ≠ (s.procs m).p_sessp

def LiveLinkStays (s : State) (p a : Nat) : Prop :=
  (s.pids a).pid_pgorphaned = false →
    (∃ m ∈ (s.pids a).pid_pglink, m ≠ p ∧ ¬ Live s m ∧ LinkedApart s p m) →
    ∃ m ∈ (s.pids a).pid_pglink, m ≠ p ∧ Live s m ∧ LinkedApart s p m

/-- The children that `p` finds in `g` are not its only links, or `p` is one. -/
def CarefulEntry (s : State) (p g : Nat) : Prop :=
  (∃ m ∈ (s.pids g).pid_pglink,
    (s.procs m).p_parent = some p ∧ Live s m ∧ pglinked s.procs m = true) →
    Independent s p g ∨ LinkedInto s p g

def CarefulMove (s : State) (p g : Nat) : Prop :=
  Live s p ∧ (∀ a ∈ (s.procs p).p_pgidp, NoneRescued s p a ∧ LiveLinkStays s p a) ∧
    CarefulEntry s p g

/-- `p` may leave its session: neither its children nor a dead member are a group's only link, and
no group with its children in it is taken to be linked by them. -/
def CarefulSession (s : State) (p : Nat) : Prop :=
  (∀ a ∈ (s.procs p).p_pgidp, (s.pids a).pid_pgorphaned = false →
    (∃ m ∈ (s.pids a).pid_pglink, m ≠ p ∧ ((s.procs m).p_parent = some p ∨ ¬ Live s m) ∧
      LinkedApart s p m) → Independent s p a) ∧
    ∀ m ∈ (s.procs p).p_child, ∀ h ∈ (s.procs m).p_pgidp,
      Live s m → pglinked s.procs m = true → Independent s p h

/-- `p` may exit. It is not its group's only link, or a child in the group makes the exit look at
it; where it looks, a dead member is not the only link, and init not the only parent left. -/
def CarefulExit (s : State) (p : Nat) : Prop :=
  Adoptable s p ∧
    (∀ a ∈ (s.procs p).p_pgidp, pglinked s.procs p = true →
      (∀ c ∈ (s.procs p).p_child, (s.procs c).p_pgidp ≠ some a) → Independent s p a) ∧
    ∀ c ∈ (s.procs p).p_child, ∀ h ∈ (s.procs c).p_pgidp,
      ((s.pids h).pid_pgorphaned = false → ZombieLink s p h → Independent s p h) ∧
      (Live s c → (s.procs proc_init).p_pgidp ≠ some h →
        (s.procs proc_init).p_sessp = (s.procs c).p_sessp → Independent s p h)

instance (s : State) (p : Nat) : Decidable (CarefulFailure s p) :=
  inferInstanceAs (Decidable (∀ _ ∈ _, _))

instance (s : State) (p a : Nat) : Decidable (NoneRescued s p a) :=
  inferInstanceAs (Decidable (_ → ∀ _ ∈ _, _))

instance (s : State) (p a : Nat) : Decidable (LiveLinkStays s p a) :=
  inferInstanceAs (Decidable (_ → (∃ _ ∈ _, _) → ∃ _ ∈ _, _))

instance (s : State) (p g : Nat) : Decidable (CarefulEntry s p g) :=
  inferInstanceAs (Decidable ((∃ _ ∈ _, _) → _))

instance (s : State) (p g : Nat) : Decidable (CarefulMove s p g) :=
  inferInstanceAs (Decidable (_ ∧ _))

instance (s : State) (p : Nat) : Decidable (CarefulSession s p) :=
  inferInstanceAs (Decidable (_ ∧ _))

instance (s : State) (p : Nat) : Decidable (CarefulExit s p) :=
  inferInstanceAs (Decidable (_ ∧ _))

theorem pglinked_update {pr : Proc} {m : Nat} (other : m ≠ p) : pglinked (update s.procs p pr) m =
      if (s.procs m).p_parent = some p then
        decide (pr.p_pgidp ≠ (s.procs m).p_pgidp ∧ pr.p_sessp = (s.procs m).p_sessp)
      else pglinked s.procs m := by
  unfold pglinked
  rw [update_of_ne other]
  cases of : (s.procs m).p_parent with
  | none => simp
  | some q =>
    by_cases here : q = p
    · subst here
      simp
    · simp [here]

theorem pgexit_orphaned (grouped : (s.procs p).p_pgidp = some g) (h : Nat) :
    ((pgexit s p).pids h).pid_pgorphaned = if h = g then
        (s.pids g).pid_pgorphaned || (!((s.pids g).pid_pglink.erase p).isEmpty &&
          !((s.pids g).pid_pglink.erase p).any (pglinked (regroup s p none)))
      else (s.pids h).pid_pgorphaned := by
  rw [pgexit_eq grouped]
  by_cases here : h = g <;> simp [here]

theorem pgjoin_orphaned (s : State) (p g h : Nat) : ((pgjoin s p g).pids h).pid_pgorphaned =
      if h = g then
        ((s.pids g).pid_pglink.isEmpty || (s.pids g).pid_pgorphaned) &&
          !pglinked (regroup s p (some g)) p
      else (s.pids h).pid_pgorphaned := by
  rw [pgjoin_eq]
  by_cases here : h = g <;> simp [here]

theorem joined_mark {first link : Bool} (decides : first = true → (T ↔ link = true))
    (others : first = false → T) : (first && !link) = true ↔ ¬ T := by
  cases first with
  | true =>
    rw [decides rfl]
    simp
  | false => simpa using others rfl

theorem Right.congr (right : Right s) (pids : ∀ g, (t.pids g).pid_pglink = (s.pids g).pid_pglink ∧
      (t.pids g).pid_pgorphaned = (s.pids g).pid_pgorphaned)
    (live : ∀ m, Live t m ↔ Live s m) (linked : pglinked t.procs = pglinked s.procs) : Right t := by
  intro g some
  have same : LiveLink t g ↔ LiveLink s g := by
    unfold LiveLink
    simp only [(pids g).1, live, linked]
  rw [(pids g).2, same]
  exact right g ((pids g).1 ▸ some)

theorem Right.own (right : Right s) (wf : Consistent s) (hp : p ∈ s.practive)
    (grouped : (s.procs p).p_pgidp = some g) :
    (s.pids g).pid_pgorphaned = true ↔ ¬ LiveLink s g :=
  right g (ne_nil_of_mem ((wf.grouping.members g p).mpr ⟨hp, grouped⟩))

theorem Independent.link : Independent s p g → LiveLink s g := by
  rintro ⟨m, hm, -, -, alive, link⟩
  exact ⟨m, hm, alive, link⟩

theorem Grouping.active (grouping : Grouping s) {m : Nat} (hm : m ∈ (s.pids g).pid_pglink) :
    m ∈ s.practive := ((grouping.members g m).mp hm).1

theorem Grouping.group (grouping : Grouping s) {m : Nat} (hm : m ∈ (s.pids g).pid_pglink) :
    (s.procs m).p_pgidp = some g := ((grouping.members g m).mp hm).2

theorem Grouping.apart (grouping : Grouping s) {m a : Nat} (grouped : (s.procs p).p_pgidp = some a)
    (other : g ≠ a) (hm : m ∈ (s.pids g).pid_pglink) : m ≠ p := by
  rintro rfl
  exact other (Option.some.inj ((grouping.group hm).symm.trans grouped))

theorem linked_apart (grouping : Grouping s) {m : Nat} {group : Option Nat}
    (hm : m ∈ (s.pids g).pid_pglink) (apart : m ≠ p) (away : group ≠ some g) :
    pglinked (regroup s p group) m = true ↔ LinkedApart s p m := by
  unfold regroup LinkedApart
  rw [pglinked_update apart, grouping.group hm]
  by_cases parent : (s.procs m).p_parent = some p <;> simp [parent, away]

/-- The mark of the group that `p` leaves, when members are left. -/
theorem left_mark (grouping : Grouping s) (grouped : (s.procs p).p_pgidp = some g)
    (some : (s.pids g).pid_pglink.erase p ≠ []) (marked : (s.pids g).pid_pgorphaned = true → ¬ T)
    (found : (s.pids g).pid_pgorphaned = false →
      ((∃ m ∈ (s.pids g).pid_pglink, m ≠ p ∧ LinkedApart s p m) ↔ T)) :
    ((pgexit s p).pids g).pid_pgorphaned = true ↔ ¬ T := by
  rw [pgexit_orphaned grouped, if_pos rfl]
  have nonempty : ((s.pids g).pid_pglink.erase p).isEmpty = false := by simpa using some
  cases bit : (s.pids g).pid_pgorphaned with
  | true => simpa using marked bit
  | false =>
    have links : ((s.pids g).pid_pglink.erase p).any (pglinked (regroup s p none)) = true ↔ T := by
      rw [← found bit, any_eq_true]
      refine exists_congr fun m => ?_
      rw [(grouping.once g).mem_erase_iff, and_right_comm, and_comm]
      refine and_congr_right fun hm => and_congr_right fun apart => ?_
      exact linked_apart grouping hm apart (by simp)
    rw [← links]
    simp [nonempty]

theorem Right.kept_by_newproc (right : Right s) (wf : Consistent s) (running : Running s pp)
    (fresh : cp ∉ s.practive) (unheld : (s.pids cp).pid_ref = 0) : Right (newproc s pp cp) := by
  obtain ⟨g, born⟩ := newproc_born wf running fresh unheld
  have apart : pp ≠ cp := fun same => fresh (same ▸ running.1)
  have new : ∀ m ∈ s.practive, m ≠ cp := fun m hm same => fresh (same ▸ hm)
  have unlinked : pglinked (newproc s pp cp).procs cp = false := by
    simp [pglinked, born.parent, born.pgidp, apart, born.grouped]
  have same : ∀ h, (∃ m ∈ (s.pids h).pid_pglink,
      Live (newproc s pp cp) m ∧ pglinked (newproc s pp cp).procs m = true) ↔ LiveLink s h := by
    intro h
    refine exists_congr fun m => and_congr_right fun hm => ?_
    have hm := wf.grouping.active hm
    have linked : pglinked (newproc s pp cp).procs m = pglinked s.procs m := by
      unfold pglinked
      rw [born.parent, if_neg (new m hm)]
      cases of : (s.procs m).p_parent with
      | none => rfl
      | some q =>
        have away := new q (wf.tree.parent m hm q of).1
        simp only [born.pgidp, born.sessp, if_neg away, if_neg (new m hm)]
    rw [Live, Live, born.stat, if_neg (new m hm), linked]
  intro h some
  rw [LiveLink, born.orphaned h some]
  rw [born.pglink] at some ⊢
  by_cases here : h = g
  · subst here
    rw [if_pos rfl, exists_mem_cons_iff, unlinked, same, right.own wf running.1 born.grouped]
    simp
  · rw [if_neg here] at some ⊢
    rw [same, right h some]

section
variable (right : Right s) (wf : Consistent s) (hp : p ∈ s.practive)
include right wf hp

/-- A member without children leaves: a group stays marked as it was, or the walk over the rest
marks it. -/
theorem Right.kept_by_freeproc (idle : (s.procs p).p_stat = .SZOMB ∨ (s.procs p).p_stat = .SIDL)
    (careful : CarefulFailure s p) : Right (freeproc s p) := by
  cases of : (s.procs p).p_parent with
  | none =>
    have same : freeproc s p = s := by
      unfold freeproc
      rw [of]
    rw [same]
    exact right
  | some q =>
    obtain ⟨a, grouped⟩ := Option.ne_none_iff_exists'.mp (wf.grouping.grouped p hp)
    obtain ⟨-, procs, -, pglink, orphaned⟩ := freeproc_tables of grouped
    have grouped' : ((orphaned_child s p q).procs p).p_pgidp = some a := by simpa using grouped
    have grouping' : Grouping (orphaned_child s p q) :=
      ⟨fun h m => by rw [orphaned_child_procs]; exact wf.grouping.members h m, wf.grouping.once,
        fun m hm => by rw [orphaned_child_procs]; exact wf.grouping.grouped m hm⟩
    have childless := wf.tree.childless hp idle
    have same_links : pglinked (orphaned_child s p q).procs = pglinked s.procs := by
      funext m
      simp only [pglinked, orphaned_child_procs]
    have live : ∀ m, Live (freeproc s p) m ↔ Live s m := by
      intro m
      simp only [Live, procs, regroup_apply, orphaned_child_procs]
    have no_child : ∀ m ∈ s.practive, (s.procs m).p_parent ≠ some p := by
      intro m hm parent
      have child := (wf.tree.child p hp m).mpr ⟨hm, parent⟩
      simp [childless] at child
    have linked : ∀ m ∈ s.practive, m ≠ p →
        pglinked (regroup (orphaned_child s p q) p none) m = pglinked s.procs m := by
      intro m hm other
      unfold regroup
      rw [pglinked_update other, same_links]
      simp [no_child m hm]
    intro h some
    rw [pglink] at some
    rw [orphaned]
    by_cases here : h = a
    · subst here
      rw [if_pos rfl] at some
      have after : LiveLink (freeproc s p) h ↔ Independent s p h := by
        unfold LiveLink Independent
        rw [pglink, if_pos rfl, procs]
        refine exists_congr fun m => ?_
        rw [(wf.grouping.once h).mem_erase_iff, live]
        constructor
        · rintro ⟨⟨other, hm⟩, alive, link⟩
          have active := wf.grouping.active hm
          exact ⟨hm, other, no_child m active, alive, (linked m active other).symm.trans link⟩
        · rintro ⟨hm, other, -, alive, link⟩
          exact ⟨⟨other, hm⟩, alive, (linked m (wf.grouping.active hm) other).trans link⟩
      have before := right.own wf hp grouped
      rw [after]
      refine left_mark grouping' grouped' some (fun marked alone => before.mp marked alone.link) ?_
      intro unmarked
      have careful := careful h grouped unmarked
      constructor
      · rintro ⟨m, hm, other, link⟩
        have orphan := no_child m (wf.grouping.active hm)
        have link : pglinked s.procs m = true := by simpa [LinkedApart, orphan, same_links] using link
        by_cases alive : Live s m
        · exact ⟨m, hm, other, orphan, alive, link⟩
        · exact careful ⟨m, hm, other, orphan, alive, link⟩
      · rintro ⟨m, hm, other, orphan, -, link⟩
        exact ⟨m, hm, other, by simpa [LinkedApart, orphan, same_links] using link⟩
    · rw [if_neg here] at some
      have same_pids : (orphaned_child s p q).pids = s.pids := rfl
      rw [pgexit_orphaned grouped', if_neg here, same_pids, right h some]
      unfold LiveLink
      rw [pglink, if_neg here, procs]
      refine not_congr (exists_congr fun m => and_congr_right fun hm => ?_)
      rw [live, linked m (wf.grouping.active hm) (wf.grouping.apart grouped here hm)]

theorem careful_of_zombie (zombie : (s.procs p).p_stat = .SZOMB) : CarefulFailure s p := by
  intro a grouped unmarked _
  have before := right.own wf hp grouped
  rw [unmarked] at before
  obtain ⟨m, hm, alive, link⟩ : LiveLink s a := by simpa using before
  refine ⟨m, hm, ?_, ?_, alive, link⟩
  · rintro rfl
    exact alive zombie
  · intro parent
    have child := (wf.tree.child p hp m).mpr ⟨wf.grouping.active hm, parent⟩
    simp [wf.tree.childless hp (.inl zombie)] at child

theorem Right.kept_by_move (apart : (s.procs p).p_pgidp ≠ some g) (careful : CarefulMove s p g) :
    Right (pgjoin (pgexit s p) p g) := by
  obtain ⟨a, grouped⟩ := Option.ne_none_iff_exists'.mp (wf.grouping.grouped p hp)
  obtain ⟨alive, leaving, entering⟩ := careful
  obtain ⟨rescued, stays⟩ := leaving a grouped
  have other : g ≠ a := fun same => apart (same ▸ grouped)
  have procs := move_procs grouped g
  have live : ∀ m, Live (pgjoin (pgexit s p) p g) m ↔ Live s m := by
    intro m
    rw [Live, procs, regroup_apply]
    rfl
  have linked : ∀ m, m ≠ p → pglinked (regroup s p (some g)) m =
      if (s.procs m).p_parent = some p then
        decide (some g ≠ (s.procs m).p_pgidp ∧ (s.procs p).p_sessp = (s.procs m).p_sessp)
      else pglinked s.procs m := fun m hm => pglinked_update hm
  intro h some
  by_cases here : h = g
  · -- the group that it enters
    subst here
    have before := right h
    have unlisted : ((pgexit s p).pids h).pid_pglink = (s.pids h).pid_pglink := by
      rw [pgexit_pglink grouped, if_neg other]
    have unmarked : ((pgexit s p).pids h).pid_pgorphaned = (s.pids h).pid_pgorphaned := by
      rw [pgexit_orphaned grouped, if_neg other]
    have same_procs : regroup (pgexit s p) p (.some h) = regroup s p (.some h) := by
      rw [pgexit_eq grouped]
      simp [regroup]
    rw [pgjoin_orphaned, if_pos rfl, unlisted, unmarked, same_procs]
    have after : LiveLink (pgjoin (pgexit s p) p h) h ↔
        pglinked (regroup s p (.some h)) p = true ∨ Independent s p h := by
      unfold LiveLink Independent
      rw [pgjoin_pglink, if_pos rfl, unlisted, procs, exists_mem_cons_iff, live]
      refine or_congr ⟨fun both => both.2, fun link => ⟨alive, link⟩⟩
        (exists_congr fun m => and_congr_right fun hm => ?_)
      have apart := wf.grouping.apart grouped other hm
      rw [live, linked m apart, wf.grouping.group hm]
      by_cases parent : (s.procs m).p_parent = .some p <;> simp [parent, apart]
    rw [after]
    refine joined_mark ?_ ?_
    · intro first
      refine or_iff_left fun independent => ?_
      have nonempty : (s.pids h).pid_pglink ≠ [] := ne_nil_of_mem independent.choose_spec.1
      have nonempty' : (s.pids h).pid_pglink.isEmpty = false := by simpa using nonempty
      rw [nonempty', Bool.false_or] at first
      exact (before nonempty).mp first independent.link
    · intro not_first
      rw [Bool.or_eq_false_iff] at not_first
      have nonempty : (s.pids h).pid_pglink ≠ [] := by simpa using not_first.1
      have link := before nonempty
      rw [not_first.2] at link
      obtain ⟨m, hm, alive_m, link_m⟩ : LiveLink s h := by simpa using link
      by_cases parent : (s.procs m).p_parent = .some p
      · rcases entering ⟨m, hm, parent, alive_m, link_m⟩ with independent | into
        · exact .inr independent
        · obtain ⟨pp, of, pp_apart, group_pp, session⟩ := into
          refine .inl ?_
          have of : (s.procs p).p_parent = .some pp := of
          simp [pglinked, regroup, of, pp_apart, group_pp, session]
      · exact .inr ⟨m, hm, wf.grouping.apart grouped other hm, parent, alive_m, link_m⟩
  · rw [pgjoin_pglink, if_neg here, pgexit_pglink grouped] at some
    rw [pgjoin_orphaned, if_neg here, LiveLink, pgjoin_pglink, if_neg here, pgexit_pglink grouped,
      procs]
    by_cases there : h = a
    · -- the group that it leaves
      subst there
      rw [if_pos rfl] at some
      have before := right.own wf hp grouped
      have away : .some g ≠ (.some h : Option Nat) := fun same => other (Option.some.inj same)
      have after : (∃ m ∈ if h = h then (s.pids h).pid_pglink.erase p else (s.pids h).pid_pglink,
          Live (pgjoin (pgexit s p) p g) m ∧ pglinked (regroup s p (.some g)) m = true) ↔
          ∃ m ∈ (s.pids h).pid_pglink, m ≠ p ∧ Live s m ∧ LinkedApart s p m := by
        refine exists_congr fun m => ?_
        rw [if_pos rfl, (wf.grouping.once h).mem_erase_iff, live]
        constructor
        · rintro ⟨⟨apart, hm⟩, alive, link⟩
          exact ⟨hm, apart, alive, (linked_apart wf.grouping hm apart away).mp link⟩
        · rintro ⟨hm, apart, alive, link⟩
          exact ⟨⟨apart, hm⟩, alive, (linked_apart wf.grouping hm apart away).mpr link⟩
      rw [after]
      refine left_mark wf.grouping grouped some ?_ ?_
      · rintro marked ⟨m, hm, apart, alive_m, link⟩
        by_cases parent : (s.procs m).p_parent = .some p
        · refine rescued marked m hm parent alive_m ?_
          simpa [LinkedApart, parent] using link
        · refine before.mp marked ⟨m, hm, alive_m, ?_⟩
          simpa [LinkedApart, parent] using link
      · intro unmarked
        constructor
        · rintro ⟨m, hm, apart, link⟩
          by_cases alive_m : Live s m
          · exact ⟨m, hm, apart, alive_m, link⟩
          · exact stays unmarked ⟨m, hm, apart, alive_m, link⟩
        · rintro ⟨m, hm, apart, -, link⟩
          exact ⟨m, hm, apart, link⟩
    · -- the others
      rw [if_neg there] at some ⊢
      rw [pgexit_orphaned grouped, if_neg there, right h some]
      refine not_congr (exists_congr fun m => and_congr_right fun hm => ?_)
      have group := wf.grouping.group hm
      rw [live, linked m (wf.grouping.apart grouped there hm), group]
      by_cases parent : (s.procs m).p_parent = .some p
      · have was : pglinked s.procs m = decide ((s.procs p).p_sessp = (s.procs m).p_sessp) := by
          simp [pglinked, parent, grouped, group, Ne.symm there]
        simp [parent, was, Ne.symm here]
      · simp [parent]

end

theorem pgmembers_eq_false (none_else : pgmembers s p = false) :
    ∀ m ∈ (s.pids p).pid_pglink, m = p := by
  intro m hm
  by_contra other
  have some : pgmembers s p = true := any_eq_true.mpr ⟨m, hm, by simpa using other⟩
  simp [none_else] at some

theorem Right.kept_by_sess_create (right : Right s) (wf : Consistent s) (hp : p ∈ s.practive)
    (alive : Live s p) (fresh : sp ∉ s.sessions) (alone : pgmembers s p = false)
    (careful : CarefulSession s p) : Right (sess_create s p sp) := by
  obtain ⟨a, grouped⟩ := Option.ne_none_iff_exists'.mp (wf.grouping.grouped p hp)
  obtain ⟨leaving, children⟩ := careful
  have leaving := leaving a grouped
  have procs := sess_create_procs sp grouped
  obtain ⟨-, made_procs, -, made_pglink, made_orphaned⟩ := new_session_tables sp grouped
  have pglink : ∀ h, ((sess_create s p sp).pids h).pid_pglink =
      if h = p then p :: ((pgexit s p).pids p).pid_pglink
      else ((pgexit s p).pids h).pid_pglink := by
    intro h
    rw [sess_create_eq, PID_HOLD_pglink, pgjoin_pglink]
    simp only [made_pglink]
  have live : ∀ m, Live (sess_create s p sp) m ↔ Live s m := by
    intro m
    rw [Live, procs]
    by_cases here : m = p <;> simp [here, Live]
  have linked : ∀ h, ∀ m ∈ (s.pids h).pid_pglink, m ≠ p →
      (pglinked (sess_create s p sp).procs m = true ↔
        (s.procs m).p_parent ≠ some p ∧ pglinked s.procs m = true) := by
    intro h m hm apart
    have session : sp ≠ (s.procs m).p_sessp :=
      fun same => fresh (same ▸ wf.holding.within m (wf.grouping.active hm))
    rw [procs, pglinked_update apart]
    by_cases parent : (s.procs m).p_parent = some p <;> simp [parent, session]
  have own : ((pgexit s p).pids p).pid_pglink = [] := by
    refine eq_nil_iff_forall_not_mem.mpr fun m hm => ?_
    obtain ⟨hm, apart⟩ := (wf.grouping.left grouped p m).mp hm
    exact apart (pgmembers_eq_false alone m hm)
  intro h some
  by_cases here : h = p
  · -- its own group
    subst here
    rw [sess_create_eq, PID_HOLD_orphaned, pgjoin_orphaned, if_pos rfl, ← sess_create_eq,
      made_pglink, own]
    have same : regroup (new_session s h sp) h (.some h) = (sess_create s h sp).procs := by
      rw [procs, regroup, made_procs]
      simp
    have after : LiveLink (sess_create s h sp) h ↔
        pglinked (sess_create s h sp).procs h = true := by
      unfold LiveLink
      rw [pglink, if_pos rfl, own]
      simp [live, alive]
    rw [same]
    exact joined_mark (fun _ => after) (fun first => by simp at first)
  · have pglink := pglink h
    rw [if_neg here] at pglink
    have orphaned : ((sess_create s p sp).pids h).pid_pgorphaned =
        ((pgexit s p).pids h).pid_pgorphaned := by
      rw [sess_create_eq, PID_HOLD_orphaned, pgjoin_orphaned, if_neg here, made_orphaned]
    have after : LiveLink (sess_create s p sp) h ↔ Independent s p h := by
      refine exists_congr fun m => ?_
      rw [pglink, wf.grouping.left grouped h m, live]
      constructor
      · rintro ⟨⟨hm, apart⟩, alive, link⟩
        obtain ⟨parent, link⟩ := (linked h m hm apart).mp link
        exact ⟨hm, apart, parent, alive, link⟩
      · rintro ⟨hm, apart, parent, alive, link⟩
        exact ⟨⟨hm, apart⟩, alive, (linked h m hm apart).mpr ⟨parent, link⟩⟩
    rw [after, orphaned]
    rw [pglink, pgexit_pglink grouped] at some
    by_cases there : h = a
    · -- the group that it leaves
      subst there
      rw [if_pos rfl] at some
      have before := right.own wf hp grouped
      refine left_mark wf.grouping grouped some (fun marked alone => before.mp marked alone.link) ?_
      intro unmarked
      constructor
      · rintro ⟨m, hm, apart, link⟩
        by_cases plain : (s.procs m).p_parent ≠ .some p ∧ Live s m
        · refine ⟨m, hm, apart, plain.1, plain.2, ?_⟩
          simpa [LinkedApart, plain.1] using link
        · exact leaving unmarked ⟨m, hm, apart, by tauto, link⟩
      · rintro ⟨m, hm, apart, parent, -, link⟩
        exact ⟨m, hm, apart, by simpa [LinkedApart, parent] using link⟩
    · -- the others
      rw [if_neg there] at some
      rw [pgexit_orphaned grouped, if_neg there, right h some]
      refine not_congr ⟨?_, Independent.link⟩
      rintro ⟨m, hm, alive, link⟩
      have group := wf.grouping.group hm
      by_cases parent : (s.procs m).p_parent = .some p
      · exact children m ((wf.tree.child p hp m).mpr ⟨wf.grouping.active hm, parent⟩) h group
          alive link
      · exact ⟨m, hm, wf.grouping.apart grouped there hm, parent, alive, link⟩

end Pgrp
