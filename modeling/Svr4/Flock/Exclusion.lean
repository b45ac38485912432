import Svr4.Flock.Transitions

/- The lock lists as maps from owners and bytes to lock types, over whole runs. -/
namespace RecordLocks
open LinkedCells SpanMap LabelledRuns List Option

def lockMap (l : CellList Filock) (o : Int × Int) : Int → Option LockType :=
  valueAt (spans o (contents l))

/-- Two owners share a byte only for reading. -/
def Exclusive (xs : List (Nat × Filock)) : Prop := ∀ o o' b k k', o ≠ o' →
  Holds (spans o xs) b k → Holds (spans o' xs) b k' → k = .rdlck ∧ k' = .rdlck

structure InRange (ld : Flock) : Prop where
  low : 0 ≤ ld.lStart
  proper : ld.lStart ≤ ld.lEnd
  high : ld.lEnd ≤ MAXEND

structure Tidy (s : Sys) : Prop where
  locks : ∀ vp, ∃ xs, Links (s.locks vp) xs ∧ RecordList xs ∧ Exclusive xs
  sleeplcks : ∃ ys, Links s.sleeplcks ys
  sleepers : ∀ p ∈ s.sleepers, InRange p.ld ∧ (p.ld.lType = .rdlck ∨ p.ld.lType = .wrlck)

theorem wrap32_le (x : Int) : wrap32 x ≤ MAXEND := by
  simp only [wrap32, MAXEND]
  omega

theorem convoff_low {attr : Except Errno Int} {ld ld' : Flock} {offset : Int}
    (run : convoff attr ld 0 offset = (none, ld')) : 0 ≤ ld'.lStart := by
  cases attr with
  | error e => simp [convoff] at run
  | ok size =>
    simp only [convoff] at run
    split at run
    · simp at run
    · split at run
      · simp at run
      · simp at run
        subst run
        simp only
        omega

theorem normalise_inRange {r : Req} {ld : Flock} (run : normalise r = (none, ld)) : InRange ld := by
  simp only [normalise] at run
  split at run
  · simp at run
  split at run
  · simp at run
  case h_2 ld' conv =>
    have low := convoff_low conv
    have bound : (if ld'.lEnd = 0 then MAXEND
        else wrap32 (ld'.lEnd + (ld'.lStart - 1))) ≤ MAXEND := by
      split
      · exact le_refl _
      · exact wrap32_le _
    by_cases negative : ld'.lEnd < 0
    · simp [negative] at run
    rw [if_neg negative] at run
    by_cases empty : ld'.lStart >
        (if ld'.lEnd = 0 then MAXEND else wrap32 (ld'.lEnd + (ld'.lStart - 1)))
    · simp [empty] at run
    · rw [if_neg empty] at run
      obtain ⟨-, rfl⟩ := Prod.mk.inj run
      exact ⟨low, not_lt.mp empty, bound⟩

theorem InRange.request {ld : Flock} (range : InRange ld)
    (type : ld.lType = .rdlck ∨ ld.lType = .wrlck ∨ ld.lType = .unlck) : Request ld :=
  { range with type }

section Lists
variable {env : Env} {info : Flckinfo} {ld : Flock} {xs ys : List (Nat × Filock)} {out : AdjOut}

theorem Adjustment.origin (h : Adjustment env info ld xs out ys) (records : RecordList xs)
    {o : Int × Int} {b : Int} {k : LockType} (held : Holds (spans o ys) b k) :
    Holds (spans o xs) b k ∨
      o = ownerOf ld ∧ ld.lStart ≤ b ∧ b ≤ ld.lEnd ∧ ld.lType ≠ .unlck ∧ k = ld.lType := by
  by_cases own : o = ownerOf ld
  · subst own
    rcases h.answer with granted | failed
    · have value := ((h.records.separated (ownerOf ld)).valueAt_eq_some b k).mpr held
      rw [h.overwrites granted, overwrite] at value
      split at value
      case isTrue inside =>
        by_cases unlock : ld.lType = .unlck
        · simp [asked, unlock] at value
        · simp only [asked, unlock, if_false, some.injEq] at value
          exact .inr ⟨rfl, inside.1, inside.2, unlock, value.symm⟩
      case isFalse => exact .inl (((records.separated _).valueAt_eq_some b k).mp value)
    · exact .inl (h.shrinks failed b k held)
  · rw [h.others o own] at held
    exact .inl held

theorem Adjustment.exclusive (h : Adjustment env info ld xs out ys) (records : RecordList xs)
    (exclusive : Exclusive xs)
    (free : ld.lType ≠ .unlck → ∀ x ∈ xs, ¬ Conflict ld x.2.set) : Exclusive ys := by
  -- The new lock against an old one of another owner on the same byte.
  have against : ∀ o b k, o ≠ ownerOf ld → Holds (spans o xs) b k → ld.lStart ≤ b → b ≤ ld.lEnd →
      ld.lType ≠ .unlck → k ≠ .wrlck ∧ ld.lType ≠ .wrlck := by
    rintro o b k other ⟨p, mem, lo, hi, rfl⟩ start stop lock
    obtain ⟨x, hx, owner, rfl⟩ := mem_spans.mp mem
    have none_there := free lock x hx
    simp only [spanOf_lo, spanOf_hi, spanOf_kind] at *
    have overlap : ¬ (x.2.set.lType = .wrlck ∨ ld.lType = .wrlck) := fun mode =>
      none_there ⟨fun eq => other (owner.symm.trans eq), by omega, by omega, mode⟩
    exact not_or.mp overlap
  have type_of : ∀ o b k, Holds (spans o xs) b k → k = .rdlck ∨ k = .wrlck := by
    rintro o b k ⟨p, mem, -, -, rfl⟩
    obtain ⟨x, hx, -, rfl⟩ := mem_spans.mp mem
    exact (records.good x hx).type
  have lock_type : ∀ o b k, o = ownerOf ld ∧ ld.lStart ≤ b ∧ b ≤ ld.lEnd ∧ ld.lType ≠ .unlck ∧
      k = ld.lType → Holds (spans o ys) b k → k = .rdlck ∨ k = .wrlck := by
    rintro o b k - ⟨p, mem, -, -, rfl⟩
    obtain ⟨x, hx, -, rfl⟩ := mem_spans.mp mem
    exact (h.records.good x hx).type
  intro o o' b k k' different first second
  rcases h.origin records first with old | new <;> rcases h.origin records second with old' | new'
  · exact exclusive o o' b k k' different old old'
  · have := against o b k (fun eq => different (eq.trans new'.1.symm)) old new'.2.1 new'.2.2.1
      new'.2.2.2.1
    have := type_of o b k old
    have := lock_type o' b k' new' second
    simp_all
  · have := against o' b k' (fun eq => different (new.1.trans eq.symm)) old' new.2.1 new.2.2.1
      new.2.2.2.1
    have := type_of o' b k' old'
    have := lock_type o b k new first
    simp_all
  · exact absurd (new.1.trans new'.1.symm) different

theorem RecordList.restat {us vs : List (Nat × Filock)} {a : Nat} {v : Filock}
    (h : RecordList (us ++ (a, v) :: vs)) (st : Stat) :
    RecordList (us ++ (a, ⟨v.set, st⟩) :: vs) :=
  h.trim v.set.lEnd st (h.good (a, v) (by simp)).proper (le_refl _)

theorem spans_restat (o : Int × Int) (us vs : List (Nat × Filock)) (a : Nat) (v : Filock)
    (st : Stat) : spans o (us ++ (a, ⟨v.set, st⟩) :: vs) = spans o (us ++ (a, v) :: vs) := by
  rw [spans_append, spans_append]
  by_cases own : ownerOf v.set = o
  · rw [spans_own (x := (a, v)) own, spans_own (x := (a, ⟨v.set, st⟩)) own]
  · rw [spans_other (x := (a, v)) own, spans_other (x := (a, ⟨v.set, st⟩)) own]

end Lists

section Steps
variable {env : Env} {s t : Sys} {r : Req} {ld : Flock} {reply : Reply} {ys : List (Nat × Filock)}
  {p : Sleeper} {l : Label}

theorem Passed.vnode (h : Passed env s r ld t reply) (tidy : Tidy s) (range : InRange ld) :
    (∀ vp, vp ≠ r.vp → t.locks vp = s.locks vp) ∧
    ∃ xs xs', Links (s.locks r.vp) xs ∧ RecordList xs ∧ Exclusive xs ∧
      Links (t.locks r.vp) xs' ∧ RecordList xs' ∧
      ((∃ out, r.setflck = true ∧ reply = .returned out.retval (restore r out.ld) ∧
          Adjustment env s.info ld xs out xs' ∧
          (ld.lType ≠ .unlck → ∀ x ∈ xs, ¬ Conflict ld x.2.set)) ∨
        ((∀ o, spans o xs' = spans o xs) ∧
          ∀ lckdat, r.setflck = true → reply ≠ .returned none lckdat)) := by
  obtain ⟨xs, links, records, exclusive⟩ := tidy.locks r.vp
  obtain ⟨ys, sleeping⟩ := tidy.sleeplcks
  cases h with
  | adjusted insrt out t set free run cleaned =>
    have result : ∃ xs', Adjustment env s.info ld xs out xs' ∧
        (ld.lType ≠ .unlck → ∀ x ∈ xs, ¬ Conflict ld x.2.set) := by
      have entry : Request ld ∧ Entry ld xs insrt ∧
          (ld.lType ≠ .unlck → ∀ x ∈ xs, ¬ Conflict ld x.2.set) := by
        rcases free with ⟨scan, type⟩ | ⟨rfl, type⟩
        · obtain ⟨found, i, scan', clear, -⟩ := blocked_spec range.proper links records
          obtain ⟨rfl, rfl⟩ := Prod.mk.inj (some.inj (scan'.symm.trans scan))
          exact ⟨range.request (by tauto), (clear rfl).2, fun _ => (clear rfl).1⟩
        · rw [links.head]
          exact ⟨range.request (by tauto), unlock_entry type, fun lock => absurd type lock⟩
      obtain ⟨request, entry, clear⟩ := entry
      obtain ⟨out', xs', run', adjustment⟩ := flckadj_spec env (t := vnodeTab s r.vp)
        links records request entry
      obtain rfl := some.inj (run'.symm.trans run)
      exact ⟨xs', adjustment, clear⟩
    obtain ⟨xs', adjustment, clear⟩ := result
    have lists : t.locks = (putVnode s r.vp out.tab).locks := by
      rcases cleaned with rfl | cleaned
      · rfl
      · obtain ⟨t', -, run', same, -⟩ := clean_spec (s := putVnode s r.vp out.tab) out.ld sleeping
        obtain rfl := some.inj (run'.symm.trans cleaned)
        exact same
    refine ⟨fun vp other => by simp [lists, putVnode, other], xs, xs', links, records, exclusive, ?_,
      adjustment.records, .inl ⟨out, set, rfl, adjustment, clear⟩⟩
    simpa [lists, putVnode] using adjustment.links
  | tested ld' t set cleaned =>
    have lists : t.locks = s.locks := by
      rcases cleaned with rfl | cleaned
      · rfl
      · obtain ⟨t', -, run', same, -⟩ := clean_spec (s := s) ld' sleeping
        obtain rfl := some.inj (run'.symm.trans cleaned)
        exact same
    refine ⟨fun vp _ => by rw [lists], xs, xs, links, records, exclusive, by rw [lists]; exact links,
      records, .inr ⟨fun _ => rfl, fun _ on => ?_⟩⟩
    simp [set] at on
  | refused retval lckdat refusal =>
    refine ⟨fun _ _ => rfl, xs, xs, links, records, exclusive, links, records,
      .inr ⟨fun _ => rfl, fun _ on eq => ?_⟩⟩
    injection eq with none_returned
    exact refusal on none_returned
  | recorded insrt sf found c t e lckdat slp stopped type here safe run =>
    have lists : t.locks = s.locks := by
      rcases recordBlocker_spec env ld c.val.set sleeping with ⟨t', run', same, -⟩ |
        ⟨t', sf', run', same, -⟩ <;>
      · obtain ⟨-, rfl⟩ := Prod.mk.inj (some.inj (run'.symm.trans run))
        exact same
    exact ⟨fun vp _ => by rw [lists], xs, xs, links, records, exclusive,
      by rw [lists]; exact links, records, .inr ⟨fun _ => rfl, fun _ _ => by simp⟩⟩
  | slept insrt sf found c c' l t slp stopped type here safe run again mark =>
    have lists : t.locks = s.locks := by
      rcases recordBlocker_spec env ld c.val.set sleeping with ⟨t', run', -⟩ |
        ⟨t', sf', run', same, -⟩
      · simp [run'] at run
      · obtain ⟨-, rfl⟩ := Prod.mk.inj (some.inj (run'.symm.trans run))
        exact same
    rw [lists] at again mark
    obtain ⟨us, v, vs, rfl, rfl⟩ := links.split_of_cell again
    obtain ⟨l', mark', links'⟩ :=
      links.setVal { v with stat := { v.stat with first := v.stat.first + 1 } }
    obtain rfl := some.inj (mark'.symm.trans mark)
    have here' : (putVnode t r.vp ⟨l', t.info, []⟩).locks r.vp = l' := by simp [putVnode]
    rw [← here'] at links'
    exact ⟨fun vp other => by simp [putVnode, other, lists], _, _, links, records, exclusive, links',
      records.restat _, .inr ⟨fun o => spans_restat o us vs found v _, fun _ _ => by simp⟩⟩

theorem Exclusive.congr {xs xs' : List (Nat × Filock)} (exclusive : Exclusive xs)
    (same : ∀ o, spans o xs' = spans o xs) : Exclusive xs' := by
  intro o o' b k k' different first second
  rw [same] at first second
  exact exclusive o o' b k k' different first second

theorem clean_links {lckdat : Flock} (sleeping : Links s.sleeplcks ys)
    (cleaned : t = s ∨ clean s lckdat = some t) :
    t.sleepers = s.sleepers ∧ ∃ ys', Links t.sleeplcks ys' ∧ ys'.Sublist ys := by
  rcases cleaned with rfl | cleaned
  · exact ⟨rfl, ys, sleeping, Sublist.refl ys⟩
  · obtain ⟨t', ys', run', -, same, links, sub⟩ := clean_spec lckdat sleeping
    obtain rfl := some.inj (run'.symm.trans cleaned)
    exact ⟨same, ys', links, sub⟩

theorem putVnode_sleepers {P : Sleeper → Prop} {vp : Nat} {tab : Tab}
    (wakes : ∀ p, P p → P { p with awake := true }) (all : ∀ p ∈ s.sleepers, P p) :
    ∀ p ∈ (putVnode s vp tab).sleepers, P p := by
  intro p mem
  obtain ⟨q, hq, rfl⟩ := mem_map.mp mem
  split
  · exact wakes q (all q hq)
  · exact all q hq

/-- sleeplcks after a pass: entries are gone, or a new one names a blocker from which deadflck did
not find the requester. -/
theorem Passed.queue (h : Passed env s r ld t reply) (sleeping : Links s.sleeplcks ys) :
    ∃ ys', Links t.sleeplcks ys' ∧ (ys'.Sublist ys ∨
      ∃ sf insrt found c, ys' = (sf, ⟨ld, ⟨c.val.set.lSysid, c.val.set.lPid⟩⟩) :: ys ∧
        r.slpflck = true ∧ (ld.lType = .rdlck ∨ ld.lType = .wrlck) ∧
        blocked (s.locks r.vp) ld = some (some found, insrt) ∧
        (s.locks r.vp).cell found = some c ∧
        deadflck s.sleeplcks ld (s.sleeplcks.fresh + 2) (ownerOf c.val.set) = some false) := by
  cases h with
  | adjusted insrt out t set free run cleaned =>
    obtain ⟨-, ys', links, sub⟩ := clean_links (s := putVnode s r.vp out.tab) sleeping cleaned
    exact ⟨ys', links, .inl sub⟩
  | tested ld' t set cleaned =>
    obtain ⟨-, ys', links, sub⟩ := clean_links sleeping cleaned
    exact ⟨ys', links, .inl sub⟩
  | refused retval lckdat refusal => exact ⟨ys, sleeping, .inl (Sublist.refl ys)⟩
  | recorded insrt sf found c t e lckdat slp stopped type here safe run =>
    rcases recordBlocker_spec env ld c.val.set sleeping with ⟨t', run', -, -, list⟩ |
      ⟨t', sf', run', -, -, links⟩ <;>
    obtain ⟨-, rfl⟩ := Prod.mk.inj (some.inj (run'.symm.trans run))
    · exact ⟨ys, by rw [list]; exact sleeping, .inl (Sublist.refl ys)⟩
    · exact ⟨_, links, .inr ⟨sf', insrt, found, c, rfl, slp, type, stopped, here, safe⟩⟩
  | slept insrt sf found c c' l t slp stopped type here safe run again mark =>
    rcases recordBlocker_spec env ld c.val.set sleeping with ⟨t', run', -⟩ |
      ⟨t', sf', run', -, -, links⟩
    · simp [run'] at run
    · obtain ⟨-, rfl⟩ := Prod.mk.inj (some.inj (run'.symm.trans run))
      exact ⟨_, links, .inr ⟨sf', insrt, found, c, rfl, slp, type, stopped, here, safe⟩⟩

theorem Passed.threads (h : Passed env s r ld t reply) (sleeping : Links s.sleeplcks ys)
    (range : InRange ld)
    (sleepers : ∀ p ∈ s.sleepers, InRange p.ld ∧ (p.ld.lType = .rdlck ∨ p.ld.lType = .wrlck)) :
    ∀ p ∈ t.sleepers, InRange p.ld ∧ (p.ld.lType = .rdlck ∨ p.ld.lType = .wrlck) := by
  cases h with
  | adjusted insrt out t set free run cleaned =>
    obtain ⟨same, -⟩ := clean_links (s := putVnode s r.vp out.tab) sleeping cleaned
    rw [same]
    exact putVnode_sleepers (fun _ ok => ok) sleepers
  | tested ld' t set cleaned =>
    obtain ⟨same, -⟩ := clean_links sleeping cleaned
    rw [same]
    exact sleepers
  | refused retval lckdat refusal => exact sleepers
  | recorded insrt sf found c t e lckdat slp stopped type here safe run =>
    rcases recordBlocker_spec env ld c.val.set sleeping with ⟨t', run', -, same, -⟩ |
      ⟨t', sf', run', -, same, -⟩ <;>
    · obtain ⟨-, rfl⟩ := Prod.mk.inj (some.inj (run'.symm.trans run))
      rw [same]
      exact sleepers
  | slept insrt sf found c c' l t slp stopped type here safe run again mark =>
    rcases recordBlocker_spec env ld c.val.set sleeping with ⟨t', run', -⟩ |
      ⟨t', sf', run', -, same, -⟩
    · simp [run'] at run
    · obtain ⟨-, rfl⟩ := Prod.mk.inj (some.inj (run'.symm.trans run))
      intro p mem
      rcases mem_cons.mp mem with rfl | mem
      · exact ⟨range, type⟩
      · rw [← same] at sleepers
        exact putVnode_sleepers (fun _ ok => ok) sleepers p mem

theorem Passed.tidy (h : Passed env s r ld t reply) (tidy : Tidy s) (range : InRange ld) :
    Tidy t := by
  obtain ⟨ys, sleeping⟩ := tidy.sleeplcks
  obtain ⟨ys', queue, -⟩ := h.queue sleeping
  obtain ⟨elsewhere, xs, xs', -, records, exclusive, links', records', change⟩ := h.vnode tidy range
  refine ⟨fun vp => ?_, ⟨ys', queue⟩, h.threads sleeping range tidy.sleepers⟩
  by_cases here : vp = r.vp
  · subst here
    refine ⟨xs', links', records', ?_⟩
    rcases change with ⟨out, -, -, adjustment, free⟩ | ⟨same, -⟩
    · exact adjustment.exclusive records exclusive free
    · exact exclusive.congr same
  · rw [elsewhere vp here]
    exact tidy.locks vp

theorem leaveSleep_spec (sleeping : Links s.sleeplcks ys) (run : leaveSleep s p = some t) :
    t.locks = s.locks ∧ (∃ us v vs, ys = us ++ (p.sf, v) :: vs ∧ Links t.sleeplcks (us ++ vs)) ∧
      ∀ q ∈ t.sleepers, q ∈ s.sleepers := by
  simp only [leaveSleep, bind_eq_bind, bind_eq_some_iff] at run
  obtain ⟨c, here, l, mark, u, delete, run⟩ := run
  obtain ⟨us, v, vs, rfl, rfl⟩ := sleeping.split_of_cell here
  obtain ⟨l', mark', links⟩ := sleeping.setVal { v with stat := ⟨0, 0⟩ }
  obtain rfl := some.inj (mark'.symm.trans mark)
  obtain ⟨u', delete', links', -⟩ := delflck_spec (t := ⟨l', s.info, []⟩) links
  obtain rfl := some.inj (delete'.symm.trans delete)
  simp only [Option.pure_def, Option.some.injEq] at run
  subst run
  exact ⟨rfl, ⟨us, v, vs, rfl, links'⟩, fun q mem => (mem_filter.mp mem).1⟩

theorem leaveSleep_tidy (tidy : Tidy s) (run : leaveSleep s p = some t) : Tidy t := by
  obtain ⟨ys, sleeping⟩ := tidy.sleeplcks
  obtain ⟨lists, ⟨us, v, vs, -, links⟩, threads⟩ := leaveSleep_spec sleeping run
  exact ⟨by rw [lists]; exact tidy.locks, ⟨_, links⟩, fun q mem => tidy.sleepers q (threads q mem)⟩

def requestOf (s : Sys) : Label → Option (Req × Flock)
  | .call r => match normalise r with
    | (none, ld) => some (r, ld)
    | (some _, _) => none
  | .resume sf => (s.sleepers.find? fun p => p.sf = sf).map fun p => (p.req, p.ld)
  | .interrupt _ => none

def remaining (l : Label) (ys : List (Nat × Filock)) : List (Nat × Filock) :=
  match l with
  | .resume sf => ys.filter fun y => y.1 ≠ sf
  | _ => ys

theorem remaining_resume {q : CellList Filock} {us vs : List (Nat × Filock)} {sf : Nat} {v : Filock}
    (sleeping : Links q (us ++ (sf, v) :: vs)) :
    remaining (.resume sf) (us ++ (sf, v) :: vs) = us ++ vs := by
  obtain ⟨left, right, -⟩ := sleeping.apart
  have others : ∀ zs : List (Nat × Filock), sf ∉ addrs zs → zs.filter (fun y => y.1 ≠ sf) = zs := by
    intro zs absent
    refine filter_eq_self.mpr fun y mem => ?_
    simpa using fun eq : y.1 = sf => absent (mem_map.mpr ⟨y, mem, eq⟩)
  rw [remaining, filter_append, filter_cons, others us left, others vs right]
  simp

/-- A step is a pass for its request, after the end of a sleep, or leaves all lists as they are. -/
theorem act_cases (tidy : Tidy s) (sleeping : Links s.sleeplcks ys)
    (run : act env s l = some (t, reply)) :
    (∃ r ld s', requestOf s l = some (r, ld) ∧ InRange ld ∧ Tidy s' ∧ s'.locks = s.locks ∧
      Links s'.sleeplcks (remaining l ys) ∧ pass env s' r ld = some (t, reply)) ∨
    (Tidy t ∧ t.locks = s.locks ∧ requestOf s l = none ∧
      ∃ ys', Links t.sleeplcks ys' ∧ ys'.Sublist ys) := by
  cases l with
  | call r =>
    simp only [act, reclock] at run
    split at run
    case h_1 e ld norm =>
      obtain ⟨rfl, -⟩ := Prod.mk.inj (some.inj run)
      exact .inr ⟨tidy, rfl, by simp [requestOf, norm], ys, sleeping, Sublist.refl ys⟩
    case h_2 ld norm =>
      exact .inl ⟨r, ld, s, by simp [requestOf, norm], normalise_inRange norm, tidy, rfl,
        sleeping, run⟩
  | resume sf =>
    simp only [act, bind_eq_bind, bind_eq_some_iff] at run
    obtain ⟨p, search, run⟩ := run
    split at run
    · obtain ⟨s', leave, run⟩ := bind_eq_some_iff.mp run
      have known := tidy.sleepers p (mem_of_find?_eq_some search)
      obtain ⟨same, ⟨us, v, vs, rfl, links⟩, -⟩ := leaveSleep_spec sleeping leave
      have named : p.sf = sf := by simpa using find?_some search
      rw [named] at sleeping
      refine .inl ⟨p.req, p.ld, s', by simp [requestOf, search], known.1,
        leaveSleep_tidy tidy leave, same, ?_, run⟩
      rw [named, remaining_resume sleeping]
      exact links
    · simp at run
  | interrupt sf =>
    simp only [act, Option.bind_eq_bind, Option.bind_eq_some_iff, Option.pure_def,
      some.injEq, Prod.mk.injEq] at run
    obtain ⟨p, search, s', leave, rfl, -⟩ := run
    obtain ⟨same, ⟨us, v, vs, rfl, links⟩, -⟩ := leaveSleep_spec sleeping leave
    exact .inr ⟨leaveSleep_tidy tidy leave, same, rfl, us ++ vs, links, by simp⟩

theorem act_tidy (tidy : Tidy s) (run : act env s l = some (t, reply)) : Tidy t := by
  obtain ⟨ys, sleeping⟩ := tidy.sleeplcks
  rcases act_cases tidy sleeping run with ⟨r, ld, s', -, range, tidy', -, -, run'⟩ |
    ⟨tidy', -⟩
  · exact (pass_cases run').tidy tidy' range
  · exact tidy'

end Steps

theorem boot_tidy : Tidy boot :=
  ⟨fun _ => ⟨[], links_empty, recordList_nil, by simp [Exclusive]⟩, ⟨[], links_empty⟩, by simp [boot]⟩

theorem run_tidy {env : Env} {ls : List Label} {s : Sys} (run : exec (step env) boot ls = some s) :
    Tidy s := by
  refine exec_preserves Tidy (fun s l t tidy take => ?_) boot_tidy run
  obtain ⟨⟨t', reply⟩, act, rfl⟩ := map_eq_some_iff.mp take
  exact act_tidy tidy act

def granted (s : Sys) (l : Label) (reply : Reply) : Option (Req × Flock) :=
  match reply with
  | .returned none _ => (requestOf s l).filter fun x => x.1.setflck
  | _ => none

def updated (f : Int → Option LockType) (vp : Nat) (o : Int × Int) :
    Option (Req × Flock) → Int → Option LockType
  | none => f
  | some (r, ld) =>
      if r.vp = vp ∧ ownerOf ld = o then overwrite f ld.lStart ld.lEnd (asked ld) else f

theorem act_updates {env : Env} {s t : Sys} {l : Label} {reply : Reply} (tidy : Tidy s)
    (take : act env s l = some (t, reply))
    (success : ∀ lckdat, reply ≠ .returned (some .ENOLCK) lckdat) (vp : Nat) (o : Int × Int) :
    lockMap (t.locks vp) o = updated (lockMap (s.locks vp) o) vp o (granted s l reply) := by
  obtain ⟨ys, sleeping⟩ := tidy.sleeplcks
  rcases act_cases tidy sleeping take with
    ⟨r, ld, s', request, range, tidy', same, -, run⟩ | ⟨-, same, none_asked, -⟩
  · rw [← same]
    obtain ⟨elsewhere, xs, xs', links, records, -, links', records', change⟩ :=
      (pass_cases run).vnode tidy' range
    rcases change with ⟨out, set, rfl, adjustment, -⟩ | ⟨spans_same, unset⟩
    · have grant : out.retval = none := adjustment.answer.resolve_right fun failed =>
        success (restore r out.ld) (by rw [failed])
      have asks : granted s l (.returned out.retval (restore r out.ld)) = some (r, ld) := by
        simp [granted, grant, request, set]
      rw [asks, updated]
      by_cases here : r.vp = vp
      · subst here
        rw [lockMap, lockMap, links.contents_eq, links'.contents_eq]
        by_cases own : ownerOf ld = o
        · subst own
          simp [adjustment.overwrites grant]
        · simp [own, adjustment.others o (Ne.symm own)]
      · rw [elsewhere vp (Ne.symm here)]
        simp [here]
    · have none_granted : granted s l reply = none := by
        cases reply with
        | asleep => rfl
        | returned retval lckdat =>
          cases retval with
          | some e => rfl
          | none =>
            have off : ¬ r.setflck = true := fun on => unset lckdat on rfl
            simp [granted, request, off]
      rw [none_granted, updated]
      by_cases here : vp = r.vp
      · subst here
        rw [lockMap, lockMap, links.contents_eq, links'.contents_eq, spans_same]
      · rw [elsewhere vp here]
  · have none_granted : granted s l reply = none := by
      cases reply with
      | asleep => rfl
      | returned retval lckdat => cases retval <;> simp [granted, none_asked]
    rw [same, none_granted, updated]

theorem blocked_exact {l : CellList Filock} {xs : List (Nat × Filock)} {ld : Flock}
    (links : Links l xs) (records : RecordList xs) (proper : ld.lStart ≤ ld.lEnd) :
    ∃ found insrt, blocked l ld = some (found, insrt) ∧
      (found = none ↔ ∀ o b k, o ≠ ownerOf ld → ld.lStart ≤ b → b ≤ ld.lEnd →
        lockMap l o b = some k → k ≠ .wrlck ∧ ld.lType ≠ .wrlck) := by
  obtain ⟨found, insrt, run, none_found, some_found⟩ := blocked_spec proper links records
  refine ⟨found, insrt, run, fun none_there => ?_, fun free => ?_⟩
  · intro o b k other lo hi value
    rw [lockMap, links.contents_eq, (records.separated o).valueAt_eq_some] at value
    obtain ⟨p, mem, start, stop, rfl⟩ := value
    obtain ⟨x, hx, owner, rfl⟩ := mem_spans.mp mem
    simp only [spanOf_lo, spanOf_hi, spanOf_kind] at start stop ⊢
    have overlap : ¬ (x.2.set.lType = .wrlck ∨ ld.lType = .wrlck) := fun mode =>
      (none_found none_there).1 x hx
        ⟨fun eq => other (owner.symm.trans eq), by omega, by omega, mode⟩
    exact not_or.mp overlap
  · cases found with
    | none => rfl
    | some a =>
      obtain ⟨x, hx, -, other, start, stop, mode⟩ := some_found a rfl
      have inside := (records.good x hx).proper
      -- The first byte that both contain.
      have common : ∃ b, ld.lStart ≤ b ∧ b ≤ ld.lEnd ∧ x.2.set.lStart ≤ b ∧ b ≤ x.2.set.lEnd := by
        by_cases early : x.2.set.lStart ≤ ld.lStart
        · exact ⟨ld.lStart, le_refl _, proper, early, stop⟩
        · exact ⟨x.2.set.lStart, by omega, start, le_refl _, inside⟩
      obtain ⟨b, lo, hi, xlo, xhi⟩ := common
      have value : lockMap l (ownerOf x.2.set) b = some x.2.set.lType := by
        rw [lockMap, links.contents_eq, (records.separated _).valueAt_eq_some]
        exact ⟨spanOf x.2.set, mem_spans.mpr ⟨x, hx, rfl, rfl⟩, xlo, xhi, rfl⟩
      obtain ⟨left, right⟩ := free _ b _ other lo hi value
      exact absurd mode (not_or.mpr ⟨left, right⟩)

/-- In every state the lists are well formed, a step that does not fail for want of records
overwrites the caller's range in the byte map and nothing else, blocked finds exactly the conflicts,
and no two owners hold conflicting locks. -/
theorem record_locks_refine_byte_map {env : Env} {ls : List Label} {s : Sys}
    (run : exec (step env) boot ls = some s) :
    (∀ vp, Links (s.locks vp) (contents (s.locks vp)) ∧ RecordList (contents (s.locks vp))) ∧
    (∀ l t reply, act env s l = some (t, reply) →
      (∀ lckdat, reply ≠ .returned (some .ENOLCK) lckdat) → ∀ vp o,
        lockMap (t.locks vp) o = updated (lockMap (s.locks vp) o) vp o (granted s l reply)) ∧
    (∀ vp (ld : Flock), ld.lStart ≤ ld.lEnd → ∃ found insrt,
      blocked (s.locks vp) ld = some (found, insrt) ∧
      (found = none ↔ ∀ o b k, o ≠ ownerOf ld → ld.lStart ≤ b → b ≤ ld.lEnd →
        lockMap (s.locks vp) o b = some k → k ≠ .wrlck ∧ ld.lType ≠ .wrlck)) ∧
    ∀ vp o o' b k k', o ≠ o' → lockMap (s.locks vp) o b = some k →
      lockMap (s.locks vp) o' b = some k' → k = .rdlck ∧ k' = .rdlck := by
  have tidy := run_tidy run
  refine ⟨fun vp => ?_, fun l t reply take success => act_updates tidy take success,
    fun vp ld proper => ?_, fun vp o o' b k k' different first second => ?_⟩ <;>
  obtain ⟨xs, links, records, exclusive⟩ := tidy.locks vp
  · rw [links.contents_eq]
    exact ⟨links, records⟩
  · exact blocked_exact links records proper
  · rw [lockMap, links.contents_eq, (records.separated _).valueAt_eq_some] at first second
    exact exclusive o o' b k k' different first second

def ample : Env := ⟨1000, fun _ => true⟩

def setlk (vp : Nat) (type : LockType) (first last pid : Int) : Req :=
  ⟨vp, ⟨type, 0, first, last - first + 1, 0, pid⟩, true, false, false, true, true, 0, .ok 0⟩

theorem record_locks_refine_byte_map_split :
    ∃ s, exec (step ample) boot [.call (setlk 0 .rdlck 0 9 1), .call (setlk 0 .wrlck 4 5 1)] =
      some s ∧ RecordList (contents (s.locks 0)) := by
  obtain ⟨s, run⟩ := isSome_iff_exists.mp
    (show (exec (step ample) boot [.call (setlk 0 .rdlck 0 9 1),
      .call (setlk 0 .wrlck 4 5 1)]).isSome = true by decide)
  exact ⟨s, run, ((record_locks_refine_byte_map run).1 0).2⟩

end RecordLocks

/- flckadj when flckinfo.reccnt has reached its limit or no memory is left. -/
namespace RecordLocks
open LinkedCells SpanMap LabelledRuns List

def Called (l : CellList Filock) (ld : Flock) (insrtp : Option Nat) : Prop :=
  (ld.lType = .rdlck ∨ ld.lType = .wrlck) ∧ blocked l ld = some (none, insrtp) ∨
    ld.lType = .unlck ∧ insrtp = l.head

theorem Called.entry {l : CellList Filock} {ld : Flock} {insrtp : Option Nat}
    {xs : List (Nat × Filock)} (called : Called l ld insrtp) (range : InRange ld)
    (links : Links l xs) (records : RecordList xs) : Request ld ∧ Entry ld xs insrtp := by
  rcases called with ⟨type, scan⟩ | ⟨type, rfl⟩
  · obtain ⟨found, i, scan', clear, -⟩ := blocked_spec range.proper links records
    obtain ⟨rfl, rfl⟩ := Prod.mk.inj (Option.some.inj (scan'.symm.trans scan))
    exact ⟨range.request (by tauto), (clear rfl).2⟩
  · rw [links.head]
    exact ⟨range.request (by tauto), unlock_entry type⟩

/-- On every reachable list, for all counters and outcomes of kmem_zalloc: a failing call has left
the map alone exactly if it had not edited a record of the caller. -/
theorem failed_update_keeps_map_iff {env : Env} {ls : List Label} {s : Sys}
    (run : exec (step env) boot ls = some s) (vp : Nat) (ld : Flock) (range : InRange ld)
    {insrtp : Option Nat} (called : Called (s.locks vp) ld insrtp) (limits : Env)
    (info : Flckinfo) :
    ∃ out, flckadj limits ⟨s.locks vp, info, []⟩ insrtp ld = some out ∧
      ((out.retval = some .ENOLCK →
          ∀ o, lockMap out.tab.list o = lockMap (s.locks vp) o) ↔
        (Fails limits info ld (spans (ownerOf ld) (contents (s.locks vp))) →
          ¬ EditsBeforeFailing limits info ld (spans (ownerOf ld) (contents (s.locks vp))))) := by
  obtain ⟨xs, links, records, -⟩ := (run_tidy run).locks vp
  obtain ⟨request, entry⟩ := called.entry range links records
  obtain ⟨out, ys, adjust, adjustment⟩ := flckadj_spec limits
    (t := ⟨s.locks vp, info, []⟩) links records request entry
  refine ⟨out, adjust, ?_⟩
  simp only [lockMap, links.contents_eq, adjustment.links.contents_eq]
  constructor
  · intro kept fails
    have failed := adjustment.fails.mpr fails
    exact (adjustment.same failed).mp (kept failed (ownerOf ld))
  · intro untouched failed o
    by_cases own : o = ownerOf ld
    · subst own
      exact (adjustment.same failed).mpr (untouched (adjustment.fails.mp failed))
    · rw [adjustment.others o own]

def scarce : Env := ⟨2, fun _ => true⟩

def middleLock : Flock := ⟨.wrlck, 0, 3, 5, 0, 1⟩

theorem failed_update_keeps_map_iff_middle :
    ∃ s, exec (step scarce) boot [.call (setlk 0 .rdlck 0 9 1)] = some s ∧ ∃ out,
      flckadj scarce ⟨s.locks 0, s.info, []⟩ (s.locks 0).head middleLock = some out ∧
      ((out.retval = some .ENOLCK → ∀ o, lockMap out.tab.list o = lockMap (s.locks 0) o) ↔
        (Fails scarce s.info middleLock (spans (0, 1) (contents (s.locks 0))) →
          ¬ EditsBeforeFailing scarce s.info middleLock (spans (0, 1) (contents (s.locks 0))))) := by
  have started : (exec (step scarce) boot [.call (setlk 0 .rdlck 0 9 1)]).map
      (fun s => decide (blocked (s.locks 0) middleLock = some (none, (s.locks 0).head))) =
        some true := by decide
  obtain ⟨s, run, scan⟩ := Option.map_eq_some_iff.mp started
  exact ⟨s, run, failed_update_keeps_map_iff run 0 middleLock
    ⟨by decide, by decide, by decide⟩ (.inl ⟨.inr rfl, of_decide_eq_true scan⟩) scarce s.info⟩

/-- With room for one record, locking the middle of a read lock for writing sets up the piece behind
it, trims the read lock and fails: byte 4 is no longer locked. -/
theorem failed_update_loses_bytes :
    (exec (step scarce) boot [.call (setlk 0 .rdlck 0 9 1)]).bind (fun s =>
      (flckadj scarce ⟨s.locks 0, s.info, []⟩ (s.locks 0).head middleLock).map fun out =>
        (out.retval, lockMap (s.locks 0) (0, 1) 4, lockMap out.tab.list (0, 1) 4)) =
      some (some .ENOLCK, some .rdlck, none) := by
  decide

end RecordLocks
