import Svr4.Flock.Adjust

/- The loop of flckadj and the insertion that ends it. -/
namespace RecordLocks
open LinkedCells SpanMap List

theorem regflck_eq {ld f : Flock} (proper : ld.lStart ≤ ld.lEnd) (inside : f.lStart ≤ f.lEnd) :
    regflck ld f =
      if f.lEnd + 1 < ld.lStart then (.sAfter, .eAfter)
      else if f.lEnd + 1 = ld.lStart then (.sEnd, .eAfter)
      else if ld.lEnd + 1 < f.lStart then (.sBefore, .eBefore)
      else if ld.lEnd + 1 = f.lStart then (.sBefore, .eStart)
      else (if f.lStart < ld.lStart then .sMiddle else if f.lStart = ld.lStart then .sStart else .sBefore,
        if ld.lEnd < f.lEnd then .eMiddle else if ld.lEnd = f.lEnd then .eEnd else .eAfter) := by
  simp only [regflck]
  split_ifs <;> first | rfl | omega

section Steps
variable (env : Env) {t₀ : Tab} {ld₀ : Flock} {xs₀ done rest ys : List (Nat × Filock)} {s : Scan}
  {old : List (Span LockType)} {a : Nat} {v : Filock} {i : Option Nat}

theorem Scanning.starts_before (h : Scanning t₀ ld₀ xs₀ s done ((a, v) :: rest) old) :
    ∀ x ∈ done, x.2.set.lStart ≤ v.set.lStart := fun x mem =>
  (pairwise_append.mp h.records.ordered).2.2 x mem (a, v) (by simp)

theorem Scanning.starts_behind (h : Scanning t₀ ld₀ xs₀ s done ((a, v) :: rest) old) :
    ∀ x ∈ rest, v.set.lStart ≤ x.2.set.lStart := fun x mem =>
  (pairwise_cons.mp (pairwise_append.mp h.records.ordered).2.1).1 x mem

/-- What one record of the owner leads to. -/
inductive Adjusted (env : Env) (t₀ : Tab) (ld₀ : Flock) (xs₀ rest : List (Nat × Filock))
    (s : Scan) (v : Filock) (s' : Scan) : Prop where
  | onwards (done' : List (Nat × Filock)) (old' : List (Span LockType))
      (scanning : Scanning t₀ ld₀ xs₀ s' done' rest old')
  | stopped (ys : List (Nat × Filock)) (next : s'.nflp = none) (going : s'.retval = none)
      (settled : Settled env t₀ ld₀ xs₀ s' ys)
  | covered (retval : s'.retval = some none) (tab : s'.tab = s.tab) (list : Links s.tab.list xs₀)
      (lock : s'.ld = ld₀) (covers : Covers ld₀ (spanOf v.set))
  | failed (retval : s'.retval = some (some .ENOLCK)) (list : s'.tab.list = s.tab.list)
      (overhangs : Overhangs ld₀ (spanOf v.set)) (full : ¬ Room env s.tab.info)

section
variable (h : Scanning t₀ ld₀ xs₀ s done ((a, v) :: rest) old)
include h

section
variable (own : ownerOf v.set = ownerOf ld₀) (type : v.set.lType ≠ ld₀.lType)
include own type

theorem Scanning.cut_delete (late : s.ld.lStart ≤ v.set.lStart) (reach : v.set.lStart ≤ ld₀.lEnd)
    (beyond : ld₀.lEnd < v.set.lEnd) (hint : Hint s.ld i (done ++ rest)) :
    ∃ s', splitMiddle env { s with nflp := firstOf rest, insrtp := i } a v.set false = some s' ∧
      Adjusted env t₀ ld₀ xs₀ rest s v s' := by
  have different : s.ld.lType ≠ v.set.lType := fun eq => type (eq.symm.trans h.lType)
  rcases h.insertPiece_spec env with ⟨full, t', run, list⟩ |
    ⟨room, t', n, mid, behind, rfl, run, links, reccnt, zallocs, early, late'⟩
  · exact ⟨_, by simp only [splitMiddle, different, if_false, run]; rfl,
      .failed rfl list ⟨type, reach, beyond⟩ full⟩
  obtain ⟨t'', delete, links', info⟩ := delflck_spec links
  have gone := h.deletes_late own late reach
  refine ⟨{ s with tab := t'', insrtp := i, nflp := none }, ?_, .stopped
    ((done ++ mid) ++ (n, v.tail ld₀.lEnd) :: behind) rfl h.going ?_⟩
  · simp only [splitMiddle, different, if_false, run]
    simp [delete]
  · refine h.split_off own beyond early h.clear type reach room late' h.records.remove
      h.starts_before (fun _ _ => rfl)
      (fun b k before => h.keeps_gone before (lt_of_lt_of_le before late) k) hint
      (by simpa using links') ?_ ?_
    · simp [info, reccnt, gone]
    · simp [info, zallocs]

theorem Scanning.cut_middle (early : v.set.lStart < s.ld.lStart) (beyond : ld₀.lEnd < v.set.lEnd) :
    ∃ s', splitMiddle env { s with nflp := firstOf rest } a v.set true = some s' ∧
      Adjusted env t₀ ld₀ xs₀ rest s v s' := by
  have different : s.ld.lType ≠ v.set.lType := fun eq => type (eq.symm.trans h.lType)
  have left := h.left
  have order := h.request.proper
  have reach : v.set.lStart ≤ ld₀.lEnd := by omega
  rcases h.insertPiece_spec env with ⟨full, t', run, list⟩ |
    ⟨room, t', n, mid, behind, rfl, run, links, reccnt, zallocs, early', late'⟩
  · exact ⟨_, by simp only [splitMiddle, different, if_false, run]; rfl,
      .failed rfl list ⟨type, reach, beyond⟩ full⟩
  obtain ⟨t'', cut, links', info⟩ := setEnd_spec links (s.ld.lStart - 1)
  obtain ⟨t₃, st, wake, links₃, info₃⟩ := wakeup_spec links'
  have trimmed := h.records.trim (s.ld.lStart - 1) st (by omega) (by omega)
  have stays : ¬ Deletes ld₀ (spanOf v.set) := by
    rintro ⟨-, gone⟩
    refine gone ⟨?_, type⟩
    simp only [spanOf_lo]
    omega
  refine ⟨{ s with tab := t₃, insrtp := some a, nflp := none }, ?_, .stopped
    ((done ++ [(a, v.head s.ld.lStart st)] ++ mid) ++
      (n, v.tail ld₀.lEnd) :: behind) rfl h.going ?_⟩
  · simp only [splitMiddle, different, if_false, run]
    simp [cut, wake]
  · refine h.split_off own beyond early' (h.clear_trimmed own st type) type reach room late'
      (by simpa [Filock.head] using trimmed) ?_ ?_ (h.keeps_trimmed own st (by omega)) ?_
      (by simpa [Filock.head] using links₃) ?_ ?_
    · exact forall_mem_append.mpr ⟨h.starts_before, forall_mem_singleton.mpr (le_refl _)⟩
    · intro o other
      rw [spans_append,
        spans_elsewhere (v := v.head s.ld.lStart st) own other, spans_nil,
        append_nil]
    · exact .inr ⟨(a, v.head s.ld.lStart st), by simp, rfl,
        le_of_lt early⟩
    · simp [info₃, info, reccnt, stays]
    · simp [info₃, info, zallocs]

end

theorem Scanning.behind_of_next
    (own : ownerOf v.set = ownerOf ld₀) (behind : Before (spanOf s.ld) (spanOf v.set)) :
    ∀ r ∈ spans (ownerOf ld₀) ((a, v) :: rest), Before (spanOf s.ld) r := by
  obtain ⟨-, next, -⟩ := h.neighbours own
  rw [spans_here own]
  intro r mem
  rcases mem_cons.mp mem with rfl | mem
  · exact behind
  · exact behind.trans (h.records.good (a, v) (by simp)).proper (next r mem)

theorem Scanning.hint_prev (same : v.set.lStart = s.ld.lStart) :
    Hint s.ld (lastOf done) (done ++ rest) :=
  hint_of_last (fun x mem => by have := h.starts_before x mem; omega)
    fun _ x mem => by have := h.starts_behind x mem; omega

theorem Scanning.inside (own : ownerOf v.set = ownerOf ld₀) (type : v.set.lType = ld₀.lType)
    (early : v.set.lStart ≤ s.ld.lStart) (beyond : ld₀.lEnd ≤ v.set.lEnd) (i : Option Nat) :
    Adjusted env t₀ ld₀ xs₀ rest s v
      { s with nflp := firstOf rest, insrtp := i, retval := some none } := by
  obtain ⟨same, list, -⟩ := h.start (r := spanOf v.set) (by simp [spans_here own]) early
  refine .covered rfl rfl ?_ ?_ ⟨type, ?_, beyond⟩
  · rw [← list]
    exact h.links
  · simp only
    rw [h.lock, same]
  · simp only [spanOf_lo]
    omega

section
variable (own : ownerOf v.set = ownerOf ld₀)
include own

theorem Scanning.trimEnd_spec (type : v.set.lType ≠ ld₀.lType) (early : v.set.lStart < s.ld.lStart)
    (reach : s.ld.lStart ≤ v.set.lEnd) (within : v.set.lEnd ≤ ld₀.lEnd) :
    ∃ s', trimEnd { s with nflp := firstOf rest } a = some s' ∧
      Adjusted env t₀ ld₀ xs₀ rest s v s' := by
  obtain ⟨t, cut, links, info⟩ := setEnd_spec h.links (s.ld.lStart - 1)
  obtain ⟨t', st, wake, links', info'⟩ := wakeup_spec links
  exact ⟨{ s with tab := t', nflp := firstOf rest, insrtp := some a },
    by simp [trimEnd, cut, wake],
    .onwards _ _ (h.trim own type early reach within links' (info'.trans info))⟩

theorem Scanning.joinLeft_spec (type : v.set.lType = ld₀.lType) (early : v.set.lStart < s.ld.lStart)
    (reach : s.ld.lStart - 1 ≤ v.set.lEnd) (within : v.set.lEnd < ld₀.lEnd) :
    ∃ s', joinLeft { s with nflp := firstOf rest } a v.set (lastOf done) = some s' ∧
      Adjusted env t₀ ld₀ xs₀ rest s v s' := by
  obtain ⟨t, run, links, info⟩ := delflck_spec h.links
  exact ⟨⟨t, lastOf done, { s.ld with lStart := v.set.lStart }, firstOf rest, s.retval⟩,
    by simp [joinLeft, run],
    .onwards _ _ (h.join own type early reach within links info)⟩

end

theorem Scanning.unlink_spec (next : Option Nat)
    (own : ownerOf v.set = ownerOf ld₀)
    (late : s.ld.lStart ≤ v.set.lStart) (within : v.set.lEnd ≤ ld₀.lEnd)
    (uncovered : ¬ Covers ld₀ (spanOf v.set)) (hint : Hint s.ld i (done ++ rest))
    (stop : next = firstOf rest ∨ next = none ∧ v.set.lEnd = ld₀.lEnd ∧ v.set.lType = ld₀.lType) :
    ∃ s', unlinkRecord { s with nflp := next, insrtp := i } a = some s' ∧
      Adjusted env t₀ ld₀ xs₀ rest s v s' := by
  obtain ⟨t, run, links, info⟩ := delflck_spec h.links
  have scanning := h.engulf own late within uncovered links info hint
  refine ⟨{ s with tab := t, nflp := next, insrtp := i }, by simp [unlinkRecord, run], ?_⟩
  rcases stop with rfl | ⟨rfl, ends, type⟩
  · exact .onwards _ _ scanning
  · refine .stopped _ rfl h.going (scanning.settle fun r mem => ?_)
    obtain ⟨-, behind, -⟩ := h.neighbours own
    obtain ⟨gap, apart⟩ := behind r mem
    simp only [spanOf_hi, spanOf_kind, ends, type] at gap apart
    refine ⟨?_, fun eq => ?_⟩
    · simpa [h.lEnd] using gap
    · simpa [h.lEnd] using apart (h.lType.symm.trans eq)

section
variable (own : ownerOf v.set = ownerOf ld₀)
include own

theorem Scanning.extend_spec (type : v.set.lType = ld₀.lType) (late : s.ld.lStart < v.set.lStart)
    (reach : v.set.lStart ≤ ld₀.lEnd + 1) (beyond : ld₀.lEnd < v.set.lEnd) :
    ∃ t, delflck s.tab a = some t ∧ Adjusted env t₀ ld₀ xs₀ rest s v
      { s with tab := t, nflp := none, ld := { s.ld with lEnd := v.set.lEnd } } := by
  obtain ⟨t, run, links, info⟩ := delflck_spec h.links
  exact ⟨t, run, .stopped _ rfl h.going
    (h.extend own type late reach beyond links info)⟩

theorem adjustOne_spec :
    ∃ s', adjustOne env { s with nflp := firstOf rest } a v.set (lastOf done) = some s' ∧
      Adjusted env t₀ ld₀ xs₀ rest s v s' := by
  have proper : s.ld.lStart ≤ s.ld.lEnd := by
    have := h.left
    have := h.request.proper
    rw [h.lEnd]
    omega
  have inside : v.set.lStart ≤ v.set.lEnd := (h.records.good (a, v) (by simp)).proper
  have region := regflck_eq proper inside
  have ends := h.lEnd
  have type := h.lType
  have leads : ∀ {r}, adjustOne env { s with nflp := firstOf rest } a v.set (lastOf done) = r →
      (∃ s', r = some s' ∧ Adjusted env t₀ ld₀ xs₀ rest s v s') →
      ∃ s', adjustOne env { s with nflp := firstOf rest } a v.set (lastOf done) = some s' ∧
        Adjusted env t₀ ld₀ xs₀ rest s v s' := by
    rintro _ rfl leads
    exact leads
  by_cases after : v.set.lEnd + 1 < s.ld.lStart
  · rw [if_pos after] at region
    refine ⟨{ s with nflp := firstOf rest, insrtp := some a }, by simp [adjustOne, region],
      .onwards _ _ (h.pass own ⟨?_, fun _ => after⟩ (.inr ⟨(a, v), by simp, rfl, ?_⟩))⟩
    · simp only [spanOf_hi, spanOf_lo]
      omega
    · simp only
      omega
  rw [if_neg after] at region
  by_cases touch : v.set.lEnd + 1 = s.ld.lStart
  · rw [if_pos touch] at region
    by_cases same : s.ld.lType = v.set.lType
    · exact leads (by simp [adjustOne, region, same]) (h.joinLeft_spec env own
        (same.symm.trans type) (by omega) (by omega) (by omega))
    · refine ⟨{ s with nflp := firstOf rest }, by simp [adjustOne, region, same],
        .onwards _ _ (h.pass own ⟨?_, fun eq => absurd eq.symm same⟩ h.hint)⟩
      simp only [spanOf_hi, spanOf_lo]
      omega
  rw [if_neg touch] at region
  by_cases beyond : s.ld.lEnd + 1 < v.set.lStart
  · rw [if_pos beyond] at region
    refine ⟨{ s with nflp := none }, by simp [adjustOne, region], .stopped _ rfl h.going
      (h.settle (h.behind_of_next own ⟨?_, fun _ => beyond⟩))⟩
    simp only [spanOf_hi, spanOf_lo]
    omega
  rw [if_neg beyond] at region
  by_cases next : s.ld.lEnd + 1 = v.set.lStart
  · rw [if_pos next] at region
    by_cases same : s.ld.lType = v.set.lType
    · obtain ⟨t, run, adjusted⟩ := h.extend_spec env own
        (same.symm.trans type) (by omega) (by omega) (by omega)
      exact ⟨_, by simp [adjustOne, region, same, unlinkRecord, run], adjusted⟩
    · refine ⟨{ s with nflp := none }, by simp [adjustOne, region, same], .stopped _ rfl h.going
        (h.settle (h.behind_of_next own ⟨?_, fun eq => absurd eq same⟩))⟩
      simp only [spanOf_hi, spanOf_lo]
      omega
  rw [if_neg next] at region
  rcases lt_trichotomy v.set.lStart s.ld.lStart with early | start | late
  · -- S_MIDDLE
    rw [if_pos early] at region
    by_cases same : s.ld.lType = v.set.lType
    · by_cases within : v.set.lEnd < s.ld.lEnd
      · rw [if_neg (by omega), if_neg (by omega)] at region
        exact leads (by simp [adjustOne, region, same]) (h.joinLeft_spec env own
          (same.symm.trans type) early (by omega) (by omega))
      · refine ⟨_, ?_, h.inside env own (same.symm.trans type) (le_of_lt early) (by omega) s.insrtp⟩
        rcases lt_or_eq_of_le (not_lt.mp within) with beyond | exact_end
        · rw [if_pos beyond] at region
          simp [adjustOne, region, same]
        · rw [if_neg (by omega), if_pos exact_end] at region
          simp [adjustOne, region, same]
    · have different : v.set.lType ≠ ld₀.lType := fun eq => same (type.trans eq.symm)
      by_cases beyond : s.ld.lEnd < v.set.lEnd
      · rw [if_pos beyond] at region
        exact leads (by simp [adjustOne, region, same]) (h.cut_middle env own
          different early (by omega))
      rw [if_neg beyond] at region
      obtain ⟨s', run, adjusted⟩ := h.trimEnd_spec env own different early
        (by omega) (by omega)
      refine ⟨s', ?_, adjusted⟩
      by_cases exact_end : s.ld.lEnd = v.set.lEnd
      · rw [if_pos exact_end] at region
        simpa [adjustOne, region, same] using run
      · rw [if_neg exact_end] at region
        simpa [adjustOne, region, same] using run
  · -- S_START
    rw [if_neg (by omega), if_pos start] at region
    have hint := h.hint_prev start
    by_cases beyond : s.ld.lEnd < v.set.lEnd
    · rw [if_pos beyond] at region
      by_cases same : s.ld.lType = v.set.lType
      · exact ⟨_, by simp [adjustOne, region, same],
          h.inside env own (same.symm.trans type) (le_of_eq start) (by omega) (lastOf done)⟩
      · exact leads (by simp [adjustOne, region, same]) (h.cut_delete env own (fun
          eq => same (type.trans eq.symm)) (by omega) (by omega) (by omega) hint)
    · rw [if_neg beyond] at region
      by_cases exact_end : s.ld.lEnd = v.set.lEnd
      · rw [if_pos exact_end] at region
        by_cases same : s.ld.lType = v.set.lType
        · exact ⟨_, by simp [adjustOne, region, same],
            h.inside env own (same.symm.trans type) (le_of_eq start) (by omega) s.insrtp⟩
        · exact leads (by simp [adjustOne, region, same]) (h.unlink_spec env (firstOf rest) own
            (by omega) (by omega) (fun covers => same (type.trans covers.1.symm)) hint
            (.inl rfl))
      · rw [if_neg exact_end] at region
        have short : ¬ Covers ld₀ (spanOf v.set) := not_covers_of_short (by omega)
        exact leads (by simp [adjustOne, region])
          (h.unlink_spec env (firstOf rest) own (by omega) (by omega) short hint (.inl rfl))
  · -- S_BEFORE
    rw [if_neg (by omega), if_neg (by omega)] at region
    have hint : Hint s.ld s.insrtp (done ++ rest) := h.hint.remove late
    have uncovered := h.not_covers own late
    by_cases beyond : s.ld.lEnd < v.set.lEnd
    · rw [if_pos beyond] at region
      by_cases same : s.ld.lType = v.set.lType
      · obtain ⟨t, run, adjusted⟩ := h.extend_spec env own
          (same.symm.trans type) late (by omega) (by omega)
        exact ⟨_, by simp [adjustOne, region, same, splitMiddle, run], adjusted⟩
      · exact leads (by simp [adjustOne, region]) (h.cut_delete env own (fun
          eq => same (type.trans eq.symm)) (by omega) (by omega) (by omega) hint)
    · rw [if_neg beyond] at region
      by_cases exact_end : s.ld.lEnd = v.set.lEnd
      · rw [if_pos exact_end] at region
        by_cases same : s.ld.lType = v.set.lType
        · exact leads (by simp [adjustOne, region, same]) (h.unlink_spec env none own (by omega)
            (by omega) uncovered hint (.inr ⟨rfl, by omega, same.symm.trans type⟩))
        · exact leads (by simp [adjustOne, region, same])
            (h.unlink_spec env (firstOf rest) own (by omega) (by omega) uncovered hint (.inl rfl))
      · rw [if_neg exact_end] at region
        exact leads (by simp [adjustOne, region])
          (h.unlink_spec env (firstOf rest) own (by omega) (by omega) uncovered hint (.inl rfl))

end

end

/-- How the scan ends: with the insertion into a settled list, or early. -/
inductive Ended (env : Env) (t₀ : Tab) (ld₀ : Flock) (xs₀ : List (Nat × Filock)) (s' : Scan) :
    Prop where
  | inserting (s : Scan) (ys : List (Nat × Filock)) (settled : Settled env t₀ ld₀ xs₀ s ys)
      (run : insertLock env s = some s')
  | covered (retval : s'.retval = some none) (list : Links s'.tab.list xs₀) (lock : s'.ld = ld₀)
      (covers : ∃ p ∈ spans (ownerOf ld₀) xs₀, Covers ld₀ p)
  | failed (s : Scan) (done rest : List (Nat × Filock)) (a : Nat) (v : Filock)
      (old : List (Span LockType)) (scanning : Scanning t₀ ld₀ xs₀ s done ((a, v) :: rest) old)
      (own : ownerOf v.set = ownerOf ld₀) (retval : s'.retval = some (some .ENOLCK))
      (list : s'.tab.list = s.tab.list) (overhangs : Overhangs ld₀ (spanOf v.set))
      (full : ¬ Room env s.tab.info)

theorem Settled.insertLock_spec (h : Settled env t₀ ld₀ xs₀ s ys) :
    ∃ s', insertLock env s = some s' ∧
      ((ld₀.lType = .unlck ∧ s'.retval = some none ∧ s'.tab = s.tab) ∨
      (ld₀.lType ≠ .unlck ∧ ¬ Room env s.tab.info ∧ s'.retval = some (some .ENOLCK) ∧
        s'.tab.list = s.tab.list) ∨
      (ld₀.lType ≠ .unlck ∧ Room env s.tab.info ∧ s'.retval = some none ∧
        ∃ us vs n, ys = us ++ vs ∧ Links s'.tab.list (us ++ (n, ⟨s.ld, ⟨0, 0⟩⟩) :: vs) ∧
          RecordList (us ++ (n, ⟨s.ld, ⟨0, 0⟩⟩) :: vs))) := by
  have type : s.ld.lType = ld₀.lType := by rw [h.lock]
  have owner : ownerOf s.ld = ownerOf ld₀ := by
    rw [h.lock]
    rfl
  by_cases unlock : ld₀.lType = .unlck
  · exact ⟨{ s with retval := some none }, by simp [insertLock, type, unlock],
      .inl ⟨unlock, rfl, rfl⟩⟩
  have lock : s.ld.lType ≠ .unlck := by rwa [type]
  have place : ∃ us vs, ys = us ++ vs ∧ lockPlace s = some (lastOf us) ∧
      (∀ x ∈ us, x.2.set.lStart ≤ s.ld.lStart) ∧ ∀ x ∈ vs, s.ld.lStart ≤ x.2.set.lStart := by
    have hint := h.hint.resolve_left lock
    cases at_head : s.insrtp with
    | none =>
      rw [at_head] at hint
      exact ⟨[], ys, rfl, by simp [lockPlace, at_head], by simp, hint⟩
    | some a =>
      rw [at_head] at hint
      obtain ⟨⟨b, v⟩, mem, rfl, early⟩ := hint
      obtain ⟨pre, post, rfl⟩ := append_of_mem mem
      obtain ⟨mid, vs, c, rfl, run, last, before, behind⟩ :=
        seekStart_spec s.ld.lStart h.links h.records
      refine ⟨pre ++ (b, v) :: mid, vs, by simp, by simp [lockPlace, at_head, run, last], ?_, behind⟩
      intro x hx
      simp only [mem_append, mem_cons] at hx
      rcases hx with hx | rfl | hx
      · have ordered := (pairwise_append.mp h.records.ordered).2.2 x hx (b, v) (by simp)
        exact le_trans ordered early
      · exact early
      · exact le_of_lt (before x hx)
  obtain ⟨us, vs, rfl, found, before, behind⟩ := place
  have left := h.left
  have right := h.right
  have order := h.request.proper
  rcases insflck_spec env s.ld h.links with ⟨full, t', run, list⟩ | ⟨room, t', n, run, links, -⟩
  · refine ⟨{ s with tab := t', retval := some (some .ENOLCK) }, ?_,
      .inr (.inl ⟨unlock, full, rfl, list⟩)⟩
    simp [insertLock, lock, found, run]
  refine ⟨{ s with tab := t', retval := some none }, ?_,
    .inr (.inr ⟨unlock, room, rfl, us, vs, n, rfl, links, ?_⟩)⟩
  · simp [insertLock, lock, found, run]
  · have proper := h.records.proper (ownerOf ld₀)
    have clear := h.clear
    rw [spans_append] at proper clear
    refine h.records.insert ⟨h.low, by omega, h.high, ?_⟩ before behind ?_ ?_
    · rw [type]
      rcases h.request.type with rd | wr | un
      · exact .inl rd
      · exact .inr wr
      · exact absurd un unlock
    · intro p mem
      rw [owner] at mem
      refine (clear p (mem_append.mpr (.inl mem))).resolve_right fun wrong => ?_
      obtain ⟨x, hx, -, rfl⟩ := mem_spans.mp mem
      have := before x hx
      have := wrong.1
      simp only [spanOf_hi, spanOf_lo] at *
      omega
    · intro p mem
      rw [owner] at mem
      refine (clear p (mem_append.mpr (.inr mem))).resolve_left fun wrong => ?_
      have inside := proper p (mem_append.mpr (.inr mem))
      obtain ⟨x, hx, -, rfl⟩ := mem_spans.mp mem
      have := behind x hx
      have := wrong.1
      simp only [spanOf_hi, spanOf_lo] at *
      omega

theorem adjustLoop_inserts (h : Settled env t₀ ld₀ xs₀ s ys) (next : s.nflp = none) (fuel : Nat) :
    ∃ s', adjustLoop env (fuel + 1) s = some s' ∧ Ended env t₀ ld₀ xs₀ s' := by
  obtain ⟨s', run, -⟩ := h.insertLock_spec env
  exact ⟨s', by simp [adjustLoop, next, run], .inserting s ys h run⟩

theorem adjustLoop_spec (fuel : Nat) (enough : rest.length < fuel) (h : Scanning t₀ ld₀ xs₀ s done rest old) :
    ∃ s', adjustLoop env fuel s = some s' ∧ Ended env t₀ ld₀ xs₀ s' := by
  induction rest generalizing s done old fuel with
  | nil =>
    cases fuel with
    | zero => simp at enough
    | succ fuel =>
      have next : s.nflp = none := by simpa using h.next
      have settled : Settled env t₀ ld₀ xs₀ { s with nflp := none } (done ++ []) :=
        h.settle (by simp)
      rw [← next] at settled
      exact adjustLoop_inserts env settled next fuel
  | cons x rest ih =>
    obtain ⟨a, v⟩ := x
    cases fuel with
    | zero => simp at enough
    | succ fuel =>
      have ahead : rest.length < fuel := by simpa using enough
      have next : s.nflp = some a := by simpa using h.next
      have here := h.links.cell_eq
      by_cases own : ownerOf v.set = ownerOf ld₀
      · have same : SAMEOWNER v.set s.ld := (sameowner_iff _ _).mpr (own.trans h.owner.symm)
        obtain ⟨s', run, adjusted⟩ := adjustOne_spec env h own
        have step : adjustLoop env (fuel + 1) s =
            if s'.retval.isSome then some s' else adjustLoop env fuel s' := by
          simp only [adjustLoop, next, here, Option.bind_eq_bind, Option.bind_some, same, if_true,
            run]
          split <;> rfl
        rw [step]
        cases adjusted with
        | onwards done' old' scanning =>
          obtain ⟨s'', run', ended⟩ := ih fuel ahead scanning
          exact ⟨s'', by simpa [scanning.going] using run', ended⟩
        | stopped ys stop going settled =>
          cases fuel with
          | zero => simp at ahead
          | succ fuel =>
            obtain ⟨s'', run', ended⟩ := adjustLoop_inserts env settled stop fuel
            exact ⟨s'', by simpa [going] using run', ended⟩
        | covered retval tab list lock covers =>
          refine ⟨s', by simp [retval], .covered retval (by rw [tab]; exact list) lock ?_⟩
          refine ⟨spanOf v.set, ?_, covers⟩
          rw [h.split, spans_own (x := (a, v)) own]
          simp
        | failed retval list overhangs full =>
          exact ⟨s', by simp [retval], .failed s done rest a v old h own retval list overhangs full⟩
      · have other : ¬ SAMEOWNER v.set s.ld := fun same =>
          own (((sameowner_iff _ _).mp same).trans h.owner)
        obtain ⟨s', run, ended⟩ := ih fuel ahead (h.skip own)
        exact ⟨s', by simpa [adjustLoop, next, here, other] using run, ended⟩

end Steps

end RecordLocks
