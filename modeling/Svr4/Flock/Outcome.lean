import Svr4.Flock.Flckadj

/- What a call of flckadj does to the map from owners and bytes to lock types: an
   exact overwrite when it succeeds, and when it fails a condition for the map to
   have been left alone. -/
namespace RecordLocks
open LinkedCells SpanMap

/-- The scan may start at `insrtp`: own records before it neither overlap nor touch. -/
structure Entry (ld : Flock) (xs : List (Nat × Filock)) (insrtp : Option Nat) : Prop where
  split : ∃ done rest, xs = done ++ rest ∧
    (if insrtp.isNone then firstOf xs else insrtp) = firstOf rest ∧
    ∀ p ∈ spans (ownerOf ld) done, p.hi + 1 < ld.lStart
  hint : Hint ld insrtp xs

def asked (ld : Flock) : Option LockType := if ld.lType = .unlck then none else some ld.lType

def Fails (env : Env) (info : Flckinfo) (ld : Flock) (l : List (Span LockType)) : Prop :=
  (∀ p ∈ l, ¬ Covers ld p) ∧
    (((∃ p ∈ l, Overhangs ld p) ∧ ¬ TailRoom env info ld l) ∨
      (ld.lType ≠ .unlck ∧ ¬ LockRoom env info ld l))

def EditsBeforeFailing (env : Env) (info : Flckinfo) (ld : Flock) (l : List (Span LockType)) :
    Prop :=
  if (∃ p ∈ l, Overhangs ld p) ∧ ¬ TailRoom env info ld l then
    ∃ p ∈ l, Edits ld p ∧ p.hi ≤ ld.lEnd
  else ∃ p ∈ l, Edits ld p

section Outcome
variable {env : Env} {t₀ t : Tab} {ld₀ ld : Flock} {xs₀ done rest ys xs : List (Nat × Filock)}
  {s : Scan} {old : List (Span LockType)} {a : Nat} {v : Filock} {insrtp : Option Nat}

theorem Entry.scanning (entry : Entry ld xs insrtp) (request : Request ld) (links : Links t.list xs)
    (records : RecordList xs) :
    ∃ done rest, xs = done ++ rest ∧ Scanning t ld xs
      ⟨t, insrtp, ld, if insrtp.isNone then t.list.head else insrtp, none⟩ done rest
      (spans (ownerOf ld) done) := by
  obtain ⟨done, rest, rfl, next, apart⟩ := entry.split
  have proper := request.proper
  have untouched : ∀ p ∈ spans (ownerOf ld) done, ¬ Edits ld p := by
    rintro p mem (⟨reach, -⟩ | ⟨-, touch | touch⟩)
    · have := apart p mem
      omega
    · have := apart p mem
      omega
    · have := apart p mem
      have inside := records.proper (ownerOf ld) p (by simp [mem])
      omega
  exact ⟨done, rest, rfl, {
    request := request
    separated := records.separated _
    links := links
    next := by rw [links.head]; exact next
    going := rfl
    records := records
    others := fun _ _ => rfl
    split := spans_append _ _ _
    lock := rfl
    low := request.low
    left := le_refl _
    clear := by
      intro d mem
      have := apart d mem
      refine ⟨?_, fun _ => ?_⟩ <;> simp only [spanOf_lo] <;> omega
    keeps := fun _ _ _ => Iff.rfl
    joined := by
      intro b lo hi
      simp only at lo
      omega
    past := by
      intro p mem
      have := apart p mem
      omega
    bare := by
      rintro p mem ⟨-, -, ends⟩
      have := apart p mem
      omega
    hint := entry.hint
    count := by
      have none_deleted : (spans (ownerOf ld) done).countP (Deletes ld ·) = 0 :=
        List.countP_eq_zero.mpr fun p mem => by simpa using fun gone => untouched p mem gone.1
      simp [none_deleted]
    memory := rfl
    edited := .inl ⟨rfl, rfl, untouched⟩ }⟩

theorem RecordList.not_unlck (records : RecordList xs₀) (o : Int × Int) (b : Int) :
    ¬ Holds (spans o xs₀) b .unlck := by
  rintro ⟨p, mem, -, -, kind⟩
  obtain ⟨x, hx, -, rfl⟩ := mem_spans.mp mem
  rcases (records.good x hx).type with type | type <;> simp [type] at kind

section
variable (h : Settled env t₀ ld₀ xs₀ s ys)
include h

theorem Settled.free {b : Int} (lo : s.ld.lStart ≤ b) (hi : b ≤ s.ld.lEnd) (k : LockType) :
    ¬ Holds (spans (ownerOf ld₀) ys) b k := by
  refine not_holds_of_clear (fun p mem => ?_) k
  rcases h.clear p mem with ⟨ends, -⟩ | ⟨starts, -⟩
  · simp only [spanOf_lo] at ends
    omega
  · simp only [spanOf_hi] at starts
    omega

theorem Settled.overwrites (records : RecordList xs₀) {l : List (Span LockType)}
    (inserted : ∀ b k, Holds l b k ↔ (ld₀.lType ≠ .unlck ∧ s.ld.lStart ≤ b ∧ b ≤ s.ld.lEnd ∧
      ld₀.lType = k) ∨ Holds (spans (ownerOf ld₀) ys) b k) (b : Int) (k : LockType) :
    Holds l b k ↔ if ld₀.lStart ≤ b ∧ b ≤ ld₀.lEnd then ld₀.lType ≠ .unlck ∧ ld₀.lType = k
      else Holds (spans (ownerOf ld₀) xs₀) b k := by
  have left := h.left
  have right := h.right
  rw [inserted]
  by_cases inside : ld₀.lStart ≤ b ∧ b ≤ ld₀.lEnd
  · have free := h.free (b := b) (by omega) (by omega) k
    have lo : s.ld.lStart ≤ b := by omega
    have hi : b ≤ s.ld.lEnd := by omega
    simp [inside, free, lo, hi]
  rw [if_neg inside]
  by_cases grown : s.ld.lStart ≤ b ∧ b ≤ s.ld.lEnd
  · have free := h.free grown.1 grown.2 k
    have held := h.joined b grown.1 grown.2 (by omega)
    have lock : ld₀.lType ≠ .unlck := fun eq => records.not_unlck _ b (eq ▸ held)
    simp only [free, or_false, grown.1, grown.2, true_and]
    constructor
    · rintro ⟨-, rfl⟩
      exact held
    · intro other
      exact ⟨lock, (records.separated _).unique held other⟩
  · rw [h.keeps b k (by omega)]
    exact ⟨fun either => either.resolve_left fun here => grown ⟨here.2.1, here.2.2.1⟩, Or.inr⟩

theorem Settled.same_iff (records : RecordList xs₀) (request : Request ld₀) :
    (∀ b, valueAt (spans (ownerOf ld₀) ys) b = valueAt (spans (ownerOf ld₀) xs₀) b) ↔
      ¬ ∃ p ∈ spans (ownerOf ld₀) xs₀, Edits ld₀ p := by
  have left := h.left
  have right := h.right
  have proper := request.proper
  simp only [fun b => (h.records.separated (ownerOf ld₀)).valueAt_eq_iff
    (records.separated (ownerOf ld₀)) b]
  constructor
  · rintro same ⟨p, mem, edits⟩
    have inside := records.proper _ p mem
    -- A byte of `p`, or a neighbour of the request, that the settled list no longer holds.
    have lost : ∀ b, s.ld.lStart ≤ b → b ≤ s.ld.lEnd → p.lo ≤ b → b ≤ p.hi → False :=
      fun b lo hi plo phi => h.free lo hi p.kind ((same b p.kind).mpr ⟨p, mem, plo, phi, rfl⟩)
    rcases edits with ⟨reach, start⟩ | ⟨kind, touch | touch⟩
    · by_cases early : p.lo ≤ ld₀.lStart
      · exact lost ld₀.lStart (by omega) (by omega) early reach
      · exact lost p.lo (by omega) (by omega) (le_refl _) inside
    · by_cases grown : s.ld.lStart ≤ p.hi
      · exact lost p.hi grown (by omega) inside (le_refl _)
      obtain ⟨d, mem', dlo, dhi, dkind⟩ := (same p.hi p.kind).mpr ⟨p, mem, inside, le_refl _, rfl⟩
      have type : s.ld.lType = ld₀.lType := by rw [h.lock]
      rcases h.clear d mem' with ⟨-, gap⟩ | ⟨start, -⟩
      · have := gap (dkind.trans (kind.trans type.symm))
        simp only [spanOf_lo] at this
        omega
      · simp only [spanOf_hi] at start
        omega
    · by_cases grown : p.lo ≤ s.ld.lEnd
      · exact lost p.lo (by omega) grown (le_refl _) inside
      obtain ⟨d, mem', dlo, dhi, dkind⟩ := (same p.lo p.kind).mpr ⟨p, mem, le_refl _, inside, rfl⟩
      have type : s.ld.lType = ld₀.lType := by rw [h.lock]
      rcases h.clear d mem' with ⟨ends, -⟩ | ⟨-, gap⟩
      · simp only [spanOf_lo] at ends
        omega
      · have := gap ((type.trans kind.symm).trans dkind.symm)
        simp only [spanOf_hi] at this
        omega
  · intro none_edited b k
    by_cases range : s.ld.lStart ≤ b ∧ b ≤ s.ld.lEnd
    · refine ⟨fun held => absurd held (h.free range.1 range.2 k), fun ⟨p, mem, lo, hi, kind⟩ => ?_⟩
      refine absurd ⟨p, mem, ?_⟩ none_edited
      by_cases overlap : ld₀.lStart ≤ b ∧ b ≤ ld₀.lEnd
      · exact .inl ⟨by omega, by omega⟩
      exfalso
      rcases lt_or_ge b ld₀.lStart with below | above
      · obtain ⟨q, mem', qlo, qhi, qkind⟩ :=
          h.joined (ld₀.lStart - 1) (by omega) (by omega) (by omega)
        refine none_edited ⟨q, mem', ?_⟩
        by_cases reach : ld₀.lStart ≤ q.hi
        · exact .inl ⟨reach, by omega⟩
        · exact .inr ⟨qkind, .inl (by omega)⟩
      · obtain ⟨q, mem', qlo, qhi, qkind⟩ :=
          h.joined (ld₀.lEnd + 1) (by omega) (by omega) (by omega)
        refine none_edited ⟨q, mem', ?_⟩
        by_cases reach : q.lo ≤ ld₀.lEnd
        · exact .inl ⟨by omega, reach⟩
        · exact .inr ⟨qkind, .inr (by omega)⟩
    · exact h.keeps b k (by omega)

end

theorem Scanning.same_iff (h : Scanning t₀ ld₀ xs₀ s done ((a, v) :: rest) old)
    (records : RecordList xs₀) (own : ownerOf v.set = ownerOf ld₀)
    (overhangs : Overhangs ld₀ (spanOf v.set)) :
    (∀ b, valueAt (spans (ownerOf ld₀) (done ++ (a, v) :: rest)) b =
        valueAt (spans (ownerOf ld₀) xs₀) b) ↔
      ¬ ∃ p ∈ spans (ownerOf ld₀) xs₀, Edits ld₀ p ∧ p.hi ≤ ld₀.lEnd := by
  have separated := records.separated (ownerOf ld₀)
  obtain ⟨before, next, -⟩ := h.neighbours own
  have beyond := overhangs.2.2
  have left := h.left
  simp only [spanOf_hi] at beyond
  constructor
  · rintro same ⟨p, mem, edits, ends⟩
    have inside := records.proper _ p mem
    rw [h.split, spans_own (x := (a, v)) own] at mem
    have passed : p ∈ old := by
      rcases List.mem_append.mp mem with mem | mem
      · exact mem
      · rcases List.mem_cons.mp mem with rfl | mem
        · simp only [spanOf_hi] at ends
          omega
        · have := (next p mem).1
          simp only [spanOf_hi] at this
          omega
    have held : Holds (spans (ownerOf ld₀) xs₀) p.hi p.kind :=
      ⟨p, by rw [h.split]; simp [passed], inside, le_refl _, rfl⟩
    have kept := (((h.records.separated _).valueAt_eq_iff separated p.hi).mp (same p.hi) p.kind).mpr
      held
    rw [spans_append, spans_own (x := (a, v)) own, holds_append, holds_cons] at kept
    have gap := (before p passed).1
    simp only [spanOf_lo] at gap
    rcases kept with ⟨d, mem', dlo, dhi, dkind⟩ | ⟨lo, -⟩ | ⟨d, mem', dlo, -⟩
    · obtain ⟨dends, dgap⟩ := h.clear d mem'
      simp only [spanOf_lo, spanOf_kind, h.lType] at dends dgap
      rcases edits with ⟨reach, -⟩ | ⟨kind, touch | touch⟩
      · omega
      · have := dgap (dkind.trans kind)
        omega
      · omega
    · simp only [spanOf_lo] at lo
      omega
    · have := (next d mem').1
      simp only [spanOf_hi] at *
      omega
  · intro none_edited
    rcases h.edited with ⟨-, list, -⟩ | ⟨⟨p, mem, edits⟩, -⟩
    · rw [list]
      exact fun _ => rfl
    · refine absurd ⟨p, ?_, edits, h.past p mem⟩ none_edited
      rw [h.split]
      simp [mem]

structure Adjustment (env : Env) (info : Flckinfo) (ld : Flock) (xs : List (Nat × Filock))
    (out : AdjOut) (ys : List (Nat × Filock)) : Prop where
  links : Links out.tab.list ys
  records : RecordList ys
  others : ∀ o, o ≠ ownerOf ld → spans o ys = spans o xs
  answer : out.retval = none ∨ out.retval = some .ENOLCK
  fails : out.retval = some .ENOLCK ↔ Fails env info ld (spans (ownerOf ld) xs)
  overwrites : out.retval = none → valueAt (spans (ownerOf ld) ys) =
    overwrite (valueAt (spans (ownerOf ld) xs)) ld.lStart ld.lEnd (asked ld)
  shrinks : out.retval = some .ENOLCK → ∀ b k,
    Holds (spans (ownerOf ld) ys) b k → Holds (spans (ownerOf ld) xs) b k
  same : out.retval = some .ENOLCK →
    (valueAt (spans (ownerOf ld) ys) = valueAt (spans (ownerOf ld) xs) ↔
      ¬ EditsBeforeFailing env info ld (spans (ownerOf ld) xs))

theorem valueAt_overwritten {l m : List (Span LockType)} (left : Separated l) (right : Separated m)
    (holds : ∀ b k, Holds l b k ↔ if ld.lStart ≤ b ∧ b ≤ ld.lEnd then ld.lType ≠ .unlck ∧ ld.lType
      = k else Holds m b k) :
    valueAt l = overwrite (valueAt m) ld.lStart ld.lEnd (asked ld) := by
  funext b
  apply Option.ext
  intro k
  rw [left.valueAt_eq_some, holds, overwrite]
  split
  · by_cases unlock : ld.lType = .unlck <;> simp [asked, unlock]
  · rw [right.valueAt_eq_some]

section
variable (h : Settled env t₀ ld₀ xs₀ s ys)
include h

theorem Settled.lockRoom_iff :
    LockRoom env t₀.info ld₀ (spans (ownerOf ld₀) xs₀) ↔ Room env s.tab.info := by
  simp only [LockRoom, Room, h.count, h.memory]

theorem Settled.tail_fits : ¬ ((∃ p ∈ spans (ownerOf ld₀) xs₀, Overhangs ld₀ p) ∧
      ¬ TailRoom env t₀.info ld₀ (spans (ownerOf ld₀) xs₀)) :=
  fun ⟨some_hangs, full⟩ => full (h.room some_hangs)

theorem Settled.adjustment {s' : Scan} (records : RecordList xs₀) (request : Request ld₀)
    (run : insertLock env s = some s') :
    ∃ r ys, s'.retval = some r ∧ Adjustment env t₀.info ld₀ xs₀ ⟨r, s'.tab, s'.ld⟩ ys := by
  obtain ⟨s'', run', result⟩ := h.insertLock_spec env
  obtain rfl : s'' = s' := Option.some.inj (run'.symm.trans run)
  have fails : Fails env t₀.info ld₀ (spans (ownerOf ld₀) xs₀) ↔
      ld₀.lType ≠ .unlck ∧ ¬ Room env s.tab.info := by
    rw [Fails, h.lockRoom_iff]
    exact ⟨fun ⟨_, either⟩ => either.resolve_left h.tail_fits, fun lock => ⟨h.bare, .inr lock⟩⟩
  rcases result with ⟨unlock, retval, tab⟩ | ⟨lock, full, retval, list⟩ |
    ⟨lock, room, retval, us, vs, n, rfl, links, after⟩
  · refine ⟨none, ys, retval, ?_⟩
    exact {
      links := by rw [tab]; exact h.links
      records := h.records
      others := h.others
      answer := .inl rfl
      fails := by simp [fails, unlock]
      overwrites := fun _ => valueAt_overwritten (h.records.separated _) (records.separated _)
        (h.overwrites records fun b k => by simp [unlock])
      shrinks := by simp
      same := by simp }
  · refine ⟨some .ENOLCK, ys, retval, ?_⟩
    exact {
      links := by rw [list]; exact h.links
      records := h.records
      others := h.others
      answer := .inr rfl
      fails := by simp [fails, lock, full]
      overwrites := by simp
      shrinks := by
        intro _ b k held
        by_cases range : s.ld.lStart ≤ b ∧ b ≤ s.ld.lEnd
        · exact absurd held (h.free range.1 range.2 k)
        · exact (h.keeps b k (by omega)).mp held
      same := by
        intro _
        rw [funext_iff, h.same_iff records request, EditsBeforeFailing, if_neg h.tail_fits] }
  · refine ⟨none, us ++ (n, ⟨s.ld, ⟨0, 0⟩⟩) :: vs, retval, ?_⟩
    have owner : ownerOf s.ld = ownerOf ld₀ := by
      rw [h.lock]
      rfl
    have type : s.ld.lType = ld₀.lType := by rw [h.lock]
    exact {
      links := links
      records := after
      others := by
        intro o other
        rw [← h.others o other, spans_append, spans_append,
          spans_other (x := (n, ⟨s.ld, ⟨0, 0⟩⟩)) (fun eq => other (eq.symm.trans owner))]
      answer := .inl rfl
      fails := by simp [fails, room]
      overwrites := fun _ => valueAt_overwritten (after.separated _) (records.separated _)
        (h.overwrites records fun b k => by
          rw [spans_append, spans_own (x := (n, ⟨s.ld, ⟨0, 0⟩⟩)) owner, spans_append, holds_append,
            holds_append, holds_cons]
          simp only [spanOf_lo, spanOf_hi, spanOf_kind, type, ne_eq, lock, not_false_eq_true,
            true_and]
          tauto)
      shrinks := by simp
      same := by simp }

end

theorem flckadj_spec (env : Env) (links : Links t.list xs) (records : RecordList xs)
    (request : Request ld) (entry : Entry ld xs insrtp) :
    ∃ out ys, flckadj env t insrtp ld = some out ∧ Adjustment env t.info ld xs out ys := by
  obtain ⟨done, rest, cut, scanning⟩ := entry.scanning request links records
  have long := links.length_le
  rw [cut, List.length_append] at long
  obtain ⟨s', run, ended⟩ := adjustLoop_spec env (t.list.fresh + 1) (by omega) scanning
  have result : ∃ r ys, s'.retval = some r ∧ Adjustment env t.info ld xs ⟨r, s'.tab, s'.ld⟩ ys := by
    cases ended with
    | inserting s ys settled run => exact settled.adjustment records request run
    | covered retval list lock covers =>
      obtain ⟨p, mem, kind, lo, hi⟩ := covers
      refine ⟨none, xs, retval, ?_⟩
      exact {
        links := list
        records := records
        others := fun _ _ => rfl
        answer := .inl rfl
        fails := by
          simp only [reduceCtorEq, false_iff]
          exact fun fails => fails.1 p mem ⟨kind, lo, hi⟩
        overwrites := by
          refine fun _ => valueAt_overwritten (records.separated _) (records.separated _)
            fun b k => ?_
          split
          case isTrue inside =>
            have held : Holds (spans (ownerOf ld) xs) b ld.lType :=
              ⟨p, mem, by omega, by omega, kind⟩
            have lock : ld.lType ≠ .unlck := fun eq => records.not_unlck _ b (eq ▸ held)
            exact ⟨fun other => ⟨lock, (records.separated _).unique held other⟩,
              fun ⟨_, same⟩ => same ▸ held⟩
          case isFalse => exact Iff.rfl
        shrinks := by simp
        same := by simp }
    | failed s done rest a v old scanning own retval list overhangs full =>
      have mem : spanOf v.set ∈ spans (ownerOf ld) xs := by
        rw [scanning.split, spans_own (x := (a, v)) own]
        simp
      have tail : (∃ p ∈ spans (ownerOf ld) xs, Overhangs ld p) ∧
          ¬ TailRoom env t.info ld (spans (ownerOf ld) xs) := by
        refine ⟨⟨_, mem, overhangs⟩, ?_⟩
        rwa [scanning.tailRoom_iff own overhangs.2.2]
      refine ⟨some .ENOLCK, done ++ (a, v) :: rest, retval, ?_⟩
      exact {
        links := by rw [list]; exact scanning.links
        records := scanning.records
        others := scanning.others
        answer := .inr rfl
        fails := by
          refine ⟨fun _ => ⟨fun p hp covers => ?_, .inl tail⟩, fun _ => rfl⟩
          have proper := request.proper
          -- Both would hold the last byte of the request.
          exact overhangs.1 ((records.separated _).unique
            ⟨_, mem, overhangs.2.1, le_of_lt overhangs.2.2, rfl⟩
            ⟨p, hp, le_trans covers.2.1 proper, covers.2.2, covers.1⟩)
        overwrites := by simp
        shrinks := by
          intro _ b k held
          rw [spans_append, holds_append] at held
          rw [scanning.split, holds_append]
          refine held.imp_left fun passed => ?_
          have ⟨d, mem, _, hi, _⟩ := passed
          have ends := (scanning.clear d mem).1
          simp only [spanOf_lo] at ends
          exact (scanning.keeps b k (by omega)).mp passed
        same := by
          intro _
          rw [funext_iff, scanning.same_iff records own overhangs, EditsBeforeFailing,
            if_pos tail] }
  obtain ⟨r, ys, retval, adjustment⟩ := result
  refine ⟨⟨r, s'.tab, s'.ld⟩, ys, ?_, adjustment⟩
  simp only [flckadj, run, Option.bind_eq_bind, Option.bind_some, retval]
  rfl

end Outcome

end RecordLocks
