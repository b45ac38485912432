import Mathlib.Algebra.Order.Group.Int
import Svr4.Flock.Records

/- flckadj on the lock list of one vnode. The scan keeps an invariant over the records
   it has passed and the part of the list that is still ahead; when it stops, the
   range of the lock has been cleared and the lock itself remains to be inserted. -/
namespace RecordLocks
open LinkedCells SpanMap List

structure Request (ld : Flock) : Prop where
  low : 0 ≤ ld.lStart
  proper : ld.lStart ≤ ld.lEnd
  high : ld.lEnd ≤ MAXEND
  type : ld.lType = .rdlck ∨ ld.lType = .wrlck ∨ ld.lType = .unlck

/-- The own locks that a request overlaps, or joins with. -/
def Edits (ld : Flock) (p : Span LockType) : Prop :=
  (ld.lStart ≤ p.hi ∧ p.lo ≤ ld.lEnd) ∨
    (p.kind = ld.lType ∧ (p.hi + 1 = ld.lStart ∨ ld.lEnd + 1 = p.lo))

def Deletes (ld : Flock) (p : Span LockType) : Prop :=
  Edits ld p ∧ ¬ (p.lo < ld.lStart ∧ p.kind ≠ ld.lType)

/-- The own lock that keeps a piece behind the request. -/
def Overhangs (ld : Flock) (p : Span LockType) : Prop :=
  p.kind ≠ ld.lType ∧ p.lo ≤ ld.lEnd ∧ ld.lEnd < p.hi

def Covers (ld : Flock) (p : Span LockType) : Prop :=
  p.kind = ld.lType ∧ p.lo ≤ ld.lStart ∧ ld.lEnd ≤ p.hi

instance (ld : Flock) (p : Span LockType) : Decidable (Edits ld p) :=
  inferInstanceAs (Decidable (_ ∨ _))
instance (ld : Flock) (p : Span LockType) : Decidable (Deletes ld p) :=
  inferInstanceAs (Decidable (_ ∧ _))
instance (ld : Flock) (p : Span LockType) : Decidable (Overhangs ld p) :=
  inferInstanceAs (Decidable (_ ∧ _))

def TailRoom (env : Env) (info : Flckinfo) (ld : Flock) (l : List (Span LockType)) : Prop :=
  info.reccnt - (l.countP (fun p => Deletes ld p ∧ p.hi ≤ ld.lEnd) : Nat) < env.tFlckrec ∧
    env.kmem info.zallocs = true

def LockRoom (env : Env) (info : Flckinfo) (ld : Flock) (l : List (Span LockType)) : Prop :=
  info.reccnt - (l.countP (Deletes ld ·) : Nat) + (l.countP (Overhangs ld ·) : Nat) <
      env.tFlckrec ∧
    env.kmem (info.zallocs + l.countP (Overhangs ld ·)) = true

instance (env : Env) (info : Flckinfo) (ld : Flock) (l : List (Span LockType)) :
    Decidable (TailRoom env info ld l) := inferInstanceAs (Decidable (_ ∧ _))

/-- The hint names a record that starts no later than the lock, or the lock goes first. -/
def Hint (ld : Flock) (insrtp : Option Nat) (xs : List (Nat × Filock)) : Prop :=
  ld.lType = .unlck ∨ match insrtp with
    | none => ∀ x ∈ xs, ld.lStart ≤ x.2.set.lStart
    | some a => ∃ x ∈ xs, x.1 = a ∧ x.2.set.lStart ≤ ld.lStart

variable {ld : Flock} {l : List (Span LockType)} {p : Span LockType} {xs ys : List (Nat × Filock)}
  {b : Int} {insrtp : Option Nat} {x : Nat × Filock}

theorem hint_of_last {done rest : List (Nat × Filock)}
    (before : ∀ x ∈ done, x.2.set.lStart ≤ ld.lStart)
    (behind : done = [] → ∀ x ∈ rest, ld.lStart ≤ x.2.set.lStart) :
    Hint ld (lastOf done) (done ++ rest) := by
  rcases eq_nil_or_concat done with rfl | ⟨init, x, rfl⟩
  · exact .inr (by simpa [lastOf] using behind rfl)
  · rw [concat_eq_append] at *
    refine .inr ?_
    simp only [lastOf_append_one]
    exact ⟨x, by simp, rfl, before x (by simp)⟩

theorem Hint.remove (h : Hint ld insrtp (xs ++ x :: ys)) (behind : ld.lStart < x.2.set.lStart) :
    Hint ld insrtp (xs ++ ys) := by
  rcases h with unlock | h
  · exact .inl unlock
  refine .inr ?_
  cases insrtp with
  | none => exact fun y mem => h y (by simp only [mem_append, mem_cons] at mem ⊢; tauto)
  | some a =>
    obtain ⟨y, mem, eq, low⟩ := h
    refine ⟨y, ?_, eq, low⟩
    simp only [mem_append, mem_cons] at mem ⊢
    rcases mem with left | rfl | right
    · exact .inl left
    · omega
    · exact .inr right

theorem Hint.insert (h : Hint ld insrtp (xs ++ ys)) (behind : ld.lStart ≤ x.2.set.lStart) :
    Hint ld insrtp (xs ++ x :: ys) := by
  rcases h with unlock | h
  · exact .inl unlock
  refine .inr ?_
  cases insrtp with
  | none =>
    intro y mem
    simp only [mem_append, mem_cons] at mem
    rcases mem with left | rfl | right
    · exact h y (by simp [left])
    · exact behind
    · exact h y (by simp [right])
  | some a =>
    obtain ⟨y, mem, eq, low⟩ := h
    exact ⟨y, by simp only [mem_append, mem_cons] at mem ⊢; tauto, eq, low⟩

/-- The state of the scan between `done` and `rest`; `old` are the own locks it has passed. -/
structure Scanning (t₀ : Tab) (ld₀ : Flock) (xs₀ : List (Nat × Filock)) (s : Scan)
    (done rest : List (Nat × Filock)) (old : List (Span LockType)) : Prop where
  request : Request ld₀
  separated : Separated (spans (ownerOf ld₀) xs₀)
  links : Links s.tab.list (done ++ rest)
  next : s.nflp = firstOf rest
  going : s.retval = none
  records : RecordList (done ++ rest)
  others : ∀ o, o ≠ ownerOf ld₀ → spans o (done ++ rest) = spans o xs₀
  split : spans (ownerOf ld₀) xs₀ = old ++ spans (ownerOf ld₀) rest
  lock : s.ld = { ld₀ with lStart := s.ld.lStart }
  low : 0 ≤ s.ld.lStart
  left : s.ld.lStart ≤ ld₀.lStart
  clear : ∀ d ∈ spans (ownerOf ld₀) done, Before d (spanOf s.ld)
  keeps : ∀ b k, b < s.ld.lStart → (Holds (spans (ownerOf ld₀) done) b k ↔ Holds old b k)
  joined : ∀ b, s.ld.lStart ≤ b → b < ld₀.lStart → Holds old b ld₀.lType
  past : ∀ p ∈ old, p.hi ≤ ld₀.lEnd
  bare : ∀ p ∈ old, ¬ Covers ld₀ p
  hint : Hint s.ld s.insrtp (done ++ rest)
  count : s.tab.info.reccnt = t₀.info.reccnt - (old.countP (Deletes ld₀ ·) : Nat)
  memory : s.tab.info.zallocs = t₀.info.zallocs
  edited : (s.ld.lStart = ld₀.lStart ∧ done ++ rest = xs₀ ∧ ∀ p ∈ old, ¬ Edits ld₀ p) ∨
    ((∃ p ∈ old, Edits ld₀ p) ∧ ∀ r ∈ spans (ownerOf ld₀) rest, s.ld.lStart < r.lo)

/-- The scan has stopped: the range of `s.ld` is free of own locks and clear of those
    of its type. -/
structure Settled (env : Env) (t₀ : Tab) (ld₀ : Flock) (xs₀ : List (Nat × Filock)) (s : Scan)
    (ys : List (Nat × Filock)) : Prop where
  request : Request ld₀
  links : Links s.tab.list ys
  records : RecordList ys
  others : ∀ o, o ≠ ownerOf ld₀ → spans o ys = spans o xs₀
  lock : s.ld = { ld₀ with lStart := s.ld.lStart, lEnd := s.ld.lEnd }
  low : 0 ≤ s.ld.lStart
  left : s.ld.lStart ≤ ld₀.lStart
  right : ld₀.lEnd ≤ s.ld.lEnd
  high : s.ld.lEnd ≤ MAXEND
  clear : ∀ d ∈ spans (ownerOf ld₀) ys, Before d (spanOf s.ld) ∨ Before (spanOf s.ld) d
  keeps : ∀ b k, b < s.ld.lStart ∨ s.ld.lEnd < b →
    (Holds (spans (ownerOf ld₀) ys) b k ↔ Holds (spans (ownerOf ld₀) xs₀) b k)
  joined : ∀ b, s.ld.lStart ≤ b → b ≤ s.ld.lEnd → b < ld₀.lStart ∨ ld₀.lEnd < b →
    Holds (spans (ownerOf ld₀) xs₀) b ld₀.lType
  bare : ∀ p ∈ spans (ownerOf ld₀) xs₀, ¬ Covers ld₀ p
  room : (∃ p ∈ spans (ownerOf ld₀) xs₀, Overhangs ld₀ p) →
    TailRoom env t₀.info ld₀ (spans (ownerOf ld₀) xs₀)
  hint : Hint s.ld s.insrtp ys
  count : s.tab.info.reccnt = t₀.info.reccnt -
    ((spans (ownerOf ld₀) xs₀).countP (Deletes ld₀ ·) : Nat) +
      ((spans (ownerOf ld₀) xs₀).countP (Overhangs ld₀ ·) : Nat)
  memory : s.tab.info.zallocs =
    t₀.info.zallocs + (spans (ownerOf ld₀) xs₀).countP (Overhangs ld₀ ·)

/-- What a record keeps in front of the byte `b`, and behind it. -/
def Filock.head (v : Filock) (b : Int) (st : Stat) : Filock := ⟨{ v.set with lEnd := b - 1 }, st⟩

def Filock.tail (v : Filock) (b : Int) : Filock := ⟨{ v.set with lStart := b + 1 }, ⟨0, 0⟩⟩

section Steps
variable {env : Env} {t₀ t : Tab} {ld₀ : Flock} {xs₀ done rest : List (Nat × Filock)} {s : Scan}
  {old : List (Span LockType)} {a : Nat} {v : Filock}

section
variable (h : Scanning t₀ ld₀ xs₀ s done rest old)
include h

theorem Scanning.lEnd : s.ld.lEnd = ld₀.lEnd := by
  rw [h.lock]

theorem Scanning.lType : s.ld.lType = ld₀.lType := by
  rw [h.lock]

theorem Scanning.owner : ownerOf s.ld = ownerOf ld₀ := by
  rw [h.lock]
  rfl

end

theorem Scanning.neighbours (h : Scanning t₀ ld₀ xs₀ s done ((a, v) :: rest) old)
    (own : ownerOf v.set = ownerOf ld₀) :
    (∀ p ∈ old, Before p (spanOf v.set)) ∧
      (∀ r ∈ spans (ownerOf ld₀) rest, Before (spanOf v.set) r) ∧
      ∀ d ∈ spans (ownerOf ld₀) done, Before d (spanOf v.set) := by
  have apart := h.records.separated (ownerOf ld₀)
  rw [spans_append, spans_own (x := (a, v)) own, separated_append, separated_cons] at apart
  have separated := h.separated
  rw [h.split, spans_own (x := (a, v)) own, separated_append] at separated
  exact ⟨fun p hp => separated.2.2 p hp _ (by simp), apart.2.1.1,
    fun d hd => apart.2.2 d hd _ (by simp)⟩

theorem Scanning.ahead (h : Scanning t₀ ld₀ xs₀ s done rest old)
    (grown : s.ld.lStart < ld₀.lStart) :
    ∀ r ∈ spans (ownerOf ld₀) rest, ld₀.lStart ≤ r.lo := by
  intro r mem
  obtain ⟨p, hp, -, reach, -⟩ := h.joined (ld₀.lStart - 1) (by omega) (by omega)
  have separated := h.separated
  rw [h.split, separated_append] at separated
  have := (separated.2.2 p hp r mem).1
  omega

theorem Scanning.start (h : Scanning t₀ ld₀ xs₀ s done rest old) {r : Span LockType}
    (mem : r ∈ spans (ownerOf ld₀) rest) (early : r.lo ≤ s.ld.lStart) :
    s.ld.lStart = ld₀.lStart ∧ done ++ rest = xs₀ ∧ ∀ p ∈ old, ¬ Edits ld₀ p := by
  rcases h.edited with whole | ⟨-, behind⟩
  · exact whole
  · have := behind r mem
    omega

theorem Scanning.not_covers (h : Scanning t₀ ld₀ xs₀ s done ((a, v) :: rest) old)
    (own : ownerOf v.set = ownerOf ld₀)
    (late : s.ld.lStart < v.set.lStart) : ¬ Covers ld₀ (spanOf v.set) := by
  rintro ⟨type, early, -⟩
  simp only [spanOf_lo, spanOf_kind] at type early
  obtain ⟨p, mem, -, reach, kind⟩ := h.joined (ld₀.lStart - 1) (by omega) (by omega)
  have gap := ((h.neighbours own).1 p mem).2 (kind.trans type.symm)
  simp only [spanOf_lo] at gap
  omega

theorem not_covers_behind (request : Request ld) (behind : Before (spanOf ld) p) :
    ¬ Covers ld p := by
  rintro ⟨-, early, -⟩
  have := behind.1
  have := request.proper
  simp only [spanOf_hi] at *
  omega

theorem spans_here (own : ownerOf v.set = ownerOf ld₀) (rest : List (Nat × Filock)) :
    spans (ownerOf ld₀) ((a, v) :: rest) = spanOf v.set :: spans (ownerOf ld₀) rest :=
  spans_own (x := (a, v)) own rest

theorem spans_elsewhere {o : Int × Int} (own : ownerOf v.set = ownerOf ld₀)
    (other : o ≠ ownerOf ld₀) (rest : List (Nat × Filock)) :
    spans o ((a, v) :: rest) = spans o rest :=
  spans_other (x := (a, v)) (fun eq => other (eq.symm.trans own)) rest

theorem concat_shift (x : Nat × Filock) (done rest : List (Nat × Filock)) :
    done ++ [x] ++ rest = done ++ x :: rest := by simp

theorem edits_of_overlap (reach : ld₀.lStart ≤ v.set.lEnd) (start : v.set.lStart ≤ ld₀.lEnd) :
    Edits ld₀ (spanOf v.set) := .inl ⟨reach, start⟩

section
variable (h : Scanning t₀ ld₀ xs₀ s done ((a, v) :: rest) old) (own : ownerOf v.set = ownerOf ld₀)
include h own

theorem Scanning.split_next :
    spans (ownerOf ld₀) xs₀ = old ++ [spanOf v.set] ++ spans (ownerOf ld₀) rest := by
  rw [h.split, spans_here own, append_cons]

theorem Scanning.others_gone : ∀ o, o ≠ ownerOf ld₀ → spans o (done ++ rest) = spans o xs₀ := by
  intro o other
  rw [← h.others o other, spans_append, spans_append, spans_elsewhere own other]

end

section
variable (h : Scanning t₀ ld₀ xs₀ s done rest old)
include h

theorem Scanning.joined_next (p : Span LockType) :
    ∀ b, s.ld.lStart ≤ b → b < ld₀.lStart → Holds (old ++ [p]) b ld₀.lType :=
  fun b lo hi => (holds_append _ _ _ _).mpr (.inl (h.joined b lo hi))

theorem Scanning.past_next (within : v.set.lEnd ≤ ld₀.lEnd) :
    ∀ p ∈ old ++ [spanOf v.set], p.hi ≤ ld₀.lEnd :=
  forall_mem_append.mpr ⟨h.past, forall_mem_singleton.mpr within⟩

theorem Scanning.bare_next (uncovered : ¬ Covers ld₀ (spanOf v.set)) :
    ∀ p ∈ old ++ [spanOf v.set], ¬ Covers ld₀ p :=
  forall_mem_append.mpr ⟨h.bare, forall_mem_singleton.mpr uncovered⟩

end

theorem not_covers_of_short (short : v.set.lEnd < ld₀.lEnd) : ¬ Covers ld₀ (spanOf v.set) :=
  fun covers => absurd (show ld₀.lEnd ≤ v.set.lEnd from covers.2.2) (by omega)

theorem Scanning.edited_next (h : Scanning t₀ ld₀ xs₀ s done ((a, v) :: rest) old)
    (own : ownerOf v.set = ownerOf ld₀)
    (edits : Edits ld₀ (spanOf v.set)) (short : b ≤ v.set.lEnd) :
    (∃ p ∈ old ++ [spanOf v.set], Edits ld₀ p) ∧ ∀ r ∈ spans (ownerOf ld₀) rest, b < r.lo :=
  ⟨⟨spanOf v.set, by simp, edits⟩,
    fun r mem => lt_of_le_of_lt short ((h.neighbours own).2.1 r mem).1⟩

theorem Scanning.count_gone (h : Scanning t₀ ld₀ xs₀ s done rest old)
    (info : t.info = { s.tab.info with reccnt := s.tab.info.reccnt - 1 }) (gone : Deletes ld₀ p) :
    t.info.reccnt = t₀.info.reccnt - ((old ++ [p]).countP (Deletes ld₀ ·) : Nat) := by
  simp only [info, h.count, countP_append, countP_singleton, gone, decide_true, if_true]
  omega

theorem Scanning.count_kept (h : Scanning t₀ ld₀ xs₀ s done rest old)
    (info : t.info.reccnt = s.tab.info.reccnt) (keep : ¬ Deletes ld₀ p) :
    t.info.reccnt = t₀.info.reccnt - ((old ++ [p]).countP (Deletes ld₀ ·) : Nat) := by
  simp [info, h.count, countP_append, keep]

theorem not_holds_of_before (clear : ∀ d ∈ l, Before d (spanOf ld)) (behind : ld.lStart ≤ b)
    (k : LockType) :
    ¬ Holds l b k :=
  not_holds_of_clear (fun d mem => .inl (lt_of_lt_of_le (clear d mem).1 behind)) k

theorem Scanning.not_old (h : Scanning t₀ ld₀ xs₀ s done rest old) (behind : ld₀.lEnd < b)
    (k : LockType) : ¬ Holds old b k :=
  not_holds_of_clear (fun p mem => .inl (lt_of_le_of_lt (h.past p mem) behind)) k

theorem Scanning.keeps_gone (h : Scanning t₀ ld₀ xs₀ s done rest old) (before : b < s.ld.lStart)
    (front : b < v.set.lStart) (k : LockType) :
    Holds (spans (ownerOf ld₀) done) b k ↔ Holds (old ++ [spanOf v.set]) b k := by
  rw [h.keeps b k before, holds_append]
  simp only [holds_cons, holds_nil, or_false, spanOf_lo]
  exact ⟨Or.inl, fun both => both.resolve_right fun here => by omega⟩

section
variable (h : Scanning t₀ ld₀ xs₀ s done ((a, v) :: rest) old)
  (own : ownerOf v.set = ownerOf ld₀)
  (late : s.ld.lStart ≤ v.set.lStart)
include h own late

theorem Scanning.start_behind : ld₀.lStart ≤ v.set.lStart := by
  by_cases grown : s.ld.lStart < ld₀.lStart
  · exact h.ahead grown (spanOf v.set) (by simp [spans_here own])
  · omega

theorem Scanning.deletes_late (reach : v.set.lStart ≤ ld₀.lEnd) : Deletes ld₀ (spanOf v.set) := by
  have proper : v.set.lStart ≤ v.set.lEnd := (h.records.good (a, v) (by simp)).proper
  have behind := h.start_behind own late
  refine ⟨edits_of_overlap (by omega) reach, fun keep => ?_⟩
  have := keep.1
  simp only [spanOf_lo] at this
  omega

end

section Trimmed
variable (h : Scanning t₀ ld₀ xs₀ s done ((a, v) :: rest) old) (own : ownerOf v.set = ownerOf ld₀)
  (st : Stat)
include own

theorem spans_trimmed (b : Int) :
    spans (ownerOf ld₀) (done ++ [(a, v.head b st)]) =
      spans (ownerOf ld₀) done ++ [⟨v.set.lStart, b - 1, v.set.lType⟩] := by
  rw [spans_append, spans_here (v := v.head b st) own, spans_nil]
  rfl

include h

theorem Scanning.clear_trimmed (type : v.set.lType ≠ ld₀.lType) :
    ∀ d ∈ spans (ownerOf ld₀) (done ++ [(a, v.head s.ld.lStart st)]),
      Before d (spanOf s.ld) := by
  rw [spans_trimmed own]
  refine forall_mem_append.mpr ⟨h.clear, forall_mem_singleton.mpr ⟨?_, fun eq => ?_⟩⟩
  · simp only [spanOf_lo]
    omega
  · exact absurd (eq.trans h.lType) type

theorem Scanning.keeps_trimmed (reach : s.ld.lStart ≤ v.set.lEnd) (b : Int) (k : LockType)
    (before : b < s.ld.lStart) :
    Holds (spans (ownerOf ld₀) (done ++ [(a, v.head s.ld.lStart st)])) b k ↔
      Holds (old ++ [spanOf v.set]) b k := by
  rw [spans_trimmed own, holds_append, holds_append, h.keeps b k before]
  simp only [holds_cons, holds_nil, or_false, spanOf_lo, spanOf_hi, spanOf_kind]
  refine or_congr_right (and_congr_right fun _ => and_congr_left fun _ => ?_)
  omega

end Trimmed

theorem Scanning.skip (h : Scanning t₀ ld₀ xs₀ s done ((a, v) :: rest) old)
    (other : ownerOf v.set ≠ ownerOf ld₀) :
    Scanning t₀ ld₀ xs₀ { s with nflp := firstOf rest } (done ++ [(a, v)]) rest old := by
  have same : spans (ownerOf ld₀) (done ++ [(a, v)]) = spans (ownerOf ld₀) done := by
    rw [spans_append, spans_other (x := (a, v)) other, spans_nil, append_nil]
  have tail : spans (ownerOf ld₀) ((a, v) :: rest) = spans (ownerOf ld₀) rest :=
    spans_other (x := (a, v)) other rest
  have shift := concat_shift (a, v) done rest
  exact { h with
    links := by rw [shift]; exact h.links
    next := rfl
    records := by rw [shift]; exact h.records
    others := by rw [shift]; exact h.others
    split := by rw [h.split, tail]
    clear := by rw [same]; exact h.clear
    keeps := by rw [same]; exact h.keeps
    hint := by rw [shift]; exact h.hint
    edited := by rw [shift, ← tail]; exact h.edited }

variable {i : Option Nat}

theorem Scanning.pass (h : Scanning t₀ ld₀ xs₀ s done ((a, v) :: rest) old)
    (own : ownerOf v.set = ownerOf ld₀) (before : Before (spanOf v.set) (spanOf s.ld))
    (hint : Hint s.ld i (done ++ (a, v) :: rest)) :
    Scanning t₀ ld₀ xs₀ { s with nflp := firstOf rest, insrtp := i } (done ++ [(a, v)]) rest
      (old ++ [spanOf v.set]) := by
  have grown : spans (ownerOf ld₀) (done ++ [(a, v)]) =
      spans (ownerOf ld₀) done ++ [spanOf v.set] := by
    rw [spans_append, spans_here own, spans_nil]
  have shift := concat_shift (a, v) done rest
  have proper : v.set.lStart ≤ v.set.lEnd := (h.records.good (a, v) (by simp)).proper
  have left := h.left
  have order := h.request.proper
  have ends := before.1
  have gap := before.2
  simp only [spanOf_hi, spanOf_lo, spanOf_kind, h.lType] at ends gap
  have untouched : ¬ Edits ld₀ (spanOf v.set) := by
    rintro (⟨reach, -⟩ | ⟨same, touch | touch⟩)
    · simp only [spanOf_hi] at reach
      omega
    · have := gap same
      simp only [spanOf_hi] at touch
      omega
    · simp only [spanOf_lo] at touch
      omega
  exact { h with
    links := by rw [shift]; exact h.links
    next := rfl
    records := by rw [shift]; exact h.records
    others := by rw [shift]; exact h.others
    split := h.split_next own
    clear := by
      rw [grown]
      exact forall_mem_append.mpr ⟨h.clear, forall_mem_singleton.mpr before⟩
    keeps := by
      intro b k hb
      rw [grown, holds_append, holds_append, h.keeps b k hb]
    joined := h.joined_next _
    past := h.past_next (by omega)
    bare := h.bare_next (not_covers_of_short (by omega))
    hint := by rw [shift]; exact hint
    count := h.count_kept rfl fun gone => untouched gone.1
    edited := by
      rcases h.edited with ⟨same, list, none_old⟩ | ⟨⟨p, hp, edit⟩, behind⟩
      · exact .inl ⟨same, by rw [shift]; exact list,
          forall_mem_append.mpr ⟨none_old, forall_mem_singleton.mpr untouched⟩⟩
      · refine .inr ⟨⟨p, by simp [hp], edit⟩, fun r mem => behind r ?_⟩
        rw [spans_here own]
        exact mem_cons_of_mem _ mem }

section
variable (h : Scanning t₀ ld₀ xs₀ s done ((a, v) :: rest) old)
  (own : ownerOf v.set = ownerOf ld₀)
include h own

theorem Scanning.trim (type : v.set.lType ≠ ld₀.lType) (early : v.set.lStart < s.ld.lStart)
    (reach : s.ld.lStart ≤ v.set.lEnd) (within : v.set.lEnd ≤ ld₀.lEnd) {st : Stat}
    (links : Links t.list (done ++ (a, v.head s.ld.lStart st) :: rest))
    (info : t.info = s.tab.info) :
    Scanning t₀ ld₀ xs₀ { s with tab := t, nflp := firstOf rest, insrtp := some a }
      (done ++ [(a, v.head s.ld.lStart st)]) rest
      (old ++ [spanOf v.set]) := by
  obtain ⟨same, -, -⟩ := h.start (r := spanOf v.set) (by simp [spans_here own]) (le_of_lt early)
  have records := h.records.trim (s.ld.lStart - 1) st (by omega) (by omega)
  have shift := concat_shift (a, v.head s.ld.lStart st) done rest
  exact { h with
    links := by rw [shift]; exact links
    next := rfl
    records := by rw [shift]; exact records
    others := by
      intro o other
      rw [shift, ← h.others_gone own o other, spans_append, spans_append,
        spans_elsewhere (v := v.head s.ld.lStart st) own other]
    split := h.split_next own
    clear := h.clear_trimmed own st type
    keeps := h.keeps_trimmed own st reach
    joined := h.joined_next _
    past := h.past_next within
    bare := h.bare_next fun covers => type covers.1
    hint := .inr ⟨(a, v.head s.ld.lStart st), by simp, rfl, le_of_lt early⟩
    count := by
      refine h.count_kept (by rw [info]) fun gone => gone.2 ⟨?_, type⟩
      simp only [spanOf_lo]
      omega
    memory := by simp [info, h.memory]
    edited := .inr (h.edited_next own (edits_of_overlap (by omega) (by omega)) reach) }

theorem Scanning.engulf (late : s.ld.lStart ≤ v.set.lStart) (within : v.set.lEnd ≤ ld₀.lEnd)
    (uncovered : ¬ Covers ld₀ (spanOf v.set)) (links : Links t.list (done ++ rest))
    (info : t.info = { s.tab.info with reccnt := s.tab.info.reccnt - 1 })
    (hint : Hint s.ld i (done ++ rest)) :
    Scanning t₀ ld₀ xs₀ { s with tab := t, nflp := firstOf rest, insrtp := i } done rest
      (old ++ [spanOf v.set]) := by
  have proper : v.set.lStart ≤ v.set.lEnd := (h.records.good (a, v) (by simp)).proper
  have gone := h.deletes_late own late (by omega)
  exact { h with
    links := links
    next := rfl
    records := h.records.remove
    others := h.others_gone own
    split := h.split_next own
    keeps := fun b k before => h.keeps_gone before (lt_of_lt_of_le before late) k
    joined := h.joined_next _
    past := h.past_next within
    bare := h.bare_next uncovered
    hint := hint
    count := h.count_gone info gone
    memory := by simp [info, h.memory]
    edited := .inr (h.edited_next own gone.1 (by simp only; omega)) }

theorem Scanning.join (type : v.set.lType = ld₀.lType) (early : v.set.lStart < s.ld.lStart)
    (reach : s.ld.lStart - 1 ≤ v.set.lEnd) (within : v.set.lEnd < ld₀.lEnd)
    (links : Links t.list (done ++ rest))
    (info : t.info = { s.tab.info with reccnt := s.tab.info.reccnt - 1 }) :
    Scanning t₀ ld₀ xs₀
      ⟨t, lastOf done, { s.ld with lStart := v.set.lStart }, firstOf rest, s.retval⟩ done rest
      (old ++ [spanOf v.set]) := by
  obtain ⟨-, -, cleared⟩ := h.neighbours own
  obtain ⟨same, -, -⟩ := h.start (r := spanOf v.set) (by simp [spans_here own]) (le_of_lt early)
  have good : Good v.set := h.records.good (a, v) (by simp)
  have inside := good.proper
  have touch : Edits ld₀ (spanOf v.set) := by
    by_cases overlap : ld₀.lStart ≤ v.set.lEnd
    · exact edits_of_overlap overlap (by omega)
    · refine .inr ⟨type, .inl ?_⟩
      simp only [spanOf_hi]
      omega
  have ordered := h.records.ordered
  rw [pairwise_append, pairwise_cons] at ordered
  exact { h with
    links := links
    next := rfl
    records := h.records.remove
    others := h.others_gone own
    split := h.split_next own
    lock := by
      simp only
      rw [h.lock]
    low := good.low
    left := by
      simp only
      omega
    clear := by
      intro d mem
      obtain ⟨ends, gap⟩ := cleared d mem
      exact ⟨ends, fun eq => gap ((eq.trans h.lType).trans type.symm)⟩
    keeps := fun b k before => h.keeps_gone (lt_trans before early) before k
    joined := by
      intro b lo hi
      refine (holds_append _ _ _ _).mpr (.inr ?_)
      simp only [holds_cons, holds_nil, or_false, spanOf_lo, spanOf_hi, spanOf_kind]
      exact ⟨lo, by omega, type⟩
    past := h.past_next (le_of_lt within)
    bare := h.bare_next (not_covers_of_short within)
    hint := by
      refine hint_of_last (fun x mem => ?_) fun _ x mem => ?_
      · exact ordered.2.2 x mem (a, v) (by simp)
      · exact ordered.2.1.1 x mem
    count := h.count_gone info ⟨touch, fun keep => keep.2 type⟩
    memory := by simp [info, h.memory]
    edited := .inr (h.edited_next own touch inside) }

end

theorem count_behind {ld₀ : Flock} (request : Request ld₀) (behind : ∀ r ∈ l, Before (spanOf ld₀) r)
    (proper : ∀ r ∈ l, r.lo ≤ r.hi) :
    l.countP (Deletes ld₀ ·) = 0 ∧ l.countP (Overhangs ld₀ ·) = 0 := by
  have order := request.proper
  constructor
  · refine countP_eq_zero.mpr fun r mem => ?_
    obtain ⟨ends, gap⟩ := behind r mem
    have inside := proper r mem
    simp only [spanOf_hi, spanOf_kind] at ends gap
    simp only [decide_eq_true_eq]
    rintro ⟨⟨-, reach⟩ | ⟨eq, touch | touch⟩, -⟩
    · omega
    · omega
    · have := gap eq.symm
      omega
  · refine countP_eq_zero.mpr fun r mem => ?_
    have ends := (behind r mem).1
    simp only [spanOf_hi] at ends
    simp only [decide_eq_true_eq]
    rintro ⟨-, reach, -⟩
    omega

theorem RecordList.proper {xs : List (Nat × Filock)} (h : RecordList xs) (o : Int × Int) :
    ∀ p ∈ spans o xs, p.lo ≤ p.hi := by
  intro p mem
  obtain ⟨x, hx, -, rfl⟩ := mem_spans.mp mem
  exact (h.good x hx).proper

theorem Scanning.no_overhang (h : Scanning t₀ ld₀ xs₀ s done rest old) :
    old.countP (Overhangs ld₀ ·) = 0 := by
  refine countP_eq_zero.mpr fun p mem => ?_
  have := h.past p mem
  simp only [decide_eq_true_eq]
  rintro ⟨-, -, beyond⟩
  omega

theorem room_of_none (none_hangs : l.countP (Overhangs ld₀ ·) = 0) :
    (∃ p ∈ l, Overhangs ld₀ p) → TailRoom env t₀.info ld₀ l :=
  fun ⟨p, mem, hangs⟩ => absurd (by simpa using hangs) (countP_eq_zero.mp none_hangs p mem)

theorem Scanning.settle (h : Scanning t₀ ld₀ xs₀ s done rest old)
    (behind : ∀ r ∈ spans (ownerOf ld₀) rest, Before (spanOf s.ld) r) :
    Settled env t₀ ld₀ xs₀ { s with nflp := none } (done ++ rest) := by
  have proper := h.records.proper (ownerOf ld₀)
  have left := h.left
  have request := h.request
  have order := request.proper
  have behind₀ : ∀ r ∈ spans (ownerOf ld₀) rest, Before (spanOf ld₀) r := by
    intro r mem
    obtain ⟨ends, gap⟩ := behind r mem
    simp only [spanOf_hi, spanOf_kind, h.lEnd, h.lType] at ends gap
    exact ⟨ends, gap⟩
  obtain ⟨deleted, overhanging⟩ := count_behind request behind₀ fun r mem => proper r (by simp [mem])
  have none_hangs : (spans (ownerOf ld₀) xs₀).countP (Overhangs ld₀ ·) = 0 := by
    rw [h.split, countP_append, h.no_overhang, overhanging]
  exact { h with
    lock := by
      simp only
      rw [h.lock]
    right := by simp [h.lEnd]
    high := by simpa [h.lEnd] using request.high
    clear := by
      rw [spans_append]
      exact forall_mem_append.mpr
        ⟨fun d mem => .inl (h.clear d mem), fun d mem => .inr (behind d mem)⟩
    keeps := by
      intro b k outside
      simp only [h.lEnd] at outside
      rw [h.split, spans_append, holds_append, holds_append]
      rcases outside with left | right
      · rw [h.keeps b k left]
      · simp [not_holds_of_before h.clear (by omega : s.ld.lStart ≤ b), h.not_old right]
    joined := by
      intro b lo hi outside
      simp only [h.lEnd] at lo hi
      rw [h.split, holds_append]
      exact .inl (h.joined b lo (by omega))
    bare := by
      rw [h.split]
      exact forall_mem_append.mpr ⟨h.bare, fun p mem => not_covers_behind request (behind₀ p mem)⟩
    room := room_of_none none_hangs
    count := by
      simp only [h.count, none_hangs]
      simp [h.split, countP_append, deleted]
    memory := by simp [h.memory, none_hangs] }

theorem Scanning.behind_of_beyond (h : Scanning t₀ ld₀ xs₀ s done ((a, v) :: rest) old)
    (own : ownerOf v.set = ownerOf ld₀) (beyond : ld₀.lEnd < v.set.lEnd) :
    ∀ r ∈ spans (ownerOf ld₀) rest, Before (spanOf ld₀) r := by
  intro r mem
  have ends := ((h.neighbours own).2.1 r mem).1
  simp only [spanOf_hi] at ends
  refine ⟨?_, fun eq => ?_⟩ <;> simp only [spanOf_hi] <;> omega

theorem Scanning.extend (h : Scanning t₀ ld₀ xs₀ s done ((a, v) :: rest) old)
    (own : ownerOf v.set = ownerOf ld₀) (type : v.set.lType = ld₀.lType) (late : s.ld.lStart < v.set.lStart)
    (reach : v.set.lStart ≤ ld₀.lEnd + 1) (beyond : ld₀.lEnd < v.set.lEnd)
    (links : Links t.list (done ++ rest))
    (info : t.info = { s.tab.info with reccnt := s.tab.info.reccnt - 1 }) :
    Settled env t₀ ld₀ xs₀
      { s with tab := t, nflp := none, ld := { s.ld with lEnd := v.set.lEnd } }
      (done ++ rest) := by
  obtain ⟨before, next, -⟩ := h.neighbours own
  have tail := spans_here (a := a) own rest
  have good : Good v.set := h.records.good (a, v) (by simp)
  have proper := h.records.remove.proper (ownerOf ld₀)
  have request := h.request
  have order := request.proper
  have behind₀ := h.behind_of_beyond own beyond
  obtain ⟨deleted, overhanging⟩ := count_behind request behind₀ fun r mem => proper r (by simp [mem])
  have touch : Edits ld₀ (spanOf v.set) := by
    by_cases overlap : v.set.lStart ≤ ld₀.lEnd
    · exact edits_of_overlap (by omega) overlap
    · refine .inr ⟨type, .inr ?_⟩
      simp only [spanOf_lo]
      omega
  have gone : Deletes ld₀ (spanOf v.set) := ⟨touch, fun keep => keep.2 type⟩
  have fits : ¬ Overhangs ld₀ (spanOf v.set) := fun hang => hang.1 type
  have none_hangs : (spans (ownerOf ld₀) xs₀).countP (Overhangs ld₀ ·) = 0 := by
    simp [h.split, tail, countP_append, h.no_overhang, overhanging, fits]
  exact { h with
    links := links
    records := h.records.remove
    others := h.others_gone own
    lock := by
      simp only
      rw [h.lock]
    right := le_of_lt beyond
    high := good.high
    clear := by
      rw [spans_append]
      refine forall_mem_append.mpr ⟨fun d mem => .inl (h.clear d mem), fun d mem => .inr ?_⟩
      obtain ⟨ends, gap⟩ := next d mem
      exact ⟨ends, fun eq => gap ((type.trans h.lType.symm).trans eq)⟩
    keeps := by
      intro b k outside
      simp only at outside
      rw [h.split, tail, spans_append, holds_append, holds_append, holds_cons]
      simp only [spanOf_lo, spanOf_hi]
      have elsewhere : ¬ (v.set.lStart ≤ b ∧ b ≤ v.set.lEnd ∧ (spanOf v.set).kind = k) := by
        rintro ⟨lo, hi, -⟩
        omega
      simp only [elsewhere, false_or]
      rcases outside with below | above
      · rw [h.keeps b k below]
      · simp [not_holds_of_before h.clear (by omega : s.ld.lStart ≤ b),
          h.not_old (by omega : ld₀.lEnd < b)]
    joined := by
      intro b lo hi outside
      rw [h.split, tail, holds_append, holds_cons]
      rcases outside with below | above
      · exact .inl (h.joined b lo below)
      · refine .inr (.inl ⟨?_, hi, type⟩)
        simp only [spanOf_lo]
        omega
    bare := by
      rw [h.split, tail]
      exact forall_mem_append.mpr ⟨h.bare, forall_mem_cons.mpr ⟨h.not_covers own late,
        fun p mem => not_covers_behind request (behind₀ p mem)⟩⟩
    room := room_of_none none_hangs
    hint := h.hint.remove (x := (a, v)) late
    count := by
      simp only [info, h.count, none_hangs]
      simp only [h.split, tail, countP_append, countP_cons, deleted, gone, decide_true, if_true]
      omega
    memory := by simp [info, h.memory, none_hangs] }

theorem Scanning.no_own_between {mid behind : List (Nat × Filock)}
    (h : Scanning t₀ ld₀ xs₀ s done ((a, v) :: (mid ++ behind)) old)
    (own : ownerOf v.set = ownerOf ld₀)
    (beyond : ld₀.lEnd < v.set.lEnd) (early : ∀ x ∈ mid, x.2.set.lStart < ld₀.lEnd + 1) :
    spans (ownerOf ld₀) mid = [] := by
  obtain ⟨-, next, -⟩ := h.neighbours own
  rw [eq_nil_iff_forall_not_mem]
  intro p mem
  have gap := (next p (by simp [mem])).1
  obtain ⟨x, hx, -, rfl⟩ := mem_spans.mp mem
  have := early x hx
  simp only [spanOf_hi, spanOf_lo] at gap
  omega

/-- The records deleted before the piece is set up are those of the locks that end in
    front of it. -/
theorem Scanning.tailRoom_iff (h : Scanning t₀ ld₀ xs₀ s done ((a, v) :: rest) old)
    (own : ownerOf v.set = ownerOf ld₀) (beyond : ld₀.lEnd < v.set.lEnd) :
    TailRoom env t₀.info ld₀ (spans (ownerOf ld₀) xs₀) ↔ Room env s.tab.info := by
  obtain ⟨-, next, -⟩ := h.neighbours own
  have proper := h.records.remove.proper (ownerOf ld₀)
  have before : old.countP (fun p => Deletes ld₀ p ∧ p.hi ≤ ld₀.lEnd) =
      old.countP (Deletes ld₀ ·) := by
    refine countP_congr fun p mem => ?_
    simp [h.past p mem]
  have behind : (spans (ownerOf ld₀) rest).countP (fun p => Deletes ld₀ p ∧ p.hi ≤ ld₀.lEnd) = 0 := by
    refine countP_eq_zero.mpr fun p mem => ?_
    have gap := (next p mem).1
    have inside := proper p (by simp [mem])
    simp only [spanOf_hi] at gap
    simp only [decide_eq_true_eq]
    rintro ⟨-, ends⟩
    omega
  have here : ¬ (Deletes ld₀ (spanOf v.set) ∧ v.set.lEnd ≤ ld₀.lEnd) := fun both => by
    omega
  simp only [TailRoom, Room, h.count, h.memory]
  rw [h.split, spans_own (x := (a, v)) own, countP_append, countP_cons, before, behind]
  simp [here]

section
variable {front mid behind : List (Nat × Filock)} {n : Nat}
  (h : Scanning t₀ ld₀ xs₀ s done ((a, v) :: (mid ++ behind)) old)
  (own : ownerOf v.set = ownerOf ld₀) (beyond : ld₀.lEnd < v.set.lEnd)
  (early : ∀ x ∈ mid, x.2.set.lStart < ld₀.lEnd + 1)
include h own beyond early

theorem Scanning.split_off_spans (front : List (Nat × Filock)) (n : Nat) :
    spans (ownerOf ld₀) ((front ++ mid) ++ (n, v.tail ld₀.lEnd) :: behind) =
      spans (ownerOf ld₀) front ++
        ⟨ld₀.lEnd + 1, v.set.lEnd, v.set.lType⟩ :: spans (ownerOf ld₀) behind := by
  rw [spans_append, spans_append, h.no_own_between own beyond early, append_nil]
  exact congrArg _ (spans_here (v := v.tail ld₀.lEnd) own behind)

variable (clear : ∀ d ∈ spans (ownerOf ld₀) front, Before d (spanOf s.ld))
include clear

theorem Scanning.split_off_records (reach : v.set.lStart ≤ ld₀.lEnd)
    (late : ∀ x ∈ behind, ld₀.lEnd + 1 ≤ x.2.set.lStart)
    (records : RecordList (front ++ (mid ++ behind)))
    (starts : ∀ x ∈ front, x.2.set.lStart ≤ v.set.lStart) :
    RecordList ((front ++ mid) ++ (n, v.tail ld₀.lEnd) :: behind) := by
  have whole : Good v.set := h.records.good (a, v) (by simp)
  have order := h.request.proper
  have low := h.request.low
  have left := h.left
  have assembled : RecordList ((front ++ mid) ++ behind) := by simpa using records
  refine assembled.insert ⟨?_, beyond, whole.high, whole.type⟩ ?_ late ?_ ?_
  · change 0 ≤ ld₀.lEnd + 1
    omega
  · intro x mem
    change x.2.set.lStart ≤ ld₀.lEnd + 1
    rcases mem_append.mp mem with mem | mem
    · have := starts x mem
      omega
    · exact le_of_lt (early x mem)
  · intro p mem
    change p ∈ spans (ownerOf v.set) (front ++ mid) at mem
    rw [own, spans_append, h.no_own_between own beyond early, append_nil] at mem
    have ends := (clear p mem).1
    simp only [spanOf_lo] at ends
    refine ⟨?_, fun _ => ?_⟩ <;> simp only [spanOf_lo] <;> omega
  · intro r mem
    change r ∈ spans (ownerOf v.set) behind at mem
    rw [own] at mem
    exact (h.neighbours own).2.1 r (by simp [mem])

theorem Scanning.split_off_clear (type : v.set.lType ≠ ld₀.lType) :
    ∀ d ∈ spans (ownerOf ld₀) ((front ++ mid) ++ (n, v.tail ld₀.lEnd) :: behind),
      Before d (spanOf s.ld) ∨ Before (spanOf s.ld) d := by
  rw [h.split_off_spans own beyond early]
  refine forall_mem_append.mpr ⟨fun d mem => .inl (clear d mem), forall_mem_cons.mpr
    ⟨.inr ⟨?_, fun eq => absurd (eq.symm.trans h.lType) type⟩, fun d mem => .inr ?_⟩⟩
  · simp only [spanOf_hi, h.lEnd]
    omega
  · have ends := ((h.neighbours own).2.1 d (by simp [mem])).1
    simp only [spanOf_hi] at ends
    refine ⟨?_, fun _ => ?_⟩ <;> simp only [spanOf_hi, h.lEnd] <;> omega

/-- The bytes outside of the lock stay as they are: in front of it through `front`, and behind it
through the piece. -/
theorem Scanning.split_off_keeps (reach : v.set.lStart ≤ ld₀.lEnd)
    (keeps : ∀ b k, b < s.ld.lStart →
      (Holds (spans (ownerOf ld₀) front) b k ↔ Holds (old ++ [spanOf v.set]) b k))
    (b : Int) (k : LockType) (outside : b < s.ld.lStart ∨ ld₀.lEnd < b) :
    Holds (spans (ownerOf ld₀) ((front ++ mid) ++ (n, v.tail ld₀.lEnd) :: behind)) b k ↔
      Holds (spans (ownerOf ld₀) xs₀) b k := by
  have left := h.left
  have order := h.request.proper
  have same : Holds (spans (ownerOf ld₀) front) b k ∨
        (ld₀.lEnd + 1 ≤ b ∧ b ≤ v.set.lEnd ∧ v.set.lType = k) ↔
      Holds (old ++ [spanOf v.set]) b k := by
    rcases outside with below | above
    · rw [keeps b k below]
      have elsewhere : ¬ (ld₀.lEnd + 1 ≤ b ∧ b ≤ v.set.lEnd ∧ v.set.lType = k) := by
        rintro ⟨lo, -, -⟩
        omega
      simp only [elsewhere, or_false]
    · simp only [not_holds_of_before clear (by omega : s.ld.lStart ≤ b), h.not_old above,
        holds_append, holds_cons, holds_nil, false_or, or_false, spanOf_lo, spanOf_hi, spanOf_kind]
      have near : v.set.lStart ≤ b := by omega
      have past : ld₀.lEnd + 1 ≤ b := by omega
      simp only [near, past, true_and]
  rw [h.split_off_spans own beyond early, h.split, spans_here own, spans_append,
    h.no_own_between own beyond early, nil_append, holds_append, holds_cons, ← or_assoc, same,
    holds_append, holds_append, holds_cons, holds_cons]
  simp only [holds_nil, or_false, or_assoc]

/-- The piece of a record behind the lock has been set up; of the record, `front` keeps what lies
before the lock. -/
theorem Scanning.split_off (type : v.set.lType ≠ ld₀.lType) (reach : v.set.lStart ≤ ld₀.lEnd)
    (room : Room env s.tab.info) (late : ∀ x ∈ behind, ld₀.lEnd + 1 ≤ x.2.set.lStart)
    (records : RecordList (front ++ (mid ++ behind)))
    (starts : ∀ x ∈ front, x.2.set.lStart ≤ v.set.lStart)
    (others : ∀ o, o ≠ ownerOf ld₀ → spans o front = spans o done)
    (keeps : ∀ b k, b < s.ld.lStart →
      (Holds (spans (ownerOf ld₀) front) b k ↔ Holds (old ++ [spanOf v.set]) b k))
    (hint : Hint s.ld i (front ++ (mid ++ behind)))
    (links : Links t.list ((front ++ mid) ++ (n, v.tail ld₀.lEnd) :: behind))
    (count : t.info.reccnt = s.tab.info.reccnt + 1 - (if Deletes ld₀ (spanOf v.set) then 1 else 0))
    (memory : t.info.zallocs = s.tab.info.zallocs + 1) :
    Settled env t₀ ld₀ xs₀ { s with tab := t, insrtp := i, nflp := none }
      ((front ++ mid) ++ (n, v.tail ld₀.lEnd) :: behind) := by
  have left := h.left
  have order := h.request.proper
  have tail := spans_here (a := a) own (mid ++ behind)
  have proper := records.proper (ownerOf ld₀)
  have behind₀ := h.behind_of_beyond own beyond
  obtain ⟨deleted, overhanging⟩ := count_behind h.request behind₀
    fun r mem => proper r (by rw [spans_append]; exact mem_append.mpr (.inr mem))
  have hangs : Overhangs ld₀ (spanOf v.set) := ⟨type, reach, beyond⟩
  exact { h with
    links := links
    records := h.split_off_records own beyond early clear reach late records starts
    others := by
      intro o other
      rw [← h.others o other, spans_append, spans_append, spans_append, others o other,
        spans_elsewhere (v := v.tail ld₀.lEnd) own other, spans_elsewhere own other, spans_append,
        append_assoc]
    lock := by
      simp only
      rw [h.lock]
    right := by simp [h.lEnd]
    high := by simpa [h.lEnd] using h.request.high
    clear := h.split_off_clear own beyond early clear type
    keeps := by
      intro b k outside
      simp only [h.lEnd] at outside
      exact h.split_off_keeps own beyond early clear reach keeps b k outside
    joined := by
      intro b lo hi outside
      simp only [h.lEnd] at lo hi
      rw [h.split, holds_append]
      exact .inl (h.joined b lo (by omega))
    bare := by
      rw [h.split, tail]
      exact forall_mem_append.mpr ⟨h.bare, forall_mem_cons.mpr ⟨fun covers => type covers.1,
        fun p mem => not_covers_behind h.request (behind₀ p mem)⟩⟩
    room := fun _ => (h.tailRoom_iff own beyond).mpr room
    hint := by
      have assembled : Hint s.ld i ((front ++ mid) ++ behind) := by simpa using hint
      refine assembled.insert ?_
      change s.ld.lStart ≤ ld₀.lEnd + 1
      omega
    count := by
      rw [count, h.count, h.split, tail]
      simp only [countP_append, countP_cons, deleted, overhanging, h.no_overhang, hangs,
        decide_true, if_true]
      by_cases gone : Deletes ld₀ (spanOf v.set)
      · simp only [gone, decide_true, if_true]
        omega
      · simp only [gone, decide_false, if_false]
        simp
    memory := by
      rw [memory, h.memory, h.split, tail]
      simp only [countP_append, countP_cons, overhanging, h.no_overhang, hangs,
        decide_true, if_true] }

end

theorem Scanning.insertPiece_spec (env : Env)
    (h : Scanning t₀ ld₀ xs₀ s done ((a, v) :: rest) old) :
    (¬ Room env s.tab.info ∧ ∃ t', insertPiece env s.tab s.ld a v.set = some (none, t') ∧
      t'.list = s.tab.list) ∨
    (Room env s.tab.info ∧ ∃ t' n mid behind, rest = mid ++ behind ∧
      insertPiece env s.tab s.ld a v.set = some (some n, t') ∧
      Links t'.list
        (done ++ (a, v) :: (mid ++ (n, v.tail ld₀.lEnd) :: behind)) ∧
      t'.info.reccnt = s.tab.info.reccnt + 1 ∧ t'.info.zallocs = s.tab.info.zallocs + 1 ∧
      (∀ x ∈ mid, x.2.set.lStart < ld₀.lEnd + 1) ∧
      ∀ x ∈ behind, ld₀.lEnd + 1 ≤ x.2.set.lStart) := by
  obtain ⟨mid, behind, b, cut, run, last, early, late⟩ :=
    seekStart_spec (ld₀.lEnd + 1) h.links h.records
  have whole : Links s.tab.list ((done ++ (a, v) :: mid) ++ behind) := by
    simpa [cut] using h.links
  rcases insflck_spec env { v.set with lStart := ld₀.lEnd + 1 } whole with
    ⟨full, t', insert, list⟩ | ⟨room, t', n, insert, links, info⟩
  · rw [last] at insert
    exact .inl ⟨full, t', by simp [insertPiece, h.lEnd, run, insert], list⟩
  · rw [last] at insert
    exact .inr ⟨room, t', n, mid, behind, cut, by simp [insertPiece, h.lEnd, run, insert],
      by simpa [Filock.tail] using links, by rw [info], by rw [info], early, late⟩

end Steps

end RecordLocks
