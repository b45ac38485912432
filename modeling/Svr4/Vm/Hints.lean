import Svr4.Minima
import Svr4.Runs
import Svr4.Vm.Gaps

/- vm/vm_as.c, vm_seg.c, os/core.c: searches that start at the segment that was hit last. -/
namespace AddressSpace
open LabelledRuns Minima List

deriving instance DecidableEq for Seg

structure Space where
  as : As
  a_seglast : Option Seg

/-- The segments in the order of s_next, from `sseg` round to it; a walk from a segment that has
    been freed leaves the list. -/
def around (segs : List Seg) (sseg : Seg) : Option (List Seg) :=
  if sseg ∈ segs then some (segs.dropWhile (· ≠ sseg) ++ segs.takeWhile (· ≠ sseg)) else none

/-- `if (as->a_seglast == NULL) as->a_seglast = as->a_segs;` and the walk from there. -/
def Space.walk (h : Space) : Option (Space × List Seg) :=
  match h.a_seglast.or h.as.a_segs.head? with
  | none => some (h, [])
  | some sseg => (around h.as.a_segs sseg).map fun order => ({ h with a_seglast := sseg }, order)

def Seg.contains (seg : Seg) (addr : Nat) : Bool := seg.s_base ≤ addr && addr < seg.stop

def as_segat (h : Space) (addr : Nat) : Option (Space × Option Seg) :=
  h.walk.map fun (h, order) =>
    match order.find? (·.contains addr) with
    | some seg => ({ h with a_seglast := seg }, some seg)
    | none => (h, none)

inductive Errno
  | EINVAL
  | ENOMEM
  deriving DecidableEq

/-- The segment that contains the address, and the closest one above it so far. -/
def memory_loop (vn : Seg → Bool) (addr : Nat) : List Seg → Option Seg → Option Seg × Option Seg
  | [], cseg => (none, cseg)
  | seg :: rest, cseg =>
    if vn seg = false then memory_loop vn addr rest cseg
    else if seg.contains addr then (some seg, cseg)
    else if seg.s_base > addr ∧ (cseg.all fun c => c.s_base > seg.s_base) = true then
      memory_loop vn addr rest (some seg)
    else memory_loop vn addr rest cseg

/-- `vn` are the segments with `s_ops == &segvn_ops`. -/
def as_memory (vn : Seg → Bool) (h : Space) (r : Range) : Option (Space × Except Errno Range) :=
  let eaddr := (r.basep + r.lenp) % 2 ^ 32
  h.walk.map fun (h, order) =>
    match memory_loop vn r.basep order none with
    | (some seg, _) => ({ h with a_seglast := seg },
        .ok ⟨r.basep, (if seg.stop > eaddr then eaddr + 2 ^ 32 - r.basep
          else seg.stop - r.basep) % 2 ^ 32⟩)
    | (none, none) => (h, .error .EINVAL)
    | (none, some cseg) =>
      if cseg.s_base ≥ eaddr then (h, .error .ENOMEM)
      else ({ h with a_seglast := cseg },
        .ok ⟨cseg.s_base, if cseg.stop > eaddr then eaddr - cseg.s_base else cseg.s_size⟩)

def seg_free (h : Space) (seg : Seg) : Space :=
  let segs := h.as.a_segs.filter (· ≠ seg)
  ⟨⟨segs, h.as.sorted.sublist filter_sublist⟩,
    if h.a_seglast = some seg then segs.head? else h.a_seglast⟩

/-- seg_alloc, and seg_attach; then the create routine, which may fail. -/
def as_map (h : Space) (new : Seg) (error : Bool) : Space :=
  match as_addseg h.as new with
  | none => h
  | some as => if error then seg_free ⟨as, some new⟩ new else ⟨as, some new⟩

instance (segs : List Seg) : Decidable (Sorted segs) := by
  unfold Sorted
  infer_instance

/-- A driver moves an end of a segment, as segvn_unmap, segvn_extend_prev and segvn_concat do. -/
def resize (h : Space) (seg new : Seg) : Option Space :=
  let moved s := if s = seg then new else s
  if sorted : Sorted (h.as.a_segs.map moved) then
    some ⟨⟨h.as.a_segs.map moved, sorted⟩, h.a_seglast.map moved⟩
  else none

inductive Call
  | seg_alloc (new : Seg)
  | as_map (new : Seg) (error : Bool)
  | seg_free (seg : Seg)
  | resize (seg new : Seg)
  | as_segat (addr : Nat)
  | as_memory (vn : Seg → Bool) (r : Range)

def step (h : Space) : Call → Option Space
  | .seg_alloc new => some ⟨(as_addseg h.as new).getD h.as, h.a_seglast⟩
  | .as_map new error => some (as_map h new error)
  | .seg_free seg => if seg ∈ h.as.a_segs then some (seg_free h seg) else none
  | .resize seg new => resize h seg new
  | .as_segat addr => (as_segat h addr).map (·.1)
  | .as_memory vn r => (as_memory vn h r).map (·.1)

def as_alloc : Space := ⟨⟨[], Pairwise.nil⟩, none⟩

/-- What core_seg writes, from `base` on, and the error; `write` is what vn_rdwr returns. -/
def core_seg (vn : Seg → Bool) (write : Range → Nat) (eaddr : Nat) :
    Nat → Space → Nat → Option (List Range × Nat)
  | 0, _, _ => none
  | turns + 1, h, base =>
    if base < eaddr then do
      let (h, r) ← as_memory vn h ⟨base, eaddr - base⟩
      match r with
      | .error _ => some ([], 0)
      | .ok r =>
        if write r ≠ 0 then some ([r], write r)
        else
          let (rest, err) ← core_seg vn write eaddr turns h (r.basep + r.lenp)
          some (r :: rest, err)
    else some ([], 0)

section Walks
variable {vn : Seg → Bool} {segs order : List Seg} {new s t x : Seg} {addr a : Nat} {h h' : Space}

theorem Seg.contains_iff : s.contains a = true ↔ s.s_base ≤ a ∧ a < s.stop := by
  simp [Seg.contains]

theorem Sorted.same (sorted : Sorted segs) (mem : s ∈ segs) (mem' : t ∈ segs)
    (here : s.contains a = true) (there : t.contains a = true) : s = t := by
  rw [Seg.contains_iff] at here there
  induction segs with
  | nil => cases mem
  | cons x xs ih =>
    obtain ⟨behind, rest⟩ := pairwise_cons.mp sorted
    rcases mem_cons.mp mem with rfl | old <;> rcases mem_cons.mp mem' with rfl | old'
    · rfl
    · have far := behind t old'
      omega
    · have far := behind s old
      omega
    · exact ih rest old old'

theorem mem_around (walked : around segs s = some order) : x ∈ order ↔ x ∈ segs := by
  unfold around at walked
  split at walked
  · cases walked
    rw [mem_append, or_comm, ← mem_append, takeWhile_append_dropWhile]
  · cases walked

/-- The segment that was hit last is one of the list. -/
def Space.Hinted (h : Space) : Prop := ∀ s, h.a_seglast = some s → s ∈ h.as.a_segs

theorem Space.Hinted.walk (hinted : h.Hinted) : ∃ h' order, h.walk = some (h', order) ∧
    h'.as = h.as ∧ h'.Hinted ∧ ∀ x, x ∈ order ↔ x ∈ h.as.a_segs := by
  unfold Space.walk
  cases start : h.a_seglast.or h.as.a_segs.head? with
  | none =>
    have empty := head?_eq_none_iff.mp (Option.or_eq_none_iff.mp start).2
    exact ⟨h, [], rfl, rfl, hinted, fun x => by rw [empty]⟩
  | some sseg =>
    have mem : sseg ∈ h.as.a_segs := by
      rcases Option.or_eq_some_iff.mp start with last | ⟨-, head⟩
      · exact hinted sseg last
      · exact mem_of_head? head
    obtain ⟨order, walked⟩ : ∃ order, around h.as.a_segs sseg = some order := ⟨_, if_pos mem⟩
    refine ⟨{ h with a_seglast := sseg }, order, by simp only [walked, Option.map_some], rfl, ?_,
      fun x => mem_around walked⟩
    intro s same
    cases same
    exact mem

theorem insert_seg_none (sorted : Sorted segs) : insert_seg new segs = none ↔
    ∃ s ∈ segs, s.s_base < new.stop ∧ new.s_base < s.stop := by
  have some_size := new.base_lt
  induction segs with
  | nil => simp [insert_seg]
  | cons seg rest ih =>
    obtain ⟨behind, rest_sorted⟩ := pairwise_cons.mp sorted
    have size := seg.base_lt
    unfold insert_seg
    split_ifs with before overlaps within
    · exact ⟨fun _ => ⟨seg, mem_cons_self, overlaps, by omega⟩, fun _ => rfl⟩
    · refine iff_of_false (by simp) ?_
      rintro ⟨s, mem, low, high⟩
      rcases mem_cons.mp mem with rfl | later
      · omega
      · have far := behind s later
        omega
    · exact ⟨fun _ => ⟨seg, mem_cons_self, by omega, within⟩, fun _ => rfl⟩
    · refine Option.map_eq_none_iff.trans ((ih rest_sorted).trans ?_)
      constructor
      · rintro ⟨s, mem, hits⟩
        exact ⟨s, mem_cons_of_mem _ mem, hits⟩
      · rintro ⟨s, mem, low, high⟩
        rcases mem_cons.mp mem with rfl | later
        · omega
        · exact ⟨s, later, low, high⟩

theorem insert_seg_keeps {new : List Seg} (placed : insert_seg s segs = some new) :
    s ∈ new ∧ ∀ x ∈ segs, x ∈ new := by
  induction segs generalizing new with
  | nil =>
    obtain rfl := Option.some.inj placed
    simp
  | cons seg rest ih =>
    unfold insert_seg at placed
    split_ifs at placed
    · obtain rfl := Option.some.inj placed
      exact ⟨mem_cons_self, fun x mem => mem_cons_of_mem _ mem⟩
    · obtain ⟨tail, inserted, rfl⟩ := Option.map_eq_some_iff.mp placed
      obtain ⟨there, old⟩ := ih inserted
      exact ⟨mem_cons_of_mem _ there, fun x mem => (mem_cons.mp mem).elim
        (fun same => same ▸ mem_cons_self) fun later => mem_cons_of_mem _ (old x later)⟩

theorem as_segat_spec (hinted : h.Hinted) (addr : Nat) : ∃ h' r, as_segat h addr = some (h', r) ∧
    h'.as = h.as ∧ h'.Hinted ∧ ∀ s, r = some s ↔ s ∈ h.as.a_segs ∧ s.contains addr = true := by
  obtain ⟨h₁, order, walked, as, hinted₁, mem⟩ := hinted.walk
  rw [as_segat, walked, Option.map_some]
  dsimp only
  cases found : order.find? (·.contains addr) with
  | none =>
    refine ⟨h₁, none, rfl, as, hinted₁, fun s => ⟨nofun, fun ⟨there, holds⟩ => ?_⟩⟩
    exact absurd holds (find?_eq_none.mp found s ((mem s).mpr there))
  | some seg =>
    have there := (mem seg).mp (mem_of_find?_eq_some found)
    have holds := find?_some found
    refine ⟨{ h₁ with a_seglast := seg }, some seg, rfl, as, ?_,
      fun s => ⟨?_, fun ⟨there', holds'⟩ => ?_⟩⟩
    · intro s same
      cases same
      rwa [as]
    · rintro ⟨⟩
      exact ⟨there, holds⟩
    · exact congrArg some (h.as.sorted.same there there' holds holds')

end Walks

section Memory
variable {vn : Seg → Bool} {segs : List Seg} {addr : Nat} {h : Space} {seen : Seg → Prop}
  {cseg : Option Seg}

def Above (vn : Seg → Bool) (addr : Nat) (s : Seg) : Prop := vn s = true ∧ addr < s.s_base

def base (s : Seg) : Int := s.s_base

def Scanned (vn : Seg → Bool) (addr : Nat) (seen : Seg → Prop) : Option Seg × Option Seg → Prop
  | (some s, _) => seen s ∧ vn s = true ∧ s.contains addr = true
  | (none, cseg) => (∀ s, seen s → vn s = true → s.contains addr = false) ∧
      Picks (Above vn addr) base seen cseg

theorem memory_loop_spec (clear : ∀ s, seen s → vn s = true → s.contains addr = false)
    (picks : Picks (Above vn addr) base seen cseg) :
    Scanned vn addr (fun s => seen s ∨ s ∈ segs) (memory_loop vn addr segs cseg) := by
  induction segs generalizing seen cseg with
  | nil => exact ⟨fun s mem => clear s (by simpa using mem), picks.congr (by simp)⟩
  | cons seg rest ih =>
    have next : ∀ {c}, (vn seg = true → seg.contains addr = false) →
        Picks (Above vn addr) base (fun s => seen s ∨ s = seg) c →
        Scanned vn addr (fun s => seen s ∨ s ∈ seg :: rest) (memory_loop vn addr rest c) := by
      intro c passed picks
      have all : (fun s => seen s ∨ s ∈ seg :: rest) = fun s => (seen s ∨ s = seg) ∨ s ∈ rest := by
        simp only [mem_cons, or_assoc]
      rw [all]
      refine ih (fun s mem => ?_) picks
      rcases mem with old | rfl
      · exact clear s old
      · exact passed
    rw [memory_loop]
    split_ifs with other here closer
    · exact next (fun own => absurd other (by simp [own])) (picks.skip fun above =>
        absurd other (by simp [above.1]))
    · exact ⟨.inr mem_cons_self, by simpa using other, here⟩
    · refine next (fun _ => by simpa using here) (picks.take ⟨by simpa using other, closer.1⟩ ?_)
      rintro c rfl
      have less := closer.2
      simp only [Option.all_some, decide_eq_true_eq] at less
      exact Int.ofNat_le.mpr (Nat.le_of_lt less)
    · refine next (fun _ => by simpa using here) (picks.skip fun above => ?_)
      cases cseg with
      | none => exact absurd ⟨above.2, rfl⟩ closer
      | some c =>
        refine ⟨c, rfl, ?_⟩
        have no_less : ¬ c.s_base > seg.s_base := fun less =>
          closer ⟨above.2, by simpa using less⟩
        exact Int.ofNat_le.mpr (Nat.not_lt.mp no_less)

def Backed (vn : Seg → Bool) (segs : List Seg) (a : Nat) : Prop :=
  ∃ s ∈ segs, vn s = true ∧ s.contains a = true

/-- The first bytes from `addr` on that such segments have, up to the end of one of them. -/
def Extent (vn : Seg → Bool) (segs : List Seg) (addr eaddr : Nat) : Except Errno Range → Prop
  | .ok r => addr ≤ r.basep ∧ (r.basep = addr ∨ r.basep < eaddr) ∧
      (∀ a, addr ≤ a → a < r.basep → ¬Backed vn segs a) ∧ ∃ s ∈ segs, vn s = true ∧
        s.contains r.basep = true ∧ r.basep + r.lenp = min s.stop eaddr
  | .error e => (∀ a, addr ≤ a → a < eaddr → ¬Backed vn segs a) ∧
      (e = .EINVAL ↔ ∀ a, addr ≤ a → ¬Backed vn segs a)

theorem Scanned.above {a : Nat} (scanned : Scanned vn addr (· ∈ segs) (none, cseg))
    (backed : Backed vn segs a) (from_addr : addr ≤ a) :
    ∃ c, cseg = some c ∧ c.s_base ≤ a := by
  obtain ⟨clear, picks⟩ := scanned
  obtain ⟨s, mem, own, here⟩ := backed
  have passed := clear s mem own
  rw [Seg.contains_iff] at here
  have above : Above vn addr s := by
    refine ⟨own, Nat.lt_of_not_le fun low => ?_⟩
    rw [Seg.contains_iff.mpr ⟨low, by omega⟩] at passed
    cases passed
  cases cseg with
  | none => exact absurd above (picks s mem)
  | some c =>
    have least : (c.s_base : Int) ≤ s.s_base := picks.2.2 s mem above
    exact ⟨c, rfl, by omega⟩

theorem as_memory_spec (hinted : h.Hinted) (vn : Seg → Bool) {r : Range}
    (fits : r.basep + r.lenp < 2 ^ 32) : ∃ h' m, as_memory vn h r = some (h', m) ∧
      h'.as = h.as ∧ h'.Hinted ∧ Extent vn h.as.a_segs r.basep (r.basep + r.lenp) m := by
  obtain ⟨h₁, order, walked, as, hinted₁, mem⟩ := hinted.walk
  have scanned : Scanned vn r.basep (· ∈ h.as.a_segs) (memory_loop vn r.basep order none) := by
    have all := @memory_loop_spec vn order r.basep _ _ (fun _ never => never.elim) picks_nothing
    simpa only [false_or, mem] using all
  rw [as_memory, walked, Option.map_some, Nat.mod_eq_of_lt fits]
  dsimp only
  generalize memory_loop vn r.basep order none = result at scanned ⊢
  rcases result with ⟨_ | seg, cseg⟩
  · cases cseg with
    | none =>
      have nothing : ∀ a, r.basep ≤ a → ¬Backed vn h.as.a_segs a := by
        intro a low backed
        obtain ⟨c, never, -⟩ := scanned.above backed low
        cases never
      exact ⟨h₁, _, rfl, as, hinted₁, fun a low _ => nothing a low, by simpa using nothing⟩
    | some cseg =>
      obtain ⟨there, above, -⟩ := scanned.2
      have least : ∀ a, r.basep ≤ a → Backed vn h.as.a_segs a → cseg.s_base ≤ a := by
        intro a low backed
        obtain ⟨c, same, least⟩ := scanned.above backed low
        cases same
        exact least
      have starts : cseg.contains cseg.s_base = true :=
        Seg.contains_iff.mpr ⟨Nat.le_refl _, cseg.base_lt⟩
      dsimp only
      split
      · refine ⟨h₁, _, rfl, as, hinted₁, fun a low high backed => ?_, nofun, fun nothing => ?_⟩
        · have first := least a low backed
          omega
        · exact absurd ⟨cseg, there, above.1, starts⟩ (nothing _ (Nat.le_of_lt above.2))
      next far =>
      refine ⟨{ h₁ with a_seglast := cseg }, _, rfl, as, fun s same => ?_,
        Nat.le_of_lt above.2, .inr (Nat.lt_of_not_le far), fun a low high backed => ?_, cseg,
        there, above.1, starts, ?_⟩
      · cases same
        rwa [as]
      · exact absurd (least a low backed) (Nat.not_le.mpr high)
      · unfold Seg.stop
        dsimp only
        split_ifs <;> omega
  · obtain ⟨there, own, here⟩ := scanned
    refine ⟨{ h₁ with a_seglast := seg }, _, rfl, as, fun s same => ?_, Nat.le_refl _, .inl rfl,
      fun a low high => absurd low (Nat.not_le.mpr high), seg, there, own, here, ?_⟩
    · cases same
      rwa [as]
    · have inside := Seg.contains_iff.mp here
      have below := seg.stop_lt
      dsimp only
      split_ifs <;> omega

/-- The ranges, in order, have just the bytes of such segments from `lo` to `hi`. -/
structure Covers (vn : Seg → Bool) (segs : List Seg) (lo hi : Nat) (ws : List Range) : Prop where
  full : ∀ w ∈ ws, 0 < w.lenp
  apart : ws.Pairwise fun v w => v.basep + v.lenp ≤ w.basep
  bytes : ∀ a, (∃ w ∈ ws, w.basep ≤ a ∧ a < w.basep + w.lenp) ↔
    lo ≤ a ∧ a < hi ∧ Backed vn segs a

theorem Covers.cons {segs : List Seg} {lo hi : Nat} {w : Range} {ws : List Range}
    (low : lo ≤ w.basep) (some_bytes : 0 < w.lenp) (skipped : ∀ a, lo ≤ a → a < w.basep → ¬Backed vn segs a)
    (backed : ∀ a, w.basep ≤ a → a < w.basep + w.lenp → Backed vn segs a)
    (high : w.basep + w.lenp ≤ hi) (rest : Covers vn segs (w.basep + w.lenp) hi ws) :
    Covers vn segs lo hi (w :: ws) where
  full v mem := by
    rcases mem_cons.mp mem with rfl | mem
    · exact some_bytes
    · exact rest.full v mem
  apart := by
    refine pairwise_cons.mpr ⟨fun v mem => ?_, rest.apart⟩
    exact ((rest.bytes v.basep).mp ⟨v, mem, Nat.le_refl _,
      Nat.lt_add_of_pos_right (rest.full v mem)⟩).1
  bytes a := by
    constructor
    · rintro ⟨v, mem, first, last⟩
      rcases mem_cons.mp mem with rfl | mem
      · exact ⟨by omega, by omega, backed a first last⟩
      · obtain ⟨past, below, backed⟩ := (rest.bytes a).mp ⟨v, mem, first, last⟩
        exact ⟨by omega, below, backed⟩
    · rintro ⟨first, last, here⟩
      by_cases past : w.basep + w.lenp ≤ a
      · obtain ⟨v, mem, inside⟩ := (rest.bytes a).mpr ⟨past, last, here⟩
        exact ⟨v, mem_cons_of_mem _ mem, inside⟩
      · refine ⟨w, mem_cons_self, Nat.le_of_not_lt fun before => skipped a first before here, ?_⟩
        omega

theorem covers_nil {segs : List Seg} {lo hi : Nat} (none_left : ∀ a, lo ≤ a → a < hi →
    ¬Backed vn segs a) : Covers vn segs lo hi [] :=
  ⟨nofun, .nil, fun a => ⟨nofun, fun ⟨low, high, backed⟩ => absurd backed (none_left a low high)⟩⟩

/-- All writes but the last succeeded. If that one failed it gives the error and the end. -/
structure Ended (write : Range → Nat) (eaddr : Nat) (ws : List Range) (err stop : Nat) : Prop where
  fine : ∀ w ∈ ws.dropLast, write w = 0
  last : ((∀ w ∈ ws, write w = 0) ∧ err = 0 ∧ stop = eaddr) ∨
    ∃ w, ws.getLast? = some w ∧ write w ≠ 0 ∧ err = write w ∧ stop = w.basep + w.lenp

theorem Ended.none (write : Range → Nat) (eaddr : Nat) : Ended write eaddr [] 0 eaddr :=
  ⟨fun _ mem => absurd mem not_mem_nil, .inl ⟨fun _ mem => absurd mem not_mem_nil, rfl, rfl⟩⟩

theorem Ended.cons {write : Range → Nat} {eaddr err stop : Nat} {w : Range} {ws : List Range}
    (fine : write w = 0) (rest : Ended write eaddr ws err stop) :
    Ended write eaddr (w :: ws) err stop := by
  have all : ∀ {l : List Range}, (∀ v ∈ l, write v = 0) → ∀ v ∈ w :: l, write v = 0 := by
    intro l tail v mem
    rcases mem_cons.mp mem with rfl | mem
    · exact fine
    · exact tail v mem
  constructor
  · cases ws with
    | nil => exact fun _ mem => absurd mem not_mem_nil
    | cons x xs => exact all rest.fine
  · rcases rest.last with ⟨good, ends⟩ | ⟨v, at_end, failed⟩
    · exact .inl ⟨all good, ends⟩
    · refine .inr ⟨v, ?_, failed⟩
      rw [getLast?_cons, at_end, Option.getD_some]

theorem core_seg_spec (hinted : h.Hinted) (write : Range → Nat) {eaddr : Nat}
    (below : eaddr < 2 ^ 32) {turns lo : Nat} (enough : eaddr - lo < turns) :
    ∃ ws err stop, core_seg vn write eaddr turns h lo = some (ws, err) ∧
      Covers vn h.as.a_segs lo stop ws ∧ lo ≤ stop ∧ stop ≤ max lo eaddr ∧
      Ended write (max lo eaddr) ws err stop := by
  induction turns generalizing h lo with
  | zero => omega
  | succ turns ih =>
    rw [core_seg]
    split
    · next more =>
      have size : lo + (eaddr - lo) = eaddr := by omega
      obtain ⟨h', m, run, as, hinted', extent⟩ :=
        as_memory_spec (r := ⟨lo, eaddr - lo⟩) hinted vn (by dsimp only; omega)
      dsimp only at extent
      rw [size] at extent
      rw [run]
      cases m with
      | error e =>
        rw [Nat.max_eq_right (Nat.le_of_lt more)]
        exact ⟨[], 0, eaddr, rfl, covers_nil extent.1, Nat.le_of_lt more, Nat.le_refl _,
          .none write eaddr⟩
      | ok r =>
        obtain ⟨low, first, skipped, s, mem, own, here, size⟩ := extent
        have inside := Seg.contains_iff.mp here
        have backed : ∀ a, r.basep ≤ a → a < r.basep + r.lenp → Backed vn h.as.a_segs a :=
          fun a low high => ⟨s, mem, own, Seg.contains_iff.mpr ⟨by omega, by omega⟩⟩
        simp only [Option.bind_eq_bind, Option.bind_some]
        split
        · next failed =>
          refine ⟨[r], write r, r.basep + r.lenp, rfl, (covers_nil fun a => ?_).cons low (by omega)
            skipped backed (Nat.le_refl _), by omega, by omega,
            fun _ mem => absurd mem not_mem_nil, .inr ⟨r, rfl, failed, rfl, rfl⟩⟩
          omega
        next fine =>
        obtain ⟨ws, err, stop, rest, covers, after, bound, ended⟩ :=
          ih hinted' (show eaddr - (r.basep + r.lenp) < turns by omega)
        rw [as] at covers
        rw [rest]
        rw [show max (r.basep + r.lenp) eaddr = max lo eaddr by omega] at bound ended
        exact ⟨r :: ws, err, stop, rfl, covers.cons low (by omega) skipped backed after,
          by omega, bound, ended.cons (not_not.mp fine)⟩
    · next past =>
      rw [Nat.max_eq_left (Nat.le_of_not_lt past)]
      exact ⟨[], 0, lo, rfl, covers_nil fun a low high => by omega, Nat.le_refl _, Nat.le_refl _,
        .none write lo⟩

end Memory
section Runs
variable {as as' : As} {new s : Seg} {h h' : Space} {c : Call}

theorem as_addseg_none : as_addseg as new = none ↔
    ∃ s ∈ as.a_segs, s.s_base < new.stop ∧ new.s_base < s.stop := by
  rw [← insert_seg_none as.sorted]
  unfold as_addseg
  split
  · next refused => exact ⟨fun _ => refused, fun _ => rfl⟩
  · next placed => exact ⟨nofun, fun refused => nomatch placed.symm.trans refused⟩

theorem as_addseg_keeps (added : as_addseg as new = some as') :
    new ∈ as'.a_segs ∧ ∀ x ∈ as.a_segs, x ∈ as'.a_segs := by
  unfold as_addseg at added
  split at added
  · cases added
  · next placed =>
    cases added
    exact insert_seg_keeps placed

theorem Space.Hinted.seg_free (hinted : h.Hinted) (seg : Seg) : (seg_free h seg).Hinted := by
  intro s last
  unfold AddressSpace.seg_free at last ⊢
  dsimp only at last ⊢
  split at last
  · exact mem_of_head? last
  · next other =>
    refine mem_filter.mpr ⟨hinted s last, decide_eq_true fun same => other ?_⟩
    rw [last, same]

/-- The range that as_memory is asked for ends below the end of the addresses. -/
def Fitting (_ : Space) : Call → Prop
  | .as_memory _ r => r.basep + r.lenp < 2 ^ 32
  | _ => True

theorem step_hinted (hinted : h.Hinted) (fits : Fitting h c) (taken : step h c = some h') :
    h'.Hinted := by
  cases c with
  | seg_alloc new =>
    cases taken
    intro s last
    cases added : as_addseg h.as new with
    | none => exact hinted s last
    | some as => exact (as_addseg_keeps added).2 s (hinted s last)
  | as_map new error =>
    cases taken
    unfold as_map
    cases added : as_addseg h.as new with
    | none => exact hinted
    | some as =>
      have there : Space.Hinted ⟨as, some new⟩ := by
        intro s last
        cases last
        exact (as_addseg_keeps added).1
      cases error with
      | false => exact there
      | true => exact there.seg_free new
  | seg_free seg =>
    simp only [step] at taken
    split at taken
    · cases taken
      exact hinted.seg_free seg
    · cases taken
  | resize seg new =>
    simp only [step, AddressSpace.resize] at taken
    split at taken
    · cases taken
      intro s last
      obtain ⟨t, was, rfl⟩ := Option.map_eq_some_iff.mp last
      exact mem_map_of_mem (hinted t was)
    · cases taken
  | as_segat addr =>
    obtain ⟨h₁, r, run, -, hinted', -⟩ := as_segat_spec hinted addr
    simp only [step, run, Option.map_some] at taken
    cases taken
    exact hinted'
  | as_memory vn r =>
    obtain ⟨h₁, m, run, -, hinted', -⟩ := as_memory_spec hinted vn fits
    simp only [step, run, Option.map_some] at taken
    cases taken
    exact hinted'

theorem hinted_of_run {calls : List Call} (fitting : Guarded step Fitting as_alloc calls)
    (ran : exec step as_alloc calls = some h) : h.Hinted :=
  exec_invariant Space.Hinted (fun _ _ _ hinted fits taken => step_hinted hinted fits taken)
    (by rintro s ⟨⟩) fitting ran

/-- What a search finds is the same from any segment that it may start at: the segment of an
    address, and the next memory. -/
structure Space.Found (h : Space) : Prop where
  alloc : ∀ new, as_addseg h.as new = none ↔
    ∃ s ∈ h.as.a_segs, s.s_base < new.stop ∧ new.s_base < s.stop
  segat : ∀ addr, ∃ h' r, as_segat h addr = some (h', r) ∧ h'.as = h.as ∧
    ∀ s, r = some s ↔ s ∈ h.as.a_segs ∧ s.contains addr = true
  memory : ∀ vn r, r.basep + r.lenp < 2 ^ 32 → ∃ h' m, as_memory vn h r = some (h', m) ∧
    h'.as = h.as ∧ Extent vn h.as.a_segs r.basep (r.basep + r.lenp) m

theorem searches_find {calls : List Call} (fitting : Guarded step Fitting as_alloc calls)
    (ran : exec step as_alloc calls = some h) : h.Found := by
  have hinted := hinted_of_run fitting ran
  constructor
  · exact fun _ => as_addseg_none
  · intro addr
    obtain ⟨h', r, run, as, -, found⟩ := as_segat_spec hinted addr
    exact ⟨h', r, run, as, found⟩
  · intro vn r fits
    obtain ⟨h', m, run, as, -, extent⟩ := as_memory_spec hinted vn fits
    exact ⟨h', m, run, as, extent⟩

def text : Seg := ⟨4096, 8192, by decide, by decide⟩

def data : Seg := ⟨16384, 8192, by decide, by decide⟩

theorem text_data_sorted : Sorted [text, data] :=
  pairwise_cons.mpr ⟨by simp [text, data, Seg.stop], pairwise_singleton _ _⟩

def touched : Space := ⟨⟨[text, data], text_data_sorted⟩, some text⟩

def touch : List Call :=
  [.as_map text false, .as_map data false, .as_memory (fun _ => true) ⟨0, 8192⟩]

theorem fitting_touch : Guarded step Fitting as_alloc touch :=
  ⟨trivial, fun _ _ => ⟨trivial, fun _ _ => ⟨(by decide : 0 + 8192 < 2 ^ 32), fun _ _ => trivial⟩⟩⟩

theorem touch_run : exec step as_alloc touch = some touched := rfl

theorem searches_find_text : touched.Found := searches_find fitting_touch touch_run

/-- A core file has just the bytes of the range that there are, unless a write fails: then those
    up to the end of that one, which is the last. -/
theorem core_file_exact {calls : List Call} (fitting : Guarded step Fitting as_alloc calls)
    (ran : exec step as_alloc calls = some h) (vn : Seg → Bool) (write : Range → Nat)
    {addr eaddr : Nat} (order : addr ≤ eaddr) (below : eaddr < 2 ^ 32) :
    ∃ turns ws err stop, core_seg vn write eaddr turns h addr = some (ws, err) ∧
      Covers vn h.as.a_segs addr stop ws ∧ stop ≤ eaddr ∧ Ended write eaddr ws err stop := by
  obtain ⟨ws, err, stop, run, covers, after, bound, ended⟩ :=
    core_seg_spec (hinted_of_run fitting ran) write below (Nat.lt_succ_self (eaddr - addr))
  rw [Nat.max_eq_right order] at bound ended
  exact ⟨_, ws, err, stop, run, covers, bound, ended⟩

theorem core_file_exact_text : ∃ turns ws err stop,
    core_seg (fun _ => true) (fun r => if r.basep = 16384 then 5 else 0) 65536 turns touched 0 =
      some (ws, err) ∧
      Covers (fun _ => true) [text, data] 0 stop ws ∧ stop ≤ 65536 ∧
      Ended (fun r => if r.basep = 16384 then 5 else 0) 65536 ws err stop :=
  core_file_exact fitting_touch touch_run (fun _ => true) _ (Nat.zero_le 65536) (by decide)

end Runs
end AddressSpace
