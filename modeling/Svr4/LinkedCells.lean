import Mathlib.Data.List.Nodup
import Mathlib.Data.List.Perm.Subperm

/- Null-terminated doubly linked lists in a store of cells. The operations write
   single link fields; `Links` says that all links agree with one list of cells.
   Addresses are never reused, so a stale pointer is an address without a cell. -/
namespace LinkedCells
open List Nat
variable {α : Type} {xs : List (Nat × α)}

structure Cell (α : Type) where
  val : α
  prev : Option Nat
  next : Option Nat

abbrev Store (α : Type) := Nat → Option (Cell α)

structure CellList (α : Type) where
  head : Option Nat
  cell : Store α
  fresh : Nat

def empty : CellList α := ⟨none, fun _ => none, 0⟩

def put (s : Store α) (a : Nat) (c : Cell α) : Store α := fun x => if x = a then some c else s x

def release (s : Store α) (a : Nat) : Store α := fun x => if x = a then none else s x

def setNext (s : Store α) (a : Nat) (n : Option Nat) : Option (Store α) :=
  (s a).map fun c => put s a { c with next := n }

def setPrev (s : Store α) (p q : Option Nat) : Option (Store α) :=
  match p with
  | none => some s
  | some a => (s a).map fun c => put s a { c with prev := q }

def setVal (l : CellList α) (a : Nat) (v : α) : Option (CellList α) :=
  (l.cell a).map fun c => { l with cell := put l.cell a { c with val := v } }

def insertAfter (l : CellList α) (v : α) (place : Option Nat) : Option (CellList α) :=
  match place with
  | none => (setPrev l.cell l.head (some l.fresh)).map fun s =>
      ⟨some l.fresh, put s l.fresh ⟨v, none, l.head⟩, l.fresh + 1⟩
  | some f => do
      let c ← l.cell f
      let s ← setPrev l.cell c.next (some l.fresh)
      let s ← setNext s f (some l.fresh)
      return ⟨l.head, put s l.fresh ⟨v, some f, c.next⟩, l.fresh + 1⟩

def unlink (l : CellList α) (a : Nat) : Option (CellList α) := do
  let c ← l.cell a
  let s ← match c.prev with
    | some p => setNext l.cell p c.next
    | none => some l.cell
  let s ← setPrev s c.next c.prev
  return ⟨if c.prev.isNone then c.next else l.head, release s a, l.fresh⟩

def addrs (xs : List (Nat × α)) : List Nat := xs.map Prod.fst

def firstOf (xs : List (Nat × α)) : Option Nat := (xs.head?).map Prod.fst

def lastOf (xs : List (Nat × α)) : Option Nat := (xs.getLast?).map Prod.fst

def layout (prev : Option Nat) (xs : List (Nat × α)) (next : Option Nat) : Store α :=
  match xs with
  | [] => fun _ => none
  | (a, v) :: xs => fun x =>
      if x = a then some ⟨v, prev, (firstOf xs).or next⟩ else layout (some a) xs next x

def walk (s : Store α) : Nat → Option Nat → List (Nat × α)
  | fuel + 1, some a =>
      match s a with
      | some c => (a, c.val) :: walk s fuel c.next
      | none => []
  | _, _ => []

def contents (l : CellList α) : List (Nat × α) := walk l.cell (l.fresh + 1) l.head

structure Links (l : CellList α) (xs : List (Nat × α)) : Prop where
  head : l.head = firstOf xs
  cells : l.cell = layout none xs none
  nodup : (addrs xs).Nodup
  bound : ∀ a ∈ addrs xs, a < l.fresh

@[simp] theorem addrs_nil : addrs ([] : List (Nat × α)) = [] := rfl
@[simp] theorem addrs_cons (p : Nat × α) (xs : List (Nat × α)) :
    addrs (p :: xs) = p.1 :: addrs xs := rfl
@[simp] theorem addrs_append (xs ys : List (Nat × α)) : addrs (xs ++ ys) = addrs xs ++ addrs ys := by
  simp [addrs]
@[simp] theorem firstOf_nil : firstOf ([] : List (Nat × α)) = none := rfl
@[simp] theorem firstOf_cons (p : Nat × α) (xs : List (Nat × α)) :
    firstOf (p :: xs) = some p.1 := rfl
@[simp] theorem lastOf_nil : lastOf ([] : List (Nat × α)) = none := rfl
@[simp] theorem lastOf_append_one (xs : List (Nat × α)) (p : Nat × α) :
    lastOf (xs ++ [p]) = some p.1 := by simp [lastOf]

theorem lastOf_cons (p : Nat × α) (xs : List (Nat × α)) :
    lastOf (p :: xs) = (lastOf xs).or (some p.1) := by
  rw [lastOf, lastOf, List.getLast?_cons]
  cases xs.getLast? <;> simp

theorem firstOf_append (xs ys : List (Nat × α)) :
    firstOf (xs ++ ys) = (firstOf xs).or (firstOf ys) := by
  cases xs <;> simp

theorem links_empty : Links (empty : CellList α) [] := ⟨rfl, rfl, by simp, by simp⟩

theorem layout_absent {prev next : Option Nat} {x : Nat} (absent : x ∉ addrs xs) :
    layout prev xs next x = none := by
  induction xs generalizing prev with
  | nil => rfl
  | cons p xs ih =>
    simp only [addrs_cons, mem_cons, not_or] at absent
    simp [layout, absent.1, ih absent.2]

theorem layout_append (prev next : Option Nat) (xs ys : List (Nat × α)) (x : Nat) :
    layout prev (xs ++ ys) next x =
      (layout prev xs ((firstOf ys).or next) x).or (layout ((lastOf xs).or prev) ys next x) := by
  induction xs generalizing prev with
  | nil => simp [layout]
  | cons p xs ih =>
    obtain ⟨a, v⟩ := p
    by_cases here : x = a
    · simp [layout, here, firstOf_append, Option.or_assoc]
    · simp [layout, here, ih, lastOf_cons]

theorem Links.length_le {l : CellList α} (h : Links l xs) : xs.length ≤ l.fresh := by
  have low : addrs xs ⊆ List.range l.fresh := fun a mem => mem_range.mpr (h.bound a mem)
  have := (subperm_of_subset h.nodup low).length_le
  simpa [addrs] using this

section Cells
variable {l : CellList α} {xs ys : List (Nat × α)} {a : Nat} {v w : α}

theorem Links.cell_eq (h : Links l (xs ++ (a, v) :: ys)) :
    l.cell a = some ⟨v, lastOf xs, firstOf ys⟩ := by
  have distinct := h.nodup
  simp only [addrs_append, addrs_cons, nodup_append, nodup_cons] at distinct
  have absent : a ∉ addrs xs := fun mem => distinct.2.2 a mem a (by simp) rfl
  rw [h.cells, layout_append, layout_absent absent]
  simp [layout]

theorem Links.walk_eq (h : Links l (xs ++ ys)) (fuel : Nat) (enough : ys.length < fuel) :
    walk l.cell fuel (firstOf ys) = ys := by
  induction ys generalizing xs fuel with
  | nil => cases fuel <;> rfl
  | cons y ys ih =>
    cases fuel with
    | zero => omega
    | succ fuel =>
      have next : Links l ((xs ++ [y]) ++ ys) := by simpa using h
      simp only [firstOf_cons, walk, h.cell_eq]
      rw [ih next fuel (by simpa using enough)]

theorem Links.contents_eq (h : Links l xs) : contents l = xs := by
  have start : Links l ([] ++ xs) := h
  have long := h.length_le
  rw [contents, h.head, start.walk_eq (l.fresh + 1) (by omega)]

theorem Links.mem_of_cell {c : Cell α} (h : Links l xs) (found : l.cell a = some c) :
    a ∈ addrs xs := by
  by_contra absent
  rw [h.cells, layout_absent absent] at found
  cases found

theorem Links.split_of_cell {c : Cell α} (h : Links l xs) (found : l.cell a = some c) :
    ∃ us v vs, xs = us ++ (a, v) :: vs ∧ c = ⟨v, lastOf us, firstOf vs⟩ := by
  obtain ⟨⟨b, v⟩, mem, eq⟩ := mem_map.mp (h.mem_of_cell found)
  obtain rfl : b = a := eq
  obtain ⟨us, vs, rfl⟩ := append_of_mem mem
  exact ⟨us, v, vs, rfl, Option.some.inj (found.symm.trans h.cell_eq)⟩

theorem setPrev_layout {ys : List (Nat × α)} {s : Store α} {q : Option Nat} {next : Option Nat}
    (here : ∀ x ∈ addrs ys, s x = layout q ys next x) (distinct : (addrs ys).Nodup) (p : Option Nat) :
    ∃ t, setPrev s (firstOf ys) p = some t ∧ (∀ x ∈ addrs ys, t x = layout p ys next x) ∧
      ∀ x, x ∉ addrs ys → t x = s x := by
  cases ys with
  | nil => exact ⟨s, rfl, by simp, by simp⟩
  | cons b ys =>
    obtain ⟨b, u⟩ := b
    have found := here b (by simp)
    simp only [layout, if_true] at found
    refine ⟨put s b ⟨u, p, (firstOf ys).or next⟩, by simp [setPrev, found], ?_, ?_⟩
    · intro x hx
      by_cases eq : x = b
      · simp [put, layout, eq]
      · simp_all [put, layout]
    · intro x hx
      simp only [addrs_cons, mem_cons, not_or] at hx
      simp [put, hx.1]

theorem layout_split (next : Option Nat) (x : Nat) : layout none (xs ++ (a, v) :: ys) next x =
    (layout none xs (some a) x).or
      (if x = a then some ⟨v, lastOf xs, (firstOf ys).or next⟩ else layout (some a) ys next x) := by
  simp [layout_append, layout]

theorem Links.apart (h : Links l (xs ++ (a, v) :: ys)) :
    a ∉ addrs xs ∧ a ∉ addrs ys ∧ (addrs xs).Nodup ∧ (addrs ys).Nodup ∧
      ∀ x ∈ addrs ys, x ∉ addrs xs := by
  have distinct := h.nodup
  simp only [addrs_append, addrs_cons, nodup_append, nodup_cons] at distinct
  obtain ⟨left, ⟨own, right⟩, cross⟩ := distinct
  exact ⟨fun m => cross a m a (by simp) rfl, own, left, right,
    fun x hx m => cross x m x (by simp [hx]) rfl⟩

theorem Links.setVal (h : Links l (xs ++ (a, v) :: ys)) (u : α) :
    ∃ l', setVal l a u = some l' ∧ Links l' (xs ++ (a, u) :: ys) := by
  have found := h.cell_eq
  refine ⟨{ l with cell := put l.cell a ⟨u, lastOf xs, firstOf ys⟩ },
    by simp [LinkedCells.setVal, found], ?_, ?_, by simpa using h.nodup, by simpa using h.bound⟩
  · simpa [firstOf_append] using h.head
  · funext x
    simp only [put, h.cells, layout_split]
    by_cases eq : x = a
    · simp [eq, layout_absent h.apart.1]
    · simp [eq]

theorem Links.insertFront (h : Links l xs) (w : α) :
    ∃ l', insertAfter l w none = some l' ∧ Links l' ((l.fresh, w) :: xs) := by
  have new : l.fresh ∉ addrs xs := fun mem => Nat.lt_irrefl _ (h.bound _ mem)
  obtain ⟨s, run, linked, frame⟩ := setPrev_layout
    (fun x _ => show l.cell x = layout none xs none x by rw [h.cells]) h.nodup (some l.fresh)
  refine ⟨⟨some l.fresh, put s l.fresh ⟨w, none, l.head⟩, l.fresh + 1⟩,
    by simp [insertAfter, h.head, run], rfl, ?_, ?_, ?_⟩
  · funext x
    by_cases eq : x = l.fresh
    · simp [put, layout, eq, h.head]
    · by_cases mem : x ∈ addrs xs
      · simp [put, layout, eq, linked x mem]
      · simp [put, layout, eq, frame x mem, h.cells, layout_absent mem]
  · simpa using ⟨new, h.nodup⟩
  · intro x hx
    rcases mem_cons.mp hx with rfl | hx
    · exact lt_succ_self _
    · exact lt_succ_of_lt (h.bound x hx)

theorem Links.insertAfter (h : Links l (xs ++ (a, v) :: ys)) (w : α) :
    ∃ l', insertAfter l w (some a) = some l' ∧ Links l' (xs ++ (a, v) :: (l.fresh, w) :: ys) := by
  have found := h.cell_eq
  obtain ⟨axs, ays, dxs, dys, cross⟩ := h.apart
  have low := h.bound
  simp only [addrs_append, addrs_cons, mem_append, mem_cons] at low
  have nxs : l.fresh ∉ addrs xs := fun m => Nat.lt_irrefl _ (low _ (by tauto))
  have nys : l.fresh ∉ addrs ys := fun m => Nat.lt_irrefl _ (low _ (by tauto))
  have na : l.fresh ≠ a := fun m => Nat.lt_irrefl _ (low _ (by tauto))
  obtain ⟨s, run, linked, frame⟩ := setPrev_layout
    (fun x hx => show l.cell x = layout (some a) ys none x by
      have xa : x ≠ a := fun eq => ays (eq ▸ hx)
      rw [h.cells, layout_split, layout_absent (cross x hx)]
      simp [xa]) dys (some l.fresh)
  have kept : s a = some ⟨v, lastOf xs, firstOf ys⟩ := by rw [frame a ays, found]
  refine ⟨⟨l.head, put (put s a ⟨v, lastOf xs, some l.fresh⟩) l.fresh ⟨w, some a, firstOf ys⟩,
    l.fresh + 1⟩, by simp [LinkedCells.insertAfter, found, run, setNext, kept], ?_, ?_, ?_, ?_⟩
  · simpa [firstOf_append] using h.head
  · funext x
    simp only [put, layout_split, layout, firstOf_cons, Option.or_none]
    by_cases en : x = l.fresh
    · simp [en, layout_absent nxs, na]
    · by_cases ea : x = a
      · simp [ea, layout_absent axs, Ne.symm na]
      · by_cases mem : x ∈ addrs ys
        · simp [en, ea, linked x mem, layout_absent (cross x mem)]
        · simp [en, ea, frame x mem, h.cells, layout_split, layout_absent mem]
  · have distinct := h.nodup
    simp only [addrs_append, addrs_cons, nodup_append, nodup_cons, mem_cons] at distinct ⊢
    refine ⟨dxs, ⟨by simp [Ne.symm na, ays], nys, dys⟩, ?_⟩
    rintro x hx y (rfl | rfl | hy)
    · exact fun eq => axs (eq ▸ hx)
    · exact fun eq => nxs (eq ▸ hx)
    · exact fun eq => cross y hy (eq ▸ hx)
  · intro x hx
    simp only [addrs_append, addrs_cons, mem_append, mem_cons] at hx
    rcases hx with hx | rfl | rfl | hx
    · exact lt_succ_of_lt (low x (by tauto))
    · exact lt_succ_of_lt (low x (by tauto))
    · exact lt_succ_self _
    · exact lt_succ_of_lt (low x (by tauto))

/-- The link from the left neighbour, or the head, after the cell has been bypassed. -/
theorem Links.unlink (h : Links l (xs ++ (a, v) :: ys)) :
    ∃ l', unlink l a = some l' ∧ Links l' (xs ++ ys) := by
  have found := h.cell_eq
  obtain ⟨axs, ays, dxs, dys, cross⟩ := h.apart
  have right : ∀ s : Store α, (∀ x ∈ addrs ys, s x = l.cell x) →
      ∀ x ∈ addrs ys, s x = layout (some a) ys none x := by
    intro s same x hx
    have xa : x ≠ a := fun eq => ays (eq ▸ hx)
    rw [same x hx, h.cells, layout_split, layout_absent (cross x hx)]
    simp [xa]
  have sub : (addrs (xs ++ ys)).Nodup ∧ ∀ x ∈ addrs (xs ++ ys), x < l.fresh := by
    have low := h.bound
    simp only [addrs_append, addrs_cons, mem_append, mem_cons] at low ⊢
    exact ⟨nodup_append.mpr ⟨dxs, dys, fun x hx y hy eq => cross y hy (eq ▸ hx)⟩,
      fun x hx => low x (by tauto)⟩
  rcases eq_nil_or_concat xs with rfl | ⟨init, ⟨p, w⟩, rfl⟩
  · obtain ⟨s, run, linked, frame⟩ := setPrev_layout (right l.cell fun _ _ => rfl) dys none
    refine ⟨⟨firstOf ys, release s a, l.fresh⟩, by simp [LinkedCells.unlink, found, run], rfl, ?_,
      sub.1, sub.2⟩
    funext x
    by_cases ea : x = a
    · simp [release, ea, layout_absent ays]
    · by_cases mem : x ∈ addrs ys
      · simp [release, ea, linked x mem]
      · have gone := h.cells
        simp [release, ea, frame x mem, gone, layout, layout_absent mem]
  · rw [concat_eq_append] at *
    have hp : Links l (init ++ (p, w) :: (a, v) :: ys) := by simpa using h
    have pfound := hp.cell_eq
    obtain ⟨pinit, pys, _, _, _⟩ := hp.apart
    simp only [addrs_cons, mem_cons, not_or] at pys
    obtain ⟨s, run, linked, frame⟩ := setPrev_layout
      (right (put l.cell p ⟨w, lastOf init, firstOf ys⟩) fun x hx => by
        have xp : x ≠ p := fun eq => pys.2 (eq ▸ hx)
        simp [put, xp]) dys (some p)
    refine ⟨⟨l.head, release s a, l.fresh⟩,
      by simp [LinkedCells.unlink, found, setNext, pfound, run], ?_, ?_, sub.1, sub.2⟩
    · simpa [firstOf_append] using h.head
    · funext x
      rw [show init ++ [(p, w)] ++ ys = init ++ (p, w) :: ys by simp, layout_split]
      by_cases ea : x = a
      · have ainit : a ∉ addrs init := fun m => axs (by simp [m])
        simp [release, ea, layout_absent ainit, layout_absent ays, Ne.symm pys.1]
      by_cases mem : x ∈ addrs ys
      · have xinit : x ∉ addrs init := fun m => cross x mem (by simp [m])
        have xp : x ≠ p := fun eq => pys.2 (eq ▸ mem)
        simp [release, ea, linked x mem, layout_absent xinit, xp]
      · simp only [release, ea, if_false, frame x mem, put]
        by_cases ep : x = p
        · simp [ep, layout_absent pinit]
        · simp [ep, hp.cells, layout_split, layout, ea, layout_absent mem]

end Cells

end LinkedCells
