import Mathlib.Data.List.Nodup

/- Dictionaries that remember the order in which their keys were inserted, as association
   lists with distinct keys. The oldest entry is in front. -/
namespace OrderedDicts
open List
variable {κ α : Type}

abbrev Dict (κ α : Type) := List (κ × α)

section operations
variable [DecidableEq κ]

def get (d : Dict κ α) (k : κ) : Option α := (d.find? fun e => e.1 = k).map Prod.snd

def pop (d : Dict κ α) (k : κ) : Dict κ α := d.filter fun e => e.1 ≠ k

def set (d : Dict κ α) (k : κ) (v : α) : Dict κ α :=
  if (get d k).isSome then d.map fun e => if e.1 = k then (k, v) else e else d ++ [(k, v)]

def moveToEnd (d : Dict κ α) (k : κ) : Dict κ α :=
  match get d k with
  | some v => pop d k ++ [(k, v)]
  | none => d

end operations

def Distinct (d : Dict κ α) : Prop := (d.map Prod.fst).Nodup

section lemmas
variable [DecidableEq κ] {d : Dict κ α} {k k' : κ} {v : α}

theorem get_cons (e : κ × α) : get (e :: d) k = if e.1 = k then some e.2 else get d k := by
  unfold get
  by_cases here : e.1 = k
  · rw [List.find?_cons_of_pos (by simpa using here), if_pos here]
    rfl
  · rw [List.find?_cons_of_neg (by simpa using here), if_neg here]

theorem get_append (d d' : Dict κ α) : get (d ++ d') k = (get d k).or (get d' k) := by
  induction d with
  | nil => rfl
  | cons e d ih =>
    rw [cons_append, get_cons, get_cons, ih]
    split <;> rfl

theorem get_single : get [(k, v)] k' = if k = k' then some v else none := get_cons (k, v)

theorem get_of_mem (distinct : Distinct d) (mem : (k, v) ∈ d) : get d k = some v := by
  induction d with
  | nil => exact absurd mem not_mem_nil
  | cons e d ih =>
    obtain ⟨off, rest⟩ := nodup_cons.mp distinct
    rw [get_cons]
    rcases mem_cons.mp mem with rfl | mem
    · exact if_pos rfl
    · have other : e.1 ≠ k := by
        rintro rfl
        exact off (mem_map.mpr ⟨_, mem, rfl⟩)
      rw [if_neg other]
      exact ih rest mem

theorem get_pop : get (pop d k) k' = if k' = k then none else get d k' := by
  induction d with
  | nil => simp [pop, get]
  | cons e d ih =>
    unfold pop at *
    by_cases here : e.1 = k
    · rw [filter_cons_of_neg (by simpa using here), ih, get_cons]
      split
      · rfl
      · rename_i other
        rw [if_neg fun same => other (same.symm.trans here)]
    · rw [filter_cons_of_pos (by simpa using here), get_cons, get_cons, ih]
      by_cases same : e.1 = k'
      · rw [if_pos same, if_pos same, if_neg fun eq => here (same.trans eq)]
      · rw [if_neg same, if_neg same]

theorem get_map_set : get (d.map fun e => if e.1 = k then (k, v) else e) k' =
    if k' = k then (get d k).map fun _ => v else get d k' := by
  induction d with
  | nil => simp [get]
  | cons e d ih =>
    rw [map_cons, get_cons, get_cons, get_cons, ih]
    by_cases here : e.1 = k
    · by_cases same : k' = k
      · simp [here, same]
      · simp [here, same, Ne.symm same]
    · by_cases same : k' = k
      · simp [here, same]
      · simp [here, same]

theorem get_set : get (set d k v) k' = if k' = k then some v else get d k' := by
  unfold set
  split
  · rename_i present
    rw [get_map_set]
    obtain ⟨w, found⟩ := Option.isSome_iff_exists.mp present
    rw [found]
    rfl
  · rename_i absent
    have absent : get d k = none := Option.not_isSome_iff_eq_none.mp absent
    rw [get_append, get_single]
    by_cases same : k' = k
    · rw [if_pos same, same, absent, if_pos rfl]
      rfl
    · rw [if_neg same, if_neg (Ne.symm same), Option.or_none]

theorem get_moveToEnd : get (moveToEnd d k) k' = get d k' := by
  unfold moveToEnd
  cases found : get d k with
  | none => rfl
  | some v =>
    rw [get_append, get_pop, get_single]
    by_cases same : k' = k
    · rw [if_pos same, same, if_pos rfl, found]
      rfl
    · rw [if_neg same, if_neg (Ne.symm same), Option.or_none]

theorem Distinct.pop (distinct : Distinct d) (k : κ) : Distinct (pop d k) :=
  List.Nodup.sublist (filter_sublist.map Prod.fst) distinct

theorem absent_keys (absent : get d k = none) : k ∉ d.map Prod.fst := by
  intro mem
  obtain ⟨e, mem_d, rfl⟩ := mem_map.mp mem
  rw [get, Option.map_eq_none_iff] at absent
  have := List.find?_eq_none.mp absent e mem_d
  simp at this

theorem Distinct.concat (distinct : Distinct d) (absent : get d k = none) :
    Distinct (d ++ [(k, v)]) := by
  unfold Distinct
  rw [map_append, map_singleton, ← concat_eq_append]
  exact List.Nodup.concat (absent_keys absent) distinct

theorem Distinct.moveToEnd (distinct : Distinct d) (k : κ) : Distinct (moveToEnd d k) := by
  unfold OrderedDicts.moveToEnd
  cases found : get d k with
  | none => exact distinct
  | some v =>
    refine (distinct.pop k).concat ?_
    rw [get_pop, if_pos rfl]

theorem Distinct.set (distinct : Distinct d) (k : κ) (v : α) : Distinct (set d k v) := by
  unfold OrderedDicts.set
  split
  · have keys : (d.map fun e => if e.1 = k then (k, v) else e).map Prod.fst = d.map Prod.fst := by
      rw [map_map]
      apply map_congr_left
      intro e _
      dsimp only [Function.comp]
      split
      · rename_i here
        exact here.symm
      · rfl
    unfold Distinct
    rw [keys]
    exact distinct
  · rename_i absent
    exact distinct.concat (Option.not_isSome_iff_eq_none.mp absent)

theorem pop_head (distinct : Distinct ((k, v) :: d)) : pop ((k, v) :: d) k = d := by
  obtain ⟨off, -⟩ := nodup_cons.mp distinct
  unfold pop
  rw [filter_cons_of_neg (by simp)]
  apply filter_eq_self.mpr
  intro e mem
  have other : e.1 ≠ k := by
    rintro rfl
    exact off (mem_map.mpr ⟨_, mem, rfl⟩)
  simpa using other

end lemmas

end OrderedDicts
