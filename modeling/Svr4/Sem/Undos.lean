import Svr4.Sem.Entries

/- The undo structures: each is on the free chain or attached to one process, and those with
   entries are on the undo list. -/
namespace Semaphores
open Function NextChains List

variable {info : SemInfo} {u v w : Undos} {free active : List Nat} {slot x id num i n p low high : Nat}
  {ents : List Undo} {val : Int}

structure Undos.Ok (info : SemInfo) (u : Undos) (free active : List Nat) : Prop where
  freed : Path u.un_np u.semfup free
  linked : Path u.un_np u.semunp active
  free_nodup : free.Nodup
  active_nodup : active.Nodup
  free_iff : ∀ x, x ∈ free ↔ x < info.semmnu ∧ ∀ p, u.sem_undo p ≠ some x
  bound : ∀ p x, u.sem_undo p = some x → x < info.semmnu
  single : ∀ p q x, u.sem_undo p = some x → u.sem_undo q = some x → p = q
  active_iff : ∀ x, x ∈ active ↔ u.un_ent x ≠ [] ∧ ∃ p, u.sem_undo p = some x
  empty : ∀ x, (∀ p, u.sem_undo p ≠ some x) → u.un_ent x = []
  entries : ∀ x, EntsOk info (u.un_ent x)

def Undos.adjust (u : Undos) (p id num : Nat) : Int :=
  match u.sem_undo p with
  | some x => adjustment id num (u.un_ent x)
  | none => 0

theorem adjust_attached (here : u.sem_undo slot = some x) :
    u.adjust slot id num = adjustment id num (u.un_ent x) := by
  unfold Undos.adjust
  rw [here]

theorem Undos.Ok.short (ok : u.Ok info free active) : active.length ≤ info.semmnu := by
  have sub : active ⊆ List.range info.semmnu := by
    intro x mem
    obtain ⟨-, p, here⟩ := (ok.active_iff x).mp mem
    exact mem_range.mpr (ok.bound p x here)
  have := (subperm_of_subset ok.active_nodup sub).length_le
  rwa [length_range] at this

theorem Undos.Ok.apart (ok : u.Ok info free active) (mem : x ∈ free) : x ∉ active := by
  intro listed
  obtain ⟨-, p, here⟩ := (ok.active_iff x).mp listed
  exact ((ok.free_iff x).mp mem).2 p here

theorem Undos.Ok.attached_not_free (ok : u.Ok info free active) (here : u.sem_undo slot = some x) :
    x ∉ free := fun mem => ((ok.free_iff x).mp mem).2 slot here

/-! Attaching -/

theorem attach_ok (ok : u.Ok info free active) (slot : Nat) :
    attach u slot = none ∧ u.sem_undo slot = none ∨
    ∃ x w free', attach u slot = some (x, w) ∧ w.Ok info free' active ∧ w.sem_undo slot = some x ∧
      w.un_ent = u.un_ent ∧ (∀ p, p ≠ slot → w.sem_undo p = u.sem_undo p) ∧
      (u.sem_undo slot = some x ∨ u.sem_undo slot = none ∧ u.un_ent x = []) := by
  unfold attach
  cases here : u.sem_undo slot with
  | some x => exact .inr ⟨x, u, free, rfl, ok, here, rfl, fun _ _ => rfl, .inl rfl⟩
  | none =>
    cases top : u.semfup with
    | none => exact .inl ⟨rfl, rfl⟩
    | some x =>
      right
      have freed := ok.freed
      rw [top] at freed
      obtain ⟨free', rfl, rest⟩ := freed.pop
      obtain ⟨off, nodup⟩ := nodup_cons.mp ok.free_nodup
      obtain ⟨small, unattached⟩ := (ok.free_iff x).mp mem_cons_self
      have off_active := ok.apart mem_cons_self
      have others : ∀ p, p ≠ slot → update u.sem_undo slot (some x) p = u.sem_undo p :=
        fun p other => update_of_ne other ..
      have now : update u.sem_undo slot (some x) slot = some x := update_self ..
      have attached : ∀ p y, update u.sem_undo slot (some x) p = some y ↔
          p = slot ∧ y = x ∨ u.sem_undo p = some y := by
        intro p y
        by_cases same : p = slot
        · subst same
          rw [now, here]
          simp [eq_comm]
        · rw [others p same]
          simp [same]
      refine ⟨x, _, free', rfl, ⟨rest.update off none, ok.linked.update off_active none, nodup,
        ok.active_nodup, ?_, ?_, ?_, ?_, ?_, ok.entries⟩, now, rfl, others,
        .inr ⟨rfl, ok.empty x unattached⟩⟩
      · intro y
        have old := ok.free_iff y
        rw [mem_cons] at old
        simp only [ne_eq, attached]
        constructor
        · intro mem
          obtain ⟨bound, free⟩ := old.mp (.inr mem)
          refine ⟨bound, ?_⟩
          rintro p (⟨-, rfl⟩ | there)
          · exact off mem
          · exact free p there
        · rintro ⟨bound, free⟩
          rcases old.mpr ⟨bound, fun p there => free p (.inr there)⟩ with rfl | mem
          · exact absurd (.inl ⟨rfl, rfl⟩) (free slot)
          · exact mem
      · intro p y there
        rcases (attached p y).mp there with ⟨-, rfl⟩ | there
        · exact small
        · exact ok.bound p y there
      · intro p q y first second
        rcases (attached p y).mp first with ⟨rfl, rfl⟩ | old
        · rcases (attached q y).mp second with ⟨rfl, -⟩ | old'
          · rfl
          · exact absurd old' (unattached q)
        · rcases (attached q y).mp second with ⟨-, rfl⟩ | old'
          · exact absurd old (unattached p)
          · exact ok.single p q y old old'
      · intro y
        rw [ok.active_iff y]
        refine and_congr_right fun filled => ?_
        constructor
        · rintro ⟨p, there⟩
          exact ⟨p, (attached p y).mpr (.inr there)⟩
        · rintro ⟨p, there⟩
          rcases (attached p y).mp there with ⟨-, rfl⟩ | there
          · exact absurd (ok.empty y unattached) filled
          · exact ⟨p, there⟩
      · intro y free
        exact ok.empty y fun p there => free p ((attached p y).mpr (.inr there))

/-! Storing entries -/

def store (info : SemInfo) (u : Undos) (x : Nat) (ents : List Undo) : Undos :=
  if u.un_ent x = [] ∧ ents ≠ [] then (u.link x).setEntries x ents
  else if u.un_ent x ≠ [] ∧ ents = [] then { (u.setEntries x ents).unlink info x with
    un_np := update ((u.setEntries x ents).unlink info x).un_np x none }
  else u.setEntries x ents

theorem store_frame (info : SemInfo) (u : Undos) (x : Nat) (ents : List Undo) :
    (store info u x ents).sem_undo = u.sem_undo ∧
    (store info u x ents).un_ent = update u.un_ent x ents := by
  unfold store
  split
  · exact ⟨rfl, rfl⟩
  · split <;> exact ⟨rfl, rfl⟩

theorem store_ok (ok : u.Ok info free active) (here : u.sem_undo slot = some x)
    (good : EntsOk info ents) : ∃ active', (store info u x ents).Ok info free active' := by
  obtain ⟨undo, ent⟩ := store_frame info u x ents
  have off := ok.attached_not_free here
  have entry : ∀ y, (store info u x ents).un_ent y = if y = x then ents else u.un_ent y := by
    intro y
    rw [ent]
    exact update_apply ..
  have empty : ∀ y, (∀ p, (store info u x ents).sem_undo p ≠ some y) →
      (store info u x ents).un_ent y = [] := by
    intro y unattached
    rw [undo] at unattached
    have other : y ≠ x := by
      rintro rfl
      exact unattached slot here
    rw [entry, if_neg other]
    exact ok.empty y unattached
  have entries : ∀ y, EntsOk info ((store info u x ents).un_ent y) := by
    intro y
    rw [entry]
    split
    · exact good
    · exact ok.entries y
  have finish : ∀ active', Path (store info u x ents).un_np (store info u x ents).semfup free →
      Path (store info u x ents).un_np (store info u x ents).semunp active' → active'.Nodup →
      (∀ y, y ∈ active' ↔ (y = x ∧ ents ≠ []) ∨ y ≠ x ∧ y ∈ active) →
      (store info u x ents).Ok info free active' := by
    intro active' freed linked nodup mem
    refine ⟨freed, linked, ok.free_nodup, nodup, ?_, ?_, ?_, ?_, empty, entries⟩
    · rw [undo]
      exact ok.free_iff
    · rw [undo]
      exact ok.bound
    · rw [undo]
      exact ok.single
    · intro y
      rw [mem, entry, undo]
      by_cases same : y = x
      · subst same
        simp only [true_and, ne_eq, not_true, false_and, or_false, if_true]
        exact ⟨fun filled => ⟨filled, slot, here⟩, And.left⟩
      · simp only [same, false_and, false_or, ne_eq, not_false_eq_true, true_and, if_false]
        exact ok.active_iff y
  unfold store at *
  split
  · rename_i fills
    have new : x ∉ active := fun listed => ((ok.active_iff x).mp listed).1 fills.1
    rw [if_pos fills] at finish
    refine ⟨x :: active, finish _ (ok.freed.update off _) (ok.linked.push new)
      (nodup_cons.mpr ⟨new, ok.active_nodup⟩) ?_⟩
    intro y
    rw [mem_cons]
    by_cases same : y = x
    · simp [same, fills.2]
    · simp [same]
  · rename_i stays
    rw [if_neg stays] at finish
    split
    · rename_i empties
      rw [if_pos empties] at finish
      have listed : x ∈ active := (ok.active_iff x).mpr ⟨empties.1, slot, here⟩
      obtain ⟨linked, frame⟩ := ok.linked.unlink_ok ok.active_nodup listed ok.short
      have left : x ∉ active.erase x := ok.active_nodup.not_mem_erase
      refine ⟨active.erase x, finish _ ?_ (linked.update left none) (ok.active_nodup.erase x) ?_⟩
      · refine Segment.update (Segment.congr ok.freed ?_) off none
        intro y mem
        exact frame y (ok.apart mem)
      · intro y
        rw [ok.active_nodup.mem_erase_iff]
        simp [empties.2]
    · rename_i same
      rw [if_neg same] at finish
      refine ⟨active, finish _ ok.freed ok.linked ok.active_nodup ?_⟩
      intro y
      by_cases this : y = x
      · subst this
        rw [ok.active_iff y]
        tauto
      · simp [this]

/-! semaoe -/

theorem search_some {lo hi ents : List Undo} {e : Undo}
    (found : search id num ents = (lo, some e, hi)) : ents ≠ [] := by
  rintro rfl
  exact nomatch (Prod.mk.inj (Prod.mk.inj found).2).1

theorem semaoe_eq (short : toShort val = val) (nonzero : val ≠ 0) (within : Within info val)
    (attached : attach u slot = some (x, w)) : semaoe info u slot val id num =
      ((change info (w.un_ent x) val id num).1,
        store info w x (change info (w.un_ent x) val id num).2) := by
  have inside := outside_iff.mpr within
  unfold semaoe change store
  rw [short, if_neg nonzero, inside, if_neg (by decide), attached]
  dsimp only
  rcases found : search id num (w.un_ent x) with ⟨lo, _ | e, hi⟩
  · dsimp only
    split
    · simp [Undos.setEntries]
    · by_cases none : w.un_ent x = []
      · simp [none]
      · simp [none]
  · have some := search_some found
    dsimp only
    split
    · simp [some]
    · split
      · simp [some]
      · simp [some]

theorem adjust_store (here : u.sem_undo slot = some x) (ok : u.Ok info free active) :
    (store info u x ents).adjust p i n = if p = slot then adjustment i n ents else u.adjust p i n := by
  obtain ⟨undo, ent⟩ := store_frame info u x ents
  unfold Undos.adjust
  rw [undo, ent]
  by_cases same : p = slot
  · subst same
    rw [here, if_pos rfl]
    dsimp only
    rw [update_self]
  rw [if_neg same]
  cases there : u.sem_undo p with
  | none => rfl
  | some y =>
    have other : y ≠ x := by
      rintro rfl
      exact same (ok.single p slot y there here)
    dsimp only
    rw [update_of_ne other]

/-- `v` is `u`, but for the order of the undo list and for an empty structure that the process may
have been given. -/
structure Alike (slot : Nat) (u v : Undos) : Prop where
  ents : v.un_ent = u.un_ent
  others : ∀ p, p ≠ slot → v.sem_undo p = u.sem_undo p
  own : v.sem_undo slot = u.sem_undo slot ∨
    u.sem_undo slot = none ∧ ∃ x, v.sem_undo slot = some x ∧ u.un_ent x = []

theorem Alike.refl (slot : Nat) (u : Undos) : Alike slot u u := ⟨rfl, fun _ _ => rfl, .inl rfl⟩

theorem Alike.adjust (alike : Alike slot u v) : v.adjust p i n = u.adjust p i n := by
  unfold Undos.adjust
  rw [alike.ents]
  by_cases same : p = slot
  · subst same
    rcases alike.own with same | ⟨none, x, here, empty⟩
    · rw [same]
    · rw [none, here]
      dsimp only
      rw [empty]
      rfl
  · rw [alike.others p same]

theorem semaoe_ok (ok : u.Ok info free active) (short : toShort val = val) (slot id num : Nat) :
    (∃ free' active', (semaoe info u slot val id num).2.Ok info free' active') ∧
      ((semaoe info u slot val id num).1 ≠ none → Alike slot u (semaoe info u slot val id num).2) ∧
      ((semaoe info u slot val id num).1 = none → ∀ p i n,
        (semaoe info u slot val id num).2.adjust p i n =
          u.adjust p i n - if p = slot ∧ i = id ∧ n = num then val else 0) := by
  by_cases zero : val = 0
  · have same : semaoe info u slot val id num = (none, u) := by
      unfold semaoe
      rw [short, if_pos zero]
    rw [same, zero]
    exact ⟨⟨free, active, ok⟩, fun impossible => absurd rfl impossible, fun _ p i n => by simp⟩
  by_cases within : Within info val
  · rcases attach_ok ok slot with ⟨none, -⟩ | ⟨x, w, free', attached, ok', here, ents, others, own⟩
    · have same : semaoe info u slot val id num = (some .ENOSPC, u) := by
        unfold semaoe
        rw [short, if_neg zero, outside_iff.mpr within, if_neg (by decide), none]
      rw [same]
      exact ⟨⟨free, active, ok⟩, fun _ => Alike.refl slot u, nofun⟩
    have alike : Alike slot u w := by
      refine ⟨ents, others, ?_⟩
      rcases own with old | ⟨none, empty⟩
      · exact .inl (here.trans old.symm)
      · exact .inr ⟨none, x, here, empty⟩
    obtain ⟨good, failed, done⟩ := change_ok id num (ok'.entries x) within zero
    rw [semaoe_eq short zero within attached]
    obtain ⟨active', stored⟩ := store_ok ok' here good
    obtain ⟨undo, ent⟩ := store_frame info w x (change info (w.un_ent x) val id num).2
    refine ⟨⟨free', active', stored⟩, ?_, ?_⟩
    · intro error
      rw [failed error, update_eq_self] at ent
      rw [failed error] at undo ⊢
      exact ⟨ent.trans alike.ents, fun p other => (congrFun undo p).trans (alike.others p other),
        (congrFun undo slot).symm ▸ alike.own⟩
    · intro none p i n
      rw [adjust_store here ok', ← alike.adjust]
      by_cases same : p = slot
      · subst same
        rw [if_pos rfl, done none, adjust_attached here]
        simp
      · rw [if_neg same, if_neg (fun both => same both.1), Int.sub_zero]
  · have same : semaoe info u slot val id num = (some .ERANGE, u) := by
      have outside : Undos.outside info val = true := by
        rw [← Bool.not_eq_false, outside_iff]
        exact within
      unfold semaoe
      rw [short, if_neg zero, outside, if_pos rfl]
    rw [same]
    exact ⟨⟨free, active, ok⟩, fun _ => Alike.refl slot u, nofun⟩

theorem semaoe_back {free' active' : List Nat} (ok : u.Ok info free active)
    (short : toShort val = val) (nonzero : val ≠ 0)
    (done : (semaoe info u slot val id num).1 = none) (ok' : v.Ok info free' active')
    (alike : Alike slot (semaoe info u slot val id num).2 v) :
    (∃ free' active', (semaoe info v slot (-val) id num).2.Ok info free' active') ∧
      Alike slot u (semaoe info v slot (-val) id num).2 := by
  have within : Within info val := by
    by_contra outside
    rw [← outside_iff, Bool.not_eq_false] at outside
    unfold semaoe at done
    rw [short, if_neg nonzero, outside, if_pos rfl] at done
    exact nomatch done
  have within' : Within info (-val) := by
    unfold Within at within ⊢
    omega
  have short' : toShort (-val) = -val := toShort_within within'
  rcases attach_ok ok slot with ⟨none, -⟩ | ⟨x, w, free', attached, okw, here, ents, others, own⟩
  · unfold semaoe at done
    rw [short, if_neg nonzero, outside_iff.mpr within, if_neg (by decide), none] at done
    exact nomatch done
  rw [semaoe_eq short nonzero within attached] at done alike
  obtain ⟨undo, ent⟩ := store_frame info w x (change info (w.un_ent x) val id num).2
  have mine : v.sem_undo slot = some x := by
    rcases alike.own with same | ⟨none, -⟩
    · rw [same, undo, here]
    · rw [undo, here] at none
      exact nomatch none
  have attached' : attach v slot = some (x, v) := by
    unfold attach
    rw [mine]
  have before : v.un_ent x = (change info (w.un_ent x) val id num).2 := by
    rw [alike.ents, ent, update_self]
  have back := change_back (okw.entries x) within done
  rw [semaoe_eq short' (by omega) within' attached', before, back]
  obtain ⟨active'', stored⟩ := store_ok ok' mine (okw.entries x)
  obtain ⟨undo', ent'⟩ := store_frame info v x (w.un_ent x)
  refine ⟨⟨_, active'', stored⟩, ?_, ?_, ?_⟩
  · rw [ent', alike.ents, ent, update_idem, update_eq_self, ents]
  · intro p other
    rw [undo', alike.others p other, undo, others p other]
  · rw [undo', mine]
    rcases own with old | ⟨none, empty⟩
    · exact .inl old.symm
    · exact .inr ⟨none, x, rfl, empty⟩

end Semaphores
