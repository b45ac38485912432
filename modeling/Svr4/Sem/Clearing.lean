import Svr4.Sem.Machine

/- Removing adjustments: semunrm for all processes, semexit for the process that ends. -/
namespace Semaphores
open Function NextChains List

variable {info : SemInfo} {u : Undos} {free active : List Nat} {ents : List Undo}
  {id low high slot x : Nat}

/-! semunrm -/

def Undo.Covered (id low high : Nat) (e : Undo) : Prop :=
  e.un_id = id ∧ low ≤ e.un_num ∧ e.un_num ≤ high

instance (id low high : Nat) (e : Undo) : Decidable (e.Covered id low high) :=
  inferInstanceAs (Decidable (_ ∧ _))

theorem filter_after {e : Undo} (sorted : ∀ f ∈ ents, e.Before f.un_id f.un_num)
    (beyond : id < e.un_id ∨ id = e.un_id ∧ high < e.un_num) :
    ents.filter (fun f => ¬ f.Covered id low high) = ents := by
  apply filter_eq_self.mpr
  intro f mem
  have before := sorted f mem
  unfold Undo.Before at before
  unfold Undo.Covered
  simp only [decide_eq_true_eq]
  omega

theorem clear_eq (id low high : Nat)
    (sorted : ents.Pairwise fun e f => e.Before f.un_id f.un_num) :
    clear id low high ents = ents.filter fun e => ¬ e.Covered id low high := by
  induction ents with
  | nil => rfl
  | cons e ents ih =>
    obtain ⟨least, rest⟩ := pairwise_cons.mp sorted
    unfold clear
    split
    · rename_i beyond
      have kept : ¬ e.Covered id low high := by
        unfold Undo.Covered
        omega
      rw [filter_cons_of_pos (by simpa using kept), filter_after least (.inl beyond)]
    split
    · have kept : ¬ e.Covered id low high := by
        unfold Undo.Covered
        omega
      rw [filter_cons_of_pos (by simpa using kept), ih rest]
    split
    · have kept : ¬ e.Covered id low high := by
        unfold Undo.Covered
        omega
      rw [filter_cons_of_pos (by simpa using kept), filter_after least (.inr (by omega))]
    · have gone : e.Covered id low high := by
        unfold Undo.Covered
        omega
      rw [filter_cons_of_neg (by simpa using gone), ih rest]

theorem clear_ok (id low high : Nat) (ok : EntsOk info ents) :
    EntsOk info (clear id low high ents) := by
  rw [clear_eq id low high ok.sorted]
  refine ⟨ok.sorted.filter _, (length_filter_le ..).trans ok.few, ?_⟩
  intro e mem
  exact ok.small e (mem_of_mem_filter mem)

theorem adjustment_clear (id low high : Nat) (ok : EntsOk info ents) (i n : Nat) :
    adjustment i n (clear id low high ents) =
      if i = id ∧ low ≤ n ∧ n ≤ high then 0 else adjustment i n ents := by
  rw [clear_eq id low high ok.sorted]
  by_cases mine : i = id ∧ low ≤ n ∧ n ≤ high
  · rw [if_pos mine]
    apply adjustment_zero
    rintro e mem ⟨rfl, rfl⟩
    have kept := (mem_filter.mp mem).2
    simp only [decide_eq_true_eq] at kept
    exact kept mine
  · rw [if_neg mine]
    clear ok
    induction ents with
    | nil => rfl
    | cons e ents ih =>
      by_cases gone : e.Covered id low high
      · have other : ¬ e.At i n := by
          rintro ⟨rfl, rfl⟩
          exact mine gone
        rw [filter_cons_of_neg (by simpa using gone), ih, adjustment_cons, if_neg other,
          Int.zero_add]
      · rw [filter_cons_of_pos (by simpa using gone), adjustment_cons, adjustment_cons, ih]

theorem semunrm_loop_ok (id low high : Nat) : ∀ (rest pre : List Nat) (u : Undos) (fuel : Nat),
    rest.length ≤ fuel → Path u.un_np u.semunp (pre ++ rest) → (pre ++ rest).Nodup →
    let t := semunrm_loop id low high u fuel pre.getLast? rest.head?
    Path t.un_np t.semunp (pre ++ rest.filter fun x => clear id low high (u.un_ent x) ≠ []) ∧
      (∀ x, t.un_ent x = if x ∈ rest then clear id low high (u.un_ent x) else u.un_ent x) ∧
      t.sem_undo = u.sem_undo ∧ t.semfup = u.semfup ∧
      ∀ x, x ∉ pre ++ rest → t.un_np x = u.un_np x := by
  intro rest
  induction rest with
  | nil =>
    intro pre u fuel _ path _
    have stops : semunrm_loop id low high u fuel pre.getLast? none = u := by
      cases fuel <;> rfl
    rw [head?_nil, stops]
    exact ⟨path, fun _ => rfl, rfl, rfl, fun _ _ => rfl⟩
  | cons p rest ih =>
    intro pre u fuel enough path nodup
    obtain ⟨fuel, rfl⟩ := Nat.exists_eq_add_one_of_ne_zero (Nat.ne_of_gt (Nat.lt_of_lt_of_le
      (Nat.zero_lt_succ _) enough))
    have next : u.un_np p = rest.head? := path.next_eq
    obtain ⟨-, tail, apart⟩ := nodup_append.mp nodup
    obtain ⟨p_off, -⟩ := nodup_cons.mp tail
    have p_pre : p ∉ pre := fun early => apart p early p mem_cons_self rfl
    -- what the later rounds find in the entries
    have later : ∀ x ∈ rest, (u.setEntries p (clear id low high (u.un_ent p))).un_ent x =
        u.un_ent x := by
      intro x mem
      apply update_of_ne
      rintro rfl
      exact p_off mem
    have here : (u.setEntries p (clear id low high (u.un_ent p))).un_ent p =
        clear id low high (u.un_ent p) := update_self ..
    have together : ∀ x, (if x ∈ rest then clear id low high
          ((u.setEntries p (clear id low high (u.un_ent p))).un_ent x)
        else (u.setEntries p (clear id low high (u.un_ent p))).un_ent x) =
        if x ∈ p :: rest then clear id low high (u.un_ent x) else u.un_ent x := by
      intro x
      by_cases mem : x ∈ rest
      · rw [if_pos mem, later x mem, if_pos (mem_cons_of_mem _ mem)]
      · rw [if_neg mem]
        by_cases same : x = p
        · subst same
          rw [here, if_pos mem_cons_self]
        · rw [if_neg (by simp [same, mem])]
          exact update_of_ne same ..
    have filtered : (rest.filter fun x => clear id low high
          ((u.setEntries p (clear id low high (u.un_ent p))).un_ent x) ≠ []) =
        rest.filter fun x => clear id low high (u.un_ent x) ≠ [] := by
      apply filter_congr
      intro x mem
      rw [later x mem]
    unfold semunrm_loop
    dsimp only [head?_cons]
    rw [here]
    by_cases empty : clear id low high (u.un_ent p) = []
    · rw [if_pos empty, filter_cons_of_neg (by simpa using empty)]
      have shorter : (pre ++ rest).Nodup :=
        nodup.sublist ((Sublist.refl pre).append (sublist_cons_self p rest))
      have finish : ∀ (np : Nat → Option Nat) (first : Option Nat),
          Path np first (pre ++ rest) → (∀ x, x ∉ pre ++ p :: rest → np x = u.un_np x) →
          let t := semunrm_loop id low high
            { u.setEntries p (clear id low high (u.un_ent p)) with semunp := first, un_np := np }
            fuel pre.getLast? rest.head?
          Path t.un_np t.semunp (pre ++ rest.filter fun x => clear id low high (u.un_ent x) ≠ []) ∧
            (∀ x, t.un_ent x = if x ∈ p :: rest then clear id low high (u.un_ent x) else u.un_ent x) ∧
            t.sem_undo = u.sem_undo ∧ t.semfup = u.semfup ∧
            ∀ x, x ∉ pre ++ p :: rest → t.un_np x = u.un_np x := by
        intro np first path' frame
        obtain ⟨path'', ents, undo, fup, frame'⟩ := ih pre
          { u.setEntries p (clear id low high (u.un_ent p)) with semunp := first, un_np := np }
          fuel (Nat.le_of_succ_le_succ enough) path' shorter
        refine ⟨?_, fun x => (ents x).trans (together x), undo, fup, ?_⟩
        · rw [← filtered]
          exact path''
        · intro x off
          have off' : x ∉ pre ++ rest := by
            simp only [mem_append, mem_cons, not_or] at off ⊢
            exact ⟨off.1, off.2.2⟩
          exact (frame' x off').trans (frame x off)
      rcases eq_nil_or_concat pre with rfl | ⟨pre, q, rfl⟩
      · obtain ⟨-, behind⟩ := path
        have unhooked := finish (update u.un_np p none) (u.un_np p)
          (Segment.update behind p_off none) ?_
        · rw [← next] at unhooked
          exact unhooked
        · intro x off
          apply update_of_ne
          rintro rfl
          exact off mem_cons_self
      · rw [concat_eq_append] at *
        have cut : Path (update u.un_np q (u.un_np p)) u.semunp (pre ++ [q] ++ rest) := by
          rw [append_assoc] at path nodup ⊢
          exact Path.skip path nodup
        have off : p ∉ pre ++ [q] ++ rest := by
          simp only [mem_append, not_or]
          exact ⟨by simpa using p_pre, p_off⟩
        have unhooked := finish (update (update u.un_np q (u.un_np p)) p none)
          u.semunp (Segment.update cut off none) ?_
        · rw [getLast?_concat, ← next] at unhooked
          rw [getLast?_concat]
          exact unhooked
        · intro x off
          rw [update_of_ne, update_of_ne]
          · rintro rfl
            simp at off
          · rintro rfl
            simp at off
    · rw [if_neg empty, filter_cons_of_pos (by simpa using empty)]
      have regroup : pre ++ p :: rest = (pre ++ [p]) ++ rest := by simp
      have result := ih (pre ++ [p]) (u.setEntries p (clear id low high (u.un_ent p))) fuel
        (Nat.le_of_succ_le_succ enough) (regroup ▸ path) (regroup ▸ nodup)
      rw [getLast?_concat, ← next] at result
      obtain ⟨path', ents, undo, fup, frame⟩ := result
      refine ⟨?_, fun x => (ents x).trans (together x), undo, fup, ?_⟩
      · rw [filtered, append_assoc, singleton_append] at path'
        exact path'
      · intro x off
        exact frame x (regroup ▸ off)

theorem semunrm_ok (ok : u.Ok info free active) (id low high : Nat) :
    (∃ active', (semunrm info u id low high).Ok info free active') ∧
      ∀ p i n, (semunrm info u id low high).adjust p i n =
        if i = id ∧ low ≤ n ∧ n ≤ high then 0 else u.adjust p i n := by
  have result := semunrm_loop_ok id low high active [] u info.semmnu ok.short ok.linked ok.active_nodup
  have called : semunrm_loop id low high u info.semmnu none u.semunp = semunrm info u id low high := rfl
  rw [getLast?_nil, ← ok.linked.head_eq, called] at result
  obtain ⟨path, ents, undo, fup, frame⟩ := result
  have entry : ∀ x, (semunrm info u id low high).un_ent x = clear id low high (u.un_ent x) := by
    intro x
    rw [ents]
    split
    · rfl
    rename_i off
    have none : u.un_ent x = [] := by
      by_contra filled
      apply off
      refine (ok.active_iff x).mpr ⟨filled, ?_⟩
      by_contra unattached
      exact filled (ok.empty x fun p here => unattached ⟨p, here⟩)
    rw [none]
    rfl
  refine ⟨⟨_, ?_, path, ok.free_nodup, ok.active_nodup.filter _, ?_, ?_, ?_, ?_, ?_, ?_⟩, ?_⟩
  · rw [fup]
    exact Segment.congr ok.freed fun x mem => frame x (ok.apart mem)
  · rw [undo]
    exact ok.free_iff
  · rw [undo]
    exact ok.bound
  · rw [undo]
    exact ok.single
  · intro x
    rw [nil_append, mem_filter, entry, undo, ok.active_iff]
    simp only [decide_eq_true_eq]
    constructor
    · rintro ⟨⟨-, attached⟩, left⟩
      exact ⟨left, attached⟩
    · rintro ⟨left, attached⟩
      refine ⟨⟨?_, attached⟩, left⟩
      intro none
      rw [none] at left
      exact left rfl
  · intro x unattached
    rw [undo] at unattached
    rw [entry, ok.empty x unattached]
    rfl
  · intro x
    rw [entry]
    exact clear_ok id low high (ok.entries x)
  · intro p i n
    unfold Undos.adjust
    rw [undo]
    cases u.sem_undo p with
    | none => simp
    | some x =>
      dsimp only
      rw [entry]
      exact adjustment_clear id low high (ok.entries x) i n

/-! The end of a process -/

theorem release_eq (info : SemInfo) (u : Undos) (slot x : Nat) : u.release info slot x =
    { store info u x [] with
      un_np := update (store info u x []).un_np x u.semfup
      semfup := some x
      sem_undo := update u.sem_undo slot none } := by
  unfold Undos.release store
  by_cases empty : u.un_ent x = []
  · have same : u.setEntries x [] = u := by
      unfold Undos.setEntries
      rw [← empty, update_eq_self]
    simp [empty, same]
  · simp [empty, Undos.unlink, Undos.setEntries]

theorem release_ok (ok : u.Ok info free active) (here : u.sem_undo slot = some x) :
    (∃ active', (u.release info slot x).Ok info (x :: free) active') ∧
      ∀ p i n, (u.release info slot x).adjust p i n = if p = slot then 0 else u.adjust p i n := by
  have nothing : EntsOk info [] := ⟨Pairwise.nil, Nat.zero_le _, nofun⟩
  obtain ⟨active', stored⟩ := store_ok ok here nothing
  obtain ⟨undo, ent⟩ := store_frame info u x []
  have fup : (store info u x []).semfup = u.semfup := by
    unfold store
    split
    · rfl
    · split <;> rfl
  have off := ok.attached_not_free here
  have gone : x ∉ active' := by
    intro mem
    refine ((stored.active_iff x).mp mem).1 ?_
    rw [ent, update_self]
  have freed : Path (store info u x []).un_np u.semfup free := fup ▸ stored.freed
  have others : ∀ p, p ≠ slot → update u.sem_undo slot none p = u.sem_undo p :=
    fun p other => update_of_ne other ..
  have attached : ∀ p y, update u.sem_undo slot none p = some y ↔
      p ≠ slot ∧ u.sem_undo p = some y := by
    intro p y
    rw [update_apply]
    split <;> simp_all
  have unattached : ∀ p, update u.sem_undo slot none p ≠ some x := by
    intro p there
    obtain ⟨other, there⟩ := (attached p x).mp there
    exact other (ok.single p slot x there here)
  have free_iff := stored.free_iff
  have bound := stored.bound
  have single := stored.single
  have active_iff := stored.active_iff
  have empty := stored.empty
  rw [undo] at free_iff bound single active_iff empty
  rw [release_eq]
  refine ⟨⟨active', freed.push off, Segment.update stored.linked gone _,
    nodup_cons.mpr ⟨off, stored.free_nodup⟩, stored.active_nodup, ?_, ?_, ?_, ?_, ?_,
    stored.entries⟩, ?_⟩
  · intro y
    rw [mem_cons, free_iff]
    by_cases same : y = x
    · subst same
      exact ⟨fun _ => ⟨ok.bound slot y here, unattached⟩, fun _ => .inl rfl⟩
    have still : (∀ p, update u.sem_undo slot none p ≠ some y) ↔ ∀ p, u.sem_undo p ≠ some y := by
      refine forall_congr' fun p => ?_
      rw [ne_eq, attached]
      constructor
      · intro not_now was
        refine not_now ⟨?_, was⟩
        rintro rfl
        exact same (Option.some.inj (was.symm.trans here))
      · exact fun never now => never now.2
    rw [still]
    simp [same]
  · intro p y there
    exact bound p y ((attached p y).mp there).2
  · intro p q y first second
    exact single p q y ((attached p y).mp first).2 ((attached q y).mp second).2
  · intro y
    rw [active_iff]
    refine and_congr_right fun filled => ?_
    constructor
    · rintro ⟨p, there⟩
      refine ⟨p, (attached p y).mpr ⟨?_, there⟩⟩
      rintro rfl
      obtain rfl := Option.some.inj (there.symm.trans here)
      rw [ent, update_self] at filled
      exact filled rfl
    · rintro ⟨p, there⟩
      exact ⟨p, ((attached p y).mp there).2⟩
  · intro y free
    by_cases same : y = x
    · rw [same, ent, update_self]
    · rw [ent, update_of_ne same]
      apply ok.empty y
      intro p there
      refine free p ((attached p y).mpr ⟨?_, there⟩)
      rintro rfl
      exact same (Option.some.inj (there.symm.trans here))
  · intro p i n
    by_cases same : p = slot
    · rw [if_pos same]
      unfold Undos.adjust
      dsimp only
      rw [same, update_self]
    · rw [if_neg same]
      have stays : (store info u x []).adjust p i n = _ := adjust_store here ok
      rw [if_neg same] at stays
      rw [← stays]
      unfold Undos.adjust
      dsimp only
      rw [others p same, undo]

end Semaphores
