import Svr4.Kma.Steps

/- The books of the pools: bp_inuse counts the buffers of the largest class that are not on
   their freelist, and the queue of idle pools names each pool at most once. -/
namespace KernelMemory
open Function DyadicBlocks Layout Option Nat

variable {s t u : Kma} {held gone : List (Nat × Nat)} {pool e x a w k : Nat} {h : Shape}
  {bufs : List FreeBuf} {mask n : BitVec 32}

def Shape.slots (h : Shape) : List Nat :=
  (List.range ((h.endp - h.start) / 2 ^ h.largest)).map fun i => h.start + i * 2 ^ h.largest

/-- Those that are not on their freelist, nor in the hands of kmem_freepool as `gone`. -/
def Kma.used (s : Kma) (gone : List (Nat × Nat)) (h : Shape) : List Nat :=
  h.slots.filter fun x =>
    decide (x ∉ (s.bufs h.largest).map FreeBuf.addr ∧ (h.largest, x) ∉ gone)

/-- `queue` are the pools that kmem_freepool has copied from Km_Idlep. -/
structure Books (s : Kma) (gone : List (Nat × Nat)) (queue : List Nat) : Prop where
  counts : ∀ pool P, s.pools pool = some P → P.bp_inuse.toNat = (s.used gone P.shape).length
  queued : (s.Km_Idlep ++ queue).Nodup
  idle : ∀ pool ∈ s.Km_Idlep ++ queue, ∃ P, s.pools pool = some P ∧ P.bp_idle = true

def Newest (s : Kma) (queue : List Nat) : Prop :=
  ∀ pool ∈ s.Km_Idlep ++ queue, s.Km_NewSmall ≠ some pool ∧ s.Km_NewBig ≠ some pool

structure Accounts (s t : Kma) (gone : List (Nat × Nat)) : Prop where
  books : ∀ queue, Books s gone queue → Books t gone queue
  newest : ∀ queue, Newest s queue → Newest t queue

theorem Accounts.refl (s : Kma) (gone : List (Nat × Nat)) : Accounts s s gone :=
  ⟨fun _ => id, fun _ => id⟩

theorem Accounts.trans (first : Accounts s t gone) (second : Accounts t u gone) :
    Accounts s u gone :=
  ⟨fun queue books => second.books queue (first.books queue books),
    fun queue newest => second.newest queue (first.newest queue newest)⟩

/-! Slots -/

theorem Shape.max_class_largest (h : Shape) : max_class h.largest = h.largest := by
  unfold Shape.largest
  split <;> decide

theorem Shape.slots_nodup (h : Shape) : h.slots.Nodup := by
  apply List.Nodup.map _ List.nodup_range
  intro i j same
  exact Nat.eq_of_mul_eq_mul_right (Nat.two_pow_pos h.largest) (Nat.add_left_cancel same)

theorem Shape.Holds.mem_slots (regular : h.Regular) (holds : h.Holds h.largest x) : x ∈ h.slots := by
  have start := (regular.bounds_aligned (le_refl h.largest)).2.1
  obtain ⟨i, hi⟩ := dvd_sub holds.aligned start
  have after := holds.after
  have before := holds.before
  have pos := Nat.two_pow_pos h.largest
  refine List.mem_map.mpr ⟨i, List.mem_range.mpr ?_, ?_⟩
  · apply (le_div_iff_mul_le pos).mpr
    rw [succ_mul, mul_comm]
    omega
  · rw [mul_comm]
    omega

theorem Shape.slot_within (mem : x ∈ h.slots) : h.start ≤ x ∧ x + 2 ^ h.largest ≤ h.endp := by
  obtain ⟨i, small, rfl⟩ := List.mem_map.mp mem
  have pos := Nat.two_pow_pos h.largest
  have bound := (le_div_iff_mul_le pos).mp (List.mem_range.mp small)
  rw [succ_mul] at bound
  omega

theorem Shape.Regular.slots_length (regular : h.Regular) : h.slots.length < 2 ^ 16 := by
  have few : h.endp - h.start ≤ BIGBYTES := by
    have := regular.start_le.1
    rcases regular.kind with ⟨hend, -, -⟩ | ⟨hend, -, -⟩
    · rw [hend]
      unfold SMALLBYTES BIGBYTES
      omega
    · rw [hend]
      omega
  rw [Shape.slots, List.length_map, List.length_range]
  exact lt_of_le_of_lt (div_le_self _ _) (lt_of_le_of_lt few (by decide))

theorem length_filter_without {l : List Nat} {p q : Nat → Bool} (nodup : l.Nodup) (mem : x ∈ l)
    (kept : p x = true) (rest : ∀ y ∈ l, q y = (p y && decide (y ≠ x))) :
    (l.filter p).length = (l.filter q).length + 1 := by
  have same : l.filter q = (l.filter p).erase x := by
    rw [(nodup.filter p).erase_eq_filter, List.filter_filter]
    apply List.filter_congr
    intro y listed
    rw [rest y listed, Bool.and_comm]
    congr 1
    exact (decide_not ..).trans (by simp [bne, beq_eq_decide])
  rw [same, List.length_erase_of_mem (List.mem_filter.mpr ⟨mem, kept⟩)]
  have := List.length_pos_of_mem (List.mem_filter.mpr ⟨mem, kept⟩)
  omega

/-! Steps that the books do not notice -/

/-- The largest freelists, the counters and the queue are the same in `s` and `t`. -/
structure Light (s t : Kma) : Prop where
  pools : ∀ pool P', t.pools pool = some P' → ∃ P, s.pools pool = some P ∧ P'.shape = P.shape ∧
    P'.bp_inuse = P.bp_inuse ∧ P'.bp_idle = P.bp_idle
  back : ∀ pool P, s.pools pool = some P → ∃ P', t.pools pool = some P' ∧ P'.bp_idle = P.bp_idle
  tops : ∀ e, e = max_class e → t.bufs e = s.bufs e
  idle : t.Km_Idlep = s.Km_Idlep
  small : t.Km_NewSmall = s.Km_NewSmall
  big : t.Km_NewBig = s.Km_NewBig

theorem Light.trans (first : Light s t) (second : Light t u) : Light s u := by
  refine ⟨?_, ?_, ?_, second.idle.trans first.idle, second.small.trans first.small,
    second.big.trans first.big⟩
  · intro pool P' found
    obtain ⟨P, here, shape, inuse, idle⟩ := second.pools pool P' found
    obtain ⟨Q, there, shape', inuse', idle'⟩ := first.pools pool P here
    exact ⟨Q, there, shape.trans shape', inuse.trans inuse', idle.trans idle'⟩
  · intro pool P here
    obtain ⟨P', found, idle⟩ := first.back pool P here
    obtain ⟨Q, there, idle'⟩ := second.back pool P' found
    exact ⟨Q, there, idle'.trans idle⟩
  · exact fun e top => (second.tops e top).trans (first.tops e top)

theorem Light.refl (s : Kma) : Light s s :=
  ⟨fun _ P' here => ⟨P', here, rfl, rfl, rfl⟩, fun _ P here => ⟨P, here, rfl⟩, fun _ _ => rfl, rfl,
    rfl, rfl⟩

theorem Light.setPool {P P' : BufPool} (here : s.pools pool = some P) (shape : P'.shape = P.shape)
    (inuse : P'.bp_inuse = P.bp_inuse) (idle : P'.bp_idle = P.bp_idle) :
    Light s (s.setPool pool P') := by
  refine ⟨?_, ?_, fun _ _ => rfl, rfl, rfl, rfl⟩
  · intro q Q found
    rw [pools_setPool] at found
    by_cases same : q = pool
    · subst same
      rw [if_pos rfl] at found
      obtain rfl := some.inj found
      exact ⟨P, here, shape, inuse, idle⟩
    · rw [if_neg same] at found
      exact ⟨Q, found, rfl, rfl, rfl⟩
  · intro q Q found
    rw [pools_setPool]
    by_cases same : q = pool
    · subst same
      obtain rfl := some.inj (here.symm.trans found)
      exact ⟨P', if_pos rfl, idle⟩
    · exact ⟨Q, (if_neg same).trans found, rfl⟩

theorem Light.accounts (light : Light s t) (gone : List (Nat × Nat)) : Accounts s t gone := by
  refine ⟨?_, ?_⟩
  · intro queue books
    refine ⟨?_, light.idle ▸ books.queued, ?_⟩
    · intro pool P' found
      obtain ⟨P, here, shape, inuse, -⟩ := light.pools pool P' found
      rw [inuse, shape, books.counts pool P here]
      unfold Kma.used
      rw [light.tops _ P.shape.max_class_largest.symm]
    · intro pool mem
      rw [light.idle] at mem
      obtain ⟨P, here, idle⟩ := books.idle pool mem
      obtain ⟨P', found, same⟩ := light.back pool P here
      exact ⟨P', found, same.trans idle⟩
  · intro queue newest
    unfold Newest
    rw [light.idle, light.small, light.big]
    exact newest

theorem light_setBufs (less : e < max_class e) : Light s (s.setBufs e bufs) := by
  refine { Light.refl _ with tops := ?_ }
  intro f top
  rw [bufs_setBufs, update_of_ne]
  rintro rfl
  omega

theorem light_setSlack (e : Nat) (slack : BitVec 32) : Light s (s.setSlack e slack) :=
  { Light.refl _ with tops := fun f _ => by rw [bufs_setSlack] }

theorem light_mark (marked : mark s pool w mask = some t) : Light s t := by
  obtain ⟨P, here, rfl⟩ := map_eq_some_iff.mp marked
  exact Light.setPool here rfl rfl rfl

theorem light_unmark (cleared : unmark s pool w mask = some t) : Light s t := by
  obtain ⟨P, here, rfl⟩ := map_eq_some_iff.mp cleared
  exact Light.setPool here rfl rfl rfl

/-! Taking and putting a buffer of the largest class -/

theorem slot_apart (ranges : Ranges s.shapes) {q : Nat} {g : Shape} (placed : s.shapes pool = some h)
    (other : s.shapes q = some g) (holds : h.Holds e x) (mem : x ∈ g.slots) : q = pool := by
  obtain ⟨above, below⟩ := holds.within (ranges.regular pool h placed).1 (covers_self e x)
  have within := Shape.slot_within mem
  have start := (ranges.regular q g other).1.start_le.1
  have pos := Nat.two_pow_pos g.largest
  exact ranges.separate q g pool h x other placed (by omega) (by omega) above below

theorem toNat_add_one (eq : n.toNat = k) (few : k < 2 ^ 16) : (n + 1).toNat = k + 1 := by
  rw [BitVec.toNat_add, eq]
  exact mod_eq_of_lt (lt_trans (succ_lt_succ few) (by decide))

theorem toNat_sub_one (eq : n.toNat = k + 1) : (n - 1).toNat = k := by
  rw [BitVec.toNat_sub, eq]
  change (2 ^ 32 - 1 + (k + 1)) % 2 ^ 32 = k
  omega

theorem used_le (s : Kma) (gone : List (Nat × Nat)) (regular : h.Regular) :
    (s.used gone h).length < 2 ^ 16 :=
  lt_of_le_of_lt (List.length_filter_le ..) regular.slots_length

/-- A slot that goes from the freelist into use or back changes the count of its own pool by one.
`small` and `large` are the states without and with it on the list. -/
theorem used_moved (small large : Kma) (ranges : Ranges s.shapes) (placed : s.shapes pool = some h)
    (holds : h.Holds e x) (top : e = h.largest)
    (list : ∀ y, y ∈ (large.bufs e).map FreeBuf.addr ↔ y = x ∨ y ∈ (small.bufs e).map FreeBuf.addr)
    (others : ∀ f, f ≠ e → large.bufs f = small.bufs f)
    (off : x ∉ (small.bufs e).map FreeBuf.addr) (left : (e, x) ∉ gone) :
    (small.used gone h).length = (large.used gone h).length + 1 ∧
      ∀ q g, s.shapes q = some g → q ≠ pool → large.used gone g = small.used gone g := by
  have regular := (ranges.regular pool h placed).1
  refine ⟨?_, ?_⟩
  · subst top
    apply length_filter_without h.slots_nodup (holds.mem_slots regular)
    · exact decide_eq_true ⟨off, left⟩
    · intro y mem
      rw [← Bool.decide_and]
      apply decide_eq_decide.mpr
      rw [list y]
      tauto
  · intro q g other different
    apply List.filter_congr
    intro y mem
    by_cases same : g.largest = e
    · rw [same]
      apply decide_eq_decide.mpr
      rw [list y]
      have apart : y ≠ x := by
        rintro rfl
        exact different (slot_apart ranges placed other holds mem)
      tauto
    · rw [others _ same]

theorem mem_addr_cons {fb : FreeBuf} {y : Nat} :
    y ∈ (fb :: bufs).map FreeBuf.addr ↔ y = fb.addr ∨ y ∈ bufs.map FreeBuf.addr := by
  rw [List.map_cons, List.mem_cons]

theorem use_pool_accounts (sound : (s.layout held).Sound) (sub : gone ⊆ held)
    (head : s.bufs e = ⟨x, .poolp pool⟩ :: bufs) (placed : s.shapes pool = some h)
    (holds : h.Holds e x) (top : e = h.largest) (taken : use_pool (UNLINKHEAD s e) pool = some t) :
    Accounts s t gone := by
  obtain ⟨P, here, rfl⟩ := map_eq_some_iff.mp taken
  replace here : s.pools pool = some P := here
  have shape : h = P.shape := by
    obtain ⟨P', here', rfl⟩ := shapes_eq_some.mp placed
    rw [some.inj (here.symm.trans here')]
  have mem : ⟨x, .poolp pool⟩ ∈ s.bufs e := head ▸ List.mem_cons_self
  have ranges := sound.toRanges
  have regular := (ranges.regular pool h placed).1
  have lists : (UNLINKHEAD s e).bufs = update s.bufs e bufs := by
    unfold UNLINKHEAD
    rw [bufs_setBufs, head]
    rfl
  have off : x ∉ ((UNLINKHEAD s e).bufs e).map FreeBuf.addr := by
    rw [lists, update_self]
    intro twice
    obtain ⟨fb, listed, rfl⟩ := List.mem_map.mp twice
    have moved := moved_UNLINKHEAD head
    have bound := sound.class_lt mem
    have once := sound.once fb.addr
    have first := moved.free_cover bound fb.addr
    have left : fb ∈ (UNLINKHEAD s e).bufs e := by
      rw [lists, update_self]
      exact listed
    have second := free_cover_pos bound left (covers_self e _)
    rw [cover_one, if_pos (covers_self e _)] at first
    change _ + _ + free_cover s.bufs fb.addr ≤ 1 at once
    omega
  have left : (e, x) ∉ gone := by
    intro away
    have owned : (e, x) ∈ (s.layout held).owned := List.mem_append_left _ (sub away)
    exact owned_not_free (sound.once x) owned (sound.class_lt mem) mem (covers_self e x)
      (covers_self e x)
  have moved := used_moved (UNLINKHEAD s e) s ranges placed holds top (by
      intro y
      rw [head, lists, update_self]
      exact mem_addr_cons)
    (fun f ne => by rw [lists, update_of_ne ne]) off left
  refine ⟨?_, fun queue newest => newest⟩
  intro queue books
  refine ⟨?_, books.queued, ?_⟩
  · intro q Q found
    rw [pools_setPool] at found
    change Q.bp_inuse.toNat = ((UNLINKHEAD s e).used gone Q.shape).length
    by_cases same : q = pool
    · subst same
      rw [if_pos rfl] at found
      obtain rfl := some.inj found
      change (P.bp_inuse + 1).toNat = ((UNLINKHEAD s e).used gone P.shape).length
      rw [← shape, moved.1]
      exact toNat_add_one (shape ▸ books.counts q P here) (used_le s gone regular)
    · rw [if_neg same] at found
      rw [← moved.2 q Q.shape (shapes_eq_some.mpr ⟨Q, found, rfl⟩) same]
      exact books.counts q Q found
  · intro q mem
    obtain ⟨Q, found, idle⟩ := books.idle q mem
    rw [pools_setPool]
    by_cases same : q = pool
    · subst same
      obtain rfl := some.inj (here.symm.trans found)
      exact ⟨_, if_pos rfl, idle⟩
    · exact ⟨Q, (if_neg same).trans found, idle⟩

/-- The pool of a buffer that is put back counts one less, and is queued when it falls idle and is
neither queued nor the newest. -/
theorem release_pool_accounts (sound : (s.layout ((e, x) :: held)).Sound) (sub : gone ⊆ held)
    (placed : s.shapes pool = some h) (holds : h.Holds e x) (top : e = h.largest)
    (taken : release_pool (HEADFREE s e ⟨x, .poolp pool⟩) pool = some t) : Accounts s t gone := by
  obtain ⟨P, here, done⟩ := map_eq_some_iff.mp taken
  replace here : s.pools pool = some P := here
  have shape : h = P.shape := by
    obtain ⟨P', here', rfl⟩ := shapes_eq_some.mp placed
    rw [some.inj (here.symm.trans here')]
  have ranges := sound.toRanges
  have mine : (e, x) ∈ (s.layout ((e, x) :: held)).owned := List.mem_cons_self
  have lists : (HEADFREE s e ⟨x, .poolp pool⟩).bufs =
      update s.bufs e (⟨x, .poolp pool⟩ :: s.bufs e) := bufs_setBufs e _
  have off : x ∉ (s.bufs e).map FreeBuf.addr := by
    intro listed
    obtain ⟨fb, mem, rfl⟩ := List.mem_map.mp listed
    exact owned_not_free (sound.once _) mine (sound.class_lt mem) mem (covers_self e _)
      (covers_self e _)
  have left : (e, x) ∉ gone := by
    intro away
    have once := sound.once x
    have second := cover_pos (List.mem_append_left s.owned (sub away)) (covers_self e x)
    change cover ((e, x) :: (held ++ s.owned)) x + _ + _ ≤ 1 at once
    rw [cover_cons, cover_one, if_pos (covers_self e x)] at once
    omega
  have moved := used_moved s (HEADFREE s e ⟨x, .poolp pool⟩) ranges placed holds top (by
      intro y
      rw [lists, update_self]
      exact mem_addr_cons)
    (fun f ne => by rw [lists, update_of_ne ne]) off left
  -- the counters are right whether the pool is queued or not
  have counts : ∀ queue, Books s gone queue → ∀ idle : Bool, ∀ q Q,
      ((HEADFREE s e ⟨x, .poolp pool⟩).setPool pool
        { P with bp_inuse := P.bp_inuse - 1, bp_idle := idle }).pools q = some Q →
      Q.bp_inuse.toNat = ((HEADFREE s e ⟨x, .poolp pool⟩).used gone Q.shape).length := by
    intro queue books idle q Q found
    rw [pools_setPool] at found
    by_cases same : q = pool
    · subst same
      rw [if_pos rfl] at found
      obtain rfl := some.inj found
      change (P.bp_inuse - 1).toNat = ((HEADFREE s e ⟨x, .poolp q⟩).used gone P.shape).length
      have before := books.counts q P here
      rw [← shape] at before ⊢
      exact toNat_sub_one (before.trans moved.1)
    · rw [if_neg same] at found
      rw [moved.2 q Q.shape (shapes_eq_some.mpr ⟨Q, found, rfl⟩) same]
      exact books.counts q Q found
  have flags : ∀ idle : Bool, (P.bp_idle = true → idle = true) → ∀ q,
      (∃ Q, s.pools q = some Q ∧ Q.bp_idle = true) →
      ∃ Q, ((HEADFREE s e ⟨x, .poolp pool⟩).setPool pool
        { P with bp_inuse := P.bp_inuse - 1, bp_idle := idle }).pools q = some Q ∧
        Q.bp_idle = true := by
    intro idle more q ⟨Q, found, flag⟩
    rw [pools_setPool]
    by_cases same : q = pool
    · subst same
      obtain rfl := some.inj (here.symm.trans found)
      exact ⟨_, if_pos rfl, more flag⟩
    · exact ⟨Q, (if_neg same).trans found, flag⟩
  dsimp only at done
  split at done
  · rename_i falls
    obtain ⟨-, small, big, -, busy⟩ := falls
    replace small : some pool ≠ s.Km_NewSmall := small
    replace big : some pool ≠ s.Km_NewBig := big
    subst done
    refine ⟨?_, ?_⟩
    · intro queue books
      have new : pool ∉ s.Km_Idlep ++ queue := by
        intro queued
        obtain ⟨Q, found, flag⟩ := books.idle pool queued
        obtain rfl := some.inj (here.symm.trans found)
        rw [busy] at flag
        exact nomatch flag
      have perm : (s.Km_Idlep ++ [pool] ++ queue).Perm (pool :: (s.Km_Idlep ++ queue)) := by
        rw [List.append_assoc]
        exact List.perm_middle
      refine ⟨counts queue books true, ?_, ?_⟩
      · exact perm.nodup_iff.mpr (List.nodup_cons.mpr ⟨new, books.queued⟩)
      · intro q mem
        rcases List.mem_cons.mp (perm.mem_iff.mp mem) with rfl | mem
        · exact ⟨_, (pools_setPool q).trans (if_pos rfl), rfl⟩
        · exact flags true (fun _ => rfl) q (books.idle q mem)
    · intro queue newest q mem
      have perm : (s.Km_Idlep ++ [pool] ++ queue).Perm (pool :: (s.Km_Idlep ++ queue)) := by
        rw [List.append_assoc]
        exact List.perm_middle
      rcases List.mem_cons.mp (perm.mem_iff.mp mem) with rfl | mem
      · exact ⟨small.symm, big.symm⟩
      · exact newest q mem
  · subst done
    refine ⟨?_, fun queue newest => newest⟩
    intro queue books
    refine ⟨counts queue books P.bp_idle, books.queued, ?_⟩
    intro q mem
    exact flags P.bp_idle id q (books.idle q mem)

end KernelMemory
