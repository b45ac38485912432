import Svr4.Kma.Alloc

/- kmem_free and kmem_coalesce keep the invariant and do not fail: the buddy that is unlinked
   is on its list. -/
namespace KernelMemory
open DyadicBlocks Layout List Option

variable {s t : Kma} {held gone : List (Nat × Nat)} {pool e x a : Nat} {h : Shape} {m : Merge} {rest : List Frame}

/-- The invariant of the memory and of the activations of kmem_coalesce. -/
structure Inv (s : Kma) (gone : List (Nat × Nat)) : Prop where
  sound : (s.layout gone).Sound
  pools : Pools s gone
  less : ∀ m, .merge m ∈ s.stack → m.e < max_class m.e

theorem delayed_head_eq (head : delayed_head s e = some x) :
    ∃ bufs, s.bufs e = ⟨x, .DELAYED⟩ :: bufs := by
  unfold delayed_head at head
  split at head
  · rename_i addr bufs list
    obtain rfl := some.inj head
    exact ⟨bufs, list⟩
  · exact nomatch head

theorem start_ok (placed : s.shapes pool = some h) (holds : h.Holds e x) :
    MergeOk s.shapes (start_of h pool e x) :=
  ⟨⟨h, placed, holds, rfl, rfl, rfl⟩, fun _ inside => inside⟩

theorem free_not_gone (sound : (s.layout gone).Sound) {fb : FreeBuf} (mem : fb ∈ s.bufs e) :
    cover gone fb.addr = 0 := by
  have once := sound.once fb.addr
  have free := free_cover_pos (sound.class_lt mem) mem (covers_self e fb.addr)
  have parts : cover (s.layout gone).owned fb.addr = _ := cover_append gone s.owned _
  change _ + _ + free_cover s.bufs _ ≤ 1 at once
  omega

theorem owned_not_gone (sound : (s.layout gone).Sound) (mine : (e, x) ∈ s.owned) :
    cover gone x = 0 := by
  have once := sound.once x
  have own := cover_pos mine (covers_self e x)
  have parts : cover (s.layout gone).owned x = _ := cover_append gone s.owned _
  unfold coverage at once
  omega

theorem accelerate_ok (inv : Inv s gone) (e : Nat) :
    ∃ t, accelerate s e s.stack = some t ∧ Inv t gone ∧ Steady s t ∧ Accounts s t gone := by
  unfold accelerate
  cases head : (if s.slack e = 0 then delayed_head s e else none) with
  | some x =>
    have listed : delayed_head s e = some x := by
      split at head
      · exact head
      · exact nomatch head
    obtain ⟨bufs, list⟩ := delayed_head_eq listed
    have mem : ⟨x, .DELAYED⟩ ∈ s.bufs e := list ▸ mem_cons_self
    obtain ⟨pool, h, placed, holds, less⟩ := (inv.sound.free e ⟨x, .DELAYED⟩ mem).placed
    have taken := inv.sound.take (moved_UNLINKHEAD list) trivial
    have started := taken.start (m := start_of h pool e x) rfl (start_ok placed holds) rfl
    have light : Light s { UNLINKHEAD s e with stack := .merge (start_of h pool e x) :: s.stack } :=
      { Light.refl _ with tops := (light_setBufs less).tops }
    refine ⟨{ UNLINKHEAD s e with stack := .merge (start_of h pool e x) :: s.stack }, ?_, ?_,
      ⟨rfl, rfl, rfl, rfl, rfl, rfl⟩,
      light.accounts gone⟩
    · dsimp only
      rw [coalesce_start_ok inv.sound.toRanges inv.pools placed holds (free_not_gone inv.sound mem),
        map_some]
    · refine ⟨started, { inv.pools with }, ?_⟩
      intro m mem
      rcases mem_cons.mp mem with same | mem
      · obtain rfl := Frame.merge.inj same
        exact less
      · exact inv.less m mem
  | none =>
    refine ⟨{ s.setSlack e 0 with stack := s.stack }, rfl, ⟨?_, ?_, inv.less⟩,
      ⟨rfl, rfl, rfl, rfl, rfl, rfl⟩,
      (light_setSlack e 0).accounts gone⟩
    · change ((s.setSlack e 0).layout gone).Sound
      rw [layout_setSlack]
      exact inv.sound
    · exact { inv.pools with }

section
variable (sound : (s.layout ((e, x) :: gone)).Sound) (placed : s.shapes pool = some h)
  (holds : h.Holds e x)
include sound placed holds

theorem put_largest_ok (largest : e = max_class e) :
    ∃ t, release_pool (HEADFREE s e ⟨x, .poolp pool⟩) pool = some t ∧ Same s t ∧
      Accounts s t gone ∧ (t.layout gone).Sound := by
  obtain ⟨t, released, same, bufs, bit⟩ :=
    release_pool_ok (s := HEADFREE s e ⟨x, .poolp pool⟩) placed
  have onto : Moved e ⟨x, .poolp pool⟩ s.bufs (HEADFREE s e ⟨x, .poolp pool⟩).bufs := moved_HEADFREE
  have put := sound.put rfl onto ⟨pool, h, placed, holds, largest, rfl⟩ trivial
  have top : e = h.largest := by
    rw [← ((sound.regular pool h placed).1.classes holds.low holds.high).2.2.1]
    exact largest
  refine ⟨t, released, (same_setBufs _ _).trans same, release_pool_accounts sound
    (List.Subset.refl gone) placed holds top released, ?_⟩
  rw [((same_setBufs _ _).trans same).layout, bufs, bit]
  exact put

theorem put_delayed_ok (less : e < max_class e) :
    ((HEADFREE s e ⟨x, .DELAYED⟩).layout gone).Sound :=
  sound.put rfl (moved_HEADFREE (s := s) (e := e)) ⟨pool, h, placed, holds, less⟩ trivial

end

theorem kmem_free_ok (inv : Inv s gone) (idle : s.stack = []) {size : Nat} (positive : 0 < size)
    (small : size ≤ MAXABIG) (live : (class_of size, x) ∈ s.live) :
    ∃ t, kmem_free s x size = some t ∧ Inv t gone ∧ Steady s t ∧ Accounts s t gone := by
  generalize kind : class_of size = e at live
  have high : e ≤ max_class e := kind ▸ (class_of_range size).2
  have owned : (e, x) ∈ s.owned := mem_append_left _ live
  obtain ⟨pool, h, placed, holds⟩ := inv.sound.owned (e, x) (mem_append_right gone owned)
  have left := owned_not_gone inv.sound owned
  have ranges := inv.sound.toRanges
  have perm : s.owned.Perm ((e, x) :: (s.live.erase (e, x) ++
      s.headers.map fun x => (class_of BIGHEADER, x))) :=
    (perm_cons_erase live).append_right _
  have mine := inv.sound.rearranged ((perm.append_left gone).trans perm_middle)
  have sound : ∀ n, ((Kma.setSlack { s with live := s.live.erase (e, x) } e n).layout
      ((e, x) :: gone)).Sound := by
    intro n
    rw [layout_setSlack]
    exact mine
  have frames : ∀ m, .merge m ∈ s.stack → m.e < max_class m.e := inv.less
  have freed : Light s { s with live := s.live.erase (e, x) } :=
    { Light.refl _ with }
  unfold kmem_free
  rw [kind, if_pos ⟨positive, small, live⟩]
  split
  · by_cases less : e < max_class e
    · rw [if_pos less]
      refine ⟨_, rfl, ⟨put_delayed_ok (sound _) placed holds less, ?_, frames⟩,
        ⟨rfl, rfl, rfl, rfl, rfl, rfl⟩, ?_⟩
      · exact { inv.pools with }
      · exact ((freed.trans (light_setSlack _ _)).trans (light_setBufs less)).accounts gone
    have below := (holds.within (ranges.regular pool h placed).1 (covers_self e x)).2
    obtain ⟨t, released, same, accounts, done⟩ := put_largest_ok (sound (s.slack e - 2)) placed
      holds (Nat.le_antisymm high (Nat.le_of_not_lt less))
    rw [if_neg less, lookup_ok ranges inv.pools placed holds.after below left, bind_some]
    refine ⟨t, released, ⟨done, ?_, ?_⟩, { same.steady with },
      ((freed.trans (light_setSlack _ _)).accounts gone).trans accounts⟩
    · exact same.pools ({ inv.pools with })
    · rw [same.stack]
      exact frames
  · rename_i eager
    have less : e < max_class e := by
      rw [not_or] at eager
      exact lt_of_le_of_ne high eager.2
    have started : Sound ⟨s.shapes, s.bit, s.bufs, gone ++ (s.live.erase (e, x) ++
        s.headers.map fun x => (class_of BIGHEADER, x)), start_of h pool e x :: merges_of s.stack⟩ :=
      mine.start (m := start_of h pool e x) rfl (start_ok placed holds) rfl
    rw [coalesce_start_ok ranges inv.pools placed holds left, map_some]
    refine ⟨_, rfl, ⟨?_, ?_, ?_⟩, ⟨rfl, rfl, rfl, rfl, rfl, rfl⟩, Light.accounts ?_ gone⟩
    · rw [idle] at started
      exact started
    · exact { inv.pools with }
    · intro m mem
      rcases mem_cons.mp mem with same | mem
      · obtain rfl := Frame.merge.inj same
        exact less
      · rcases mem_cons.mp mem with impossible | impossible
        · exact nomatch impossible
        · exact nomatch impossible
    · exact { Light.refl _ with }

theorem keep_merged_ok (sound : (({ s with stack := .merge m :: rest } : Kma).layout gone).Sound)
    (pools : Pools s gone) (high : m.e ≤ max_class m.e)
    (frames : ∀ m, .merge m ∈ rest → m.e < max_class m.e) :
    ∃ t, keep_merged s m rest = some t ∧ Inv t gone ∧ Steady s t ∧ Accounts s t gone := by
  obtain ⟨h, placed, holds, word, shift, mask⟩ := (sound.merging m mem_cons_self).placed
  obtain ⟨u, marked, same, bufs, bits⟩ :=
    mark_ok (s := { s with stack := rest }) sound.toRanges placed holds
  have kept := sound.keep (m := m) (show _ = m :: merges_of rest from rfl) bits
  have mine : (u.layout ((m.e, m.bufp) :: gone)).Sound := by
    rw [same.layout, bufs]
    exact kept
  have popped : Light s { s with stack := rest } := { Light.refl _ with }
  have accounts := (popped.trans (light_mark marked)).accounts gone
  have placedu : u.shapes m.pool = some h := by
    rw [same.shapes]
    exact placed
  unfold keep_merged
  rw [word, mask, marked, bind_some]
  by_cases less : m.e < max_class m.e
  · rw [if_pos less]
    refine ⟨_, rfl, ⟨?_, ?_, ?_⟩,
      { (same.trans ((same_setBufs _ _).trans (same_setSlack _ _))).steady with },
      accounts.trans (((light_setBufs less).trans (light_setSlack _ _)).accounts gone)⟩
    · rw [layout_setSlack]
      exact put_delayed_ok mine placedu holds less
    · exact (same.trans ((same_setBufs _ _).trans (same_setSlack _ _))).pools
        ({ pools with })
    · change ∀ m, .merge m ∈ u.stack → m.e < max_class m.e
      rw [same.stack]
      exact frames
  · rw [if_neg less]
    obtain ⟨t, released, same', accounts', done⟩ := put_largest_ok mine placedu holds
      (Nat.le_antisymm high (Nat.le_of_not_lt less))
    refine ⟨t, released, ⟨done, ?_, ?_⟩, { (same.trans same').steady with },
      accounts.trans accounts'⟩
    · exact (same.trans same').pools ({ pools with })
    · rw [(same.trans same').stack]
      exact frames

theorem unlink_ok (sound : (s.layout gone).Sound) (marked : (s.layout gone).Marked e x) :
    ∃ bufs fb, UNLINK s e x = some (s.setBufs e bufs) ∧ Moved e fb (s.setBufs e bufs).bufs s.bufs ∧
      fb.addr = x ∧ ¬ FbUnion.unmarked fb.fb_union := by
  obtain ⟨pool, w, mask, mem⟩ := marked
  replace mem : ⟨x, .mapp pool w mask⟩ ∈ s.bufs e := mem
  have here : decide ((⟨x, .mapp pool w mask⟩ : FreeBuf).addr = x) = true := decide_eq_true rfl
  obtain ⟨fb, before, after, -, found, list, erased⟩ := exists_of_eraseP
    (p := fun fb : FreeBuf => decide (fb.addr = x)) mem here
  have place : fb.addr = x := of_decide_eq_true found
  have mem' : fb ∈ s.bufs e := by
    rw [show s.bufs e = before ++ fb :: after from list]
    exact mem_append_right _ mem_cons_self
  obtain rfl : fb = ⟨x, .mapp pool w mask⟩ := sound.free_unique mem' mem place
  refine ⟨before ++ after, ⟨x, .mapp pool w mask⟩, ?_, ?_, rfl, id⟩
  · unfold UNLINK
    rw [if_pos (any_eq_true.mpr ⟨_, mem, here⟩)]
    rw [show (s.bufs e).eraseP _ = before ++ after from erased]
  · apply moved_of_perm
    rw [show s.bufs e = before ++ _ :: after from list]
    exact perm_middle

theorem buddy_free_iff (sound : (s.layout gone).Sound) {P : BufPool} (here : s.pools pool = some P)
    (mine : m.pool = pool) (holds : P.shape.Holds m.e m.bufp) (word : m.wordp = P.shape.word m.bufp)
    (shift : m.shift = P.shape.index m.bufp) (less : m.e < max_class m.e) :
    buddy_free P m = true ↔ ∀ a, Covers m.e (buddy m.e m.bufp) a → s.bit m.pool a = false := by
  subst mine
  have regular := (sound.regular _ _ (shapes_eq_some.mpr ⟨P, here, rfl⟩)).1
  obtain ⟨bword, bindex, -, -⟩ := holds.buddy_bits regular less
  have zero := BufPool.and_eq_zero regular (holds.other regular less)
  rw [bword, Shape.mask, bindex, ← word, ← shift] at zero
  simp only [bit_of_pool here]
  rw [← zero]
  exact decide_eq_true_iff

theorem coalesce_round_ok (inv : Inv s gone) (top : s.stack = .merge m :: rest) :
    ∃ t, coalesce_round s m rest = some t ∧ Inv t gone ∧ Steady s t ∧ Accounts s t gone := by
  have sound := inv.sound
  have merges : (s.layout gone).merges = m :: merges_of rest := by
    change merges_of s.stack = _
    rw [top]
    rfl
  have hm : m ∈ (s.layout gone).merges := merges ▸ mem_cons_self
  have less := inv.less m (top ▸ mem_cons_self)
  have frames : ∀ m, .merge m ∈ rest → m.e < max_class m.e :=
    fun m mem => inv.less m (top ▸ mem_cons_of_mem _ mem)
  obtain ⟨h, placed, holds, word, shift, mask⟩ := (sound.merging m hm).placed
  obtain ⟨P, here, rfl⟩ := shapes_eq_some.mp placed
  have test := buddy_free_iff sound here rfl holds word shift less
  unfold coalesce_round
  rw [here, bind_some]
  by_cases free : buddy_free P m = true
  · rw [if_pos free]
    obtain ⟨bufs, fb, unlinked, moved, place, marked⟩ :=
      unlink_ok sound (sound.buddy_marked hm less (test.mp free))
    have joined := sound.join merges less moved place marked
    rw [show UNLINK s m.e (m.bufp ^^^ 2 ^ m.e) = _ from unlinked, bind_some]
    have next : (absorb m).e = m.e + 1 := rfl
    have pools := inv.pools.of_eq (t := s.setBufs m.e bufs) rfl rfl rfl fun base started => started
    have light : Light s (s.setBufs m.e bufs) := light_setBufs less
    by_cases stop : 2 ≤ (s.setBufs m.e bufs).slack (m.e + 1) ∨ m.e + 1 = max_class m.e
    · rw [if_pos stop]
      have high : (absorb m).e ≤ max_class (absorb m).e := by
        rw [next, max_class_of_le (Nat.le_succ m.e) less]
        exact less
      obtain ⟨t, done, inv', steady, accounts⟩ := keep_merged_ok joined pools high frames
      exact ⟨t, done, inv', { steady with }, (light.accounts gone).trans accounts⟩
    rw [if_neg stop]
    rw [not_or] at stop
    have top' : m.e + 1 < max_class (m.e + 1) := by
      rw [max_class_of_le (Nat.le_succ m.e) less]
      exact lt_of_le_of_ne less stop.2
    have between : Inv { s.setBufs m.e bufs with stack := .merge (absorb m) :: rest } gone := by
      refine ⟨joined, { pools with }, ?_⟩
      intro m' mem
      rcases mem_cons.mp mem with same | mem
      · obtain rfl := Frame.merge.inj same
        exact top'
      · exact frames m' mem
    have pushed : Light (s.setBufs m.e bufs)
        { s.setBufs m.e bufs with stack := .merge (absorb m) :: rest } :=
      { Light.refl _ with }
    obtain ⟨t, done, inv', steady, accounts⟩ := accelerate_ok between (m.e + 1)
    exact ⟨t, done, inv', { steady with },
      ((light.trans pushed).accounts gone).trans accounts⟩
  · rw [if_neg free]
    obtain ⟨u, cleared, same, bufs, bits⟩ :=
      unmark_ok (s := { s with stack := rest }) sound.toRanges placed holds
    have settled := sound.settle merges less (moved_TAILFREE (s := { s with stack := rest })) bits
      (fun zero => free (test.mpr zero))
    have popped : Light s { s with stack := rest } :=
      { Light.refl _ with }
    rw [word, mask, cleared, map_some]
    refine ⟨_, rfl, ⟨?_, ?_, ?_⟩, { (same.trans (same_setBufs _ _)).steady with },
      ((popped.trans (light_unmark cleared)).trans (light_setBufs less)).accounts gone⟩
    · have lists : (TAILFREE u m.e ⟨m.bufp, .mapp m.pool (P.shape.word m.bufp)
          (P.shape.mask m.e m.bufp)⟩).bufs = (TAILFREE { s with stack := rest } m.e
            ⟨m.bufp, .mapp m.pool m.wordp m.mask⟩).bufs := by
        unfold TAILFREE
        rw [bufs_setBufs, bufs_setBufs, bufs, word, mask]
      have same' : Same { s with stack := rest } (TAILFREE u m.e ⟨m.bufp, .mapp m.pool
          (P.shape.word m.bufp) (P.shape.mask m.e m.bufp)⟩) := same.trans (same_setBufs _ _)
      rw [same'.layout, lists]
      exact settled
    · exact (same.trans (same_setBufs _ _)).pools
        ({ inv.pools with })
    · change ∀ m, .merge m ∈ u.stack → m.e < max_class m.e
      rw [same.stack]
      exact frames

theorem coalesce_ok (inv : Inv s gone) (active : s.stack ≠ []) :
    ∃ t, coalesce s = some t ∧ Inv t gone ∧ Steady s t ∧ Accounts s t gone := by
  unfold coalesce
  cases stack : s.stack with
  | nil => exact absurd stack active
  | cons frame rest =>
    cases frame with
    | merge m => exact coalesce_round_ok inv stack
    | again e =>
      have popped : Inv { s with stack := rest } gone := by
        refine ⟨?_, { inv.pools with }, ?_⟩
        · have sound := inv.sound
          unfold Kma.layout at sound ⊢
          rw [stack] at sound
          exact sound
        · exact fun m mem => inv.less m (stack ▸ mem_cons_of_mem _ mem)
      have light : Light s { s with stack := rest } :=
        { Light.refl _ with }
      obtain ⟨t, done, inv', steady, accounts⟩ := accelerate_ok popped e
      exact ⟨t, done, inv', { steady with },
        (light.accounts gone).trans accounts⟩

end KernelMemory
