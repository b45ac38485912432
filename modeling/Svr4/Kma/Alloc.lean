import Svr4.Kma.Books

/- What kmem_alloc does to the layout: taking a buffer from a list, splitting it, and adding
   the buffers of a new pool. -/
namespace KernelMemory
open Function DyadicBlocks Layout List Option Nat

variable {s t : Kma} {held gone : List (Nat × Nat)} {pool e g x a endp : Nat} {h : Shape}
  {fb : FreeBuf} {P : BufPool}

/-! Classes -/

theorem find_list_ge (size : Nat) : ∀ n e, e ≤ find_list size n e
  | 0, e => le_refl e
  | n + 1, e => by
    unfold find_list
    split
    · exact Nat.le_trans (Nat.le_succ e) (find_list_ge size n (e + 1))
    · exact le_refl e

theorem find_list_le (size : Nat) : ∀ n e, find_list size n e ≤ e + n
  | 0, e => le_refl e
  | n + 1, e => by
    unfold find_list
    split
    · have := find_list_le size n (e + 1)
      omega
    · omega

theorem max_class_cases (e : Nat) : e ≤ 8 ∧ max_class e = 8 ∨ 8 < e ∧ max_class e = 12 := by
  by_cases small : e ≤ MAXASIDX
  · exact .inl ⟨small, if_pos small⟩
  · exact .inr ⟨Nat.lt_of_not_le small, if_neg small⟩

theorem class_of_range (size : Nat) :
    4 ≤ class_of size ∧ class_of size ≤ max_class (class_of size) := by
  have top := max_class_cases (class_of size)
  suffices range : 4 ≤ class_of size ∧ class_of size ≤ 12 by omega
  unfold class_of
  split
  · have low := find_list_ge size (MAXASIDX - MINASIDX) MINASIDX
    have high := find_list_le size (MAXASIDX - MINASIDX) MINASIDX
    change 4 ≤ _ at low
    change _ ≤ 4 + (8 - 4) at high
    omega
  · have low := find_list_ge size (MAXABIDX - MINABIDX) MINABIDX
    have high := find_list_le size (MAXABIDX - MINABIDX) MINABIDX
    change 9 ≤ _ at low
    change _ ≤ 9 + (12 - 9) at high
    omega

theorem max_class_of_le (le : e ≤ g) (high : g ≤ max_class e) : max_class g = max_class e := by
  have first := max_class_cases e
  have second := max_class_cases g
  omega

theorem Shape.Regular.least_le (regular : h.Regular) (low : 4 ≤ e)
    (top : max_class e = h.largest) : h.least ≤ e := by
  have which := max_class_cases e
  rw [top] at which
  unfold Shape.largest at which
  unfold Shape.least
  rcases regular.kind with ⟨-, hmin, -⟩ | ⟨-, hmin, -⟩
  · rw [hmin, if_pos rfl]
    exact low
  · have big : MINBIDX ≠ MINSIDX := by decide
    rw [hmin, if_neg big] at which ⊢
    change 9 ≤ e
    change e ≤ 8 ∧ 12 = 8 ∨ 8 < e ∧ 12 = 12 at which
    omega

/-! Taking and splitting a buffer -/

theorem take_state_ok (sound : (s.layout held).Sound) (sub : gone ⊆ held) {bufs : List FreeBuf}
    (head : s.bufs g = fb :: bufs) : ∃ t, take_state (UNLINKHEAD s g) g fb = some t ∧ Same s t ∧
      Accounts s t gone ∧ (t.layout ((g, fb.addr) :: held)).Sound := by
  have mem : fb ∈ s.bufs g := head ▸ mem_cons_self
  have moved := moved_UNLINKHEAD head
  have unlinked : Same s (UNLINKHEAD s g) := same_setBufs g _
  obtain ⟨pool, h, placed, holds, union⟩ := (sound.free g fb mem).placed
  obtain ⟨x, state⟩ := fb
  cases state with
  | DELAYED =>
    have light : Light s (UNLINKHEAD s g) := light_setBufs union
    refine ⟨(UNLINKHEAD s g).setSlack g ((UNLINKHEAD s g).slack g + 2), if_pos union,
      unlinked.trans (same_setSlack _ _),
      (light.accounts gone).trans ((light_setSlack _ _).accounts gone), ?_⟩
    rw [layout_setSlack]
    exact sound.take moved trivial
  | mapp p w mask =>
    obtain ⟨less, rfl, hw, hmask⟩ := union
    obtain ⟨t, marked, same, bufs, bits⟩ :=
      mark_ok (s := UNLINKHEAD s g) sound.toRanges placed holds
    have light : Light s (UNLINKHEAD s g) := light_setBufs less
    have accounts := (light.accounts gone).trans (((light_mark marked).accounts gone).trans
      ((light_setSlack g (t.slack g + 1)).accounts gone))
    refine ⟨t.setSlack g (t.slack g + 1), ?_, (unlinked.trans same).trans (same_setSlack _ _),
      accounts, ?_⟩
    · unfold take_state
      dsimp only
      rw [if_pos less, hw, hmask, marked, map_some]
    · rw [layout_setSlack, (unlinked.trans same).layout, bufs]
      exact sound.take_marked moved bits
  | poolp p =>
    obtain ⟨largest, rfl⟩ := union
    obtain ⟨t, used, same, bufs, bit⟩ := use_pool_ok (s := UNLINKHEAD s g) placed
    have top : g = h.largest := by
      rw [← ((sound.regular p h placed).1.classes holds.low holds.high).2.2.1]
      exact largest
    have accounts := (use_pool_accounts sound sub head placed holds top used).trans
      ((light_setSlack g (t.slack g + 2)).accounts gone)
    refine ⟨t.setSlack g (t.slack g + 2), ?_, (unlinked.trans same).trans (same_setSlack _ _),
      accounts, ?_⟩
    · unfold take_state
      dsimp only
      rw [if_neg (by omega), used, map_some]
    · rw [layout_setSlack, (unlinked.trans same).layout, bufs, bit]
      exact sound.take moved trivial

theorem split_ok (gone : List (Nat × Nat)) (low : 4 ≤ e) : ∀ k s x, e + k ≤ max_class e →
    (s.layout ((e + k, x) :: held)).Sound → Same s (split s k (e + k) x).1 ∧
      Accounts s (split s k (e + k) x).1 gone ∧
      ((split s k (e + k) x).1.layout ((e, (split s k (e + k) x).2) :: held)).Sound := by
  intro k
  induction k with
  | zero => exact fun s x _ sound => ⟨Same.refl s, Accounts.refl s gone, sound⟩
  | succ k ih =>
    intro s x high sound
    have classes : ∀ f, e ≤ f → f ≤ max_class e → max_class f = max_class e :=
      fun f le high => max_class_of_le le high
    have least : ∀ pool h, s.shapes pool = some h → h.Holds (e + k + 1) x → h.least ≤ e + k := by
      intro pool h placed holds
      have regular := (sound.regular pool h placed).1
      have top := (regular.classes holds.low holds.high).2.2.1
      rw [classes _ (by omega) (by omega)] at top
      exact regular.least_le (by omega) ((classes _ (by omega) (by omega)).trans top)
    have halves := sound.halve rfl least
    have onto : Moved (e + k) ⟨x, .DELAYED⟩ s.bufs (HEADFREE s (e + k) ⟨x, .DELAYED⟩).bufs :=
      moved_HEADFREE
    obtain ⟨pool, h, placed, holds⟩ := halves.owned (e + k, x) mem_cons_self
    have less : e + k < max_class (e + k) := by
      rw [classes _ (by omega) (by omega)]
      omega
    have next := halves.put rfl onto ⟨pool, h, placed, holds, less⟩ trivial
    obtain ⟨same, accounts, done⟩ :=
      ih (HEADFREE s (e + k) ⟨x, .DELAYED⟩) (x + 2 ^ (e + k)) (by omega) next
    exact ⟨(same_setBufs _ _).trans same, ((light_setBufs less).accounts gone).trans accounts, done⟩

theorem search_lists_ok (low : 4 ≤ e) (sound : (s.layout held).Sound) (sub : gone ⊆ held) :
    ∀ n g, e ≤ g → g + n = max_class e + 1 → ∃ t found, search_lists s e n g = some (t, found) ∧
      Same s t ∧ Accounts s t gone ∧ (found = none → t = s) ∧
      ∀ x, found = some x → (t.layout ((e, x) :: held)).Sound := by
  intro n
  induction n with
  | zero =>
    intro g le last
    exact ⟨s, none, rfl, Same.refl s, Accounts.refl s gone, fun _ => rfl,
      fun x impossible => nomatch impossible⟩
  | succ n ih =>
    intro g le last
    unfold search_lists
    cases head : s.bufs g with
    | nil => exact ih (g + 1) (by omega) (by omega)
    | cons fb bufs =>
      obtain ⟨t, taken, same, accounts, owned⟩ := take_state_ok sound sub head
      obtain ⟨k, rfl⟩ := Nat.exists_eq_add_of_le le
      obtain ⟨same', accounts', done⟩ := split_ok gone low k t fb.addr (by omega) owned
      refine ⟨(split t k (e + k) fb.addr).1, some (split t k (e + k) fb.addr).2, ?_,
        same.trans same', accounts.trans accounts', ?_, ?_⟩
      · dsimp only
        rw [taken, map_some, Nat.add_sub_cancel_left]
      · intro impossible
        exact nomatch impossible
      · intro x found
        obtain rfl := some.inj found
        exact done

/-! A new pool -/

structure Added (s t : Kma) (h : Shape) : Prop where
  regular : h.Regular
  absent : s.shapes h.alignp = none
  shapes : t.shapes = update s.shapes h.alignp (some h)
  older : ∀ i q, q ∈ s.Km_HashLists i → q ∈ t.Km_HashLists i
  hashed : ∀ a, h.alignp ≤ a → a < h.endp → h.alignp ∈ t.Km_HashLists (HASH a)
  nodup : ∀ i, (t.Km_HashLists i).Nodup
  fewer : ∀ i q, q ∈ t.Km_HashLists i → q ∈ s.Km_HashLists i ∨
    q = h.alignp ∧ (i = HASH h.alignp ∨ i = HASH (h.endp - 1))
  big : t.Km_BgAllocOn = s.Km_BgAllocOn
  spt : t.spt = s.spt
  calls : t.calls = s.calls
  stack : t.stack = s.stack

theorem HASH_ends {base bytes : Nat} (few : bytes ≤ 2 ^ SHIFT) (above : base ≤ a)
    (below : a < base + bytes) : HASH a = HASH base ∨ HASH a = HASH (base + bytes - 1) := by
  have chunk : a / 2 ^ SHIFT = base / 2 ^ SHIFT ∨
      a / 2 ^ SHIFT = (base + bytes - 1) / 2 ^ SHIFT := by
    unfold SHIFT at few ⊢
    omega
  unfold HASH
  rw [shiftRight_eq_div_pow, shiftRight_eq_div_pow, shiftRight_eq_div_pow]
  rcases chunk with first | last
  · exact .inl (by rw [first])
  · exact .inr (by rw [last])

theorem mem_ADDHASH {i j p q : Nat} : p ∈ (ADDHASH s i q).Km_HashLists j ↔
    j = i ∧ p = q ∨ p ∈ s.Km_HashLists j := by
  unfold ADDHASH
  by_cases same : j = i
  · subst same
    simp
  · simp [same]

theorem nodup_ADDHASH {i q : Nat} (nodup : ∀ j, (s.Km_HashLists j).Nodup)
    (new : q ∉ s.Km_HashLists i) (j : Nat) : ((ADDHASH s i q).Km_HashLists j).Nodup := by
  change (update s.Km_HashLists i (q :: s.Km_HashLists i) j).Nodup
  by_cases same : j = i
  · subst same
    rw [update_self]
    exact nodup_cons.mpr ⟨new, nodup j⟩
  · rw [update_of_ne same]
    exact nodup j

theorem hash_pool_same (s : Kma) (pool bytes : Nat) (nodup : ∀ i, (s.Km_HashLists i).Nodup)
    (new : ∀ i, pool ∉ s.Km_HashLists i) :
    ∃ lists, hash_pool s pool bytes = { s with Km_HashLists := lists } ∧
      (∀ i q, q ∈ s.Km_HashLists i → q ∈ lists i) ∧
      pool ∈ lists (HASH pool) ∧ pool ∈ lists (HASH (pool + bytes - 1)) ∧
      (∀ i, (lists i).Nodup) ∧ ∀ i q, q ∈ lists i → q ∈ s.Km_HashLists i ∨
        q = pool ∧ (i = HASH pool ∨ i = HASH (pool + bytes - 1)) := by
  unfold hash_pool
  split
  · rename_i different
    refine ⟨(ADDHASH (ADDHASH s (HASH pool) pool) (HASH (pool + bytes - 1)) pool).Km_HashLists, rfl,
      ?_, ?_, ?_, ?_, ?_⟩
    · exact fun i q listed => mem_ADDHASH.mpr (.inr (mem_ADDHASH.mpr (.inr listed)))
    · exact mem_ADDHASH.mpr (.inr (mem_ADDHASH.mpr (.inl ⟨rfl, rfl⟩)))
    · exact mem_ADDHASH.mpr (.inl ⟨rfl, rfl⟩)
    · apply nodup_ADDHASH (nodup_ADDHASH nodup (new _))
      intro listed
      rcases mem_ADDHASH.mp listed with ⟨same, -⟩ | listed
      · exact different same.symm
      · exact new _ listed
    · intro i q listed
      rcases mem_ADDHASH.mp listed with ⟨same, mine⟩ | listed
      · exact .inr ⟨mine, .inr same⟩
      · rcases mem_ADDHASH.mp listed with ⟨same, mine⟩ | listed
        · exact .inr ⟨mine, .inl same⟩
        · exact .inl listed
  · rename_i same
    rw [ne_eq, not_not] at same
    refine ⟨(ADDHASH s (HASH pool) pool).Km_HashLists, rfl, ?_, ?_, ?_, ?_, ?_⟩
    · exact fun i q listed => mem_ADDHASH.mpr (.inr listed)
    · exact mem_ADDHASH.mpr (.inl ⟨rfl, rfl⟩)
    · exact mem_ADDHASH.mpr (.inl ⟨same.symm, rfl⟩)
    · exact nodup_ADDHASH nodup (new _)
    · intro i q listed
      rcases mem_ADDHASH.mp listed with ⟨here, mine⟩ | listed
      · exact .inr ⟨mine, .inl here⟩
      · exact .inl listed

def carved (e endp : Nat) : Nat → Nat → List (Nat × Nat)
  | 0, _ => []
  | n + 1, memp => if memp < endp then (e, memp) :: carved e endp n (memp + 2 ^ e) else []

theorem carved_holds (regular : h.Regular) (end_eq : h.endp = endp) (low : h.least ≤ e)
    (high : e ≤ h.largest) : ∀ n memp, h.start ≤ memp → 2 ^ e ∣ memp →
      ∀ b ∈ carved e endp n memp, h.Holds b.1 b.2 := by
  intro n
  induction n with
  | zero => exact fun _ _ _ b mem => nomatch mem
  | succ n ih =>
    intro memp after aligned b mem
    unfold carved at mem
    split at mem
    · rename_i before
      rcases mem_cons.mp mem with rfl | mem
      · have last := (regular.bounds_aligned high).2.2
        have within := within_of_shared aligned aligned last (covers_self e memp) (le_refl memp)
          (end_eq ▸ before)
        exact ⟨low, high, aligned, after, within.2⟩
      · exact ih (memp + 2 ^ e) (by omega) (Nat.dvd_add aligned (Nat.dvd_refl _)) b mem
    · exact nomatch mem

theorem carved_once (e endp a : Nat) : ∀ n memp,
    cover (carved e endp n memp) a ≤ if memp ≤ a then 1 else 0 := by
  intro n
  induction n with
  | zero =>
    intro memp
    exact zero_le _
  | succ n ih =>
    intro memp
    unfold carved
    split
    · have rest := ih (memp + 2 ^ e)
      have positive := Nat.two_pow_pos e
      rw [cover_cons, cover_one]
      by_cases here : Covers e memp a
      · obtain ⟨low, high⟩ := id here
        rw [if_neg (by omega)] at rest
        rw [if_pos here, if_pos low]
        omega
      · rw [if_neg here]
        by_cases later : memp + 2 ^ e ≤ a
        · rw [if_pos later] at rest
          rw [if_pos (by omega)]
          omega
        · rw [if_neg later] at rest
          omega
    · exact zero_le _

theorem carve_ok (largest : e = max_class e) : ∀ n memp s,
    s.shapes pool = some h → (s.layout (carved e endp n memp ++ held)).Sound →
    (∀ b ∈ carved e endp n memp, h.Holds b.1 b.2) →
      Same s (carve s e pool endp n memp) ∧ ((carve s e pool endp n memp).layout held).Sound := by
  intro n
  induction n with
  | zero => exact fun memp s _ sound _ => ⟨Same.refl s, sound⟩
  | succ n ih =>
    intro memp s placed sound holds
    unfold carve
    unfold carved at sound holds
    split
    · rename_i before
      rw [if_pos before] at sound holds
      have onto : Moved e ⟨memp, .poolp pool⟩ s.bufs (HEADFREE s e ⟨memp, .poolp pool⟩).bufs :=
        moved_HEADFREE
      have ok : FreeOk s.shapes e ⟨memp, .poolp pool⟩ :=
        ⟨pool, h, placed, holds _ mem_cons_self, largest, rfl⟩
      have next := sound.put rfl onto ok trivial
      obtain ⟨same, done⟩ := ih (memp + 2 ^ e) (HEADFREE s e ⟨memp, .poolp pool⟩) placed next
        fun b mem => holds b (mem_cons_of_mem _ mem)
      exact ⟨(same_setBufs _ _).trans same, done⟩
    · rename_i after
      rw [if_neg after] at sound
      exact ⟨Same.refl s, sound⟩

theorem carve_frame (pool e endp : Nat) : ∀ n memp s,
    ∃ lists, carve s e pool endp n memp = { s with Km_FreeLists := lists } := by
  intro n
  induction n with
  | zero => exact fun _ s => ⟨s.Km_FreeLists, rfl⟩
  | succ n ih =>
    intro memp s
    unfold carve
    split
    · exact ih (memp + 2 ^ e) (HEADFREE s e ⟨memp, .poolp pool⟩)
    · exact ⟨s.Km_FreeLists, rfl⟩

theorem mem_carve (pool e endp f x : Nat) : ∀ n memp s,
    x ∈ ((carve s e pool endp n memp).bufs f).map FreeBuf.addr ↔
      f = e ∧ (e, x) ∈ carved e endp n memp ∨ x ∈ (s.bufs f).map FreeBuf.addr := by
  intro n
  induction n with
  | zero =>
    intro memp s
    simp [carve, carved]
  | succ n ih =>
    intro memp s
    unfold carve carved
    split
    · rw [ih, HEADFREE, bufs_setBufs]
      by_cases same : f = e
      · subst same
        rw [update_self, mem_addr_cons]
        simp only [mem_cons, Prod.mk.injEq, true_and]
        tauto
      · rw [update_of_ne same]
        simp [same]
    · simp

theorem mem_carved : ∀ n memp i, i < n → memp + i * 2 ^ e < endp →
    (e, memp + i * 2 ^ e) ∈ carved e endp n memp := by
  intro n
  induction n with
  | zero => exact fun memp i impossible => absurd impossible (not_lt_zero i)
  | succ n ih =>
    intro memp i small before
    unfold carved
    rw [if_pos (by omega)]
    cases i with
    | zero =>
      rw [zero_mul]
      exact mem_cons_self
    | succ i =>
      have next : memp + (i + 1) * 2 ^ e = memp + 2 ^ e + i * 2 ^ e := by
        rw [succ_mul]
        omega
      rw [next] at before ⊢
      exact mem_cons_of_mem _ (ih (memp + 2 ^ e) i (by omega) before)

theorem new_pool_accounts {u : Kma} {n : Nat} (ranges : Ranges s.shapes)
    (pools : ∀ q, u.pools q = if q = P.bp_alignp then some P else s.pools q)
    (bufs : u.bufs = s.bufs) (idle : u.Km_Idlep = s.Km_Idlep)
    (small : u.Km_NewSmall = s.Km_NewSmall) (big : u.Km_NewBig = s.Km_NewBig)
    (regular : P.shape.Regular)
    (away : ∀ q g, s.shapes q = some g → P.hp_endp ≤ g.alignp ∨ g.endp ≤ P.bp_alignp)
    (zero : P.bp_inuse = 0) (many : (P.hp_endp - P.shape.start) / 2 ^ P.shape.largest ≤ n) :
    Accounts s (carve u P.shape.largest P.bp_alignp P.hp_endp n P.shape.start) gone := by
  obtain ⟨fl, frame⟩ := carve_frame P.bp_alignp P.shape.largest P.hp_endp n P.shape.start u
  have carves := fun f x => mem_carve P.bp_alignp P.shape.largest P.hp_endp f x n P.shape.start u
  rw [frame] at carves ⊢
  have start := regular.start_le
  have ends : P.shape.endp = P.hp_endp := rfl
  have aligns : P.shape.alignp = P.bp_alignp := rfl
  have new : ∀ q Q, s.pools q = some Q → q ≠ P.bp_alignp := by
    rintro q Q here rfl
    obtain ⟨old, place⟩ := ranges.regular _ Q.shape (shapes_eq_some.mpr ⟨Q, here, rfl⟩)
    have apart := away _ Q.shape (shapes_eq_some.mpr ⟨Q, here, rfl⟩)
    have other := old.start_le
    omega
  refine ⟨?_, ?_⟩
  · intro queue books
    refine ⟨?_, idle.symm ▸ books.queued, ?_⟩
    · intro q Q found
      rw [pools] at found
      by_cases same : q = P.bp_alignp
      · rw [if_pos same] at found
        obtain rfl := some.inj found
        have none : Kma.used { u with Km_FreeLists := fl } gone P.shape = [] := by
          apply filter_eq_nil_iff.mpr
          intro x mem
          rw [decide_eq_true_iff]
          rintro ⟨off, -⟩
          have within := Shape.slot_within mem
          have pos := Nat.two_pow_pos P.shape.largest
          obtain ⟨i, few, rfl⟩ := mem_map.mp mem
          refine off ((carves _ _).mpr (.inl ⟨rfl, mem_carved n _ i ?_ (by omega)⟩))
          exact lt_of_lt_of_le (mem_range.mp few) many
        rw [zero, none]
        rfl
      · rw [if_neg same] at found
        rw [books.counts q Q found]
        have placed : s.shapes q = some Q.shape := shapes_eq_some.mpr ⟨Q, found, rfl⟩
        congr 1
        apply filter_congr
        intro x mem
        apply decide_eq_decide.mpr
        have outside : (P.shape.largest, x) ∉ carved P.shape.largest P.hp_endp n P.shape.start := by
          intro listed
          have low : P.shape.least ≤ P.shape.largest := by
            unfold Shape.least Shape.largest
            split <;> decide
          have holds := carved_holds regular rfl low (le_refl _) n P.shape.start (le_refl _)
            (regular.bounds_aligned (le_refl _)).2.1 _ listed
          have inside := holds.within regular (covers_self _ _)
          have within := Shape.slot_within mem
          have apart := away q Q.shape placed
          have other := (ranges.regular q _ placed).1.start_le
          have pos := Nat.two_pow_pos Q.shape.largest
          omega
        rw [carves, bufs]
        tauto
    · intro q mem
      rw [idle] at mem
      obtain ⟨Q, here, flag⟩ := books.idle q mem
      exact ⟨Q, (pools q).trans ((if_neg (new q Q here)).trans here), flag⟩
  · intro queue newest q mem
    rw [idle] at mem
    rw [small, big]
    exact newest q mem

theorem new_pool_ok (sound : (s.layout held).Sound) (pools : Pools s gone) {bytes n : Nat}
    (regular : P.shape.Regular) (ends : P.hp_endp = P.bp_alignp + bytes) (few : bytes ≤ 2 ^ SHIFT)
    (away : ∀ q g, s.shapes q = some g → P.hp_endp ≤ g.alignp ∨ g.endp ≤ P.bp_alignp)
    (bits : ∀ a, P.bp_alignp ≤ a → a < P.hp_endp → P.bit a = true) (zero : P.bp_inuse = 0)
    (many : (P.hp_endp - P.shape.start) / 2 ^ P.shape.largest ≤ n) :
    ∃ t, carve (hash_pool (s.setPool P.bp_alignp P) P.bp_alignp bytes) P.shape.largest P.bp_alignp
        P.hp_endp n P.shape.start = t ∧ Added s t P.shape ∧ Accounts s t gone ∧
      (t.layout held).Sound := by
  have low : P.shape.least ≤ P.shape.largest := by
    unfold Shape.least Shape.largest
    split <;> decide
  have absent : s.shapes P.bp_alignp = none := by
    cases here : s.shapes P.bp_alignp with
    | none => rfl
    | some g =>
      obtain ⟨old, place⟩ := sound.regular _ g here
      have apart := away _ g here
      have first := old.start_le
      have second := regular.start_le
      have ends : P.shape.endp = P.hp_endp := rfl
      have aligns : P.shape.alignp = P.bp_alignp := rfl
      omega
  have new : ∀ i, P.bp_alignp ∉ s.Km_HashLists i := by
    intro i listed
    obtain ⟨g, here, -⟩ := (pools.listed i).2 _ listed
    rw [absent] at here
    exact nomatch here
  obtain ⟨lists, hashing, older, first, last, nodup, fewer⟩ := hash_pool_same
    (s.setPool P.bp_alignp P) P.bp_alignp bytes (fun i => (pools.listed i).1) new
  rw [hashing]
  have shapes : (s.setPool P.bp_alignp P).shapes = update s.shapes P.bp_alignp (some P.shape) := by
    funext q
    unfold Kma.shapes
    rw [pools_setPool, update_apply]
    split <;> rfl
  have holds := carved_holds regular (show _ = P.hp_endp from rfl) low (le_refl _) n P.shape.start
    (le_refl _) (regular.bounds_aligned (le_refl _)).2.1
  have once : ∀ a, cover (carved P.shape.largest P.hp_endp n P.shape.start) a ≤ 1 := by
    intro a
    have := carved_once P.shape.largest P.hp_endp a n P.shape.start
    split at this <;> omega
  have added := sound.add_pool regular rfl away holds once
    (fun a above below => (bit_setPool _ a).trans ((if_pos rfl).trans (bits a above below)))
    (fun q a other => (bit_setPool q a).trans (if_neg other))
  have start : Kma.shapes { s.setPool P.bp_alignp P with Km_HashLists := lists } P.bp_alignp =
      some P.shape := by
    change (s.setPool P.bp_alignp P).shapes P.bp_alignp = _
    rw [shapes, update_self]
  have layout : ({ s.setPool P.bp_alignp P with Km_HashLists := lists } : Kma).layout
      (carved P.shape.largest P.hp_endp n P.shape.start ++ held) =
      ⟨update s.shapes P.bp_alignp (some P.shape), (s.setPool P.bp_alignp P).bit, s.bufs,
        carved P.shape.largest P.hp_endp n P.shape.start ++ (held ++ s.owned),
        merges_of s.stack⟩ := by
    rw [← shapes, ← append_assoc]
    rfl
  have accounts : Accounts s (carve { s.setPool P.bp_alignp P with Km_HashLists := lists }
      P.shape.largest P.bp_alignp P.hp_endp n P.shape.start) gone :=
    new_pool_accounts sound.toRanges (fun q => pools_setPool q) rfl rfl rfl rfl regular away zero many
  obtain ⟨same, done⟩ := carve_ok P.shape.max_class_largest.symm n P.shape.start
    { s.setPool P.bp_alignp P with Km_HashLists := lists } start (layout ▸ added) holds
  refine ⟨_, rfl, ?_, accounts, done⟩
  refine ⟨regular, absent, same.shapes.trans shapes, ?_, ?_, ?_, ?_, same.big, same.spt, same.calls, same.stack⟩
  · intro i q listed
    rw [same.hash]
    exact older i q listed
  · intro a above below
    rw [same.hash]
    have inside : a < P.bp_alignp + bytes := ends ▸ below
    rcases HASH_ends few above inside with hash | hash
    · rw [hash]
      exact first
    · rw [hash]
      exact last
  · intro i
    rw [same.hash]
    exact nodup i
  · intro i q listed
    rw [same.hash] at listed
    rw [show P.shape.endp = P.bp_alignp + bytes from ends]
    exact fewer i q listed

end KernelMemory
