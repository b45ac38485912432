import Svr4.Kma.Coalesce
import Svr4.Runs

/- Every step of the allocator keeps the invariant, and what that means for the buffers it
   hands out, the bitmaps and the buddies it joins. -/
namespace KernelMemory
open Function DyadicBlocks Layout LabelledRuns List Nat

variable {s t : Kma} {gone spt : List (Nat × Nat)} {c x e base bytes : Nat} {act : Act}
  {rest acts : List Act} {small : Option SmallPool} {calm : List Nat → Prop} {big : Option BigPool}
  {h : Shape}

/-! Activations of kmem_alloc -/

def PhaseOk (size : Nat) : Phase → Prop
  | .search start => class_of size ≤ start ∧ start ≤ max_class (class_of size)
  | .asleep next => PhaseOk size next
  | _ => True

structure ActOk (act : Act) : Prop where
  positive : 0 < act.size
  small : act.size ≤ MAXABIG
  phase : PhaseOk act.size act.phase

/-- Only kmem_allocbpool calls kmem_alloc again, for its header. -/
def ActsOk : List Act → Prop
  | [] => True
  | act :: rest => ActOk act ∧ (rest ≠ [] → act.size = BIGHEADER) ∧ ActsOk rest

structure Whole (s : Kma) (gone : List (Nat × Nat)) : Prop extends Inv s gone where
  calls : ∀ c, ActsOk (s.calls c)

theorem search_phase (size : Nat) : PhaseOk size (.search (class_of size)) :=
  ⟨le_refl _, (class_of_range size).2⟩

theorem acts_of_phase {phase : Phase} (ok : ActsOk (act :: rest))
    (now : PhaseOk act.size phase) : ActsOk ({ act with phase := phase } :: rest) :=
  ⟨⟨ok.1.positive, ok.1.small, now⟩, ok.2⟩

theorem Inv.setCall (inv : Inv s gone) (c : Nat) (acts : List Act) : Inv (s.setCall c acts) gone :=
  ⟨inv.sound, { inv.pools with }, inv.less⟩

theorem light_setCall (c : Nat) (acts : List Act) : Light s (s.setCall c acts) :=
  { Light.refl _ with }

theorem Whole.setCall (whole : Whole s gone) (ok : ActsOk acts) : Whole (s.setCall c acts) gone := by
  refine ⟨whole.toInv.setCall c acts, ?_⟩
  intro d
  change ActsOk (update s.calls c acts d)
  rw [update_apply]
  split
  · exact ok
  · exact whole.calls d

theorem drop_region_ok (whole : Whole s gone) : Whole (drop_region s) gone := by
  unfold drop_region
  split
  · rename_i base started
    obtain ⟨-, -, -, away⟩ := whole.pools.pending base (by unfold Kma.region; rw [started])
    refine ⟨{ whole with
      pools := { whole.pools with kept := ?_, pending := fun b impossible => nomatch impossible } },
      whole.calls⟩
    intro pool h placed
    have other : (h.alignp, h.endp - h.alignp) ≠ (base, BIGBYTES) := by
      intro same
      have start := congrArg Prod.fst same
      have apart := away pool h placed
      have proper := (whole.sound.regular pool h placed).1.start_le
      unfold BIGBYTES at apart
      omega
    exact (mem_erase_of_ne other).mpr (whole.pools.kept pool h placed)
  · exact whole

theorem light_drop_region (s : Kma) : Light s (drop_region s) := by
  unfold drop_region
  split
  · exact { Light.refl _ with }
  · exact { Light.refl _ with }

theorem return_null_ok : ∀ acts s, Whole s gone → ActsOk acts →
    Whole (return_null s c acts) gone ∧ Light s (return_null s c acts) := by
  intro acts
  induction acts with
  | nil => exact fun s whole _ => ⟨whole.setCall trivial, light_setCall c []⟩
  | cons act rest ih =>
    intro s whole ok
    have dropped := light_drop_region s
    unfold return_null
    split
    · obtain ⟨whole', light⟩ := ih _ (drop_region_ok whole) ok.2.2
      exact ⟨whole', dropped.trans light⟩
    · exact ⟨(drop_region_ok whole).setCall (acts_of_phase ok (search_phase act.size)),
        dropped.trans (light_setCall c _)⟩

theorem fail_ok (whole : Whole s gone) (ok : ActsOk (act :: rest)) {next : Phase}
    (phase : PhaseOk act.size next) :
    Whole (fail s c act rest next) gone ∧ Light s (fail s c act rest next) := by
  unfold fail
  split
  · exact return_null_ok rest s whole ok.2.2
  · exact ⟨whole.setCall (acts_of_phase ok phase), light_setCall c _⟩

theorem return_buffer_ok (sound : (s.layout ((e, x) :: gone)).Sound) (whole : Whole s gone)
    (ok : ActsOk rest) (header : rest ≠ [] → e = class_of BIGHEADER) :
    Whole (return_buffer s c e x rest) gone ∧ Light s (return_buffer s c e x rest) := by
  have calls := (whole.setCall (c := c) ok).calls
  unfold return_buffer
  cases rest with
  | nil =>
    have mine := sound.rearranged (l := s.layout ((e, x) :: gone)) perm_middle.symm
    exact ⟨⟨⟨mine, { whole.pools with }, whole.less⟩, calls⟩,
      { Light.refl _ with }⟩
  | cons next below =>
    obtain rfl := header (cons_ne_nil _ _)
    have perm : ((class_of BIGHEADER, x) :: s.owned).Perm (s.live ++ (x :: s.headers).map
        fun x => (class_of BIGHEADER, x)) := perm_middle.symm
    have mine := sound.rearranged (l := s.layout ((class_of BIGHEADER, x) :: gone))
      (perm_middle.symm.trans (perm.append_left gone))
    dsimp only
    split
    · rename_i base started
      refine ⟨⟨⟨mine, whole.pools.of_eq rfl rfl rfl ?_, whole.less⟩, calls⟩,
        { Light.refl _ with }⟩
      intro b pending
      unfold Kma.region at pending ⊢
      rw [started]
      exact pending
    · exact ⟨⟨⟨mine, { whole.pools with }, whole.less⟩, calls⟩,
        { Light.refl _ with }⟩

theorem search_ok (whole : Whole s gone) (ok : ActsOk (act :: rest)) {start : Nat}
    (range : PhaseOk act.size (.search start)) :
    ∃ t, search s c act rest start = some t ∧ Whole t gone ∧ Accounts s t gone := by
  obtain ⟨low, high⟩ := range
  obtain ⟨t, found, searched, same, accounts, unchanged, taken⟩ :=
    search_lists_ok (class_of_range act.size).1 whole.sound (List.Subset.refl gone)
      (max_class (class_of act.size) + 1 - start) start low (by omega)
  unfold search
  dsimp only
  rw [searched, Option.map_some]
  refine ⟨_, rfl, ?_⟩
  cases found with
  | none =>
    obtain rfl := unchanged rfl
    have phase : PhaseOk act.size .newpool := trivial
    exact ⟨whole.setCall (acts_of_phase ok phase), (light_setCall c _).accounts gone⟩
  | some x =>
    have mine := taken x rfl
    have after : Whole t gone := by
      refine ⟨⟨mine.forget rfl, same.pools whole.pools, ?_⟩, ?_⟩
      · rw [same.stack]
        exact whole.less
      · rw [same.calls]
        exact whole.calls
    have header : rest ≠ [] → class_of act.size = class_of BIGHEADER := fun nested => by
      rw [ok.2.1 nested]
    obtain ⟨whole', light⟩ := return_buffer_ok mine after ok.2.2 header
    exact ⟨whole', accounts.trans (light.accounts gone)⟩

/-! New pools -/

theorem newpool_ok (whole : Whole s gone) (ok : ActsOk (act :: rest)) (enough : Bool) :
    Whole (newpool s c act rest enough) gone ∧ Light s (newpool s c act rest enough) := by
  have now : PhaseOk act.size .creating := trivial
  have creating := whole.setCall (c := c) (acts_of_phase ok now)
  have retry : PhaseOk act.size .newpool := trivial
  unfold newpool
  split
  · split
    · exact fail_ok whole ok retry
    · split
      · exact ⟨⟨{ creating with
          pools := { creating.pools with } }, creating.calls⟩,
          { Light.refl _ with }⟩
      · exact fail_ok whole ok (search_phase act.size)
  · split
    · exact fail_ok whole ok retry
    · split
      · refine ⟨⟨{ creating with pools := creating.pools.of_eq rfl rfl rfl ?_ },
          creating.calls⟩, { Light.refl _ with }⟩
        exact fun _ impossible => nomatch impossible
      · exact fail_ok whole ok (search_phase act.size)

variable {l : Label} {a size : Nat}

theorem align_up_eq (positive : 0 < size) (aligned : size ∣ a) : align_up a size = a := by
  obtain ⟨i, rfl⟩ := aligned
  unfold align_up
  have quotient : (size * i + size - 1) / size = i := by
    rw [Nat.add_sub_assoc positive, Nat.mul_add_div positive, Nat.div_eq_of_lt (by omega)]
    rfl
  rw [quotient, mul_comm]

theorem align_down_eq (aligned : size ∣ a) : align_down a size = a := Nat.div_mul_cancel aligned

theorem full_bit (P : BufPool) (words : Nat) (few : P.shape.word a < words)
    (bitmap : P.bp_bitmapp = fun w => if w < words then BitVec.allOnes 32 else 0) :
    P.bit a = true := by
  unfold BufPool.bit
  rw [bitmap]
  dsimp only
  rw [if_pos few, BitVec.getMsbD_allOnes]
  exact decide_eq_true (P.shape.index_lt a)

section
variable (sound : (s.layout gone).Sound) (pools : Pools s gone) (positive : 0 < base)
  (paged : PAGESIZE ∣ base)
include sound pools positive paged

theorem setup_spool_ok
    (away : ∀ q g, s.shapes q = some g → base + SMALLBYTES ≤ g.alignp ∨ g.endp ≤ base) :
    Added s (setup_spool s base) ⟨base, base + SMALLBYTES, MINSIDX, MAXSIDX⟩ ∧
      Accounts s (setup_spool s base) gone ∧ ((setup_spool s base).layout gone).Sound := by
  unfold setup_spool
  have aligned : MAXASMALL ∣ base := dvd_trans (by decide) paged
  rw [align_up_eq (by decide) aligned, align_down_eq (Nat.dvd_add aligned (by decide))]
  obtain ⟨t, carved, added, accounts, done⟩ := new_pool_ok (n := SMALLBYTES / MAXASMALL)
    (P := ⟨base, base, base + SMALLBYTES, 0, false,
      fun w => if w < 16 then BitVec.allOnes 32 else 0, MINSIDX, MAXSIDX⟩)
    sound pools ⟨positive, paged, .inl ⟨rfl, rfl, rfl⟩⟩ rfl (by decide) away
    (fun a above below => full_bit _ 16 (by
      change (a - base) >>> 8 < 16
      rw [shiftRight_eq_div_pow]
      change a < base + 4096 at below
      omega) rfl)
    rfl (by
      change (base + 4096 - (base + 512)) / 256 ≤ 16
      omega)
  exact ⟨carved ▸ added, carved ▸ accounts, carved ▸ done⟩

theorem setup_bpool_ok
    (away : ∀ q g, s.shapes q = some g → base + BIGBYTES ≤ g.alignp ∨ g.endp ≤ base) :
    Added s (setup_bpool s base) ⟨base, base + BIGBYTES, MINBIDX, MAXBIDX⟩ ∧
      Accounts s (setup_bpool s base) gone ∧ ((setup_bpool s base).layout gone).Sound := by
  unfold setup_bpool
  have aligned : MAXABIG ∣ base := paged
  rw [align_up_eq (by decide) aligned, align_down_eq (Nat.dvd_add aligned (by decide))]
  obtain ⟨t, carved, added, accounts, done⟩ := new_pool_ok (n := BIGBYTES / MAXABIG)
    (P := ⟨base, base, base + BIGBYTES, 0, false,
      fun w => if w < 1 then BitVec.allOnes 32 else 0, MINBIDX, MAXBIDX⟩)
    sound pools ⟨positive, paged, .inr ⟨rfl, rfl, rfl⟩⟩ rfl (by decide) away
    (fun a above below => full_bit _ 1 (by
      change (a - base) >>> 14 < 1
      rw [shiftRight_eq_div_pow]
      change a < base + 16384 at below
      omega) rfl)
    rfl (by
      change (base + 16384 - base) / 4096 ≤ 4
      omega)
  exact ⟨carved ▸ added, carved ▸ accounts, carved ▸ done⟩

end

theorem fresh_away (pools : Pools s gone)
    (new : fresh s base bytes = true) : 0 < base ∧ PAGESIZE ∣ base ∧
      (∀ q g, s.shapes q = some g → base + bytes ≤ g.alignp ∨ g.endp ≤ base) ∧
      ∀ b, s.region = some b → base + bytes ≤ b ∨ b + BIGBYTES ≤ base := by
  unfold fresh at new
  rw [Bool.and_eq_true, Bool.and_eq_true, decide_eq_true_eq, decide_eq_true_eq, all_eq_true] at new
  obtain ⟨⟨positive, paged⟩, apart⟩ := new
  refine ⟨positive, dvd_of_mod_eq_zero paged, ?_, ?_⟩
  · intro q g placed
    have range := apart _ (pools.kept q g placed)
    rw [Bool.or_eq_true, decide_eq_true_eq, decide_eq_true_eq] at range
    omega
  · intro b started
    have range := apart _ (pools.pending b started).2.2.1
    rwa [Bool.or_eq_true, decide_eq_true_eq, decide_eq_true_eq] at range

theorem Added.pools (added : Added s t h) (pools : Pools s gone) (size : h.endp = h.alignp + bytes)
    (listed : (h.alignp, bytes) ∈ spt) (more : ∀ r ∈ s.spt, r ∈ spt)
    (region : ∀ b, Kma.region { t with Km_BgAllocOn := big } = some b → s.region = some b ∧ (b +
      BIGBYTES ≤ h.alignp ∨ h.endp ≤ b)) :
    Pools { t with spt := spt, Km_SmAllocOn := small, Km_BgAllocOn := big } gone := by
  have cases_of : ∀ q g, t.shapes q = some g → q = h.alignp ∧ g = h ∨ s.shapes q = some g := by
    intro q g placed
    rw [added.shapes] at placed
    by_cases same : q = h.alignp
    · rw [same, update_self] at placed
      exact .inl ⟨same, (Option.some.inj placed).symm⟩
    · rw [update_of_ne same] at placed
      exact .inr placed
  have place : t.shapes h.alignp = some h := by
    rw [added.shapes, update_self]
  refine ⟨?_, ?_, ?_, ?_⟩
  · intro q g a placed after below left
    rcases cases_of q g placed with ⟨rfl, rfl⟩ | placed
    · exact added.hashed a (le_trans added.regular.start_le.1 after) below
    · exact added.older _ q (pools.hashed q g a placed after below left)
  · intro i
    refine ⟨added.nodup i, ?_⟩
    intro q listed
    rcases added.fewer i q listed with old | ⟨rfl, ends⟩
    · obtain ⟨g, placed, ends⟩ := (pools.listed i).2 q old
      have other : q ≠ h.alignp := by
        rintro rfl
        rw [added.absent] at placed
        exact nomatch placed
      refine ⟨g, ?_, ends⟩
      change t.shapes q = some g
      rw [added.shapes, update_of_ne other]
      exact placed
    · exact ⟨h, place, ends⟩
  · intro q g placed
    rcases cases_of q g placed with ⟨rfl, rfl⟩ | placed
    · rw [size, Nat.add_sub_cancel_left]
      exact listed
    · exact more _ (pools.kept q g placed)
  · intro b started
    obtain ⟨started', apart⟩ := region b started
    obtain ⟨positive, paged, mem, away⟩ := pools.pending b started'
    refine ⟨positive, paged, more _ mem, ?_⟩
    intro q g placed
    rcases cases_of q g placed with ⟨rfl, rfl⟩ | placed
    · exact apart
    · exact away q g placed

theorem Added.whole (added : Added s t h) (sound : (t.layout gone).Sound) (whole : Whole s gone)
    (size : h.endp = h.alignp + bytes) (listed : (h.alignp, bytes) ∈ spt)
    (more : ∀ r ∈ s.spt, r ∈ spt)
    (region : ∀ b, Kma.region { t with Km_BgAllocOn := big } = some b → s.region = some b ∧ (b +
      BIGBYTES ≤ h.alignp ∨ h.endp ≤ b)) :
    Whole { t with spt := spt, Km_SmAllocOn := small, Km_BgAllocOn := big } gone := by
  refine ⟨⟨sound, added.pools whole.pools size listed more region, ?_⟩, ?_⟩
  · rw [added.stack]
    exact whole.less
  · rw [added.calls]
    exact whole.calls

theorem light_tables (t : Kma) (spt : List (Nat × Nat)) (small : Option SmallPool)
    (big : Option BigPool) :
    Light t { t with spt := spt, Km_SmAllocOn := small, Km_BgAllocOn := big } :=
  { Light.refl _ with }

theorem sptalloc_ok (whole : Whole s gone) (ok : ActsOk (act :: rest)) (got : Option Nat)
    (taken : sptalloc s c act rest got = some t) : Whole t gone ∧ Accounts s t gone := by
  unfold sptalloc at taken
  split at taken
  · split at taken
    · split at taken
      · obtain rfl := Option.some.inj taken
        have beyond : Whole { s with Km_SmAllocOn := none } gone :=
          ⟨⟨whole.sound, { whole.pools with }, whole.less⟩,
            whole.calls⟩
        obtain ⟨whole', light⟩ := fail_ok (c := c) beyond ok (search_phase act.size)
        exact ⟨whole', ((light_tables s s.spt none s.Km_BgAllocOn).trans light).accounts gone⟩
      split at taken
      · rename_i base new
        obtain rfl := Option.some.inj taken
        obtain ⟨positive, paged, away, apart⟩ := fresh_away whole.pools new
        obtain ⟨added, accounts, sound⟩ :=
          setup_spool_ok whole.sound whole.pools positive paged away
        refine ⟨added.whole sound whole rfl mem_cons_self ?_ ?_,
          accounts.trans ((light_tables _ _ _ _).accounts gone)⟩
        · exact fun r mem => mem_cons_of_mem _ mem
        · intro b started
          have started' : s.region = some b := by
            unfold Kma.region at started ⊢
            rw [← added.big]
            exact started
          exact ⟨started', (apart b started').symm⟩
      · exact nomatch taken
    · exact nomatch taken
  · split at taken
    · split at taken
      · obtain rfl := Option.some.inj taken
        have beyond : Whole { s with Km_BgAllocOn := none } gone :=
          ⟨{ whole with
            pools := whole.pools.of_eq rfl rfl rfl (fun _ impossible => nomatch impossible) },
            whole.calls⟩
        obtain ⟨whole', light⟩ := fail_ok (c := c) beyond ok (search_phase act.size)
        exact ⟨whole', ((light_tables s s.spt s.Km_SmAllocOn none).trans light).accounts gone⟩
      split at taken
      · rename_i base new
        obtain rfl := Option.some.inj taken
        obtain ⟨positive, paged, away, -⟩ := fresh_away whole.pools new
        have nested : ActsOk (⟨BIGHEADER, act.nosleep, .search (class_of BIGHEADER)⟩ :: act ::
            rest) := ⟨⟨(by decide : 0 < BIGHEADER), (by decide : BIGHEADER ≤ MAXABIG),
          search_phase BIGHEADER⟩, fun _ => rfl, ok⟩
        have called := whole.setCall (c := c) nested
        refine ⟨⟨⟨called.sound, ⟨whole.pools.hashed, whole.pools.listed, ?_, ?_⟩, whole.less⟩,
          called.calls⟩,
          ((light_setCall c _).trans (light_tables _ _ s.Km_SmAllocOn _)).accounts gone⟩
        · exact fun q g placed => mem_cons_of_mem _ (whole.pools.kept q g placed)
        · intro b started
          obtain rfl := Option.some.inj started
          exact ⟨positive, paged, mem_cons_self, away⟩
      · exact nomatch taken
    · exact nomatch taken

theorem setup_ok (whole : Whole s gone) (taken : setup s = some t) :
    Whole t gone ∧ Accounts s t gone := by
  unfold setup at taken
  split at taken
  · rename_i base header started
    have region : s.region = some base := by
      unfold Kma.region
      rw [started]
    obtain ⟨positive, paged, listed, away⟩ := whole.pools.pending base region
    obtain ⟨added, accounts, sound⟩ := setup_bpool_ok whole.sound whole.pools positive paged away
    obtain rfl := Option.some.inj taken
    refine ⟨added.whole sound whole rfl (added.spt.symm ▸ listed) ?_ ?_,
      accounts.trans ((light_tables _ _ _ _).accounts gone)⟩
    · intro r mem
      rw [added.spt]
      exact mem
    · exact fun b impossible => nomatch impossible
  · exact nomatch taken

def published (s : Kma) (act : Act) : Option Nat :=
  if act.size ≤ MAXASMALL then
    match s.Km_SmAllocOn with
    | some (.publish pool) => some pool
    | _ => none
  else
    match s.Km_BgAllocOn with
    | some (.publish pool) => some pool
    | _ => none

theorem publish_ok (whole : Whole s gone) (ok : ActsOk (act :: rest))
    (taken : publish s c act rest = some t) : Whole t gone ∧
      (∀ queue, Books s gone queue → Books t gone queue) ∧
      ∀ queue, (∀ pool ∈ published s act, pool ∉ s.Km_Idlep ++ queue) → Newest s queue →
        Newest t queue := by
  have again : PhaseOk act.size (.search (max_class (class_of act.size))) :=
    ⟨(class_of_range act.size).2, le_refl _⟩
  have ready := whole.setCall (c := c) (acts_of_phase ok again)
  unfold publish at taken
  unfold published
  split at taken
  · rename_i small
    simp only [if_pos small]
    split at taken
    · rename_i pool creating
      obtain rfl := Option.some.inj taken
      refine ⟨⟨⟨ready.sound, { ready.pools with }, ready.less⟩,
        ready.calls⟩, fun queue books => { books with }, ?_⟩
      intro queue off newest q mem
      refine ⟨?_, (newest q mem).2⟩
      rintro same
      obtain rfl := Option.some.inj same
      exact off pool (by simp [creating]) mem
    · cases taken
  · rename_i large
    simp only [if_neg large]
    split at taken
    · rename_i pool creating
      obtain rfl := Option.some.inj taken
      refine ⟨⟨{ ready with pools := ready.pools.of_eq rfl rfl rfl (by rintro _ ⟨⟩) }, ready.calls⟩,
        fun queue books => { books with }, ?_⟩
      intro queue off newest q mem
      refine ⟨(newest q mem).1, ?_⟩
      rintro same
      obtain rfl := Option.some.inj same
      exact off pool (by simp [creating]) mem
    · cases taken

/-! The machine -/

/-- A pool that is published is not in the queue already. -/
def Unqueued (queue : List Nat) (s : Kma) : Label → Prop
  | .publish c => ∀ act rest, s.calls c = act :: rest → ∀ pool ∈ published s act,
      pool ∉ s.Km_Idlep ++ queue
  | _ => True

/-- What a step keeps: the invariant and the books, and the newest pools when it publishes none that
is queued. -/
structure Keeps (s t : Kma) (gone : List (Nat × Nat)) (calm : List Nat → Prop) : Prop where
  whole : Whole t gone
  books : ∀ queue, Books s gone queue → Books t gone queue
  newest : ∀ queue, calm queue → Newest s queue → Newest t queue

theorem Accounts.keeps (accounts : Accounts s t gone) (whole : Whole t gone) :
    Keeps s t gone calm :=
  ⟨whole, accounts.books, fun queue _ => accounts.newest queue⟩

def Calm (s : Kma) (c : Nat) (l : Label) (queue : List Nat) : Prop :=
  ∀ act rest, (∃ d, l = .publish d) → s.calls c = act :: rest →
    ∀ pool ∈ published s act, pool ∉ s.Km_Idlep ++ queue

theorem on_call_ok (whole : Whole s gone) (taken : on_call s c l = some t) :
    Keeps s t gone (Calm s c l) := by
  unfold on_call at taken
  split at taken
  · split at taken
    · exact nomatch taken
    rename_i act rest acts
    have ok : ActsOk (act :: rest) := acts ▸ whole.calls c
    have phase := ok.1.phase
    unfold call_step at taken
    split at taken
    · rename_i start _ now
      obtain ⟨u, searched, whole', accounts⟩ := search_ok (c := c) whole ok (now ▸ phase)
      obtain rfl := Option.some.inj (searched.symm.trans taken)
      exact accounts.keeps whole'
    · obtain rfl := Option.some.inj taken
      obtain ⟨whole', light⟩ := newpool_ok (c := c) whole ok _
      exact (light.accounts gone).keeps whole'
    · rename_i next _ now
      obtain rfl := Option.some.inj taken
      rw [now] at phase
      exact ((light_setCall c _).accounts gone).keeps (whole.setCall (acts_of_phase ok phase))
    · obtain ⟨whole', accounts⟩ := sptalloc_ok whole ok _ taken
      exact accounts.keeps whole'
    · obtain ⟨whole', accounts⟩ := setup_ok whole taken
      exact accounts.keeps whole'
    · obtain ⟨whole', books, newest⟩ := publish_ok whole ok taken
      exact ⟨whole', books, fun queue calm => newest queue (calm act rest ⟨_, rfl⟩ acts)⟩
    · exact nomatch taken
  · exact nomatch taken

theorem Keeps.of_quiet (kept : Keeps s t gone (Calm s c l)) (quiet : ∀ d, l ≠ .publish d) :
    Keeps s t gone calm :=
  ⟨kept.whole, kept.books, fun queue _ => kept.newest queue fun _ _ published =>
    absurd published.choose_spec (quiet _)⟩

theorem kmem_alloc_ok (whole : Whole s gone) (positive : 0 < size) (small : size ≤ MAXABIG)
    (nosleep : Bool) : Whole (s.setCall c [⟨size, nosleep, .search (class_of size)⟩]) gone :=
  whole.setCall ⟨⟨positive, small, search_phase size⟩, fun impossible => absurd rfl impossible,
    trivial⟩

theorem Inv.whole (inv : Inv t gone) (whole : Whole s gone) (calls : t.calls = s.calls) :
    Whole t gone :=
  ⟨inv, calls ▸ whole.calls⟩

theorem kmem_free_valid {addr : Nat} (taken : kmem_free s addr size = some t) :
    0 < size ∧ size ≤ MAXABIG ∧ (class_of size, addr) ∈ s.live := by
  by_contra invalid
  unfold kmem_free at taken
  rw [if_neg invalid] at taken
  exact nomatch taken

theorem coalesce_active (taken : coalesce s = some t) : s.stack ≠ [] := by
  intro idle
  unfold coalesce at taken
  rw [idle] at taken
  exact nomatch taken

theorem step_ok (whole : Whole s gone) (taken : step s l = some t) :
    Keeps s t gone fun queue => Unqueued queue s l := by
  cases l with
  | kmem_alloc c size nosleep =>
    dsimp only [step] at taken
    split at taken
    · rename_i valid
      obtain rfl := Option.some.inj taken
      exact ((light_setCall c _).accounts gone).keeps
        (kmem_alloc_ok whole valid.2.2.1 valid.2.2.2 nosleep)
    · exact nomatch taken
  | kmem_free addr size =>
    dsimp only [step] at taken
    split at taken
    · rename_i idle
      obtain ⟨positive, small, live⟩ := kmem_free_valid taken
      obtain ⟨u, freed, inv, steady, accounts⟩ := kmem_free_ok whole.toInv idle positive small live
      obtain rfl := Option.some.inj (freed.symm.trans taken)
      exact accounts.keeps (inv.whole whole steady.calls)
    · exact nomatch taken
  | coalesce =>
    obtain ⟨u, done, inv, steady, accounts⟩ := coalesce_ok whole.toInv (coalesce_active taken)
    obtain rfl := Option.some.inj (done.symm.trans taken)
    exact accounts.keeps (inv.whole whole steady.calls)
  | publish c =>
    have kept := on_call_ok whole taken
    exact ⟨kept.whole, kept.books, fun queue off => kept.newest queue fun act rest _ => off act rest⟩
  | search c | newpool c enough | sptalloc c got | setup c | wake c =>
    exact (on_call_ok whole taken).of_quiet nofun

theorem whole_empty : Whole empty [] where
  sound := by
    have nothing : ∀ a, free_cover (empty.layout []).bufs a = 0 := fun _ => Finset.sum_const_zero
    refine ⟨⟨?_, ?_⟩, ?_, ?_, ?_, ?_, ?_, ?_⟩
    · exact fun _ _ impossible => nomatch impossible
    · exact fun _ _ _ _ _ impossible => nomatch impossible
    · exact fun _ impossible => nomatch impossible
    · exact fun _ _ impossible => nomatch impossible
    · exact fun _ impossible => nomatch impossible
    · intro a
      unfold coverage
      rw [nothing a]
      exact Nat.zero_le _
    · rintro e x ⟨_, _, _, impossible⟩
      exact nomatch impossible
    · exact fun _ _ _ impossible => nomatch impossible
  pools := by
    refine ⟨?_, ?_, ?_, ?_⟩
    · exact fun _ _ _ impossible => nomatch impossible
    · exact fun _ => ⟨nodup_nil, fun _ impossible => nomatch impossible⟩
    · exact fun _ _ impossible => nomatch impossible
    · exact fun _ impossible => nomatch impossible
  less := fun _ impossible => nomatch impossible
  calls := fun _ => trivial

theorem whole_of_run {labels : List Label} (run : exec step empty labels = some s) : Whole s [] :=
  exec_preserves (Whole · []) (fun _ _ _ whole taken => (step_ok whole taken).whole) whole_empty run

/-! What the invariant says -/

theorem mem_merges_of {stack : List Frame} {m : Merge} : m ∈ merges_of stack ↔ .merge m ∈ stack := by
  induction stack with
  | nil => simp [merges_of]
  | cons frame rest ih => cases frame <;> simp [merges_of, ih]

def Kma.Marked (s : Kma) (e x : Nat) : Prop := ∃ pool w mask, ⟨x, .mapp pool w mask⟩ ∈ s.bufs e

/-- Part of a buffer in kmem_coalesce, but of one of the buddies joined on the way. -/
def Kma.Absorbed (s : Kma) (a : Nat) : Prop :=
  ∃ m, .merge m ∈ s.stack ∧ Covers m.e m.bufp a ∧ ¬ Covers m.first.1 m.first.2 a

structure Safe (s : Kma) : Prop where
  disjoint : s.live.Pairwise fun b c => ∀ a, Covers b.1 b.2 a → ¬ Covers c.1 c.2 a
  placed : ∀ b ∈ s.live, ∃ pool P, s.pools pool = some P ∧ P.shape.Holds b.1 b.2
  not_free : ∀ b ∈ s.live, ∀ e fb a, fb ∈ s.bufs e → Covers b.1 b.2 a → ¬ Covers e fb.addr a
  not_header : ∀ b ∈ s.live, ∀ x ∈ s.headers, ∀ a, Covers b.1 b.2 a →
    ¬ Covers (class_of BIGHEADER) x a
  not_own : ∀ b ∈ s.live, ∀ pool P a, s.pools pool = some P → Covers b.1 b.2 a →
    ¬ (P.bp_alignp ≤ a ∧ a < P.shape.start)
  bits : ∀ pool P a, s.pools pool = some P → P.bp_alignp ≤ a → a < P.hp_endp →
    (P.bit a = false ↔ (∃ e x, s.Marked e x ∧ Covers e x a) ∨ s.Absorbed a)
  single : ∀ e x, s.Marked e x → ¬ s.Marked e (x ^^^ 2 ^ e)
  unlinks : ∀ m rest P, s.stack = .merge m :: rest → s.pools m.pool = some P →
    buddy_free P m = true → s.Marked m.e (m.bufp ^^^ 2 ^ m.e)
  coalesces : s.stack ≠ [] → ∃ t, coalesce s = some t
  searches : ∀ c act rest start, s.calls c = act :: rest → act.phase = .search start →
    ∃ t, search s c act rest start = some t
  frees : ∀ addr size, s.stack = [] → 0 < size → size ≤ MAXABIG → (class_of size, addr) ∈ s.live →
    ∃ t, kmem_free s addr size = some t

theorem Whole.safe (whole : Whole s []) : Safe s := by
  have sound := whole.sound
  have owned : ∀ b ∈ s.live, b ∈ s.owned := fun b mem => mem_append_left _ mem
  have once : ∀ a, cover s.live a + cover (s.headers.map fun x => (class_of BIGHEADER, x)) a ≤ 1 := by
    intro a
    have total := sound.once a
    unfold coverage at total
    have parts : cover (s.layout []).owned a = _ := cover_append s.live _ a
    omega
  refine ⟨?_, ?_, ?_, ?_, ?_, ?_, sound.single, ?_, ?_, ?_, ?_⟩
  · exact disjoint_of_cover fun a => by have := once a; omega
  · intro b mem
    obtain ⟨pool, h, placed, holds⟩ := sound.owned b (owned b mem)
    obtain ⟨P, here, rfl⟩ := shapes_eq_some.mp placed
    exact ⟨pool, P, here, holds⟩
  · intro b mem e fb a listed inside
    exact owned_not_free (sound.once a) (owned b mem) (sound.class_lt listed) listed inside
  · intro b mem x header a inside covered
    have first := cover_pos mem inside
    have second : 1 ≤ cover (s.headers.map fun x => (class_of BIGHEADER, x)) a :=
      cover_pos (mem_map.mpr ⟨x, header, rfl⟩) covered
    have := once a
    omega
  · intro b mem pool P a here inside ⟨above, below⟩
    obtain ⟨pool', h, placed, holds⟩ := sound.owned b (owned b mem)
    have regular := (sound.regular pool' h placed).1
    have own : s.shapes pool = some P.shape := shapes_eq_some.mpr ⟨P, here, rfl⟩
    have proper := (sound.regular pool _ own).1.start_le
    obtain ⟨above', below'⟩ := holds.within regular inside
    obtain rfl := sound.separate pool _ pool' h a own placed above
      (lt_trans below proper.2) above' below'
    obtain rfl : P.shape = h := Option.some.inj (own.symm.trans placed)
    have after := holds.after
    unfold Covers at inside
    omega
  · intro pool P a here above below
    have own : s.shapes pool = some P.shape := shapes_eq_some.mpr ⟨P, here, rfl⟩
    have bits := sound.bits pool _ a own above below
    rw [show (s.layout []).bit pool a = P.bit a from bit_of_pool here a] at bits
    rw [bits]
    unfold Clear Kma.Absorbed
    simp only [← mem_merges_of]
    rfl
  · intro m rest P top here free
    have listed : .merge m ∈ s.stack := top ▸ mem_cons_self
    have hm : m ∈ (s.layout []).merges := mem_merges_of.mpr listed
    obtain ⟨h, placed, holds, word, shift, -⟩ := (sound.merging m hm).placed
    obtain ⟨P', here', rfl⟩ := shapes_eq_some.mp placed
    obtain rfl := Option.some.inj (here.symm.trans here')
    have less := whole.less m listed
    exact sound.buddy_marked hm less ((buddy_free_iff sound here rfl holds word shift less).mp free)
  · intro active
    obtain ⟨t, done, -⟩ := coalesce_ok whole.toInv active
    exact ⟨t, done⟩
  · intro c act rest start acts phase
    have ok : ActsOk (act :: rest) := acts ▸ whole.calls c
    obtain ⟨t, done, -⟩ := search_ok (c := c) whole ok (phase ▸ ok.1.phase)
    exact ⟨t, done⟩
  · intro addr size idle positive small live
    obtain ⟨t, done, -⟩ := kmem_free_ok whole.toInv idle positive small live
    exact ⟨t, done⟩

/-- The kernel memory allocator is safe in every state of every run. -/
theorem allocator_safe {labels : List Label} (run : exec step empty labels = some s) : Safe s :=
  (whole_of_run run).safe

/-- The buffer of a request of 16 bytes is freed, and in accelerated mode kmem_coalesce joins its
buddy and stops for a larger one. -/
def joining : List Label :=
  [.kmem_alloc 0 16 false, .search 0, .newpool 0 true, .sptalloc 0 (some 4096), .publish 0,
    .search 0, .kmem_free 8176 16, .coalesce, .coalesce, .coalesce]

theorem joining_runs : ((exec step empty joining).map fun s => s.stack.map fun f =>
    match f with
    | .merge m => (m.e, m.bufp, m.first)
    | .again e => (e, 0, (0, 0))) = some [(5, 8128, (5, 8128)), (5, 8160, (4, 8160))] := by
  decide +kernel

theorem allocator_safe_joining : ∃ s, exec step empty joining = some s ∧ Safe s := by
  obtain ⟨s, run, -⟩ := Option.map_eq_some_iff.mp joining_runs
  exact ⟨s, run, allocator_safe run⟩

/-- While kmem_coalesce runs, a bit may be clear that belongs to no free buffer. -/
theorem coalescing_leaves_bits_clear : ∃ s pool P a, exec step empty joining = some s ∧
    s.pools pool = some P ∧ P.bp_alignp ≤ a ∧ a < P.hp_endp ∧ P.bit a = false ∧
    ¬ ∃ e fb, fb ∈ s.bufs e ∧ Covers e fb.addr a := by
  obtain ⟨s, run, frames⟩ := Option.map_eq_some_iff.mp joining_runs
  have whole := whole_of_run run
  have joined : ∃ m, .merge m ∈ s.stack ∧ (m.e, m.bufp, m.first) = (5, 8160, (4, 8160)) := by
    have listed : (5, 8160, (4, 8160)) ∈ s.stack.map fun f =>
        match f with
        | .merge m => (m.e, m.bufp, m.first)
        | .again e => (e, 0, (0, 0)) := by
      rw [frames]
      decide
    obtain ⟨f, mem, same⟩ := mem_map.mp listed
    cases f with
    | merge m => exact ⟨m, mem, same⟩
    | again e => exact absurd (congrArg (fun t => t.2.1) same) (by decide : (0 : Nat) ≠ 8160)
  obtain ⟨m, mem, same⟩ := joined
  obtain ⟨level, place⟩ := Prod.mk.inj same
  obtain ⟨place, first⟩ := Prod.mk.inj place
  have hm : m ∈ (s.layout []).merges := mem_merges_of.mpr mem
  have inside : Covers m.e m.bufp 8176 := by
    rw [level, place]
    decide
  have outside : ¬ Covers m.first.1 m.first.2 8176 := by
    rw [first]
    decide
  obtain ⟨h, placed, holds, -⟩ := (whole.sound.merging m hm).placed
  obtain ⟨P, here, rfl⟩ := shapes_eq_some.mp placed
  obtain ⟨above, below⟩ := holds.within (whole.sound.regular _ _ placed).1 inside
  refine ⟨s, m.pool, P, 8176, run, here, above, below, ?_, ?_⟩
  · exact (whole.safe.bits m.pool P 8176 here above below).mpr (.inr ⟨m, mem, inside, outside⟩)
  · rintro ⟨e, fb, listed, covered⟩
    exact merge_not_free (whole.sound.once _) hm (whole.sound.class_lt listed) listed inside covered

end KernelMemory
