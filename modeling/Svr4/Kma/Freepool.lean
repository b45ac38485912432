import Svr4.Kma.Safety

/- What a step of kmem_alloc or kmem_free leaves alone: pools, their hash entries and their
   headers stay where they are. -/
namespace KernelMemory
open Function DyadicBlocks Layout List

variable {s t u : Kma} {gone : List (Nat × Nat)} {c x e : Nat} {act : Act} {rest acts : List Act}
  {made : Option Nat} {l : Label}

def Apart (r r' : Nat × Nat) : Prop := r.1 + r.2 ≤ r'.1 ∨ r'.1 + r'.2 ≤ r.1

structure Grows (s t : Kma) (made : Option Nat) : Prop where
  shapes : ∀ q h, s.shapes q = some h → t.shapes q = some h
  new : ∀ q h, t.shapes q = some h → s.shapes q = some h ∨ h.expmin = MINSIDX ∨ made = some q
  chains : ∀ q h i, s.shapes q = some h → (q ∈ t.Km_HashLists i ↔ q ∈ s.Km_HashLists i)
  headers : ∀ x ∈ s.headers, x ∈ t.headers
  ready : ∀ base x, t.Km_BgAllocOn = some (.setup base x) →
    s.Km_BgAllocOn = some (.setup base x) ∨ x ∈ t.headers ∧ x ∉ s.headers
  apart : s.spt.Pairwise Apart → t.spt.Pairwise Apart

theorem Grows.trans (first : Grows s t none) (second : Grows t u none) : Grows s u none where
  shapes := fun q h placed => second.shapes q h (first.shapes q h placed)
  new := by
    intro q h placed
    rcases second.new q h placed with old | small | impossible
    · exact first.new q h old
    · exact .inr (.inl small)
    · exact nomatch impossible
  chains := fun q h i placed => (second.chains q h i (first.shapes q h placed)).trans
    (first.chains q h i placed)
  headers := fun x mem => second.headers x (first.headers x mem)
  ready := by
    intro base x started
    rcases second.ready base x started with before | ⟨mem, new⟩
    · rcases first.ready base x before with older | ⟨mem, new⟩
      · exact .inl older
      · exact .inr ⟨second.headers x mem, new⟩
    · exact .inr ⟨mem, fun old => new (first.headers x old)⟩
  apart := fun ranges => second.apart (first.apart ranges)

theorem Grows.of_eq (shapes : t.shapes = s.shapes) (hash : t.Km_HashLists = s.Km_HashLists)
    (headers : t.headers = s.headers) (big : ∀ base x, t.Km_BgAllocOn = some (.setup base x) →
      s.Km_BgAllocOn = some (.setup base x))
    (apart : s.spt.Pairwise Apart → t.spt.Pairwise Apart) : Grows s t none where
  shapes := fun q h placed => shapes ▸ placed
  new := fun q h placed => .inl (shapes ▸ placed)
  chains := fun q h i _ => by rw [hash]
  headers := fun x mem => headers ▸ mem
  ready := fun base x started => .inl (big base x started)
  apart := apart

theorem Steady.grows (steady : Steady s t) : Grows s t none :=
  Grows.of_eq steady.shapes steady.hash steady.headers (fun _ _ started => steady.big ▸ started)
    (steady.spt ▸ id)

theorem setCall_grows (s : Kma) (c : Nat) (acts : List Act) : Grows s (s.setCall c acts) none :=
  Grows.of_eq rfl rfl rfl (fun _ _ => id) id

theorem drop_region_grows (s : Kma) : Grows s (drop_region s) none := by
  unfold drop_region
  split
  · refine Grows.of_eq rfl rfl rfl ?_ ?_
    · exact fun _ _ impossible => nomatch impossible
    · exact fun ranges => ranges.sublist erase_sublist
  · exact Grows.of_eq rfl rfl rfl (fun _ _ => id) id

theorem return_null_grows (c : Nat) : ∀ acts s, Grows s (return_null s c acts) none := by
  intro acts
  induction acts with
  | nil => exact fun s => setCall_grows s c []
  | cons act rest ih =>
    intro s
    unfold return_null
    split
    · exact (drop_region_grows s).trans (ih _)
    · exact (drop_region_grows s).trans (setCall_grows _ _ _)

theorem fail_grows (s : Kma) (c : Nat) (act : Act) (rest : List Act) (next : Phase) :
    Grows s (fail s c act rest next) none := by
  unfold fail
  split
  · exact return_null_grows c rest s
  · exact setCall_grows s c _

theorem return_buffer_grows (sound : (s.layout ((e, x) :: gone)).Sound)
    (header : rest ≠ [] → e = class_of BIGHEADER) : Grows s (return_buffer s c e x rest) none := by
  unfold return_buffer
  cases rest with
  | nil => exact Grows.of_eq rfl rfl rfl (fun _ _ => id) id
  | cons next below =>
    obtain rfl := header (cons_ne_nil _ _)
    have new : x ∉ s.headers := by
      intro old
      have once := sound.once x
      have listed : (class_of BIGHEADER, x) ∈ gone ++ s.owned :=
        mem_append_right _ (mem_append_right _ (mem_map.mpr ⟨x, old, rfl⟩))
      have second := cover_pos listed (covers_self (class_of BIGHEADER) x)
      change cover ((class_of BIGHEADER, x) :: (gone ++ s.owned)) x + _ + _ ≤ 1 at once
      rw [cover_cons, cover_one, if_pos (covers_self _ x)] at once
      omega
    dsimp only
    split
    · refine ⟨fun q h => id, fun q h => Or.inl, fun q h i _ => Iff.rfl,
        fun y mem => mem_cons_of_mem _ mem, ?_, id⟩
      intro base y started
      obtain ⟨rfl, rfl⟩ := BigPool.setup.inj (Option.some.inj started)
      exact .inr ⟨mem_cons_self, new⟩
    · exact ⟨fun q h => id, fun q h => Or.inl, fun q h i _ => Iff.rfl,
        fun y mem => mem_cons_of_mem _ mem, fun _ _ => Or.inl, id⟩

theorem search_grows (whole : Whole s gone) (ok : ActsOk (act :: rest)) {start : Nat}
    (range : PhaseOk act.size (.search start)) (taken : search s c act rest start = some t) :
    Grows s t none := by
  obtain ⟨low, high⟩ := range
  obtain ⟨u, found, searched, same, -, -, mine⟩ :=
    search_lists_ok (class_of_range act.size).1 whole.sound (List.Subset.refl gone)
      (max_class (class_of act.size) + 1 - start) start low (by omega)
  unfold search at taken
  dsimp only at taken
  rw [searched, Option.map_some] at taken
  obtain rfl := Option.some.inj taken
  have quiet : Grows s u none := same.steady.grows
  cases found with
  | none => exact quiet.trans (setCall_grows u c _)
  | some x => exact quiet.trans (return_buffer_grows (mine x rfl) fun nested => by rw [ok.2.1 nested])

theorem newpool_grows (s : Kma) (c : Nat) (act : Act) (rest : List Act) (enough : Bool) :
    Grows s (newpool s c act rest enough) none := by
  unfold newpool
  split
  · split
    · exact fail_grows s c act rest _
    · split
      · exact Grows.of_eq rfl rfl rfl (fun _ _ => id) id
      · exact fail_grows s c act rest _
  · split
    · exact fail_grows s c act rest _
    · split
      · exact Grows.of_eq rfl rfl rfl (fun _ _ impossible => nomatch impossible) id
      · exact fail_grows s c act rest _

theorem fresh_apart {base bytes : Nat} (new : fresh s base bytes = true)
    (ranges : s.spt.Pairwise Apart) : ((base, bytes) :: s.spt).Pairwise Apart := by
  refine pairwise_cons.mpr ⟨?_, ranges⟩
  intro r mem
  unfold fresh at new
  rw [Bool.and_eq_true, all_eq_true] at new
  have apart := new.2 r mem
  rwa [Bool.or_eq_true, decide_eq_true_eq, decide_eq_true_eq] at apart

theorem Added.grows {h : Shape} (added : Added s t h)
    (small : h.expmin = MINSIDX ∨ made = some h.alignp) {spt : List (Nat × Nat)}
    {big : Option BigPool} {sm : Option SmallPool} (headers : t.headers = s.headers)
    (ready : ∀ base x, big = some (.setup base x) → s.Km_BgAllocOn = some (.setup base x))
    (apart : s.spt.Pairwise Apart → spt.Pairwise Apart) :
    Grows s { t with spt := spt, Km_SmAllocOn := sm, Km_BgAllocOn := big } made := by
  have other : ∀ q g, s.shapes q = some g → q ≠ h.alignp := by
    rintro q g placed rfl
    rw [added.absent] at placed
    exact nomatch placed
  refine ⟨?_, ?_, ?_, ?_, fun base x started => .inl (ready base x started), apart⟩
  · intro q g placed
    change t.shapes q = some g
    rw [added.shapes, update_of_ne (other q g placed)]
    exact placed
  · intro q g placed
    replace placed : t.shapes q = some g := placed
    rw [added.shapes] at placed
    by_cases same : q = h.alignp
    · subst same
      rw [update_self] at placed
      obtain rfl := Option.some.inj placed
      exact .inr small
    · rw [update_of_ne same] at placed
      exact .inl placed
  · intro q g i placed
    refine ⟨fun listed => ?_, added.older i q⟩
    rcases added.fewer i q listed with old | ⟨same, -⟩
    · exact old
    · exact absurd same (other q g placed)
  · intro x mem
    rw [headers]
    exact mem

theorem carve_headers (e pool endp : Nat) : ∀ n memp s,
    (carve s e pool endp n memp).headers = s.headers := by
  intro n memp s
  obtain ⟨lists, frame⟩ := carve_frame pool e endp n memp s
  rw [frame]

theorem hash_pool_headers (s : Kma) (pool bytes : Nat) :
    (hash_pool s pool bytes).headers = s.headers := by
  unfold hash_pool
  split <;> rfl

theorem sptalloc_grows (whole : Whole s gone) (got : Option Nat)
    (taken : sptalloc s c act rest got = some t) : Grows s t none := by
  unfold sptalloc at taken
  split at taken
  · split at taken
    · split at taken
      · obtain rfl := Option.some.inj taken
        have beyond : Grows s { s with Km_SmAllocOn := none } none :=
          Grows.of_eq rfl rfl rfl (fun _ _ => id) id
        exact beyond.trans (fail_grows _ c act rest _)
      split at taken
      · rename_i base new
        obtain rfl := Option.some.inj taken
        obtain ⟨positive, paged, away, -⟩ := fresh_away whole.pools new
        obtain ⟨added, -, -⟩ := setup_spool_ok whole.sound whole.pools positive paged away
        refine added.grows (.inl rfl) ?_ ?_ (fresh_apart new)
        · exact (carve_headers ..).trans (hash_pool_headers ..)
        · exact fun _ _ started => added.big ▸ started
      · exact nomatch taken
    · exact nomatch taken
  · split at taken
    · split at taken
      · obtain rfl := Option.some.inj taken
        have beyond : Grows s { s with Km_BgAllocOn := none } none :=
          Grows.of_eq rfl rfl rfl (fun _ _ impossible => nomatch impossible) id
        exact beyond.trans (fail_grows _ c act rest _)
      · split at taken
        · rename_i base new
          obtain rfl := Option.some.inj taken
          exact Grows.of_eq rfl rfl rfl (fun _ _ impossible => nomatch impossible) (fresh_apart new)
        · exact nomatch taken
    · exact nomatch taken

theorem publish_grows (taken : publish s c act rest = some t) : Grows s t none := by
  unfold publish at taken
  split at taken
  · split at taken
    · obtain rfl := Option.some.inj taken
      exact Grows.of_eq rfl rfl rfl (fun _ _ => id) id
    · exact nomatch taken
  · split at taken
    · obtain rfl := Option.some.inj taken
      exact Grows.of_eq rfl rfl rfl (fun _ _ impossible => nomatch impossible) id
    · exact nomatch taken

def Made (s t : Kma) (made : Option Nat) : Prop :=
  ∀ q, made = some q → ∃ x, s.Km_BgAllocOn = some (.setup q x) ∧
    t.Km_BgAllocOn = some (.publish q)

theorem setup_grows (whole : Whole s gone) (taken : setup s = some t) :
    ∃ made, Grows s t made ∧ Made s t made := by
  unfold setup at taken
  split at taken
  · rename_i base header started
    have region : s.region = some base := by
      unfold Kma.region
      rw [started]
    obtain ⟨positive, paged, -, away⟩ := whole.pools.pending base region
    obtain ⟨added, -, -⟩ := setup_bpool_ok whole.sound whole.pools positive paged away
    obtain rfl := Option.some.inj taken
    refine ⟨some base, added.grows (.inr rfl) ?_ ?_ ?_, ?_⟩
    · exact (carve_headers ..).trans (hash_pool_headers ..)
    · exact fun _ _ impossible => nomatch impossible
    · intro ranges
      rw [added.spt]
      exact ranges
    · intro q same
      obtain rfl := Option.some.inj same
      exact ⟨header, started, rfl⟩
  · exact nomatch taken

theorem Grows.unmade (grows : Grows s t none) : ∃ made, Grows s t made ∧ Made s t made :=
  ⟨none, grows, fun _ impossible => nomatch impossible⟩

theorem on_call_grows (whole : Whole s gone) (taken : on_call s c l = some t) :
    ∃ made, Grows s t made ∧ Made s t made := by
  unfold on_call at taken
  split at taken
  · split at taken
    · exact nomatch taken
    rename_i act rest acts
    have ok : ActsOk (act :: rest) := acts ▸ whole.calls c
    have phase := ok.1.phase
    unfold call_step at taken
    split at taken
    · rename_i start _ now
      exact (search_grows whole ok (now ▸ phase) taken).unmade
    · obtain rfl := Option.some.inj taken
      exact (newpool_grows s c act rest _).unmade
    · obtain rfl := Option.some.inj taken
      exact (setCall_grows s c _).unmade
    · exact (sptalloc_grows whole _ taken).unmade
    · exact setup_grows whole taken
    · exact (publish_grows taken).unmade
    · exact nomatch taken
  · exact nomatch taken

theorem step_grows (whole : Whole s gone) (taken : step s l = some t) :
    ∃ made, Grows s t made ∧ Made s t made := by
  cases l with
  | kmem_alloc c size nosleep =>
    dsimp only [step] at taken
    split at taken
    · obtain rfl := Option.some.inj taken
      exact (setCall_grows s c _).unmade
    · exact nomatch taken
  | kmem_free addr size =>
    dsimp only [step] at taken
    split at taken
    · rename_i idle
      obtain ⟨positive, small, live⟩ := kmem_free_valid taken
      obtain ⟨u, freed, -, steady, -⟩ := kmem_free_ok whole.toInv idle positive small live
      obtain rfl := Option.some.inj (freed.symm.trans taken)
      exact steady.grows.unmade
    · exact nomatch taken
  | coalesce =>
    obtain ⟨u, done, -, steady, -⟩ := coalesce_ok whole.toInv (coalesce_active taken)
    obtain rfl := Option.some.inj (done.symm.trans taken)
    exact steady.grows.unmade
  | search c | newpool c enough | sptalloc c got | setup c | publish c | wake c =>
    exact on_call_grows whole taken

end KernelMemory

/- kmem_freepool, the daemon that gives idle pools back, between the steps of everything
   else in the allocator. -/
namespace KernelMemory
open Function DyadicBlocks Layout List

/-- Where kmem_freepool stands: asleep (or about to copy Km_Idlep), at the head of its while loop,
or in the body, with the pool's buffers off their freelist, the pool off its first or both hash
chains, or its structures still to be freed. -/
inductive Daemon
  | asleep
  | looping
  | purged (pool : Nat)
  | unhashed (pool : Nat)
  | dehashed (pool : Nat)
  | structs (poolp : Nat)
deriving DecidableEq

def Daemon.pool : Daemon → Option Nat
  | .purged pool => some pool
  | .unhashed pool => some pool
  | .dehashed pool => some pool
  | _ => none

/-- `poolp` is where the bufpool structure of a big pool is; `Km_Idle2p` has its first Km_IdleJ
entries. -/
structure Freepool where
  kma : Kma
  poolp : Nat → Nat
  Km_Idle2p : List Nat
  daemon : Daemon

namespace Freepool

def DELHASH (s : Kma) (i pool : Nat) : Kma :=
  { s with Km_HashLists := update s.Km_HashLists i ((s.Km_HashLists i).erase pool) }

/-- The freelist of the pool's largest buffers, for the pools that the switch knows. -/
def listp (P : BufPool) : Option Nat :=
  if P.bp_expmin = MINSIDX then some MAXASIDX
  else if P.bp_expmin = MINBIDX then some MAXABIDX
  else none

def psize (P : BufPool) : Nat := if P.bp_expmin = MINBIDX then BIGBYTES else SMALLBYTES

def i_hash (pool : Nat) : Nat := HASH pool
def j_hash (pool : Nat) (P : BufPool) : Nat := HASH (pool + psize P - 1)

def copy (s : Freepool) : Freepool :=
  { s with kma := { s.kma with Km_Idlep := [] }, Km_Idle2p := s.kma.Km_Idlep, daemon := .looping }

def purge (s : Kma) (e pool : Nat) : Kma :=
  s.setBufs e ((s.bufs e).filter fun fb => fb.fb_union ≠ .poolp pool)

/-- The last pool of Km_Idle2p, which may be in use again. -/
def visit (s : Freepool) : Option Freepool :=
  match s.Km_Idle2p.getLast? with
  | none => some { s with daemon := .asleep }
  | some pool => (s.kma.pools pool).bind fun P => (listp P).map fun e =>
      if 0 < P.bp_inuse then
        ⟨s.kma.setPool pool { P with bp_idle := false }, s.poolp, s.Km_Idle2p.dropLast, .looping⟩
      else ⟨purge s.kma e pool, s.poolp, s.Km_Idle2p.dropLast, .purged pool⟩

/-- A pool that is on neither chain is fatal. -/
def delhash_i (s : Freepool) (pool : Nat) : Option Freepool :=
  if pool ∈ s.kma.Km_HashLists (i_hash pool) then
    some { s with kma := DELHASH s.kma (i_hash pool) pool, daemon := .unhashed pool }
  else none

def delhash_j (s : Freepool) (pool : Nat) : Option Freepool :=
  (s.kma.pools pool).bind fun P =>
    if j_hash pool P = i_hash pool then some { s with daemon := .dehashed pool }
    else if pool ∈ s.kma.Km_HashLists (j_hash pool P) then
      some { s with kma := DELHASH s.kma (j_hash pool P) pool, daemon := .dehashed pool }
    else none

def without (s : Kma) (pool bytes : Nat) : Kma :=
  { s with pools := update s.pools pool none, spt := s.spt.erase (pool, bytes) }

/-- The structures of a small pool go with its pages. -/
def sptfree (s : Freepool) (pool : Nat) : Option Freepool :=
  (s.kma.pools pool).map fun P =>
    { s with
      kma := without s.kma pool (psize P)
      daemon := if P.bp_expmin = MINBIDX then .structs (s.poolp pool) else .looping }

/-- The structures of a big pool came from kmem_alloc. -/
def free_structs (s : Freepool) (poolp : Nat) : Option Freepool :=
  if poolp ∈ s.kma.headers then
    (kmem_free { s.kma with
      headers := s.kma.headers.erase poolp
      live := (class_of BIGHEADER, poolp) :: s.kma.live } poolp BIGHEADER).map fun kma =>
        { s with kma := kma, daemon := .looping }
  else none

def run_daemon (s : Freepool) : Option Freepool :=
  match s.daemon with
  | .asleep => some s.copy
  | .looping => s.visit
  | .purged pool => s.delhash_i pool
  | .unhashed pool => s.delhash_j pool
  | .dehashed pool => s.sptfree pool
  | .structs poolp => s.free_structs poolp

/-- kmem_allocbpool has put the structures of its pool in the header. -/
def note (s t : Kma) (poolp : Nat → Nat) : Nat → Nat :=
  match s.Km_BgAllocOn, t.Km_BgAllocOn with
  | some (.setup base header), some (.publish _) => update poolp base header
  | _, _ => poolp

/-- A step of kmem_alloc or kmem_free, or the next step of kmem_freepool. -/
inductive Label
  | kma (l : KernelMemory.Label)
  | freepool
deriving DecidableEq

def step (s : Freepool) : Label → Option Freepool
  | .kma l => (KernelMemory.step s.kma l).map fun t =>
      { s with kma := t, poolp := note s.kma t s.poolp }
  | .freepool => if s.kma.stack = [] then s.run_daemon else none

def start : Freepool := ⟨empty, fun _ => 0, [], .asleep⟩

def releasing (s : Freepool) : Option Nat := s.daemon.pool

/-- The pools that kmem_freepool has taken from Km_Idlep and is not done with. -/
def queue (s : Freepool) : List Nat := s.Km_Idle2p ++ s.releasing.toList

end Freepool

/-! Taking a pool's buffers off their list, and taking the pool away -/

namespace Layout

variable {l : Layout} {lists : Nat → List FreeBuf} {e pool : Nat} {h : Shape}

theorem Sound.take_all (sound : l.Sound) (others : ∀ f, f ≠ e → l.bufs f = lists f) :
    ∀ removed, (l.bufs e).Perm (removed ++ lists e) → (∀ fb ∈ removed, FbUnion.unmarked fb.fb_union) →
      Sound { l with bufs := lists, owned := removed.map (fun fb => (e, fb.addr)) ++ l.owned } := by
  intro removed
  induction removed generalizing l with
  | nil =>
    intro perm _
    -- nothing is taken, but the list may come in another order
    have same : ∀ f, (l.bufs f).Perm (lists f) := by
      intro f
      by_cases this : f = e
      · exact this ▸ perm
      · rw [others f this]
    have marked : ∀ f y, Marked { l with bufs := lists } f y ↔ l.Marked f y := by
      intro f y
      unfold Marked
      simp only [(same f).mem_iff]
    refine ⟨sound.toRanges, sound.owned, ?_, sound.merging, ?_, ?_, ?_⟩
    · exact fun f fb mem => sound.free f fb ((same f).mem_iff.mpr mem)
    · intro a
      have count : free_cover lists a = free_cover l.bufs a :=
        Finset.sum_congr rfl fun f _ => cover_perm ((same f).symm.map _) a
      have once := sound.once a
      unfold coverage at once ⊢
      rw [map_nil, nil_append, count]
      exact once
    · exact fun f y hf hb => sound.single f y ((marked f y).mp hf) ((marked f _).mp hb)
    · intro p g a placed above below
      rw [sound.bits p g a placed above below]
      exact (clear_iff marked rfl a).symm
  | cons fb rest ih =>
    intro perm unmarked
    have moved : Moved e fb (update l.bufs e (rest ++ lists e)) l.bufs := by
      refine ⟨?_, fun f other => (update_of_ne other ..).symm⟩
      rw [update_self]
      exact perm
    have taken := sound.take moved (unmarked fb mem_cons_self)
    have after := ih taken
      (fun f other => (update_of_ne other ..).trans (others f other))
      (by
        change (update l.bufs e _ e).Perm _
        rw [update_self])
      (fun fb mem => unmarked fb (mem_cons_of_mem _ mem))
    exact after.rearranged perm_middle

theorem Sound.remove_pool {gone rest : List (Nat × Nat)} (sound : l.Sound)
    (bit : Nat → Nat → Bool) (mine : l.owned = gone ++ rest) (placed : l.shapes pool = some h)
    (all : ∀ a, h.start ≤ a → a < h.endp → 1 ≤ cover gone a)
    (bits : ∀ q, q ≠ pool → bit q = l.bit q) :
    Sound ⟨update l.shapes pool none, bit, l.bufs, rest, l.merges⟩ := by
  have once : ∀ a, cover gone a + cover rest a + cover (hands l.merges) a + free_cover l.bufs a ≤ 1 := by
    intro a
    have total := sound.once a
    unfold coverage at total
    rw [mine, cover_append] at total
    exact total
  have cases_of : ∀ q g, update l.shapes pool none q = some g → q ≠ pool ∧ l.shapes q = some g := by
    intro q g found
    by_cases same : q = pool
    · rw [same, update_self] at found
      exact nomatch found
    · rw [update_of_ne same] at found
      exact ⟨same, found⟩
  -- what is not in that hand is not in the pool
  have other : ∀ q g f y, l.shapes q = some g → g.Holds f y →
      1 ≤ cover rest y + cover (hands l.merges) y + free_cover l.bufs y →
      update l.shapes pool none q = some g := by
    intro q g f y found holds covered
    by_cases same : q = pool
    · subst same
      obtain rfl := Option.some.inj (placed.symm.trans found)
      have below := (holds.within (sound.regular q h placed).1 (covers_self f y)).2
      have mine := all y holds.after below
      have total := once y
      omega
    · rw [update_of_ne same]
      exact found
  refine ⟨⟨?_, ?_⟩, ?_, ?_, ?_, ?_, sound.single, ?_⟩
  · exact fun q g found => sound.regular q g (cases_of q g found).2
  · exact fun q g q' g' a found found' => sound.separate q g q' g' a (cases_of q g found).2
      (cases_of q' g' found').2
  · intro b mem
    obtain ⟨q, g, found, holds⟩ := sound.owned b (mine ▸ mem_append_right _ mem)
    have covered : 1 ≤ cover rest b.2 := cover_pos mem (covers_self b.1 b.2)
    exact ⟨q, g, other q g b.1 b.2 found holds (by omega), holds⟩
  · intro f fb mem
    obtain ⟨q, g, found, holds, ok⟩ := (sound.free f fb mem).placed
    have covered : 1 ≤ free_cover l.bufs fb.addr :=
      free_cover_pos (sound.class_lt mem) mem (covers_self f fb.addr)
    exact ⟨q, g, other q g f fb.addr found holds (by omega), holds, ok⟩
  · intro m mem
    obtain ⟨g, found, holds, ok⟩ := (sound.merging m mem).placed
    have covered : 1 ≤ cover (hands l.merges) m.bufp := hand_pos mem (covers_self m.e m.bufp)
    exact ⟨⟨g, other m.pool g m.e m.bufp found holds (by omega), holds, ok⟩,
      (sound.merging m mem).grown⟩
  · intro a
    have total := once a
    unfold coverage
    dsimp only
    omega
  · intro q g a found above below
    obtain ⟨ne, found⟩ := cases_of q g found
    change bit q a = false ↔ _
    rw [bits q ne]
    exact sound.bits q g a found above below

end Layout

end KernelMemory
