import Svr4.Kma.Freepool

/- Every step of kmem_freepool keeps the invariant of the allocator, and what that means for
   the pages it gives back. -/
namespace KernelMemory
open Function List Option Nat
namespace Freepool
open DyadicBlocks Layout LabelledRuns

variable {s t : Freepool} {gone : List (Nat × Nat)} {pool bytes : Nat} {h g : Shape}
  {labels : List Label} {made : Option Nat}

inductive Use
  | pool (q : Nat)
  | setup
  | structs

def used_by (s : Freepool) : Use → Option Nat
  | .pool q => (s.kma.shapes q).bind fun h => if h.expmin = MINBIDX then some (s.poolp q) else none
  | .setup =>
      match s.kma.Km_BgAllocOn with
      | some (.setup _ x) => some x
      | _ => none
  | .structs =>
      match s.daemon with
      | .structs x => some x
      | _ => none

structure Heads (s : Freepool) : Prop where
  kept : ∀ u x, s.used_by u = some x → x ∈ s.kma.headers
  single : ∀ u v x, s.used_by u = some x → s.used_by v = some x → u = v

def Chains (s : Freepool) (h : Shape) : Prop :=
  match s.daemon with
  | .purged pool => pool ∈ s.kma.Km_HashLists (HASH h.alignp) ∧
      pool ∈ s.kma.Km_HashLists (HASH (h.endp - 1))
  | .unhashed pool => pool ∉ s.kma.Km_HashLists (HASH h.alignp) ∧
      (HASH (h.endp - 1) ≠ HASH h.alignp → pool ∈ s.kma.Km_HashLists (HASH (h.endp - 1)))
  | .dehashed pool => ∀ i, pool ∉ s.kma.Km_HashLists i
  | _ => True

/-- The pool that kmem_freepool is releasing: `gone` are all its buffers. -/
structure InHand (s : Freepool) (gone : List (Nat × Nat)) (pool : Nat) (h : Shape) : Prop where
  placed : s.kma.shapes pool = some h
  all : ∀ a, h.start ≤ a → a < h.endp → 1 ≤ cover gone a
  own : ∀ b ∈ gone, h.Holds b.1 b.2
  chains : s.Chains h

structure Ok (s : Freepool) (gone : List (Nat × Nat)) : Prop where
  whole : Whole s.kma gone
  books : Books s.kma gone s.queue
  heads : Heads s
  hand : ∀ pool, s.releasing = some pool → ∃ h, InHand s gone pool h
  free_hand : s.releasing = none → gone = []
  rested : s.daemon = .asleep → s.Km_Idle2p = []
  ranges : s.kma.spt.Pairwise Apart

/-! Steps of kmem_alloc and kmem_free -/

variable {P : BufPool} {e : Nat} {b : Kma} {q x : Nat}

theorem used_pool (used : s.used_by (.pool q) = some x) :
    ∃ h, s.kma.shapes q = some h ∧ h.expmin = MINBIDX ∧ s.poolp q = x := by
  obtain ⟨h, placed, found⟩ := bind_eq_some_iff.mp used
  split at found
  · rename_i big
    exact ⟨h, placed, big, some.inj found⟩
  · exact nomatch found

theorem used_by_pool (placed : s.kma.shapes q = some h) (big : h.expmin = MINBIDX) :
    s.used_by (.pool q) = some (s.poolp q) := by
  unfold used_by
  dsimp only
  rw [placed, bind_some, if_pos big]

theorem used_setup (used : s.used_by .setup = some x) :
    ∃ base, s.kma.Km_BgAllocOn = some (.setup base x) := by
  unfold used_by at used
  dsimp only at used
  split at used
  · rename_i base y started
    obtain rfl := some.inj used
    exact ⟨base, started⟩
  · exact nomatch used

theorem used_by_setup {base : Nat} (started : s.kma.Km_BgAllocOn = some (.setup base x)) :
    s.used_by .setup = some x := by
  unfold used_by
  rw [started]

theorem note_cases (a b : Kma) (poolp : Nat → Nat) : note a b poolp = poolp ∨
    ∃ base header, a.Km_BgAllocOn = some (.setup base header) ∧
      note a b poolp = update poolp base header := by
  unfold note
  split
  · rename_i base header _ started _
    exact .inr ⟨base, header, started, rfl⟩
  · exact .inl rfl

theorem note_old {a : Kma} {g : Shape} (whole : Whole a gone) (placed : a.shapes q = some g)
    (poolp : Nat → Nat) : note a b poolp q = poolp q := by
  rcases note_cases a b poolp with same | ⟨base, header, started, noted⟩
  · rw [same]
  have region : a.region = some base := by
    unfold Kma.region
    rw [started]
  obtain ⟨-, -, -, away⟩ := whole.pools.pending base region
  have apart := away q g placed
  have regular := whole.sound.regular q g placed
  have proper := regular.1.start_le
  have other : q ≠ base := by
    rintro rfl
    unfold BIGBYTES at apart
    omega
  rw [noted, update_of_ne other]

theorem used_after (ok : Ok s gone) (grows : Grows s.kma b made) (now : Made s.kma b made) {u : Use}
    (used : used_by { s with kma := b, poolp := note s.kma b s.poolp } u = some x) :
    s.used_by u = some x ∨ (∃ q, u = .pool q ∧ made = some q ∧ s.used_by .setup = some x) ∨
      u = .setup ∧ x ∈ b.headers ∧ x ∉ s.kma.headers := by
  cases u with
  | pool q =>
    obtain ⟨h, placed, big, here⟩ := used_pool used
    rcases grows.new q h placed with old | small | made_q
    · left
      rw [used_by_pool old big]
      rw [← here]
      exact congrArg some (note_old ok.whole old s.poolp).symm
    · rw [small] at big
      exact absurd big (by decide)
    · right
      left
      obtain ⟨y, started, ended⟩ := now q made_q
      have noted : note s.kma b s.poolp q = y := by
        unfold note
        rw [started, ended]
        exact update_self ..
      refine ⟨q, rfl, made_q, ?_⟩
      rw [used_by_setup started, ← noted]
      exact congrArg some here
  | setup =>
    obtain ⟨base, started⟩ := used_setup used
    rcases grows.ready base x started with before | new
    · exact .inl (used_by_setup before)
    · exact .inr (.inr ⟨rfl, new⟩)
  | structs => exact .inl used

theorem heads_grow (ok : Ok s gone) (grows : Grows s.kma b made) (now : Made s.kma b made) :
    Heads { s with kma := b, poolp := note s.kma b s.poolp } := by
  have old : ∀ u x, s.used_by u = some x → x ∈ s.kma.headers := ok.heads.kept
  -- when a pool is made nothing is waiting to be set up any more
  have idle : ∀ q, made = some q → ∀ x,
      used_by { s with kma := b, poolp := note s.kma b s.poolp } .setup ≠ some x := by
    intro q made_q x used
    obtain ⟨base, started⟩ := used_setup used
    obtain ⟨-, -, ended⟩ := now q made_q
    exact nomatch ended.symm.trans started
  refine ⟨?_, ?_⟩
  · intro u x used
    rcases used_after ok grows now used with before | ⟨-, -, -, before⟩ | ⟨-, mem, -⟩
    · exact grows.headers x (old u x before)
    · exact grows.headers x (old .setup x before)
    · exact mem
  · intro u v x first second
    rcases used_after ok grows now first with before | ⟨q, rfl, made_q, before⟩ | ⟨rfl, -, new⟩
    · rcases used_after ok grows now second with before' | ⟨q', rfl, made_q, before'⟩ | ⟨-, -, new⟩
      · exact ok.heads.single u v x before before'
      · obtain rfl := ok.heads.single u .setup x before before'
        exact absurd first (idle q' made_q x)
      · exact absurd (old u x before) new
    · rcases used_after ok grows now second with before' | ⟨q', rfl, made_q', -⟩ | ⟨-, -, new⟩
      · obtain rfl := ok.heads.single v .setup x before' before
        exact absurd second (idle q made_q x)
      · obtain rfl := some.inj (made_q.symm.trans made_q')
        rfl
      · exact absurd (old .setup x before) new
    · rcases used_after ok grows now second with before' | ⟨-, -, -, before'⟩ | ⟨rfl, -, -⟩
      · exact absurd (old v x before') new
      · exact absurd (old .setup x before') new
      · rfl

theorem Chains.congr (chains : s.Chains h) (here : s.releasing = some pool)
    (daemon : t.daemon = s.daemon)
    (same : ∀ i, pool ∈ t.kma.Km_HashLists i ↔ pool ∈ s.kma.Km_HashLists i) : t.Chains h := by
  unfold Chains at chains ⊢
  unfold releasing at here
  rw [daemon]
  cases place : s.daemon with
  | purged q =>
    rw [place] at here chains
    obtain rfl := some.inj here
    exact ⟨(same _).mpr chains.1, (same _).mpr chains.2⟩
  | unhashed q =>
    rw [place] at here chains
    obtain rfl := some.inj here
    exact ⟨fun mem => chains.1 ((same _).mp mem), fun ne => (same _).mpr (chains.2 ne)⟩
  | dehashed q =>
    rw [place] at here chains
    obtain rfl := some.inj here
    exact fun i mem => chains i ((same i).mp mem)
  | asleep | looping | structs q => trivial

theorem kma_step_ok (ok : Ok s gone) {l : KernelMemory.Label}
    (taken : KernelMemory.step s.kma l = some b) :
    Ok { s with kma := b, poolp := note s.kma b s.poolp } gone := by
  have kept := step_ok ok.whole taken
  obtain ⟨made, grows, now⟩ := step_grows ok.whole taken
  refine ⟨kept.whole, kept.books _ ok.books, heads_grow ok grows now, ?_, ok.free_hand, ok.rested,
    grows.apart ok.ranges⟩
  intro pool here
  obtain ⟨h, inhand⟩ := ok.hand pool here
  exact ⟨h, grows.shapes pool h inhand.placed, inhand.all, inhand.own, inhand.chains.congr here rfl
    fun i => grows.chains pool h i inhand.placed⟩

/-! Steps of kmem_freepool -/

theorem empty_queue (here : s.releasing = none) : s.queue = s.Km_Idle2p := by
  unfold queue
  rw [here]
  exact append_nil _

theorem releasing_of {d : Daemon} (here : s.daemon = d) : s.releasing = d.pool :=
  congrArg Daemon.pool here

theorem Ok.in_hand (ok : Ok s gone) (releasing : s.releasing = some pool) :
    ∃ P, s.kma.pools pool = some P ∧ InHand s gone pool P.shape := by
  obtain ⟨h, hand⟩ := ok.hand pool releasing
  obtain ⟨P, found, rfl⟩ := shapes_eq_some.mp hand.placed
  exact ⟨P, found, hand⟩

theorem Heads.fewer (heads : Heads s) (shapes : t.kma.shapes = s.kma.shapes)
    (poolp : t.poolp = s.poolp) (big : t.kma.Km_BgAllocOn = s.kma.Km_BgAllocOn)
    (headers : t.kma.headers = s.kma.headers) (daemon : ∀ x, t.daemon ≠ .structs x) : Heads t := by
  have sub : ∀ u x, t.used_by u = some x → s.used_by u = some x := by
    intro u x used
    cases u with
    | pool q =>
      obtain ⟨h, placed, kind, here⟩ := used_pool used
      rw [shapes] at placed
      rw [used_by_pool placed kind, ← poolp, here]
    | setup =>
      obtain ⟨base, started⟩ := used_setup used
      exact used_by_setup (big ▸ started)
    | structs =>
      unfold used_by at used
      dsimp only at used
      split at used
      · rename_i y place
        exact absurd place (daemon y)
      · exact nomatch used
  refine ⟨?_, ?_⟩
  · intro u x used
    rw [headers]
    exact heads.kept u x (sub u x used)
  · exact fun u v x first second => heads.single u v x (sub u x first) (sub v x second)

theorem copy_ok (ok : Ok s gone) (here : s.daemon = .asleep) :
    Ok s.copy [] ∧ (Newest s.kma s.queue → Newest s.copy.kma s.copy.queue) := by
  have idle := releasing_of here
  obtain rfl := ok.free_hand idle
  have before : s.queue = [] := by
    rw [empty_queue idle]
    exact ok.rested here
  have after : s.copy.queue = s.kma.Km_Idlep := empty_queue rfl
  have books := ok.books
  rw [before] at books
  refine ⟨⟨?_, ?_, ok.heads.fewer rfl rfl rfl rfl nofun, ?_,
    fun _ => rfl, ?_, ok.ranges⟩, ?_⟩
  · exact ⟨⟨ok.whole.sound, ok.whole.pools.of_eq rfl rfl rfl fun _ => id, ok.whole.less⟩,
      ok.whole.calls⟩
  · rw [after]
    refine ⟨books.counts, ?_, ?_⟩
    · have nodup := books.queued
      rwa [append_nil] at nodup
    · intro pool mem
      exact books.idle pool (mem_append_left _ mem)
  · exact fun pool impossible => nomatch impossible
  · exact fun impossible => nomatch impossible
  · intro newest pool mem
    rw [after] at mem
    exact newest pool (mem_append_left _ mem)

theorem listp_eq (regular : h.Regular) (shape : P.shape = h) :
    listp P = some h.largest ∧ psize P = h.endp - h.alignp := by
  subst shape
  unfold listp psize
  rcases regular.kind with ⟨ends, small, -⟩ | ⟨ends, big, -⟩
  · replace small : P.bp_expmin = MINSIDX := small
    have large : P.shape.largest = MAXASIDX := if_pos small
    rw [if_pos small, large, small, if_neg (by decide), ends]
    exact ⟨rfl, (Nat.add_sub_cancel_left ..).symm⟩
  · replace big : P.bp_expmin = MINBIDX := big
    have other : ¬ P.bp_expmin = MINSIDX := by
      rw [big]
      decide
    have large : P.shape.largest = MAXABIDX := if_neg other
    rw [if_neg other, if_pos big, large, if_pos big, ends]
    exact ⟨rfl, (Nat.add_sub_cancel_left ..).symm⟩

theorem hash_start (regular : h.Regular) : HASH h.alignp = HASH h.start := by
  have paged := regular.paged
  have same : h.alignp / 2 ^ SHIFT = h.start / 2 ^ SHIFT := by
    unfold Shape.start MAXASMALL SHIFT
    unfold PAGESIZE at paged
    split <;> omega
  unfold HASH
  rw [shiftRight_eq_div_pow, shiftRight_eq_div_pow, same]

def purged (s : Kma) (e pool : Nat) : List FreeBuf :=
  (s.bufs e).filter fun fb => fb.fb_union = .poolp pool

def handed (s : Kma) (e pool : Nat) : List (Nat × Nat) :=
  (purged s e pool).map fun fb => (e, fb.addr)

theorem purge_bufs (s : Kma) (e pool : Nat) :
    (s.bufs e).Perm (purged s e pool ++ (purge s e pool).bufs e) := by
  unfold purge purged
  rw [bufs_setBufs, update_self]
  have parts := filter_append_perm (fun fb : FreeBuf => decide (fb.fb_union = .poolp pool))
    (s.bufs e)
  simp only [← decide_not] at parts
  exact parts.symm

theorem purge_others {f : Nat} (s : Kma) (pool : Nat) (other : f ≠ e) :
    (purge s e pool).bufs f = s.bufs f := by
  unfold purge
  rw [bufs_setBufs, update_of_ne other]

theorem mem_handed {s : Kma} : (e, x) ∈ handed s e pool ↔ ⟨x, .poolp pool⟩ ∈ s.bufs e := by
  constructor
  · intro mem
    obtain ⟨fb, listed, same⟩ := mem_map.mp mem
    obtain ⟨here, union⟩ := mem_filter.mp listed
    obtain ⟨-, rfl⟩ := Prod.mk.inj same
    rw [← of_decide_eq_true union]
    exact here
  · intro mem
    exact mem_map.mpr ⟨_, mem_filter.mpr ⟨mem, decide_eq_true rfl⟩, rfl⟩

theorem purge_sound {s : Kma} (sound : (s.layout []).Sound) :
    ((purge s e pool).layout (handed s e pool)).Sound := by
  refine sound.take_all (fun f other => (purge_others s pool other).symm) _ (purge_bufs s e pool) ?_
  intro fb mem
  rw [of_decide_eq_true (mem_filter.mp mem).2]
  trivial

theorem purge_used {s : Kma} (g : Shape) :
    (purge s e pool).used (handed s e pool) g = s.used [] g := by
  apply filter_congr
  intro x _
  apply decide_eq_decide.mpr
  by_cases same : g.largest = e
  · subst same
    have mem : x ∈ (s.bufs g.largest).map FreeBuf.addr ↔ (g.largest, x) ∈ handed s g.largest pool ∨
        x ∈ ((purge s g.largest pool).bufs g.largest).map FreeBuf.addr := by
      rw [((purge_bufs s g.largest pool).map FreeBuf.addr).mem_iff, map_append, mem_append]
      unfold handed
      simp
    rw [mem]
    simp
    tauto
  · have off : (g.largest, x) ∉ handed s e pool := by
      intro listed
      obtain ⟨fb, -, pair⟩ := mem_map.mp listed
      exact same (Prod.mk.inj pair).1.symm
    rw [purge_others s pool same]
    simp [off]

theorem purge_hand {s : Kma} (sound : (s.layout []).Sound) (placed : s.shapes pool = some h)
    (none : s.used [] h = []) :
    (∀ a, h.start ≤ a → a < h.endp → 1 ≤ cover (handed s h.largest pool) a) ∧
      ∀ b ∈ handed s h.largest pool, h.Holds b.1 b.2 := by
  have regular := (sound.regular pool h placed).1
  have proper := regular.start_le
  refine ⟨?_, ?_⟩
  · intro a after below
    have pos := Nat.two_pow_pos h.largest
    -- the slot that `a` is in
    have slot : h.start + (a - h.start) / 2 ^ h.largest * 2 ^ h.largest ∈ h.slots := by
      refine mem_map.mpr ⟨_, mem_range.mpr ?_, rfl⟩
      have aligned := dvd_sub (regular.bounds_aligned (le_refl h.largest)).2.2
        (regular.bounds_aligned (le_refl h.largest)).2.1
      apply div_lt_div_of_lt_of_dvd aligned
      omega
    have covered : Covers h.largest (h.start + (a - h.start) / 2 ^ h.largest * 2 ^ h.largest) a := by
      have split := div_add_mod (a - h.start) (2 ^ h.largest)
      rw [mul_comm] at split
      unfold Covers
      omega
    generalize h.start + (a - h.start) / 2 ^ h.largest * 2 ^ h.largest = x at slot covered
    have listed : x ∈ (s.bufs h.largest).map FreeBuf.addr := by
      by_contra off
      have used : x ∈ s.used [] h := mem_filter.mpr ⟨slot, decide_eq_true ⟨off, not_mem_nil⟩⟩
      rw [none] at used
      exact nomatch used
    obtain ⟨fb, mem, rfl⟩ := mem_map.mp listed
    obtain ⟨q, g, there, holds, union⟩ := (sound.free h.largest fb mem).placed
    have within := Shape.slot_within slot
    obtain ⟨above', below'⟩ := holds.within (sound.regular q g there).1 (covers_self _ _)
    obtain rfl : q = pool := sound.separate q g pool h fb.addr there placed above' below'
      (by omega) (by omega)
    obtain ⟨addr, fb_union⟩ := fb
    have here : fb_union = .poolp q := by
      cases fb_union with
      | DELAYED =>
        have less : h.largest < max_class h.largest := union
        rw [h.max_class_largest] at less
        exact absurd less (lt_irrefl _)
      | mapp p w mask =>
        have less : h.largest < max_class h.largest := union.1
        rw [h.max_class_largest] at less
        exact absurd less (lt_irrefl _)
      | poolp p => rw [union.2]
    subst here
    exact cover_pos (mem_handed.mpr mem) covered
  · rintro ⟨e, x⟩ mem
    obtain ⟨fb, -, same⟩ := mem_map.mp mem
    obtain ⟨rfl, -⟩ := Prod.mk.inj same
    have listed := mem_handed.mp mem
    obtain ⟨q, g, there, holds, -, rfl⟩ := (sound.free h.largest _ listed).placed
    obtain rfl := some.inj (placed.symm.trans there)
    exact holds

section
variable (ok : Ok s []) (here : s.daemon = .looping) (last : s.Km_Idle2p.getLast? = some pool)
  (found : s.kma.pools pool = some P)
include ok here last found

theorem visit_busy_ok :
    Ok ⟨s.kma.setPool pool { P with bp_idle := false }, s.poolp, s.Km_Idle2p.dropLast, .looping⟩ []
      ∧ (Newest s.kma s.queue → Newest s.kma s.Km_Idle2p.dropLast) := by
  have idle := releasing_of here
  have list : s.Km_Idle2p = s.Km_Idle2p.dropLast ++ [pool] :=
    (dropLast_append_getLast? pool last).symm
  have books := ok.books
  rw [empty_queue idle, list] at books
  have queued := books.queued
  rw [← append_assoc] at queued
  obtain ⟨fewer, -, off⟩ := nodup_append.mp queued
  have shapes : (s.kma.setPool pool { P with bp_idle := false }).shapes = s.kma.shapes :=
    shapes_setPool found rfl
  have layout : (s.kma.setPool pool { P with bp_idle := false }).layout [] = s.kma.layout [] := by
    unfold Kma.layout
    rw [shapes, show (s.kma.setPool pool { P with bp_idle := false }).bit = s.kma.bit from
      bit_counted found rfl rfl]
    rfl
  refine ⟨⟨⟨⟨layout ▸ ok.whole.sound, ok.whole.pools.of_eq shapes rfl rfl fun _ => id,
    ok.whole.less⟩, ok.whole.calls⟩, ?_,
    ok.heads.fewer shapes rfl rfl rfl nofun,
    nofun, fun _ => rfl, nofun, ok.ranges⟩, ?_⟩
  · rw [empty_queue (s := ⟨_, _, _, .looping⟩) rfl]
    refine ⟨?_, fewer, ?_⟩
    · intro q Q there
      rw [pools_setPool] at there
      by_cases same : q = pool
      · subst same
        rw [if_pos rfl] at there
        obtain rfl := some.inj there
        exact books.counts q P found
      · rw [if_neg same] at there
        exact books.counts q Q there
    · intro q mem
      have mem' : q ∈ s.kma.Km_Idlep ++ (s.Km_Idle2p.dropLast ++ [pool]) := by
        rw [← append_assoc]
        exact mem_append_left _ mem
      obtain ⟨Q, there, flag⟩ := books.idle q mem'
      have other : q ≠ pool := off q mem pool mem_cons_self
      exact ⟨Q, (pools_setPool q).trans ((if_neg other).trans there), flag⟩
  · intro newest q mem
    rw [empty_queue idle, list] at newest
    refine newest q ?_
    rw [← append_assoc]
    exact mem_append_left _ mem

theorem visit_idle_ok (zero : P.bp_inuse = 0) :
    Ok ⟨purge s.kma P.shape.largest pool, s.poolp, s.Km_Idle2p.dropLast, .purged pool⟩
      (handed s.kma P.shape.largest pool) ∧
      (Newest s.kma s.queue → Newest s.kma (s.Km_Idle2p.dropLast ++ [pool])) := by
  have idle := releasing_of here
  have list : s.Km_Idle2p = s.Km_Idle2p.dropLast ++ [pool] :=
    (dropLast_append_getLast? pool last).symm
  have placed : s.kma.shapes pool = some P.shape := shapes_eq_some.mpr ⟨P, found, rfl⟩
  have sound := ok.whole.sound
  have regular := (sound.regular pool _ placed).1
  have proper := regular.start_le
  have books := ok.books
  rw [empty_queue idle, list] at books
  have none : s.kma.used [] P.shape = [] := by
    apply eq_nil_of_length_eq_zero
    rw [← books.counts pool P found, zero]
    rfl
  obtain ⟨all, own⟩ := purge_hand sound placed none
  have whole := ok.whole
  refine ⟨⟨⟨⟨purge_sound sound, ⟨?_, whole.pools.listed, whole.pools.kept, whole.pools.pending⟩,
    whole.less⟩, whole.calls⟩, ?_,
    ok.heads.fewer rfl rfl rfl rfl nofun, ?_,
    nofun, nofun, ok.ranges⟩, ?_⟩
  · exact fun q g a there after below _ => ok.whole.pools.hashed q g a there after below rfl
  · refine ⟨?_, books.queued, books.idle⟩
    intro q Q there
    rw [purge_used]
    exact books.counts q Q there
  · intro q same
    obtain rfl := some.inj same
    refine ⟨P.shape, placed, all, own, ?_, ?_⟩
    · rw [hash_start regular]
      exact ok.whole.pools.hashed _ P.shape P.shape.start placed (le_refl _) proper.2 rfl
    · exact ok.whole.pools.hashed _ P.shape (P.shape.endp - 1) placed (by omega) (by omega) rfl
  · intro newest
    rwa [empty_queue idle, list] at newest

end

theorem mem_DELHASH {s : Kma} {i : Nat} (pool j q : Nat) (nodup : (s.Km_HashLists i).Nodup) :
    q ∈ (DELHASH s i pool).Km_HashLists j ↔ q ∈ s.Km_HashLists j ∧ ¬ (j = i ∧ q = pool) := by
  change q ∈ update s.Km_HashLists i _ j ↔ _
  by_cases same : j = i
  · subst same
    rw [update_self, nodup.mem_erase_iff]
    tauto
  · rw [update_of_ne same]
    tauto

theorem pools_DELHASH {s : Kma} (pools : Pools s gone) (placed : s.shapes pool = some h)
    (all : ∀ a, h.start ≤ a → a < h.endp → 1 ≤ cover gone a) (i : Nat) :
    Pools (DELHASH s i pool) gone := by
  have mem := fun j q => mem_DELHASH pool j q (pools.listed i).1
  refine ⟨?_, ?_, pools.kept, pools.pending⟩
  · intro q g a there after below left
    refine (mem _ q).mpr ⟨pools.hashed q g a there after below left, ?_⟩
    rintro ⟨-, rfl⟩
    obtain rfl := some.inj (placed.symm.trans there)
    have := all a after below
    omega
  · intro j
    refine ⟨?_, fun q listed => (pools.listed j).2 q ((mem j q).mp listed).1⟩
    change (update s.Km_HashLists i _ j).Nodup
    by_cases same : j = i
    · subst same
      rw [update_self]
      exact (pools.listed j).1.erase pool
    · rw [update_of_ne same]
      exact (pools.listed j).1

theorem hashes_eq (ok : Ok s gone) (found : s.kma.pools pool = some P) :
    i_hash pool = HASH P.shape.alignp ∧ j_hash pool P = HASH (P.shape.endp - 1) := by
  obtain ⟨regular, place⟩ := ok.whole.sound.regular pool _ (shapes_eq_some.mpr ⟨P, found, rfl⟩)
  have proper := regular.start_le
  obtain ⟨-, size⟩ := listp_eq regular rfl
  unfold i_hash j_hash
  rw [place, size, place]
  refine ⟨rfl, congrArg HASH ?_⟩
  omega

theorem delhash_i_ok (ok : Ok s gone) (here : s.daemon = .purged pool) :
    ∃ t, s.delhash_i pool = some t ∧ Ok t gone ∧ (Newest s.kma s.queue → Newest t.kma t.queue) := by
  have releasing := releasing_of here
  obtain ⟨P, found, hand⟩ := ok.in_hand releasing
  obtain ⟨first, -⟩ := hashes_eq ok found
  have chains := hand.chains
  unfold Chains at chains
  rw [here] at chains
  have mem := fun j q => mem_DELHASH pool j q (ok.whole.pools.listed (i_hash pool)).1
  have same : Freepool.queue { s with
      kma := DELHASH s.kma (i_hash pool) pool, daemon := .unhashed pool } = s.queue := by
    unfold queue
    rw [releasing]
    rfl
  unfold delhash_i
  rw [if_pos (first ▸ chains.1)]
  refine ⟨_, rfl, ⟨⟨⟨ok.whole.sound, pools_DELHASH ok.whole.pools hand.placed hand.all _,
    ok.whole.less⟩, ok.whole.calls⟩, ?_, ok.heads.fewer rfl rfl rfl rfl nofun, ?_, nofun, nofun,
    ok.ranges⟩, ?_⟩
  · rw [same]
    exact ⟨ok.books.counts, ok.books.queued, ok.books.idle⟩
  · intro q now
    obtain rfl := some.inj now
    refine ⟨P.shape, hand.placed, hand.all, hand.own, ?_, ?_⟩
    · intro listed
      exact ((mem _ _).mp listed).2 ⟨first.symm, rfl⟩
    · intro other
      refine (mem _ _).mpr ⟨chains.2, ?_⟩
      rw [first]
      exact fun both => other both.1
  · intro newest
    rw [same]
    exact newest

theorem delhash_j_ok (ok : Ok s gone) (here : s.daemon = .unhashed pool) :
    ∃ t, s.delhash_j pool = some t ∧ Ok t gone ∧ (Newest s.kma s.queue → Newest t.kma t.queue) := by
  have releasing := releasing_of here
  obtain ⟨P, found, hand⟩ := ok.in_hand releasing
  obtain ⟨first, second⟩ := hashes_eq ok found
  have chains := hand.chains
  unfold Chains at chains
  rw [here] at chains
  -- a pool is on no chain but these two
  have only : ∀ i, pool ∈ s.kma.Km_HashLists i → i = j_hash pool P := by
    intro i listed
    obtain ⟨g, there, ends⟩ := (ok.whole.pools.listed i).2 pool listed
    obtain rfl := some.inj (hand.placed.symm.trans there)
    rcases ends with rfl | rfl
    · exact absurd listed chains.1
    · exact second.symm
  unfold delhash_j
  rw [found, bind_some]
  by_cases one : j_hash pool P = i_hash pool
  · have same : Freepool.queue { s with daemon := .dehashed pool } = s.queue := by
      unfold queue
      rw [releasing]
      rfl
    rw [if_pos one]
    refine ⟨_, rfl, ⟨ok.whole, same ▸ ok.books, ok.heads.fewer rfl rfl rfl rfl nofun, ?_, nofun,
      nofun, ok.ranges⟩, fun newest => same ▸ newest⟩
    intro q now
    obtain rfl := some.inj now
    refine ⟨P.shape, hand.placed, hand.all, hand.own, ?_⟩
    intro i listed
    have at_j := only i listed
    rw [one, first] at at_j
    exact chains.1 (at_j ▸ listed)
  · have mem := fun j q => mem_DELHASH pool j q (ok.whole.pools.listed (j_hash pool P)).1
    have same : Freepool.queue { s with
        kma := DELHASH s.kma (j_hash pool P) pool, daemon := .dehashed pool } = s.queue := by
      unfold queue
      rw [releasing]
      rfl
    have listed : pool ∈ s.kma.Km_HashLists (j_hash pool P) := by
      rw [second]
      rw [first, second] at one
      exact chains.2 one
    rw [if_neg one, if_pos listed]
    refine ⟨_, rfl, ⟨⟨⟨ok.whole.sound, pools_DELHASH ok.whole.pools hand.placed hand.all _,
      ok.whole.less⟩, ok.whole.calls⟩, ?_, ok.heads.fewer rfl rfl rfl rfl nofun, ?_, nofun, nofun,
      ok.ranges⟩, ?_⟩
    · rw [same]
      exact ⟨ok.books.counts, ok.books.queued, ok.books.idle⟩
    · intro q now
      obtain rfl := some.inj now
      refine ⟨P.shape, hand.placed, hand.all, hand.own, ?_⟩
      intro i listed
      obtain ⟨old, gone⟩ := (mem i pool).mp listed
      exact gone ⟨only i old, rfl⟩
    · intro newest
      rw [same]
      exact newest

theorem without_shapes (s : Kma) (pool bytes : Nat) :
    (without s pool bytes).shapes = update s.shapes pool none := by
  funext q
  change (update s.pools pool none q).map _ = _
  rw [update_apply, update_apply]
  split <;> rfl

theorem without_shape {s : Kma} :
    (without s pool bytes).shapes q = some g ↔ q ≠ pool ∧ s.shapes q = some g := by
  rw [without_shapes, update_apply]
  split
  · rename_i same
    exact ⟨nofun, fun both => absurd same both.1⟩
  · rename_i other
    exact ⟨fun placed => ⟨other, placed⟩, fun both => both.2⟩

theorem without_pool {s : Kma} {Q : BufPool} (found : (without s pool bytes).pools q = some Q) :
    q ≠ pool ∧ s.pools q = some Q := by
  change update s.pools pool none q = _ at found
  rw [update_apply] at found
  split at found
  · exact nomatch found
  · rename_i other
    exact ⟨other, found⟩

section
variable (ok : Ok s gone) (hand : InHand s gone pool h)
include ok hand

theorem without_whole (off : ∀ i, pool ∉ s.kma.Km_HashLists i) (bytes : Nat) :
    Whole (without s.kma pool bytes) [] := by
  have sound := ok.whole.sound
  have pools := ok.whole.pools
  have removed := sound.remove_pool (without s.kma pool bytes).bit rfl hand.placed hand.all (by
      intro q other
      funext a
      unfold Kma.bit without
      dsimp only
      rw [update_of_ne other]
      rfl)
  have start := (sound.regular pool h hand.placed).2
  refine ⟨⟨?_, ⟨?_, ?_, ?_, ?_⟩, ok.whole.less⟩, ok.whole.calls⟩
  · change Sound ⟨update s.kma.shapes pool none, _, _, _, _⟩ at removed
    rw [← without_shapes s.kma pool bytes] at removed
    exact removed
  · intro q g a placed after below _
    obtain ⟨other, there⟩ := without_shape.mp placed
    refine pools.hashed q g a there after below ?_
    by_contra covered
    obtain ⟨b, mem, inside⟩ := countP_pos_iff.mp (pos_of_ne_zero covered)
    obtain ⟨above', below'⟩ := (hand.own b mem).within (sound.regular pool h hand.placed).1
      (of_decide_eq_true inside)
    have proper := (sound.regular q g there).1.start_le
    exact other (sound.separate q g pool h a there hand.placed (le_trans proper.1 after) below
      above' below')
  · intro i
    refine ⟨(pools.listed i).1, ?_⟩
    intro q listed
    obtain ⟨g, there, ends⟩ := (pools.listed i).2 q listed
    have other : q ≠ pool := by
      rintro rfl
      exact off i listed
    exact ⟨g, without_shape.mpr ⟨other, there⟩, ends⟩
  · intro q g placed
    obtain ⟨other, there⟩ := without_shape.mp placed
    refine (mem_erase_of_ne ?_).mpr (pools.kept q g there)
    intro same
    have place := congrArg Prod.fst same
    rw [(sound.regular q g there).2] at place
    exact other place
  · intro base started
    obtain ⟨positive, paged, mem, away⟩ := pools.pending base started
    refine ⟨positive, paged, (mem_erase_of_ne ?_).mpr mem, ?_⟩
    · intro same
      have place := congrArg Prod.fst same
      have apart := away pool h hand.placed
      have proper := (sound.regular pool h hand.placed).1.start_le
      unfold BIGBYTES at apart
      omega
    · intro q g placed
      exact away q g (without_shape.mp placed).2

theorem without_books (bytes : Nat) (here : s.releasing = some pool) :
    Books (without s.kma pool bytes) [] s.Km_Idle2p ∧ pool ∉ s.kma.Km_Idlep ++ s.Km_Idle2p := by
  have books := ok.books
  unfold queue at books
  rw [here, toList_some] at books
  have queued := books.queued
  rw [← append_assoc] at queued
  obtain ⟨fewer, -, off⟩ := nodup_append.mp queued
  refine ⟨⟨?_, fewer, ?_⟩, fun mem => off pool mem pool mem_cons_self rfl⟩
  · intro q Q found
    obtain ⟨other, there⟩ := without_pool found
    rw [books.counts q Q there]
    congr 1
    apply filter_congr
    intro x mem
    apply decide_eq_decide.mpr
    have away : (Q.shape.largest, x) ∉ gone := by
      intro listed
      exact other (slot_apart ok.whole.sound.toRanges hand.placed
        (shapes_eq_some.mpr ⟨Q, there, rfl⟩) (hand.own _ listed) mem)
    change x ∉ (s.kma.bufs Q.shape.largest).map FreeBuf.addr ∧ _ ↔
      x ∉ (s.kma.bufs Q.shape.largest).map FreeBuf.addr ∧ _
    simp [away]
  · intro q mem
    have mem' : q ∈ s.kma.Km_Idlep ++ (s.Km_Idle2p ++ [pool]) := by
      rw [← append_assoc]
      exact mem_append_left _ mem
    obtain ⟨Q, there, flag⟩ := books.idle q mem'
    have other : q ≠ pool := off q mem pool mem_cons_self
    exact ⟨Q, (update_of_ne other ..).trans there, flag⟩

theorem without_heads (bytes : Nat) (small : Prop) [Decidable small]
    (big : ¬ small → h.expmin = MINBIDX) : Heads { s with
      kma := without s.kma pool bytes
      daemon := if small then .looping else .structs (s.poolp pool) } := by
  have before : ∀ u x, used_by { s with
      kma := without s.kma pool bytes
      daemon := if small then .looping else .structs (s.poolp pool) } u = some x →
      (u ≠ .pool pool ∧ u ≠ .structs ∧ s.used_by u = some x) ∨
        u = .structs ∧ s.used_by (.pool pool) = some x := by
    intro u x used
    cases u with
    | pool q =>
      obtain ⟨g, placed, kind, here⟩ := used_pool used
      obtain ⟨other, there⟩ := without_shape.mp placed
      refine .inl ⟨fun same => other (Use.pool.inj same), nofun, ?_⟩
      rw [used_by_pool there kind]
      exact congrArg some here
    | setup => exact .inl ⟨nofun, nofun, used⟩
    | structs =>
      by_cases kind : small
      · rw [if_pos kind] at used
        exact nomatch used
      · rw [if_neg kind] at used
        obtain rfl := some.inj used
        exact .inr ⟨rfl, used_by_pool hand.placed (big kind)⟩
  refine ⟨?_, ?_⟩
  · intro u x used
    rcases before u x used with ⟨-, -, old⟩ | ⟨-, old⟩
    · exact ok.heads.kept u x old
    · exact ok.heads.kept _ x old
  · intro u v x first second
    rcases before u x first with ⟨other, -, old⟩ | ⟨rfl, old⟩
    · rcases before v x second with ⟨-, -, old'⟩ | ⟨-, old'⟩
      · exact ok.heads.single u v x old old'
      · exact absurd (ok.heads.single u _ x old old') other
    · rcases before v x second with ⟨other, -, old'⟩ | ⟨rfl, -⟩
      · exact absurd (ok.heads.single _ v x old old') other.symm
      · rfl

end

theorem sptfree_ok (ok : Ok s gone) (here : s.daemon = .dehashed pool) :
    ∃ t, s.sptfree pool = some t ∧ Ok t [] ∧ (Newest s.kma s.queue → Newest t.kma t.queue) := by
  have releasing := releasing_of here
  obtain ⟨P, found, hand⟩ := ok.in_hand releasing
  have off : ∀ i, pool ∉ s.kma.Km_HashLists i := by
    have chains := hand.chains
    unfold Chains at chains
    rw [here] at chains
    exact chains
  obtain ⟨books, -⟩ := without_books ok hand (psize P) releasing
  have swap : (if P.bp_expmin = MINBIDX then Daemon.structs (s.poolp pool) else .looping) =
      if ¬ P.bp_expmin = MINBIDX then .looping else .structs (s.poolp pool) := by
    split <;> simp_all
  have heads := without_heads ok hand (psize P) (¬ P.bp_expmin = MINBIDX) (fun big => not_not.mp big)
  have none : Freepool.releasing { s with
      kma := without s.kma pool (psize P)
      daemon := if ¬ P.bp_expmin = MINBIDX then .looping else .structs (s.poolp pool) } = none := by
    unfold Freepool.releasing
    split <;> rfl
  unfold sptfree
  rw [found, map_some, swap]
  refine ⟨_, rfl, ⟨without_whole ok hand off _, ?_, heads, ?_, fun _ => rfl, ?_,
    ok.ranges.sublist erase_sublist⟩, ?_⟩
  · rw [empty_queue none]
    exact books
  · intro q impossible
    rw [none] at impossible
    exact nomatch impossible
  · intro impossible
    split at impossible <;> exact nomatch impossible
  · intro newest q mem
    rw [empty_queue none] at mem
    refine newest q ?_
    unfold queue
    rw [← append_assoc]
    exact mem_append_left _ mem

theorem free_structs_ok (ok : Ok s gone) (here : s.daemon = .structs x) (idle : s.kma.stack = []) :
    ∃ t, s.free_structs x = some t ∧ Ok t [] ∧ (Newest s.kma s.queue → Newest t.kma t.queue) := by
  have releasing := releasing_of here
  obtain rfl := ok.free_hand releasing
  have used : s.used_by .structs = some x := by
    unfold used_by
    rw [here]
  have mem := ok.heads.kept .structs x used
  generalize given : ({ s.kma with
      headers := s.kma.headers.erase x
      live := (class_of BIGHEADER, x) :: s.kma.live } : Kma) = mine
  have perm : s.kma.owned.Perm mine.owned := by
    subst given
    refine ((perm_cons_erase mem).map fun x => (class_of BIGHEADER, x)).append_left s.kma.live
      |>.trans ?_
    exact perm_middle
  have inv : Inv mine [] := by
    have sound := ok.whole.sound.rearranged (l := s.kma.layout []) perm
    subst given
    exact ⟨sound, ok.whole.pools.of_eq rfl rfl rfl fun _ => id, ok.whole.less⟩
  have light : Light s.kma mine := by
    subst given
    exact { Light.refl _ with }
  have shapes : mine.shapes = s.kma.shapes := by
    subst given
    rfl
  have stack : mine.stack = [] := by
    subst given
    exact idle
  have live : (class_of BIGHEADER, x) ∈ mine.live := by
    subst given
    exact mem_cons_self
  obtain ⟨kma, freed, inv', steady, accounts⟩ := kmem_free_ok inv stack (by decide) (by decide) live
  have all := (light.accounts []).trans accounts
  have calls : kma.calls = s.kma.calls := by
    rw [steady.calls, ← given]
  have big : kma.Km_BgAllocOn = s.kma.Km_BgAllocOn := by
    rw [steady.big, ← given]
  have headers : kma.headers = s.kma.headers.erase x := by
    rw [steady.headers, ← given]
  have spt : kma.spt = s.kma.spt := by
    rw [steady.spt, ← given]
  have before : ∀ u y, used_by { s with kma := kma, daemon := .looping } u = some y →
      u ≠ .structs ∧ s.used_by u = some y := by
    intro u y used
    cases u with
    | pool q =>
      obtain ⟨g, placed, kind, at_q⟩ := used_pool used
      rw [steady.shapes, shapes] at placed
      refine ⟨nofun, ?_⟩
      rw [used_by_pool placed kind]
      exact congrArg some at_q
    | setup =>
      obtain ⟨base, started⟩ := used_setup used
      rw [big] at started
      exact ⟨nofun, used_by_setup started⟩
    | structs => exact nomatch used
  unfold free_structs
  rw [if_pos mem, given, freed, map_some]
  have queue_eq : s.queue = s.Km_Idle2p := empty_queue releasing
  refine ⟨_, rfl, ⟨⟨inv', calls ▸ ok.whole.calls⟩, ?_, ⟨?_, ?_⟩, nofun, fun _ => rfl, nofun,
    spt ▸ ok.ranges⟩, ?_⟩
  · rw [empty_queue (s := ⟨_, _, _, .looping⟩) rfl]
    exact queue_eq ▸ all.books _ ok.books
  · intro u y used
    obtain ⟨other, old⟩ := before u y used
    rw [headers]
    refine (mem_erase_of_ne ?_).mpr (ok.heads.kept u y old)
    rintro rfl
    exact other (ok.heads.single u .structs y old ‹_›)
  · intro u v y first second
    exact ok.heads.single u v y (before u y first).2 (before v y second).2
  · intro newest
    rw [queue_eq] at newest
    rw [empty_queue (s := ⟨_, _, _, .looping⟩) rfl]
    exact all.newest _ newest

theorem run_daemon_ok (ok : Ok s gone) (idle : s.kma.stack = []) : ∃ t gone', s.run_daemon = some t ∧
    Ok t gone' ∧ (Newest s.kma s.queue → Newest t.kma t.queue) := by
  unfold run_daemon
  cases here : s.daemon with
  | asleep => exact ⟨_, _, rfl, copy_ok ok here⟩
  | looping =>
    have off := releasing_of here
    obtain rfl := ok.free_hand off
    unfold visit
    cases last : s.Km_Idle2p.getLast? with
    | none =>
      have none : s.Km_Idle2p = [] := List.getLast?_eq_none_iff.mp last
      have same : Freepool.queue { s with daemon := .asleep } = s.queue := by
        unfold queue
        rw [off]
        rfl
      exact ⟨_, [], rfl, ⟨ok.whole, same ▸ ok.books, ok.heads.fewer rfl rfl rfl rfl nofun, nofun,
        fun _ => rfl, fun _ => none, ok.ranges⟩, fun newest => same ▸ newest⟩
    | some pool =>
      have queued : pool ∈ s.kma.Km_Idlep ++ s.queue := by
        rw [empty_queue off]
        exact mem_append_right _ (mem_of_getLast? last)
      obtain ⟨P, found, -⟩ := ok.books.idle pool queued
      obtain ⟨regular, -⟩ := ok.whole.sound.regular pool _ (shapes_eq_some.mpr ⟨P, found, rfl⟩)
      obtain ⟨list, -⟩ := listp_eq regular rfl
      dsimp only
      rw [found, bind_some, list, map_some]
      by_cases busy : 0 < P.bp_inuse
      · rw [if_pos busy]
        obtain ⟨ok', newest⟩ := visit_busy_ok ok here last found
        refine ⟨_, _, rfl, ok', ?_⟩
        rw [empty_queue (s := ⟨_, _, _, .looping⟩) rfl]
        exact newest
      · have zero : P.bp_inuse = 0 := by
          exact BitVec.eq_of_toNat_eq (Nat.le_zero.mp (Nat.le_of_not_lt busy))
        rw [if_neg busy]
        exact ⟨_, _, rfl, visit_idle_ok ok here last found zero⟩
  | purged pool =>
    obtain ⟨t, done, after⟩ := delhash_i_ok ok here
    exact ⟨t, gone, done, after⟩
  | unhashed pool =>
    obtain ⟨t, done, after⟩ := delhash_j_ok ok here
    exact ⟨t, gone, done, after⟩
  | dehashed pool =>
    obtain ⟨t, done, after⟩ := sptfree_ok ok here
    exact ⟨t, [], done, after⟩
  | structs x =>
    obtain ⟨t, done, after⟩ := free_structs_ok ok here idle
    exact ⟨t, [], done, after⟩

/-! Runs -/

def Unhurried (s : Freepool) : Label → Prop
  | .kma l => Unqueued s.queue s.kma l
  | .freepool => True

theorem step_kept (ok : Ok s gone) {l : Label} (taken : step s l = some t) : ∃ gone', Ok t gone' ∧
    (Unhurried s l → Newest s.kma s.queue → Newest t.kma t.queue) := by
  cases l with
  | kma l =>
    obtain ⟨b, done, rfl⟩ := map_eq_some_iff.mp taken
    exact ⟨gone, kma_step_ok ok done, (step_ok ok.whole done).newest _⟩
  | freepool =>
    unfold step at taken
    dsimp only at taken
    split at taken
    · rename_i idle
      obtain ⟨u, gone', done, ok', newest⟩ := run_daemon_ok ok idle
      obtain rfl := some.inj (done.symm.trans taken)
      exact ⟨gone', ok', fun _ => newest⟩
    · exact nomatch taken

theorem ok_start : Ok start [] := by
  refine ⟨whole_empty, ⟨nofun, nodup_nil, nofun⟩, ⟨?_, ?_⟩, nofun, fun _ => rfl, fun _ => rfl,
    List.Pairwise.nil⟩
  · intro u x used
    cases u <;> exact nomatch used
  · intro u v x used
    cases u <;> exact nomatch used

theorem ok_of_run (run : exec step start labels = some s) : ∃ gone, Ok s gone :=
  exec_preserves (fun s => ∃ gone, Ok s gone)
    (fun _ _ _ ⟨_, ok⟩ taken => (step_kept ok taken).imp fun _ both => both.1) ⟨[], ok_start⟩ run

theorem newest_of_run (calm : Guarded step Unhurried start labels)
    (run : exec step start labels = some s) : Newest s.kma s.queue := by
  have both := exec_invariant (fun s => (∃ gone, Ok s gone) ∧ Newest s.kma s.queue) (by
    rintro s l t ⟨⟨gone, ok⟩, newest⟩ unhurried taken
    obtain ⟨gone', ok', kept⟩ := step_kept ok taken
    exact ⟨⟨gone', ok'⟩, kept unhurried newest⟩) ⟨⟨[], ok_start⟩, nofun⟩ calm run
  exact both.2

/-! What the invariant says -/

/-- Nothing uses the pages of the pool or refers to it. -/
structure Unused (s : Freepool) (pool : Nat) (P : BufPool) : Prop where
  pages : (pool, psize P) ∈ s.kma.spt
  live : ∀ b ∈ s.kma.live, ∀ a, Covers b.1 b.2 a → ¬ (pool ≤ a ∧ a < pool + psize P)
  headers : ∀ x ∈ s.kma.headers, ∀ a, Covers (class_of BIGHEADER) x a →
    ¬ (pool ≤ a ∧ a < pool + psize P)
  merging : ∀ m, .merge m ∈ s.kma.stack → ∀ a, Covers m.e m.bufp a →
    ¬ (pool ≤ a ∧ a < pool + psize P)
  free : ∀ e fb a, fb ∈ s.kma.bufs e → Covers e fb.addr a → ¬ (pool ≤ a ∧ a < pool + psize P)
  unions : ∀ e fb, fb ∈ s.kma.bufs e → fb.fb_union ≠ .poolp pool ∧
    ∀ w mask, fb.fb_union ≠ .mapp pool w mask
  chains : ∀ i, pool ∉ s.kma.Km_HashLists i
  idle : pool ∉ s.kma.Km_Idlep ∧ pool ∉ s.Km_Idle2p

theorem Ok.unused (ok : Ok s gone) (here : s.daemon = .dehashed pool) :
    ∃ P, s.kma.pools pool = some P ∧ Unused s pool P := by
  have releasing := releasing_of here
  obtain ⟨P, found, hand⟩ := ok.in_hand releasing
  have sound := ok.whole.sound
  obtain ⟨regular, place⟩ := sound.regular pool _ hand.placed
  obtain ⟨-, size⟩ := listp_eq regular rfl
  have proper := regular.start_le
  have chains := hand.chains
  unfold Chains at chains
  rw [here] at chains
  have range : pool + psize P = P.shape.endp := by
    omega
  -- whatever is in the pool is in the hands of kmem_freepool
  have outside : ∀ q g e x, s.kma.shapes q = some g → g.Holds e x → ∀ a, Covers e x a →
      1 ≤ cover s.kma.owned a + cover (hands (merges_of s.kma.stack)) a + free_cover s.kma.bufs a →
      ¬ (pool ≤ a ∧ a < pool + psize P) := by
    rintro q g e x there holds a inside covered ⟨above, below⟩
    obtain ⟨above', below'⟩ := holds.within (sound.regular q g there).1 inside
    obtain rfl : q = pool := sound.separate q g pool _ a there hand.placed above' below'
      (place ▸ above) (range ▸ below)
    obtain rfl := some.inj (hand.placed.symm.trans there)
    have mine := hand.all a (le_trans holds.after inside.1) below'
    have once := sound.once a
    change cover (gone ++ s.kma.owned) a + cover (hands (merges_of s.kma.stack)) a +
      free_cover s.kma.bufs a ≤ 1 at once
    rw [cover_append] at once
    omega
  have owned : ∀ b ∈ s.kma.owned, ∀ a, Covers b.1 b.2 a → ¬ (pool ≤ a ∧ a < pool + psize P) := by
    intro b mem a inside
    obtain ⟨q, g, there, holds⟩ := sound.owned b (mem_append_right gone mem)
    have covered := cover_pos mem inside
    exact outside q g b.1 b.2 there holds a inside (by omega)
  have free : ∀ e fb a, fb ∈ s.kma.bufs e → Covers e fb.addr a →
      ¬ (pool ≤ a ∧ a < pool + psize P) := by
    intro e fb a mem inside
    obtain ⟨q, g, there, holds, -⟩ := (sound.free e fb mem).placed
    have covered : 1 ≤ free_cover s.kma.bufs a := free_cover_pos (sound.class_lt mem) mem inside
    exact outside q g e fb.addr there holds a inside (by omega)
  obtain ⟨-, off⟩ := without_books ok hand 0 releasing
  rw [mem_append, not_or] at off
  refine ⟨P, found, ⟨?_, ?_, ?_, ?_, free, ?_, chains, off⟩⟩
  · have kept := ok.whole.pools.kept pool _ hand.placed
    rwa [← size, place] at kept
  · exact fun b mem => owned b (mem_append_left _ mem)
  · exact fun x mem => owned _ (mem_append_right _ (mem_map.mpr ⟨x, mem, rfl⟩))
  · intro m mem a inside
    have listed : m ∈ merges_of s.kma.stack := mem_merges_of.mpr mem
    obtain ⟨g, there, holds, -⟩ := (sound.merging m listed).placed
    have covered := hand_pos listed inside
    exact outside m.pool g m.e m.bufp there holds a inside (by omega)
  · -- a free buffer names the pool it is in
    intro e fb mem
    obtain ⟨q, g, there, holds, union⟩ := (sound.free e fb mem).placed
    have other : q ≠ pool := by
      rintro rfl
      obtain ⟨above, below⟩ := holds.within (sound.regular q g there).1 (covers_self e fb.addr)
      obtain rfl := some.inj (hand.placed.symm.trans there)
      exact free e fb fb.addr mem (covers_self e fb.addr) ⟨place ▸ above, range ▸ below⟩
    refine ⟨?_, ?_⟩
    · intro same
      rw [same] at union
      exact other union.2.symm
    · intro w mask same
      rw [same] at union
      exact other union.2.1.symm

theorem range_once {spt : List (Nat × Nat)} {r : Nat × Nat} (apart : spt.Pairwise Apart)
    (size : 0 < r.2) : r ∉ spt.erase r := by
  intro twice
  have perm := perm_cons_erase (mem_of_mem_erase twice)
  have symm : ∀ {r r'}, Apart r r' → Apart r' r := Or.symm
  have self := (pairwise_cons.mp ((perm.pairwise_iff symm).mp apart)).1 r twice
  unfold Apart at self
  omega

theorem psize_pos (P : BufPool) : 0 < psize P := by
  unfold psize
  split <;> decide

structure Safe (s : Freepool) : Prop where
  counts : ∀ pool P, s.kma.pools pool = some P → s.releasing ≠ some pool →
    P.bp_inuse.toNat = (P.shape.slots.filter fun x =>
      decide (x ∉ (s.kma.bufs P.shape.largest).map FreeBuf.addr)).length
  unused : ∀ pool, s.daemon = .dehashed pool → ∃ P, s.kma.pools pool = some P ∧ Unused s pool P
  once : ∀ pool P t, s.daemon = .dehashed pool → s.kma.pools pool = some P →
    step s .freepool = some t → t.kma.pools pool = none ∧ (pool, psize P) ∉ t.kma.spt
  goes_on : s.kma.stack = [] → ∃ t, step s .freepool = some t

theorem Ok.safe (ok : Ok s gone) : Safe s := by
  refine ⟨?_, fun pool here => ok.unused here, ?_, ?_⟩
  · intro pool P found other
    rw [ok.books.counts pool P found]
    congr 1
    apply filter_congr
    intro x mem
    apply decide_eq_decide.mpr
    have away : (P.shape.largest, x) ∉ gone := by
      intro listed
      cases releasing : s.releasing with
      | none =>
        rw [ok.free_hand releasing] at listed
        exact nomatch listed
      | some q =>
        obtain ⟨h, hand⟩ := ok.hand q releasing
        obtain rfl := slot_apart ok.whole.sound.toRanges hand.placed
          (shapes_eq_some.mpr ⟨P, found, rfl⟩) (hand.own _ listed) mem
        exact other releasing
    simp [away]
  · intro pool P t here found taken
    unfold step run_daemon sptfree at taken
    simp only [here, found, map_some] at taken
    split at taken
    · obtain rfl := some.inj taken
      refine ⟨update_self .., ?_⟩
      intro still
      exact range_once ok.ranges (psize_pos P) still
    · exact nomatch taken
  · intro idle
    obtain ⟨t, -, done, -⟩ := run_daemon_ok ok idle
    refine ⟨t, ?_⟩
    unfold step
    rw [if_pos idle]
    exact done

/-- Pages are given back safely in every state, and not those of the newest pools unless one was
queued before it became the newest. -/
theorem release_safe {labels : List Label} (run : exec step start labels = some s) : Safe s ∧
    (Guarded step Unhurried start labels → ∀ pool, s.daemon = .dehashed pool →
      s.kma.Km_NewSmall ≠ some pool ∧ s.kma.Km_NewBig ≠ some pool) := by
  obtain ⟨gone, ok⟩ := ok_of_run run
  refine ⟨ok.safe, ?_⟩
  intro calm pool here
  refine newest_of_run calm run pool ?_
  unfold queue
  rw [releasing_of here]
  exact mem_append_right _ (mem_append_right _ mem_cons_self)

instance Unhurried.decidable (s : Freepool) : ∀ l, Decidable (Unhurried s l)
  | .kma (.publish c) =>
      match acts : s.kma.calls c with
      | [] => isTrue fun _ _ here => nomatch acts.symm.trans here
      | act :: rest => decidable_of_iff
          (∀ pool ∈ published s.kma act, pool ∉ s.kma.Km_Idlep ++ s.queue)
          ⟨fun off act' rest' here => by
            obtain ⟨rfl, -⟩ := List.cons.inj (acts.symm.trans here)
            exact off, fun off => off act rest acts⟩
  | .kma (.kmem_alloc _ _ _) | .kma (.search _) | .kma (.newpool _ _) | .kma (.sptalloc _ _)
  | .kma (.setup _) | .kma (.wake _) | .kma (.kmem_free _ _) | .kma .coalesce | .freepool =>
    isTrue trivial

/-- Two calls want a small pool. The second makes the first pool idle when it is not the newest any
more. -/
def turns : List Label :=
  [.kma (.kmem_alloc 0 256 false), .kma (.search 0), .kma (.kmem_alloc 1 256 false),
    .kma (.search 1), .kma (.newpool 0 true), .kma (.newpool 1 true),
    .kma (.sptalloc 0 (some 4096)), .kma (.publish 0), .kma (.search 0), .kma (.wake 1),
    .kma (.newpool 1 true), .kma (.sptalloc 1 (some 8192)), .kma (.publish 1),
    .kma (.kmem_free 7936 256), .freepool, .freepool, .freepool, .freepool]

theorem turns_run : (exec step start turns).map (fun s => s.daemon) = some (.dehashed 4096) := by
  decide +kernel

theorem release_safe_turns : ∃ s, exec step start turns = some s ∧ s.daemon = .dehashed 4096 ∧
    Safe s ∧ s.kma.Km_NewSmall ≠ some 4096 ∧ s.kma.Km_NewBig ≠ some 4096 := by
  obtain ⟨s, run, here⟩ := map_eq_some_iff.mp turns_run
  have safe := release_safe run
  exact ⟨s, run, here, safe.1, safe.2 (by decide +kernel) 4096 here⟩

def hasty : List Label :=
  [.kma (.kmem_alloc 0 256 false), .kma (.search 0), .kma (.newpool 0 true),
    .kma (.sptalloc 0 (some 4096)), .kma (.kmem_alloc 1 256 true), .kma (.search 1),
    .kma (.kmem_free 7936 256), .kma (.publish 0), .freepool, .freepool, .freepool, .freepool]

theorem hasty_run : (exec step start hasty).map (fun s =>
    (s.daemon, s.kma.Km_NewSmall, (s.kma.pools 4096).map fun P => (P.bp_inuse.toNat,
      (P.shape.slots.filter fun x =>
        decide (x ∉ (s.kma.bufs P.shape.largest).map FreeBuf.addr)).length))) =
    some (.dehashed 4096, some 4096, some (0, 14)) := by
  decide +kernel

/-- The pool about to be released is the newest small pool, its buffers neither listed nor counted.
-/
theorem newest_is_released : ∃ s pool P, exec step start hasty = some s ∧
    s.daemon = .dehashed pool ∧ s.kma.Km_NewSmall = some pool ∧ s.kma.pools pool = some P ∧
    P.bp_inuse.toNat ≠ (P.shape.slots.filter fun x =>
      decide (x ∉ (s.kma.bufs P.shape.largest).map FreeBuf.addr)).length := by
  obtain ⟨s, run, seen⟩ := map_eq_some_iff.mp hasty_run
  obtain ⟨here, seen⟩ := Prod.mk.inj seen
  obtain ⟨newest, counts⟩ := Prod.mk.inj seen
  obtain ⟨P, found, pair⟩ := map_eq_some_iff.mp counts
  obtain ⟨inuse, off⟩ := Prod.mk.inj pair
  refine ⟨s, 4096, P, run, here, newest, found, ?_⟩
  rw [inuse, off]
  decide

/-- No pool is idle twice, what waits to be released is marked idle, nothing waits when the daemon
sleeps, and ranges given back do not overlap. -/
theorem idle_pools_kept (run : exec step start labels = some s) :
    (s.kma.Km_Idlep ++ s.queue).Nodup ∧
      (∀ pool ∈ s.kma.Km_Idlep ++ s.queue, ∃ P, s.kma.pools pool = some P ∧ P.bp_idle = true) ∧
      (s.daemon = .asleep → s.Km_Idle2p = []) ∧ s.kma.spt.Pairwise Apart := by
  obtain ⟨gone, ok⟩ := ok_of_run run
  exact ⟨ok.books.queued, ok.books.idle, ok.rested, ok.ranges⟩

theorem idle_pools_kept_turns : ∃ s, exec step start turns = some s ∧
    (s.kma.Km_Idlep ++ s.queue).Nodup := by
  obtain ⟨s, run, -⟩ := map_eq_some_iff.mp turns_run
  exact ⟨s, run, (idle_pools_kept run).1⟩

end Freepool
end KernelMemory
