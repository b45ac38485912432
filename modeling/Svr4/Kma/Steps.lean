import Svr4.Kma.Moves

/- The layout of a state of the allocator, and what the pieces of kmem_alloc, kmem_free and
   kmem_coalesce do to it. None of them fails where the invariant holds. -/
namespace KernelMemory
open Function DyadicBlocks Layout Option

def Kma.shapes (s : Kma) (pool : Nat) : Option Shape := (s.pools pool).map BufPool.shape

def Kma.bit (s : Kma) (pool a : Nat) : Bool := (s.pools pool).any fun P => P.bit a

def merges_of : List Frame → List Merge
  | [] => []
  | .merge m :: rest => m :: merges_of rest
  | .again _ :: rest => merges_of rest

def Kma.owned (s : Kma) : List (Nat × Nat) :=
  s.live ++ s.headers.map fun x => (class_of BIGHEADER, x)

/-- `held` are buffers that the code at hand has in its variables. -/
def Kma.layout (s : Kma) (held : List (Nat × Nat)) : Layout :=
  ⟨s.shapes, s.bit, s.bufs, held ++ s.owned, merges_of s.stack⟩

/-- The pages of kmem_allocbpool while it has no pool there. -/
def Kma.region (s : Kma) : Option Nat :=
  match s.Km_BgAllocOn with
  | some (.header base) => some base
  | some (.setup base _) => some base
  | _ => none

/-- What the tables say of the pools. `gone` has the buffers of a pool being released, which need
not be hashed. -/
structure Pools (s : Kma) (gone : List (Nat × Nat)) : Prop where
  hashed : ∀ pool h a, s.shapes pool = some h → h.start ≤ a → a < h.endp → cover gone a = 0 →
    pool ∈ s.Km_HashLists (HASH a)
  listed : ∀ i, (s.Km_HashLists i).Nodup ∧ ∀ pool ∈ s.Km_HashLists i, ∃ h, s.shapes pool = some h ∧
    (i = HASH h.alignp ∨ i = HASH (h.endp - 1))
  kept : ∀ pool h, s.shapes pool = some h → (h.alignp, h.endp - h.alignp) ∈ s.spt
  pending : ∀ base, s.region = some base → 0 < base ∧ PAGESIZE ∣ base ∧ (base, BIGBYTES) ∈ s.spt ∧
    ∀ pool h, s.shapes pool = some h → base + BIGBYTES ≤ h.alignp ∨ h.endp ≤ base

/-- `t` differs from `s` at most in the freelists, the bitmaps and the counters of pools. -/
structure Same (s t : Kma) : Prop where
  shapes : t.shapes = s.shapes
  hash : t.Km_HashLists = s.Km_HashLists
  big : t.Km_BgAllocOn = s.Km_BgAllocOn
  spt : t.spt = s.spt
  live : t.live = s.live
  headers : t.headers = s.headers
  calls : t.calls = s.calls
  stack : t.stack = s.stack

variable {s t u : Kma} {held gone : List (Nat × Nat)} {pool e g x a : Nat} {h : Shape} {fb : FreeBuf}

theorem Same.refl (s : Kma) : Same s s := ⟨rfl, rfl, rfl, rfl, rfl, rfl, rfl, rfl⟩

theorem Same.trans (first : Same s t) (second : Same t u) : Same s u where
  shapes := second.shapes.trans first.shapes
  hash := second.hash.trans first.hash
  big := second.big.trans first.big
  spt := second.spt.trans first.spt
  live := second.live.trans first.live
  headers := second.headers.trans first.headers
  calls := second.calls.trans first.calls
  stack := second.stack.trans first.stack

/-- `t` has the pools of `s`, their chains, pages and headers, and the same calls active. -/
structure Steady (s t : Kma) : Prop where
  shapes : t.shapes = s.shapes
  hash : t.Km_HashLists = s.Km_HashLists
  big : t.Km_BgAllocOn = s.Km_BgAllocOn
  spt : t.spt = s.spt
  headers : t.headers = s.headers
  calls : t.calls = s.calls

theorem Same.steady (same : Same s t) : Steady s t :=
  { same with }

theorem Same.owned (same : Same s t) : t.owned = s.owned := by
  unfold Kma.owned
  rw [same.live, same.headers]

theorem Pools.of_eq (pools : Pools s gone) (shapes : t.shapes = s.shapes)
    (hash : t.Km_HashLists = s.Km_HashLists) (spt : t.spt = s.spt)
    (region : ∀ base, t.region = some base → s.region = some base) : Pools t gone := by
  refine ⟨?_, ?_, ?_, ?_⟩
  · rw [shapes, hash]
    exact pools.hashed
  · rw [shapes, hash]
    exact pools.listed
  · rw [shapes, spt]
    exact pools.kept
  · rw [shapes, spt]
    exact fun base started => pools.pending base (region base started)

theorem Same.region (same : Same s t) : t.region = s.region := by
  unfold Kma.region
  rw [same.big]

theorem Same.pools (same : Same s t) (pools : Pools s gone) : Pools t gone :=
  pools.of_eq same.shapes same.hash same.spt fun _ started => same.region ▸ started

theorem Same.layout (same : Same s t) (held : List (Nat × Nat)) :
    t.layout held = ⟨s.shapes, t.bit, t.bufs, held ++ s.owned, merges_of s.stack⟩ := by
  unfold Kma.layout
  rw [same.shapes, same.owned, same.stack]

/-! Pools -/

theorem shapes_eq_some : s.shapes pool = some h ↔ ∃ P, s.pools pool = some P ∧ P.shape = h := by
  exact map_eq_some_iff

variable {bufs : List FreeBuf} {P P' : BufPool}

theorem pools_setPool (q : Nat) :
    (s.setPool pool P).pools q = if q = pool then some P else s.pools q := by
  exact update_apply ..

theorem shapes_setPool (here : s.pools pool = some P) (shape : P'.shape = P.shape) :
    (s.setPool pool P').shapes = s.shapes := by
  funext q
  unfold Kma.shapes Kma.setPool
  by_cases same : q = pool
  · subst same
    simp [here, shape]
  · simp [same]

theorem bit_setPool (q a : Nat) :
    (s.setPool pool P').bit q a = if q = pool then P'.bit a else s.bit q a := by
  unfold Kma.bit Kma.setPool
  by_cases same : q = pool
  · subst same
    simp
  · simp [same]

theorem bit_of_pool (here : s.pools pool = some P) (a : Nat) : s.bit pool a = P.bit a := by
  unfold Kma.bit
  rw [here]
  rfl

theorem bit_setWord (ranges : Ranges s.shapes) (here : s.pools pool = some P)
    (holds : P.shape.Holds e x) {word : BitVec 32} (change : Bool → Bool → Bool)
    (keep : ∀ b, change b false = b)
    (bits : ∀ a, P.shape.alignp ≤ a →
      (P.setWord (P.shape.word x) word).bit a = change (P.bit a) (decide (Covers e x a))) :
    ∀ q g a, s.shapes q = some g → g.alignp ≤ a → a < g.endp →
      (s.setPool pool (P.setWord (P.shape.word x) word)).bit q a =
        change (s.bit q a) (decide (Covers e x a)) := by
  intro q g a placed above below
  rw [bit_setPool]
  by_cases same : q = pool
  · subst same
    obtain ⟨P', here', rfl⟩ := shapes_eq_some.mp placed
    obtain rfl : P = P' := some.inj (here.symm.trans here')
    rw [if_pos rfl, bits a above, bit_of_pool here]
  · have outside : ¬ Covers e x a := by
      intro inside
      have mine : s.shapes pool = some P.shape := shapes_eq_some.mpr ⟨P, here, rfl⟩
      obtain ⟨above', below'⟩ := holds.within (ranges.regular pool _ mine).1 inside
      exact same (ranges.separate q g pool _ a placed mine above below above' below')
    rw [if_neg same, decide_eq_false outside, keep]

theorem mark_ok (ranges : Ranges s.shapes) (placed : s.shapes pool = some h)
    (holds : h.Holds e x) : ∃ t, mark s pool (h.word x) (h.mask e x) = some t ∧ Same s t ∧
      t.bufs = s.bufs ∧ ∀ q g a, s.shapes q = some g → g.alignp ≤ a → a < g.endp →
        t.bit q a = (s.bit q a || decide (Covers e x a)) := by
  obtain ⟨P, here, rfl⟩ := shapes_eq_some.mp placed
  have regular := (ranges.regular pool _ placed).1
  refine ⟨s.setPool pool (P.setWord (P.shape.word x) (P.bp_bitmapp (P.shape.word x) |||
    P.shape.mask e x)), ?_, ?_, rfl, ?_⟩
  · unfold mark
    rw [here]
    rfl
  · exact ⟨shapes_setPool here rfl, rfl, rfl, rfl, rfl, rfl, rfl, rfl⟩
  · exact bit_setWord ranges here holds or Bool.or_false
      fun a above => BufPool.bit_or regular holds above

theorem unmark_ok (ranges : Ranges s.shapes) (placed : s.shapes pool = some h)
    (holds : h.Holds e x) : ∃ t, unmark s pool (h.word x) (h.mask e x) = some t ∧ Same s t ∧
      t.bufs = s.bufs ∧ ∀ q g a, s.shapes q = some g → g.alignp ≤ a → a < g.endp →
        t.bit q a = (s.bit q a && !decide (Covers e x a)) := by
  obtain ⟨P, here, rfl⟩ := shapes_eq_some.mp placed
  have regular := (ranges.regular pool _ placed).1
  refine ⟨s.setPool pool (P.setWord (P.shape.word x) (P.bp_bitmapp (P.shape.word x) &&&
    ~~~P.shape.mask e x)), ?_, ?_, rfl, ?_⟩
  · unfold unmark
    rw [here]
    rfl
  · exact ⟨shapes_setPool here rfl, rfl, rfl, rfl, rfl, rfl, rfl, rfl⟩
  · exact bit_setWord ranges here holds (fun b own => b && !own)
      (fun b => by rw [Bool.not_false, Bool.and_true])
      fun a above => BufPool.bit_andnot regular holds above

theorem bit_counted (here : s.pools pool = some P) (shape : P'.shape = P.shape)
    (bitmap : P'.bp_bitmapp = P.bp_bitmapp) : (s.setPool pool P').bit = s.bit := by
  funext q a
  rw [bit_setPool]
  by_cases same : q = pool
  · subst same
    rw [if_pos rfl, bit_of_pool here]
    unfold BufPool.bit
    rw [shape, bitmap]
  · rw [if_neg same]

theorem use_pool_ok (placed : s.shapes pool = some h) :
    ∃ t, use_pool s pool = some t ∧ Same s t ∧ t.bufs = s.bufs ∧ t.bit = s.bit := by
  obtain ⟨P, here, -⟩ := shapes_eq_some.mp placed
  refine ⟨s.setPool pool { P with bp_inuse := P.bp_inuse + 1 }, ?_, ?_, rfl, ?_⟩
  · unfold use_pool
    rw [here]
    rfl
  · exact ⟨shapes_setPool here rfl, rfl, rfl, rfl, rfl, rfl, rfl, rfl⟩
  · exact bit_counted here rfl rfl

theorem release_pool_ok (placed : s.shapes pool = some h) :
    ∃ t, release_pool s pool = some t ∧ Same s t ∧ t.bufs = s.bufs ∧ t.bit = s.bit := by
  obtain ⟨P, here, -⟩ := shapes_eq_some.mp placed
  unfold release_pool
  rw [here, map_some]
  refine ⟨_, rfl, ?_⟩
  dsimp only
  split
  · refine ⟨⟨shapes_setPool here rfl, rfl, rfl, rfl, rfl, rfl, rfl, rfl⟩, rfl, ?_⟩
    exact bit_counted here rfl rfl
  · refine ⟨⟨shapes_setPool here rfl, rfl, rfl, rfl, rfl, rfl, rfl, rfl⟩, rfl, ?_⟩
    exact bit_counted here rfl rfl

theorem lookup_ok (ranges : Ranges s.shapes) (pools : Pools s gone)
    (placed : s.shapes pool = some h) (after : h.start ≤ a) (below : a < h.endp)
    (left : cover gone a = 0) : LOOKUP s a = some pool := by
  have above := Nat.le_trans (ranges.regular pool h placed).1.start_le.1 after
  obtain ⟨P, here, rfl⟩ := shapes_eq_some.mp placed
  have valid : VALID s a pool = true := by
    unfold VALID
    rw [here]
    simp only [any_some, Bool.and_eq_true, decide_eq_true_eq]
    exact ⟨above, below⟩
  have listed := pools.hashed pool _ a placed after below left
  unfold LOOKUP
  cases found : (s.Km_HashLists (HASH a)).find? (VALID s a) with
  | none =>
    have := List.find?_eq_none.mp found pool listed
    exact absurd valid this
  | some q =>
    have right := List.find?_some found
    obtain ⟨Q, hereQ, inside⟩ := (any_eq_true _ _).mp right
    simp only [Bool.and_eq_true, decide_eq_true_eq] at inside
    have placedQ : s.shapes q = some Q.shape := shapes_eq_some.mpr ⟨Q, hereQ, rfl⟩
    rw [ranges.separate q _ pool _ a placedQ placed inside.1 inside.2 above below]

def start_of (h : Shape) (pool e x : Nat) : Merge :=
  ⟨x, e, pool, h.word x, h.index x, h.mask e x, (e, x)⟩

theorem coalesce_start_ok (ranges : Ranges s.shapes) (pools : Pools s gone)
    (placed : s.shapes pool = some h) (holds : h.Holds e x) (left : cover gone x = 0) :
    coalesce_start s x e = some (start_of h pool e x) := by
  have below := (holds.within (ranges.regular pool h placed).1 (covers_self e x)).2
  obtain ⟨P, here, rfl⟩ := shapes_eq_some.mp placed
  unfold coalesce_start
  rw [lookup_ok ranges pools placed holds.after below left, bind_some, here]
  rfl

/-! Freelists -/

theorem bufs_setBufs (e : Nat) (bufs : List FreeBuf) :
    (s.setBufs e bufs).bufs = update s.bufs e bufs := by
  funext f
  unfold Kma.bufs Kma.setBufs
  by_cases same : f = e
  · subst same
    simp
  · simp [same]

theorem bufs_setSlack (e : Nat) (slack : BitVec 32) : (s.setSlack e slack).bufs = s.bufs := by
  funext f
  unfold Kma.bufs Kma.setSlack
  by_cases same : f = e
  · subst same
    simp [Kma.bufs]
  · simp [same]

theorem layout_setSlack (e : Nat) (slack : BitVec 32) (held : List (Nat × Nat)) :
    (s.setSlack e slack).layout held = s.layout held := by
  unfold Kma.layout
  rw [bufs_setSlack]
  rfl

theorem moved_of_perm (perm : (s.bufs e).Perm (fb :: bufs)) :
    Moved e fb (s.setBufs e bufs).bufs s.bufs := by
  rw [bufs_setBufs]
  constructor
  · rw [update_self]
    exact perm
  · intro f ne
    rw [update_of_ne ne]

theorem moved_onto (perm : bufs.Perm (fb :: s.bufs e)) :
    Moved e fb s.bufs (s.setBufs e bufs).bufs := by
  rw [bufs_setBufs]
  constructor
  · rw [update_self]
    exact perm
  · intro f ne
    rw [update_of_ne ne]

theorem moved_HEADFREE : Moved e fb s.bufs (HEADFREE s e fb).bufs := moved_onto (List.Perm.refl _)

theorem moved_TAILFREE : Moved e fb s.bufs (TAILFREE s e fb).bufs :=
  moved_onto (List.perm_append_singleton fb (s.bufs e))

theorem moved_UNLINKHEAD (head : s.bufs e = fb :: bufs) :
    Moved e fb (UNLINKHEAD s e).bufs s.bufs := by
  apply moved_of_perm
  rw [head]
  exact List.Perm.refl _

theorem same_setBufs (e : Nat) (bufs : List FreeBuf) : Same s (s.setBufs e bufs) :=
  ⟨rfl, rfl, rfl, rfl, rfl, rfl, rfl, rfl⟩

theorem same_setSlack (e : Nat) (slack : BitVec 32) : Same s (s.setSlack e slack) :=
  ⟨rfl, rfl, rfl, rfl, rfl, rfl, rfl, rfl⟩

end KernelMemory
