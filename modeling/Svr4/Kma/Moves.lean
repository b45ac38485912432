import Svr4.Kma.Bitmap

/- The ways a buffer changes hands: what each does to the layout, and that it keeps the
   invariant. -/
namespace KernelMemory
open Function DyadicBlocks List
namespace Layout

variable {l l' : Layout} {e x a : Nat} {fb : FreeBuf} {lists : Nat → List FreeBuf}
  {rest : List (Nat × Nat)} {merges : List Merge} {m : Merge} {bit : Nat → Nat → Bool}

def FbUnion.unmarked : FbUnion → Prop
  | .mapp _ _ _ => False
  | _ => True

theorem Moved.marked_iff (moved : Moved e fb l.bufs lists) (unmarked : FbUnion.unmarked fb.fb_union)
    (f y : Nat) : Marked { l with bufs := lists } f y ↔ l.Marked f y := by
  constructor
  · rintro ⟨pool, w, mask, mem⟩
    rcases moved.mem_iff.mp mem with ⟨-, rfl⟩ | mem
    · exact unmarked.elim
    · exact ⟨pool, w, mask, mem⟩
  · rintro ⟨pool, w, mask, mem⟩
    exact ⟨pool, w, mask, moved.mem_iff.mpr (.inr mem)⟩

theorem clear_iff (marked : ∀ f y, l'.Marked f y ↔ l.Marked f y) (merges : l'.merges = l.merges)
    (a : Nat) : l'.Clear a ↔ l.Clear a := by
  unfold Clear
  rw [merges]
  simp only [marked]

section
variable (sound : l.Sound)
include sound

theorem Sound.rearranged (perm : l.owned.Perm rest) : Sound { l with owned := rest } where
  toRanges := sound.toRanges
  owned := fun b mem => sound.owned b (perm.mem_iff.mpr mem)
  free := sound.free
  merging := sound.merging
  once := fun a => by
    have once := sound.once a
    unfold coverage at once ⊢
    rw [← cover_perm perm]
    exact once
  single := sound.single
  bits := sound.bits

theorem Sound.forget (mine : l.owned = (e, x) :: rest) : Sound { l with owned := rest } where
  toRanges := sound.toRanges
  owned := fun b mem => sound.owned b (mine ▸ mem_cons_of_mem _ mem)
  free := sound.free
  merging := sound.merging
  once := fun a => by
    have once := sound.once a
    unfold coverage at once ⊢
    rw [mine, cover_cons] at once
    dsimp only
    omega
  single := sound.single
  bits := sound.bits

theorem Sound.put (mine : l.owned = (e, fb.addr) :: rest) (moved : Moved e fb l.bufs lists)
    (ok : FreeOk l.shapes e fb) (unmarked : FbUnion.unmarked fb.fb_union) :
    Sound { l with bufs := lists, owned := rest } := by
  have marked := moved.marked_iff unmarked
  have bound : e < 13 := by
    obtain ⟨pool, h, placed, holds, -⟩ := ok.placed
    have := ((sound.regular pool h placed).1.classes holds.low holds.high).2.2.2.2.2
    omega
  refine ⟨sound.toRanges, ?_, ?_, sound.merging, ?_, ?_, ?_⟩
  · intro b mem
    exact sound.owned b (mine ▸ mem_cons_of_mem _ mem)
  · intro f fb' mem
    rcases moved.mem_iff.mp mem with ⟨rfl, rfl⟩ | mem
    · exact ok
    · exact sound.free f fb' mem
  · intro a
    have once := sound.once a
    unfold coverage at once ⊢
    rw [mine, cover_cons] at once
    rw [moved.free_cover bound a]
    dsimp only
    omega
  · intro f y hf hb
    exact sound.single f y ((marked f y).mp hf) ((marked f _).mp hb)
  · intro pool h a placed above below
    rw [sound.bits pool h a placed above below]
    exact (clear_iff marked rfl a).symm

theorem Sound.take (moved : Moved e fb lists l.bufs) (unmarked : FbUnion.unmarked fb.fb_union) :
    Sound { l with bufs := lists, owned := (e, fb.addr) :: l.owned } := by
  have mem : fb ∈ l.bufs e := moved.mem_iff.mpr (.inl ⟨rfl, rfl⟩)
  have marked : ∀ f y, l.Marked f y ↔ Marked { l with bufs := lists } f y :=
    Moved.marked_iff (l := { l with bufs := lists }) moved unmarked
  refine ⟨sound.toRanges, ?_, ?_, sound.merging, ?_, ?_, ?_⟩
  · intro b listed
    rcases mem_cons.mp listed with rfl | listed
    · obtain ⟨pool, h, placed, holds, -⟩ := (sound.free e fb mem).placed
      exact ⟨pool, h, placed, holds⟩
    · exact sound.owned b listed
  · intro f fb' mem
    exact sound.free f fb' (moved.mem_iff.mpr (.inr mem))
  · intro a
    have once := sound.once a
    unfold coverage at once ⊢
    rw [moved.free_cover (sound.class_lt mem) a] at once
    rw [cover_cons]
    dsimp only
    omega
  · intro f y hf hb
    exact sound.single f y ((marked f y).mpr hf) ((marked f _).mpr hb)
  · intro pool h a placed above below
    rw [sound.bits pool h a placed above below]
    exact clear_iff marked rfl a

/-- Setting the bits of a buffer that has become owned makes them right again. -/
theorem bits_of_set (mine : (e, x) ∈ l'.owned) (once : ∀ a, l'.coverage a ≤ 1)
    (shapes : l'.shapes = l.shapes) (bound : ∀ f fb, fb ∈ l'.bufs f → f < 13)
    (fewer : ∀ a, l'.Clear a → l.Clear a) (others : ∀ a, l.Clear a → ¬ Covers e x a → l'.Clear a)
    (set : ∀ pool h a, l.shapes pool = some h → h.alignp ≤ a → a < h.endp → l'.bit pool a = (l.bit
      pool a || decide (Covers e x a))) :
    ∀ pool h a, l'.shapes pool = some h → h.alignp ≤ a → a < h.endp →
      (l'.bit pool a = false ↔ l'.Clear a) := by
  intro pool h a placed above below
  rw [shapes] at placed
  rw [set pool h a placed above below, Bool.or_eq_false_iff, decide_eq_false_iff_not,
    sound.bits pool h a placed above below]
  constructor
  · intro ⟨clear, outside⟩
    exact others a clear outside
  · intro clear
    refine ⟨fewer a clear, ?_⟩
    intro inside
    rcases clear with ⟨f, y, ⟨pool, w, mask, mem⟩, ha⟩ | ⟨m, hm, ha, -⟩
    · exact owned_not_free (once a) mine (bound f _ mem) mem inside ha
    · exact owned_not_merge (once a) mine hm inside ha

theorem Sound.take_marked (moved : Moved e fb lists l.bufs)
    (set : ∀ pool h a, l.shapes pool = some h → h.alignp ≤ a → a < h.endp → bit pool a = (l.bit
      pool a || decide (Covers e fb.addr a))) :
    Sound { l with bit := bit, bufs := lists, owned := (e, fb.addr) :: l.owned } := by
  have mem : fb ∈ l.bufs e := moved.mem_iff.mpr (.inl ⟨rfl, rfl⟩)
  have once : ∀ a, coverage ⟨l.shapes, bit, lists, (e, fb.addr) :: l.owned, l.merges⟩ a ≤ 1 := by
    intro a
    have once := sound.once a
    unfold coverage at once ⊢
    rw [moved.free_cover (sound.class_lt mem) a] at once
    rw [cover_cons]
    dsimp only
    omega
  refine ⟨sound.toRanges, ?_, ?_, sound.merging, once, ?_, ?_⟩
  · intro b listed
    rcases mem_cons.mp listed with rfl | listed
    · obtain ⟨pool, h, placed, holds, -⟩ := (sound.free e fb mem).placed
      exact ⟨pool, h, placed, holds⟩
    · exact sound.owned b listed
  · intro f fb' mem
    exact sound.free f fb' (moved.mem_iff.mpr (.inr mem))
  · rintro f y ⟨p, w, k, hf⟩ ⟨p', w', k', hb⟩
    exact sound.single f y ⟨p, w, k, moved.mem_iff.mpr (.inr hf)⟩
      ⟨p', w', k', moved.mem_iff.mpr (.inr hb)⟩
  · apply bits_of_set sound (mem_cons_self) once rfl
    · intro f fb' listed
      exact sound.class_lt (moved.mem_iff.mpr (.inr listed))
    · rintro a (⟨f, y, ⟨p, w, k, hf⟩, ha⟩ | hand)
      · exact .inl ⟨f, y, ⟨p, w, k, moved.mem_iff.mpr (.inr hf)⟩, ha⟩
      · exact .inr hand
    · rintro a (⟨f, y, ⟨p, w, k, hf⟩, ha⟩ | hand) outside
      · rcases moved.mem_iff.mp hf with ⟨rfl, rfl⟩ | hf
        · exact absurd ha outside
        · exact .inl ⟨f, y, ⟨p, w, k, hf⟩, ha⟩
      · exact .inr hand
    · exact set

theorem Sound.start (mine : l.owned = (m.e, m.bufp) :: rest) (ok : MergeOk l.shapes m)
    (new : m.first = (m.e, m.bufp)) :
    Sound { l with owned := rest, merges := m :: l.merges } := by
  refine ⟨sound.toRanges, ?_, sound.free, ?_, ?_, sound.single, ?_⟩
  · intro b mem
    exact sound.owned b (mine ▸ mem_cons_of_mem _ mem)
  · intro m' mem
    rcases mem_cons.mp mem with rfl | mem
    · exact ok
    · exact sound.merging m' mem
  · intro a
    have once := sound.once a
    unfold coverage at once ⊢
    rw [mine, cover_cons] at once
    rw [hands_cons, cover_cons]
    dsimp only
    omega
  · intro pool h a placed above below
    rw [sound.bits pool h a placed above below]
    constructor
    · rintro (free | ⟨m', mem, hand⟩)
      · exact .inl free
      · exact .inr ⟨m', mem_cons_of_mem _ mem, hand⟩
    · rintro (free | ⟨m', mem, ha, outside⟩)
      · exact .inl free
      · rcases mem_cons.mp mem with rfl | mem
        · rw [new] at outside
          exact absurd ha outside
        · exact .inr ⟨m', mem, ha, outside⟩

/-- kmem_coalesce ends with a buffer that is not marked: its bits are set, and it can go on its
list. -/
theorem Sound.keep (top : l.merges = m :: merges)
    (set : ∀ pool h a, l.shapes pool = some h → h.alignp ≤ a → a < h.endp → bit pool a = (l.bit
      pool a || decide (Covers m.e m.bufp a))) :
    Sound { l with bit := bit, owned := (m.e, m.bufp) :: l.owned, merges := merges } := by
  have once : ∀ a, coverage ⟨l.shapes, bit, l.bufs, (m.e, m.bufp) :: l.owned, merges⟩ a ≤ 1 := by
    intro a
    have once := sound.once a
    unfold coverage at once ⊢
    rw [top, hands_cons, cover_cons] at once
    rw [cover_cons]
    dsimp only
    omega
  refine ⟨sound.toRanges, ?_, sound.free, ?_, once, sound.single, ?_⟩
  · intro b listed
    rcases mem_cons.mp listed with rfl | listed
    · obtain ⟨h, placed, holds, -⟩ := (sound.merging m (top ▸ mem_cons_self)).placed
      exact ⟨m.pool, h, placed, holds⟩
    · exact sound.owned b listed
  · intro m' mem
    exact sound.merging m' (top ▸ mem_cons_of_mem _ mem)
  · apply bits_of_set sound (mem_cons_self) once rfl
    · intro f fb listed
      exact sound.class_lt listed
    · rintro a (free | ⟨m', mem, hand⟩)
      · exact .inl free
      · exact .inr ⟨m', top ▸ mem_cons_of_mem _ mem, hand⟩
    · rintro a (free | ⟨m', mem, ha, fresh⟩) outside
      · exact .inl free
      · rw [top] at mem
        rcases mem_cons.mp mem with rfl | mem
        · exact absurd ha outside
        · exact .inr ⟨m', mem, ha, fresh⟩
    · exact set

theorem Sound.join (top : l.merges = m :: merges) (less : m.e < max_class m.e)
    (moved : Moved m.e fb lists l.bufs) (place : fb.addr = buddy m.e m.bufp)
    (marked : ¬ FbUnion.unmarked fb.fb_union) :
    Sound { l with bufs := lists, merges := absorb m :: merges } := by
  have mem : fb ∈ l.bufs m.e := moved.mem_iff.mpr (.inl ⟨rfl, rfl⟩)
  have hm : m ∈ l.merges := top ▸ mem_cons_self
  obtain ⟨h, placed, holds, word, shift, mask⟩ := (sound.merging m hm).placed
  have regular := (sound.regular _ h placed).1
  obtain ⟨-, bindex, mword, mindex⟩ := holds.buddy_bits regular less
  have grown := (sound.merging m hm).grown
  have bufp : (absorb m).bufp = merged m.e m.bufp := merged_buddy holds.aligned
  have joined : ∀ a, Covers (absorb m).e (absorb m).bufp a ↔
      Covers m.e m.bufp a ∨ Covers m.e fb.addr a := by
    intro a
    rw [bufp, place]
    exact covers_merged holds.aligned
  refine ⟨sound.toRanges, sound.owned, ?_, ?_, ?_, ?_, ?_⟩
  · intro f fb' listed
    exact sound.free f fb' (moved.mem_iff.mpr (.inr listed))
  · intro m' listed
    rcases mem_cons.mp listed with rfl | listed
    · refine ⟨⟨h, placed, ?_, ?_, ?_, ?_⟩, fun a ha => (joined a).mpr (.inl (grown a ha))⟩
      · rw [bufp]
        exact holds.joined regular less
      · rw [bufp, mword]
        exact word
      · rw [bufp, mindex, ← shift]
        rfl
      · rw [bufp]
        have whole := holds.mask_joined regular less
        rw [Shape.mask.eq_def h m.e (buddy m.e m.bufp), bindex, ← shift, ← mask] at whole
        exact whole.symm
    · exact sound.merging m' (top ▸ mem_cons_of_mem _ listed)
  · intro a
    have once := sound.once a
    unfold coverage at once ⊢
    rw [top, hands_cons, cover_cons, cover_one, moved.free_cover (sound.class_lt mem) a,
      cover_one] at once
    rw [hands_cons, cover_cons, cover_one]
    simp only [joined a]
    split
    · rename_i either
      rcases either with first | second
      · rw [if_pos first] at once
        omega
      · rw [if_pos second] at once
        omega
    · omega
  · rintro f y ⟨p, w, k, hf⟩ ⟨p', w', k', hb⟩
    exact sound.single f y ⟨p, w, k, moved.mem_iff.mpr (.inr hf)⟩
      ⟨p', w', k', moved.mem_iff.mpr (.inr hb)⟩
  · intro pool g a placed' above below
    rw [sound.bits pool g a placed' above below]
    have outside : Covers m.e fb.addr a → ¬ Covers m.first.1 m.first.2 a := by
      intro second first
      rw [place] at second
      exact not_covers_both holds.aligned (grown a first) second
    constructor
    · rintro (⟨f, y, ⟨p, w, k, hf⟩, ha⟩ | ⟨m', listed, ha, fresh⟩)
      · rcases moved.mem_iff.mp hf with ⟨rfl, rfl⟩ | hf
        · exact .inr ⟨absorb m, mem_cons_self, (joined a).mpr (.inr ha), outside ha⟩
        · exact .inl ⟨f, y, ⟨p, w, k, hf⟩, ha⟩
      · rw [top] at listed
        rcases mem_cons.mp listed with rfl | listed
        · exact .inr ⟨absorb m', mem_cons_self, (joined a).mpr (.inl ha), fresh⟩
        · exact .inr ⟨m', mem_cons_of_mem _ listed, ha, fresh⟩
    · rintro (⟨f, y, ⟨p, w, k, hf⟩, ha⟩ | ⟨m', listed, ha, fresh⟩)
      · exact .inl ⟨f, y, ⟨p, w, k, moved.mem_iff.mpr (.inr hf)⟩, ha⟩
      · rcases mem_cons.mp listed with rfl | listed
        · rcases (joined a).mp ha with first | second
          · exact .inr ⟨m, hm, first, fresh⟩
          · obtain ⟨x, union⟩ := fb
            cases union with
            | mapp p w k => exact .inl ⟨m.e, x, ⟨p, w, k, mem⟩, second⟩
            | DELAYED | poolp p => exact absurd trivial marked
        · exact .inr ⟨m', top ▸ mem_cons_of_mem _ listed, ha, fresh⟩

theorem Sound.settle (top : l.merges = m :: merges) (less : m.e < max_class m.e)
    (moved : Moved m.e ⟨m.bufp, .mapp m.pool m.wordp m.mask⟩ l.bufs lists)
    (cleared : ∀ pool h a, l.shapes pool = some h → h.alignp ≤ a → a < h.endp → bit pool a = (l.bit
      pool a && !decide (Covers m.e m.bufp a)))
    (busy : ¬ ∀ a, Covers m.e (buddy m.e m.bufp) a → l.bit m.pool a = false) :
    Sound ⟨l.shapes, bit, lists, l.owned, merges⟩ := by
  have hm : m ∈ l.merges := top ▸ mem_cons_self
  obtain ⟨h, placed, holds, word, shift, mask⟩ := (sound.merging m hm).placed
  have regular := (sound.regular _ h placed).1
  have bound : m.e < 13 := by
    have := (regular.classes holds.low holds.high).2.2.2.2.2
    omega
  have marked : ∀ f y, Marked ⟨l.shapes, bit, lists, l.owned, merges⟩ f y ↔
      l.Marked f y ∨ f = m.e ∧ y = m.bufp := by
    intro f y
    constructor
    · rintro ⟨p, w, k, listed⟩
      rcases moved.mem_iff.mp listed with ⟨rfl, same⟩ | listed
      · exact .inr ⟨rfl, congrArg FreeBuf.addr same⟩
      · exact .inl ⟨p, w, k, listed⟩
    · rintro (⟨p, w, k, listed⟩ | ⟨rfl, rfl⟩)
      · exact ⟨p, w, k, moved.mem_iff.mpr (.inr listed)⟩
      · exact ⟨_, _, _, moved.mem_iff.mpr (.inl ⟨rfl, rfl⟩)⟩
  have alone : ¬ l.Marked m.e (buddy m.e m.bufp) := by
    intro both
    apply busy
    intro a ha
    obtain ⟨above, below⟩ := (holds.other regular less).within regular ha
    exact (sound.bits m.pool h a placed above below).mpr (.inl ⟨_, _, both, ha⟩)
  refine ⟨sound.toRanges, sound.owned, ?_, ?_, ?_, ?_, ?_⟩
  · intro f fb' listed
    rcases moved.mem_iff.mp listed with ⟨rfl, rfl⟩ | listed
    · exact ⟨⟨m.pool, h, placed, holds, less, rfl, word, mask⟩⟩
    · exact sound.free f fb' listed
  · intro m' listed
    exact sound.merging m' (top ▸ mem_cons_of_mem _ listed)
  · intro a
    have once := sound.once a
    unfold coverage at once ⊢
    rw [top, hands_cons, cover_cons] at once
    rw [moved.free_cover bound a]
    dsimp only
    omega
  · intro f y hf hb
    rcases (marked f y).mp hf with old | ⟨rfl, rfl⟩
    · rcases (marked f _).mp hb with old' | ⟨rfl, same⟩
      · exact sound.single f y old old'
      · rw [← same, buddy_buddy] at alone
        exact alone old
    · rcases (marked m.e _).mp hb with old' | ⟨-, same⟩
      · exact alone old'
      · have self := covers_self m.e m.bufp
        have other := not_covers_both holds.aligned self
        rw [same] at other
        exact other self
  · intro pool g a placed' above below
    change bit pool a = false ↔ _
    rw [cleared pool g a placed' above below, Bool.and_eq_false_iff, Bool.not_eq_false',
      decide_eq_true_iff, sound.bits pool g a placed' above below]
    constructor
    · rintro ((⟨f, y, old, ha⟩ | ⟨m', listed, ha, fresh⟩) | ha)
      · exact .inl ⟨f, y, (marked f y).mpr (.inl old), ha⟩
      · rw [top] at listed
        rcases mem_cons.mp listed with rfl | listed
        · exact .inl ⟨m'.e, m'.bufp, (marked _ _).mpr (.inr ⟨rfl, rfl⟩), ha⟩
        · exact .inr ⟨m', listed, ha, fresh⟩
      · exact .inl ⟨m.e, m.bufp, (marked _ _).mpr (.inr ⟨rfl, rfl⟩), ha⟩
    · rintro (⟨f, y, now, ha⟩ | ⟨m', listed, hand⟩)
      · rcases (marked f y).mp now with old | ⟨rfl, rfl⟩
        · exact .inl (.inl ⟨f, y, old, ha⟩)
        · exact .inr ha
      · exact .inl (.inr ⟨m', top ▸ mem_cons_of_mem _ listed, hand⟩)

theorem Sound.halve (mine : l.owned = (e + 1, x) :: rest)
    (low : ∀ pool h, l.shapes pool = some h → h.Holds (e + 1) x → h.least ≤ e) :
    Sound { l with owned := (e, x) :: (e, x + 2 ^ e) :: rest } := by
  refine ⟨sound.toRanges, ?_, sound.free, sound.merging, ?_, sound.single,
    sound.bits⟩
  · obtain ⟨pool, h, placed, holds⟩ := sound.owned (e + 1, x) (mine ▸ mem_cons_self)
    have least := low pool h placed holds
    obtain ⟨-, high, aligned, after, before⟩ := holds
    have half : 2 ^ e ∣ x := dvd_of_le (Nat.le_succ e) aligned
    dsimp only at high before after
    intro b mem
    rcases mem_cons.mp mem with rfl | mem
    · exact ⟨pool, h, placed, least, Nat.le_of_succ_le high, half, after, by dsimp only; omega⟩
    · rcases mem_cons.mp mem with rfl | mem
      · exact ⟨pool, h, placed, least, Nat.le_of_succ_le high, Nat.dvd_add half (Nat.dvd_refl _),
          by dsimp only; omega, by dsimp only; omega⟩
      · exact sound.owned b (mine ▸ mem_cons_of_mem _ mem)
  · intro a
    have once := sound.once a
    have both := not_covers_halves (e := e) (x := x) (a := a)
    unfold coverage at once ⊢
    rw [mine, cover_cons, cover_one] at once
    dsimp only
    rw [cover_cons, cover_one, cover_cons, cover_one]
    simp only [covers_halves] at once
    by_cases first : Covers e x a
    · rw [if_pos (.inl first)] at once
      rw [if_pos first, if_neg (both first)]
      omega
    · by_cases second : Covers e (x + 2 ^ e) a
      · rw [if_pos (.inr second)] at once
        rw [if_neg first, if_pos second]
        omega
      · rw [if_neg first, if_neg second]
        omega

theorem Sound.add_pool {pool : Nat} {h : Shape} {blocks : List (Nat × Nat)} (regular : h.Regular)
    (place : h.alignp = pool)
    (away : ∀ pool' h', l.shapes pool' = some h' → h.endp ≤ h'.alignp ∨ h'.endp ≤ h.alignp)
    (holds : ∀ b ∈ blocks, h.Holds b.1 b.2) (once : ∀ a, cover blocks a ≤ 1)
    (set : ∀ a, h.alignp ≤ a → a < h.endp → bit pool a = true)
    (others : ∀ pool' a, pool' ≠ pool → bit pool' a = l.bit pool' a) :
    Sound ⟨update l.shapes pool (some h), bit, l.bufs, blocks ++ l.owned, l.merges⟩ := by
  have old : ∀ pool' h', l.shapes pool' = some h' →
      pool' ≠ pool ∧ update l.shapes pool (some h) pool' = some h' := by
    intro pool' h' placed
    have other : pool' ≠ pool := by
      rintro rfl
      obtain ⟨regular', place'⟩ := sound.regular _ h' placed
      have first := regular.start_le
      have second := regular'.start_le
      have apart := away _ h' placed
      omega
    exact ⟨other, by rw [update_of_ne other]; exact placed⟩
  have cases_of : ∀ pool' h', update l.shapes pool (some h) pool' = some h' →
      pool' = pool ∧ h' = h ∨ pool' ≠ pool ∧ l.shapes pool' = some h' := by
    intro pool' h' placed
    by_cases same : pool' = pool
    · rw [same, update_self] at placed
      exact .inl ⟨same, (Option.some.inj placed).symm⟩
    · rw [update_of_ne same] at placed
      exact .inr ⟨same, placed⟩
  have unowned : ∀ a, h.alignp ≤ a → a < h.endp → l.coverage a = 0 := by
    intro a above below
    by_contra covered
    obtain ⟨pool', h', placed, above', below'⟩ := sound.in_pool covered
    have apart := away pool' h' placed
    omega
  refine ⟨⟨?_, ?_⟩, ?_, ?_, ?_, ?_, sound.single, ?_⟩
  · intro pool' h' placed
    rcases cases_of pool' h' placed with ⟨rfl, rfl⟩ | ⟨-, placed⟩
    · exact ⟨regular, place⟩
    · exact sound.regular pool' h' placed
  · intro p hp q hq a placed placed' above below above' below'
    rcases cases_of p hp placed with ⟨rfl, rfl⟩ | ⟨-, first⟩
    · rcases cases_of q hq placed' with ⟨rfl, rfl⟩ | ⟨-, second⟩
      · rfl
      · have apart := away q hq second
        omega
    · rcases cases_of q hq placed' with ⟨rfl, rfl⟩ | ⟨-, second⟩
      · have apart := away p hp first
        omega
      · exact sound.separate p hp q hq a first second above below above' below'
  · intro b mem
    rcases mem_append.mp mem with mem | mem
    · exact ⟨pool, h, update_self .., holds b mem⟩
    · obtain ⟨pool', h', placed, inside⟩ := sound.owned b mem
      exact ⟨pool', h', (old pool' h' placed).2, inside⟩
  · intro e fb mem
    obtain ⟨pool', h', placed, inside⟩ := (sound.free e fb mem).placed
    exact ⟨⟨pool', h', (old pool' h' placed).2, inside⟩⟩
  · intro m mem
    obtain ⟨h', placed, inside⟩ := (sound.merging m mem).placed
    exact ⟨⟨h', (old m.pool h' placed).2, inside⟩, (sound.merging m mem).grown⟩
  · intro a
    have total : coverage ⟨update l.shapes pool (some h), bit, l.bufs, blocks ++ l.owned,
        l.merges⟩ a = cover blocks a + l.coverage a := by
      unfold coverage
      rw [cover_append]
      dsimp only
      omega
    rw [total]
    by_cases inside : h.alignp ≤ a ∧ a < h.endp
    · rw [unowned a inside.1 inside.2]
      exact once a
    · have none : cover blocks a = 0 := by
        by_contra some
        obtain ⟨b, mem, ha⟩ := countP_pos_iff.mp (pos_of_ne_zero some)
        exact inside ((holds b mem).within regular (of_decide_eq_true ha))
      rw [none, zero_add]
      exact sound.once a
  · intro pool' h' a placed above below
    change bit pool' a = false ↔ _
    rcases cases_of pool' h' placed with ⟨rfl, rfl⟩ | ⟨ne, placed⟩
    · rw [set a above below]
      constructor
      · intro impossible
        exact absurd impossible (by decide)
      · intro clear
        exact absurd (unowned a above below) (Clear.covered sound clear)
    · rw [others pool' a ne]
      exact sound.bits pool' h' a placed above below

end

end Layout

end KernelMemory
