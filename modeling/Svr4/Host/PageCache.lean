import Svr4.Host.DiskBacked
import Mathlib.Data.List.GetD

/- The cache and the file together stand for a flat array. -/
namespace DiskBacked
open OrderedDicts Option Nat

theorem overwrite_length {xs ys : Bytes} {pos : Nat} (fits : pos + ys.length ≤ xs.length) :
    (overwrite xs pos ys).length = xs.length := by
  unfold overwrite
  simp only [List.length_append, List.length_take, List.length_drop]
  omega

theorem overwrite_getD {xs ys : Bytes} {pos : Nat} (fits : pos ≤ xs.length) (i : Nat) :
    (overwrite xs pos ys).getD i 0 =
      if pos ≤ i ∧ i < pos + ys.length then ys.getD (i - pos) 0 else xs.getD i 0 := by
  unfold overwrite
  have front : (xs.take pos).length = pos := List.length_take_of_le fits
  simp only [List.getD_eq_getElem?_getD]
  by_cases before : i < pos
  · rw [if_neg (by omega), List.append_assoc, List.getElem?_append_left (by omega),
      List.getElem?_take_of_lt before]
  · by_cases inside : i < pos + ys.length
    · rw [if_pos ⟨by omega, inside⟩, List.getElem?_append_left (by
        rw [List.length_append, front]; omega), List.getElem?_append_right (by omega), front]
    · rw [if_neg (by omega), List.getElem?_append_right (by rw [List.length_append, front]; omega),
        List.length_append, front, List.getElem?_drop]
      congr 2
      omega

theorem padded_getD (xs : Bytes) (n i : Nat) :
    (xs ++ List.replicate n 0).getD i 0 = xs.getD i 0 := by
  simp only [List.getD_eq_getElem?_getD]
  by_cases inside : i < xs.length
  · rw [List.getElem?_append_left inside]
  · rw [List.getElem?_append_right (by omega), List.getElem?_eq_none (by omega : xs.length ≤ i),
      List.getElem?_replicate]
    split <;> rfl

variable (file : Bytes) {u : DiskBackedSlice} {f g : Nat → UInt8} {payload : Bytes}

theorem fileWrite_getD (data : Bytes) (pos i : Nat) : (fileWrite file pos data).getD i 0 =
    if pos ≤ i ∧ i < pos + data.length then data.getD (i - pos) 0 else file.getD i 0 := by
  unfold fileWrite
  rw [overwrite_getD (by rw [List.length_append, List.length_replicate]; omega), padded_getD]

theorem fileWrite_length (data : Bytes) (pos : Nat) :
    (fileWrite file pos data).length = max file.length (pos + data.length) ∨
      (fileWrite file pos data).length = max file.length pos := by
  unfold fileWrite overwrite
  simp only [List.length_append, List.length_take, List.length_drop, List.length_replicate]
  omega

theorem fileRead_getD (pos n i : Nat) (inside : i < n) :
    (fileRead file pos n).getD i 0 = file.getD (pos + i) 0 := by
  unfold fileRead
  simp only [List.getD_eq_getElem?_getD]
  rw [List.getElem?_take_of_lt inside, List.getElem?_drop]

theorem fileRead_length (pos n : Nat) : (fileRead file pos n).length ≤ n := List.length_take_le _ _

variable {c : Config}

theorem Config.page_size_pos (c : Config) : 0 < c.page_size := by
  unfold page_size
  rw [one_shiftLeft]
  exact Nat.two_pow_pos _

theorem Config.page_start (c : Config) (k : Nat) : k <<< c.page_shift = k * c.page_size := by
  unfold page_size
  rw [shiftLeft_eq, one_shiftLeft]

theorem Config.page_of (c : Config) (i : Nat) : i >>> c.page_shift = i / c.page_size := by
  unfold page_size
  rw [shiftRight_eq_div_pow, one_shiftLeft]

namespace DiskBackedSlice
variable {s t : DiskBackedSlice} {k : Nat} {page : Bytes}

def byteAt (c : Config) (s : DiskBackedSlice) (i : Nat) : UInt8 :=
  match get s.pages (i / c.page_size) with
  | some page => page.getD (i % c.page_size) 0
  | none => s.handle.getD (s.start_offset + i) 0

/-- Between the operations pages have their length, and only dirty pages differ from the file. -/
structure Coherent (c : Config) (s : DiskBackedSlice) : Prop where
  distinct : Distinct s.pages
  inside : ∀ k page, get s.pages k = some page → k * c.page_size < s.size
  length : ∀ k page, get s.pages k = some page → page.length = s.page_length c k
  clean : ∀ k page, get s.pages k = some page → k ∉ s.dirty_pages → ∀ j < page.length,
    page.getD j 0 = s.handle.getD (s.start_offset + k * c.page_size + j) 0
  cached : ∀ k ∈ s.dirty_pages, ∃ page, get s.pages k = some page

/-- An operation after which the part has the bytes `f`; outside of it the file is the same. -/
structure Becomes (c : Config) (s t : DiskBackedSlice) (f : Nat → UInt8) : Prop where
  coherent : t.Coherent c
  start : t.start_offset = s.start_offset
  size : t.size = s.size
  bytes : ∀ i < s.size, t.byteAt c i = f i
  outside : ∀ i, i < s.start_offset ∨ s.start_offset + s.size ≤ i →
    t.handle.getD i 0 = s.handle.getD i 0
  shrinks : s.handle.length ≤ t.handle.length
  grows : t.handle.length ≤ max s.handle.length (s.start_offset + s.size)

abbrev Keeps (c : Config) (s t : DiskBackedSlice) : Prop := Becomes c s t (s.byteAt c)

theorem Keeps.refl (coherent : s.Coherent c) : Keeps c s s :=
  ⟨coherent, rfl, rfl, fun _ _ => rfl, fun _ _ => rfl, le_refl _, le_max_left _ _⟩

theorem Becomes.trans (first : Becomes c s t f) (second : Becomes c t u g) : Becomes c s u g := by
  have start := first.start
  have size := first.size
  have grows := second.grows
  refine ⟨second.coherent, second.start.trans start, second.size.trans size, ?_, ?_,
    le_trans first.shrinks second.shrinks, ?_⟩
  · intro i inside
    exact second.bytes i (by rwa [size])
  · intro i outside
    rw [second.outside i (by rwa [start, size]), first.outside i outside]
  · have := first.grows
    omega

theorem Becomes.congr (becomes : Becomes c s t f) (same : ∀ i < s.size, f i = g i) :
    Becomes c s t g :=
  { becomes with bytes := fun i small => (becomes.bytes i small).trans (same i small) }

theorem Becomes.keep {f : Nat → UInt8} (first : Becomes c s t f) (second : Keeps c t u) :
    Becomes c s u f :=
  (first.trans second).congr fun i small => first.bytes i small

theorem byteAt_page (coherent : s.Coherent c) (found : get s.pages k = some page) {j : Nat}
    (small : j < page.length) : s.byteAt c (k * c.page_size + j) = page.getD j 0 := by
  have short : j < c.page_size := by
    have := coherent.length k page found
    unfold page_length at this
    omega
  unfold byteAt
  rw [Nat.mul_comm, Nat.mul_add_div c.page_size_pos, Nat.div_eq_of_lt short, Nat.add_zero, found,
    Nat.mul_add_mod, Nat.mod_eq_of_lt short]

theorem page_length_eq (k : Nat) : s.page_length c k = min c.page_size (s.size - k * c.page_size) := by
  unfold page_length
  rw [c.page_start]

section
variable (coherent : s.Coherent c)
include coherent

theorem flush_page_keeps (k : Nat) : Keeps c s (s.flush_page c k) ∧
    (s.flush_page c k).pages = s.pages ∧ k ∉ (s.flush_page c k).dirty_pages ∧
    ∀ j, j ∉ s.dirty_pages → j ∉ (s.flush_page c k).dirty_pages := by
  unfold flush_page
  by_cases dirty : k ∈ s.dirty_pages
  · obtain ⟨page, found⟩ := coherent.cached k dirty
    have length := coherent.length k page found
    have inside := coherent.inside k page found
    rw [page_length_eq] at length
    rw [if_neg (not_not.mpr dirty), found]
    rw [c.page_start]
    have written : ∀ i, (fileWrite s.handle (s.start_offset + k * c.page_size) page).getD i 0 =
        if s.start_offset + k * c.page_size ≤ i ∧ i < s.start_offset + k * c.page_size + page.length
        then page.getD (i - (s.start_offset + k * c.page_size)) 0 else s.handle.getD i 0 :=
      fileWrite_getD _ _ _
    refine ⟨⟨{ coherent with clean := ?_, cached := ?_ }, rfl, rfl, ?_, ?_, ?_, ?_⟩,
      rfl, by simp, fun j clean mem => clean (List.mem_filter.mp mem).1⟩
    · intro j other found' clean i small
      dsimp only
      rw [written]
      by_cases same : j = k
      · subst same
        obtain rfl := some.inj (found.symm.trans found')
        rw [if_pos ⟨by omega, by omega⟩]
        congr 1
        omega
      have apart : ¬(s.start_offset + k * c.page_size ≤ s.start_offset + j * c.page_size + i ∧
          s.start_offset + j * c.page_size + i < s.start_offset + k * c.page_size + page.length) := by
        have len := coherent.length j other found'
        rw [page_length_eq] at len
        rintro ⟨low, high⟩
        rcases lt_or_gt_of_ne same with less | more
        · have step := mul_le_mul_right c.page_size (succ_le_of_lt less)
          rw [succ_mul] at step
          omega
        · have step := mul_le_mul_right c.page_size (succ_le_of_lt more)
          rw [succ_mul] at step
          omega
      rw [if_neg apart]
      refine coherent.clean j other found' (fun dirty' => clean ?_) i small
      exact List.mem_filter.mpr ⟨dirty', by simpa using same⟩
    · intro j mem
      exact coherent.cached j (List.mem_filter.mp mem).1
    · intro i small
      unfold byteAt
      dsimp only
      cases here : get s.pages (i / c.page_size) with
      | some page' => rfl
      | none =>
        rw [written, if_neg]
        rintro ⟨low, high⟩
        have same : i / c.page_size = k := by
          refine Nat.div_eq_of_lt_le (by rw [Nat.mul_comm] at *; omega) ?_
          rw [Nat.succ_mul]
          omega
        rw [same, found] at here
        exact nomatch here
    · intro i outside
      rw [written, if_neg (by omega)]
    · dsimp only
      rcases fileWrite_length s.handle page (s.start_offset + k * c.page_size) with eq | eq <;> omega
    · dsimp only
      rcases fileWrite_length s.handle page (s.start_offset + k * c.page_size) with eq | eq <;> omega
  · rw [if_pos dirty]
    exact ⟨Keeps.refl coherent, rfl, dirty, fun _ clean => clean⟩

theorem drop_page_keeps (clean : k ∉ s.dirty_pages) :
    Keeps c s { s with pages := pop s.pages k } := by
  refine ⟨⟨coherent.distinct.pop k, ?_, ?_, ?_, ?_⟩, rfl, rfl, ?_, fun _ _ => rfl, le_refl _,
    le_max_left _ _⟩
  · intro j page found
    rw [get_pop] at found
    split at found
    · cases found
    · exact coherent.inside j page found
  · intro j page found
    rw [get_pop] at found
    split at found
    · cases found
    · exact coherent.length j page found
  · intro j page found
    rw [get_pop] at found
    split at found
    · cases found
    · exact coherent.clean j page found
  · intro j dirty
    obtain ⟨page, found⟩ := coherent.cached j dirty
    refine ⟨page, ?_⟩
    have other : j ≠ k := by
      rintro rfl
      exact clean dirty
    rw [get_pop, if_neg other, found]
  · intro i small
    unfold byteAt
    rw [get_pop]
    by_cases here : i / c.page_size = k
    · rw [if_pos here]
      cases found : get s.pages (i / c.page_size) with
      | none => rfl
      | some page =>
        have len := coherent.length _ page found
        have short : i % c.page_size < page.length := by
          rw [len, page_length_eq]
          have split := div_add_mod' i c.page_size
          have := mod_lt i c.page_size_pos
          omega
        rw [← here] at clean
        have same := coherent.clean _ page found clean _ short
        rw [Nat.add_assoc, Nat.div_add_mod'] at same
        exact same.symm
    · rw [if_neg here]

theorem evictLoop_keeps (fuel : Nat) : Keeps c s (evictLoop c fuel s) ∧
    (1 ≤ c.max_cached_pages → ∀ front last, s.pages = front ++ [last] →
      ∃ front', (evictLoop c fuel s).pages = front' ++ [last]) := by
  induction fuel generalizing s with
  | zero => exact ⟨Keeps.refl coherent, fun _ front last eq => ⟨front, eq⟩⟩
  | succ fuel ih =>
    unfold evictLoop
    by_cases full : c.max_cached_pages < s.pages.length
    · rw [if_pos full]
      cases pages : s.pages with
      | nil =>
        rw [pages] at full
        exact absurd full (not_lt_zero _)
      | cons e rest =>
        obtain ⟨k, page⟩ := e
        obtain ⟨flushed, same, clean, -⟩ := flush_page_keeps coherent k
        have dropped := drop_page_keeps flushed.coherent clean
        obtain ⟨kept, keeps_last⟩ := ih dropped.coherent
        refine ⟨(flushed.keep dropped).keep kept, ?_⟩
        intro room front last eq
        have distinct := coherent.distinct
        rw [pages] at distinct full
        have popped : pop (s.flush_page c k).pages k = rest := by
          rw [same, pages, pop_head distinct]
        cases front with
        | nil =>
          obtain ⟨-, rfl⟩ := List.cons.inj eq
          simp only [List.length_cons, List.length_nil] at full
          omega
        | cons e front =>
          obtain ⟨-, rfl⟩ := List.cons.inj eq
          exact keeps_last room front last popped
    · rw [if_neg full]
      exact ⟨Keeps.refl coherent, fun _ front last eq => ⟨front, eq⟩⟩

theorem evict_keeps : Keeps c s (evict_if_needed c s) := (evictLoop_keeps coherent _).1

theorem move_keeps (k : Nat) : Keeps c s { s with pages := moveToEnd s.pages k } := by
  refine ⟨⟨coherent.distinct.moveToEnd k, ?_, ?_, ?_, ?_⟩, rfl, rfl, ?_, fun _ _ => rfl,
    le_refl _, le_max_left _ _⟩
  · intro j page found
    exact coherent.inside j page (by rwa [get_moveToEnd] at found)
  · intro j page found
    exact coherent.length j page (by rwa [get_moveToEnd] at found)
  · intro j page found
    exact coherent.clean j page (by rwa [get_moveToEnd] at found)
  · intro j dirty
    obtain ⟨page, found⟩ := coherent.cached j dirty
    exact ⟨page, (get_moveToEnd).trans found⟩
  · intro i small
    unfold byteAt
    rw [get_moveToEnd]

theorem load_page_ok (room : 1 ≤ c.max_cached_pages) (inside : k * c.page_size < s.size) :
    Keeps c s (s.load_page c k).1 ∧
      get (s.load_page c k).1.pages k = some (s.load_page c k).2 ∧
      (s.load_page c k).2.length = s.page_length c k ∧
      ∀ j < s.page_length c k, (s.load_page c k).2.getD j 0 = s.byteAt c (k * c.page_size + j) := by
  unfold load_page
  cases found : get s.pages k with
  | some page =>
    have length := coherent.length k page found
    refine ⟨move_keeps coherent k, (get_moveToEnd).trans found, length, ?_⟩
    intro j small
    exact (byteAt_page coherent found (length.symm ▸ small)).symm
  | none =>
    dsimp only
    rw [c.page_start]
    generalize page_eq : overwrite (List.replicate (s.page_length c k) 0) 0
      (fileRead s.handle (s.start_offset + k * c.page_size) (s.page_length c k)) = page
    have read_length := fileRead_length s.handle (s.start_offset + k * c.page_size)
      (s.page_length c k)
    have length : page.length = s.page_length c k := by
      rw [← page_eq, overwrite_length] <;> rw [List.length_replicate]
      omega
    have content : ∀ j < s.page_length c k, page.getD j 0 =
        s.handle.getD (s.start_offset + k * c.page_size + j) 0 := by
      intro j small
      rw [← page_eq, overwrite_getD (zero_le _), ← fileRead_getD _ _ _ _ small]
      split
      · rfl
      · simp only [List.getD_eq_getElem?_getD]
        rw [List.getElem?_eq_none (by omega : (fileRead s.handle _ _).length ≤ j),
          List.getElem?_replicate_of_lt small]
        rfl
    have absent_at : ∀ j < s.page_length c k, s.byteAt c (k * c.page_size + j) = page.getD j 0 := by
      intro j small
      have short : j < c.page_size := by
        rw [page_length_eq] at small
        omega
      unfold byteAt
      rw [Nat.mul_comm, Nat.mul_add_div c.page_size_pos, Nat.div_eq_of_lt short, Nat.add_zero, found]
      rw [content j small, Nat.mul_comm, Nat.add_assoc]
    have loaded : Keeps c s { s with pages := set s.pages k page } := by
      refine ⟨⟨coherent.distinct.set k page, ?_, ?_, ?_, ?_⟩, rfl, rfl, ?_, fun _ _ => rfl,
        le_refl _, le_max_left _ _⟩
      · intro j other found'
        rw [get_set] at found'
        split at found'
        · rename_i same
          exact same ▸ inside
        · exact coherent.inside j other found'
      · intro j other found'
        rw [get_set] at found'
        split at found'
        · rename_i same
          obtain rfl := some.inj found'
          exact same ▸ length
        · exact coherent.length j other found'
      · intro j other found' clean i small
        rw [get_set] at found'
        split at found'
        · rename_i same
          subst same
          obtain rfl := some.inj found'
          exact content i (length ▸ small)
        · exact coherent.clean j other found' clean i small
      · intro j dirty
        obtain ⟨other, found'⟩ := coherent.cached j dirty
        have apart : j ≠ k := by
          rintro rfl
          rw [found] at found'
          cases found'
        exact ⟨other, by dsimp only; rw [get_set, if_neg apart, found']⟩
      · intro i small
        by_cases here : i / c.page_size = k
        · subst here
          have split := div_add_mod' i c.page_size
          have low := mod_lt i c.page_size_pos
          have short : i % c.page_size < s.page_length c (i / c.page_size) := by
            rw [page_length_eq]
            omega
          have := absent_at _ short
          rw [split] at this
          rw [this]
          unfold byteAt
          rw [get_set, if_pos rfl]
        · unfold byteAt
          rw [get_set, if_neg here]
    have appended : set s.pages k page = s.pages ++ [(k, page)] := by
      unfold OrderedDicts.set
      rw [found]
      rfl
    obtain ⟨evicted, keeps_last⟩ := evictLoop_keeps loaded.coherent
      ({ s with pages := set s.pages k page } : DiskBackedSlice).pages.length
    obtain ⟨front, last⟩ := keeps_last room s.pages (k, page) appended
    refine ⟨loaded.keep evicted, ?_, length, fun j small => (absent_at j small).symm⟩
    refine get_of_mem evicted.coherent.distinct ?_
    unfold evict_if_needed
    rw [last]
    exact List.mem_append_right _ (List.mem_singleton_self _)

end

theorem page_bounds (i : Nat) (small : i < s.size) : i / c.page_size * c.page_size ≤ i ∧
    i < i / c.page_size * c.page_size + s.page_length c (i / c.page_size) ∧
    i / c.page_size * c.page_size < s.size ∧
    i - i / c.page_size * c.page_size = i % c.page_size := by
  rw [page_length_eq]
  have split := div_add_mod' i c.page_size
  have := mod_lt i c.page_size_pos
  omega

theorem page_of_bounds {i : Nat} (low : k * c.page_size ≤ i)
    (high : i < k * c.page_size + s.page_length c k) : i / c.page_size = k := by
  rw [page_length_eq] at high
  refine Nat.div_eq_of_lt_le low ?_
  rw [Nat.succ_mul]
  omega

variable {start offset : Nat}

theorem readLoop_ok (room : 1 ≤ c.max_cached_pages) {stop fuel : Nat} {result : Bytes}
    (coherent : s.Coherent c) (low : start ≤ offset) (inside : stop ≤ s.size)
    (enough : stop - offset ≤ fuel) (length : result.length = stop - start) :
    Keeps c s (readLoop c start stop fuel s offset result).1 ∧
      (readLoop c start stop fuel s offset result).2.length = stop - start ∧
      ∀ j < stop - start, (readLoop c start stop fuel s offset result).2.getD j 0 =
        if offset ≤ start + j then s.byteAt c (start + j) else result.getD j 0 := by
  induction fuel generalizing s offset result with
  | zero =>
    refine ⟨Keeps.refl coherent, length, ?_⟩
    intro j small
    rw [if_neg (by omega)]
    rfl
  | succ fuel ih =>
    unfold readLoop
    by_cases more : offset < stop
    · rw [if_pos more]
      dsimp only
      rw [c.page_of, c.page_start]
      obtain ⟨from_base, to_end, page_inside, -⟩ := page_bounds (c := c) (s := s) offset (by omega)
      obtain ⟨kept, -, page_len, content⟩ := load_page_ok coherent room page_inside
      generalize loaded : s.load_page c (offset / c.page_size) = pair at *
      obtain ⟨t, page⟩ := pair
      dsimp only at kept page_len content ⊢
      generalize chunk_end_eq : min stop (offset / c.page_size * c.page_size + page.length) = chunk_end
      have chunk_length : ((page.drop (offset - offset / c.page_size * c.page_size)).take
          (chunk_end - offset)).length = chunk_end - offset := by
        rw [List.length_take, List.length_drop]
        omega
      generalize chunk_eq : (page.drop (offset - offset / c.page_size * c.page_size)).take
          (chunk_end - offset) = chunk at *
      have nonempty : chunk ≠ [] := by
        rintro rfl
        simp only [List.length_nil] at chunk_length
        omega
      rw [if_neg nonempty]
      have size := kept.size
      have new_length : (overwrite result (offset - start) chunk).length = stop - start := by
        rw [overwrite_length (by omega)]
        exact length
      have chunk_above : start ≤ chunk_end := by omega
      obtain ⟨kept', length', bytes'⟩ := ih kept.coherent chunk_above (by omega) (by omega) new_length
      refine ⟨kept.keep kept', length', ?_⟩
      intro j small
      rw [bytes' j small]
      by_cases later : chunk_end ≤ start + j
      · rw [if_pos later, if_pos (by omega), kept.bytes _ (by omega)]
      rw [if_neg later, overwrite_getD (by omega)]
      by_cases here : offset ≤ start + j
      · have place : offset / c.page_size * c.page_size +
            (start + j - offset / c.page_size * c.page_size) = start + j := by omega
        have same := content (start + j - offset / c.page_size * c.page_size) (by omega)
        rw [place] at same
        rw [if_pos here, if_pos ⟨by omega, by omega⟩, ← same, ← chunk_eq]
        simp only [List.getD_eq_getElem?_getD]
        rw [List.getElem?_take_of_lt (by omega), List.getElem?_drop]
        congr 2
        omega
      · rw [if_neg here, if_neg (by omega)]
    · rw [if_neg more]
      refine ⟨Keeps.refl coherent, length, ?_⟩
      intro j small
      rw [if_neg (by omega)]

theorem read_range_ok (coherent : s.Coherent c) (room : 1 ≤ c.max_cached_pages) {stop : Nat}
    (inside : stop ≤ s.size) : Keeps c s (s.read_range c start stop).1 ∧
      (s.read_range c start stop).2 =
        (List.range (stop - start)).map fun j => s.byteAt c (start + j) := by
  unfold read_range
  by_cases empty : stop ≤ start
  · rw [if_pos empty, Nat.sub_eq_zero_of_le empty]
    exact ⟨Keeps.refl coherent, rfl⟩
  rw [if_neg empty]
  obtain ⟨kept, length, bytes⟩ := readLoop_ok room coherent (le_refl start) inside
    (le_refl (stop - start)) (List.length_replicate (n := stop - start) (a := (0 : UInt8)))
  refine ⟨kept, List.ext_getElem (by simpa using length) ?_⟩
  intro j small _
  have here := bytes j (by omega)
  rw [if_pos (by omega), List.getD_eq_getElem _ _ small] at here
  simpa using here

theorem put_page (coherent : s.Coherent c) (inside : k * c.page_size < s.size)
    (length : page.length = s.page_length c k) :
    Becomes c s { s with
      pages := moveToEnd (set s.pages k page) k
      dirty_pages := if k ∈ s.dirty_pages then s.dirty_pages else k :: s.dirty_pages
      needs_sync := true }
      fun i => if i / c.page_size = k then page.getD (i % c.page_size) 0 else s.byteAt c i := by
  have mem_dirty : ∀ j, j ∈ (if k ∈ s.dirty_pages then s.dirty_pages else k :: s.dirty_pages) ↔
      j = k ∨ j ∈ s.dirty_pages := by
    intro j
    split
    · rename_i dirty
      refine ⟨Or.inr, ?_⟩
      rintro (rfl | mem)
      · exact dirty
      · exact mem
    · exact List.mem_cons
  refine ⟨⟨(coherent.distinct.set k page).moveToEnd k, ?_, ?_, ?_, ?_⟩, rfl, rfl, ?_,
    fun _ _ => rfl, le_refl _, le_max_left _ _⟩
  · intro j other found
    rw [get_moveToEnd, get_set] at found
    by_cases same : j = k
    · exact same ▸ inside
    · rw [if_neg same] at found
      exact coherent.inside j other found
  · intro j other found
    rw [get_moveToEnd, get_set] at found
    by_cases same : j = k
    · rw [if_pos same] at found
      obtain rfl := some.inj found
      exact same ▸ length
    · rw [if_neg same] at found
      exact coherent.length j other found
  · intro j other found clean i small
    rw [mem_dirty, not_or] at clean
    rw [get_moveToEnd, get_set, if_neg clean.1] at found
    exact coherent.clean j other found clean.2 i small
  · intro j dirty
    rw [get_moveToEnd, get_set]
    by_cases same : j = k
    · exact ⟨page, if_pos same⟩
    · rw [if_neg same]
      exact coherent.cached j (((mem_dirty j).mp dirty).resolve_left same)
  · intro i small
    unfold byteAt
    rw [get_moveToEnd, get_set]
    by_cases same : i / c.page_size = k
    · rw [if_pos same, if_pos same]
    · rw [if_neg same, if_neg same]

theorem writeChunk_ok (coherent : s.Coherent c) (room : 1 ≤ c.max_cached_pages) {chunk : Bytes}
    (small : offset < s.size)
    (fits : offset + chunk.length ≤ offset / c.page_size * c.page_size +
      s.page_length c (offset / c.page_size)) :
    Becomes c s (s.writeChunk c offset chunk) fun i =>
      if offset ≤ i ∧ i < offset + chunk.length then chunk.getD (i - offset) 0
      else s.byteAt c i := by
  obtain ⟨from_base, to_end, inside, -⟩ := page_bounds (c := c) (s := s) offset small
  unfold writeChunk
  dsimp only
  rw [c.page_of, c.page_start]
  by_cases whole : offset - offset / c.page_size * c.page_size = 0 ∧
      chunk.length = s.page_length c (offset / c.page_size)
  · rw [if_pos whole]
    refine (put_page coherent inside whole.2).congr fun i i_small => ?_
    obtain ⟨i_base, i_end, -, i_mod⟩ := page_bounds (c := c) (s := s) i i_small
    by_cases here : i / c.page_size = offset / c.page_size
    · rw [here] at i_base i_end i_mod
      rw [if_pos here, if_pos ⟨by omega, by omega⟩, ← i_mod]
      congr 1
      omega
    · rw [if_neg here, if_neg]
      rintro ⟨low, high⟩
      exact here (page_of_bounds (s := s) (by omega) (by omega))
  · rw [if_neg whole]
    obtain ⟨kept, -, page_len, content⟩ := load_page_ok coherent room inside
    generalize s.load_page c (offset / c.page_size) = pair at *
    obtain ⟨t, page⟩ := pair
    dsimp only at kept page_len content ⊢
    have same_length : t.page_length c (offset / c.page_size) =
        s.page_length c (offset / c.page_size) := by
      unfold page_length
      rw [kept.size]
    have new_length : (overwrite page (offset - offset / c.page_size * c.page_size) chunk).length =
        t.page_length c (offset / c.page_size) := by
      rw [overwrite_length (by omega), same_length, page_len]
    have put := put_page kept.coherent (by rwa [kept.size]) new_length
    refine (kept.trans put).congr fun i i_small => ?_
    obtain ⟨i_base, i_end, -, i_mod⟩ := page_bounds (c := c) (s := s) i i_small
    by_cases here : i / c.page_size = offset / c.page_size
    · rw [here] at i_base i_end i_mod
      have place : offset / c.page_size * c.page_size + i % c.page_size = i := by omega
      have same := content (i % c.page_size) (by omega)
      rw [place] at same
      rw [if_pos here, overwrite_getD (by omega)]
      by_cases written : offset ≤ i ∧ i < offset + chunk.length
      · rw [if_pos written, if_pos ⟨by omega, by omega⟩]
        congr 1
        omega
      · rw [if_neg written, if_neg (by omega), same]
    · rw [if_neg here, if_neg, kept.bytes i i_small]
      rintro ⟨low, high⟩
      exact here (page_of_bounds (s := s) (by omega) (by omega))

theorem writeLoop_ok (room : 1 ≤ c.max_cached_pages) {fuel : Nat} (coherent : s.Coherent c)
    (low : start ≤ offset) (inside : start + payload.length ≤ s.size)
    (enough : start + payload.length - offset ≤ fuel) :
    Becomes c s (writeLoop c start payload fuel s offset) fun i =>
      if offset ≤ i ∧ i < start + payload.length then payload.getD (i - start) 0
      else s.byteAt c i := by
  induction fuel generalizing s offset with
  | zero =>
    refine (Keeps.refl coherent).congr fun i _ => ?_
    rw [if_neg (by omega)]
  | succ fuel ih =>
    unfold writeLoop
    by_cases more : offset < start + payload.length
    · rw [if_pos more]
      dsimp only
      rw [c.page_of, c.page_start]
      have small : offset < s.size := by omega
      obtain ⟨from_base, to_end, -, -⟩ := page_bounds (c := c) (s := s) offset small
      generalize chunk_end_eq : min (start + payload.length) (offset / c.page_size * c.page_size +
        s.page_length c (offset / c.page_size)) = chunk_end
      have chunk_length : ((payload.drop (offset - start)).take (chunk_end - offset)).length =
          chunk_end - offset := by
        rw [List.length_take, List.length_drop]
        omega
      have fits : offset + ((payload.drop (offset - start)).take (chunk_end - offset)).length ≤
          offset / c.page_size * c.page_size + s.page_length c (offset / c.page_size) := by omega
      have wrote := writeChunk_ok coherent room small fits
      have chunk_above : start ≤ chunk_end := by omega
      have rest := ih wrote.coherent chunk_above (by rw [wrote.size]; exact inside) (by omega)
      refine (wrote.trans rest).congr fun i i_small => ?_
      rw [wrote.bytes i i_small, chunk_length]
      by_cases later : chunk_end ≤ i ∧ i < start + payload.length
      · rw [if_pos later, if_pos ⟨by omega, later.2⟩]
      rw [if_neg later]
      by_cases here : offset ≤ i ∧ i < offset + (chunk_end - offset)
      · rw [if_pos here, if_pos ⟨here.1, by omega⟩]
        simp only [List.getD_eq_getElem?_getD]
        rw [List.getElem?_take_of_lt (by omega), List.getElem?_drop]
        congr 2
        omega
      · rw [if_neg here, if_neg (by omega)]
    · rw [if_neg more]
      refine (Keeps.refl coherent).congr fun i _ => ?_
      rw [if_neg (by omega)]

theorem write_range_ok (coherent : s.Coherent c) (room : 1 ≤ c.max_cached_pages)
    (inside : start + payload.length ≤ s.size) :
    Becomes c s (s.write_range c start payload) fun i =>
      if start ≤ i ∧ i < start + payload.length then payload.getD (i - start) 0
      else s.byteAt c i := by
  have wrote := writeLoop_ok room coherent (le_refl start) inside
    (by omega : start + payload.length - start ≤ payload.length)
  exact wrote.keep (evict_keeps wrote.coherent)

theorem flushAll_keeps (coherent : s.Coherent c) (ks : List Nat) :
    Keeps c s (ks.foldl (fun s k => s.flush_page c k) s) ∧
      (∀ k ∈ ks, k ∉ (ks.foldl (fun s k => s.flush_page c k) s).dirty_pages) ∧
      ∀ j, j ∉ s.dirty_pages → j ∉ (ks.foldl (fun s k => s.flush_page c k) s).dirty_pages := by
  induction ks generalizing s with
  | nil => exact ⟨Keeps.refl coherent, nofun, fun _ clean => clean⟩
  | cons k ks ih =>
    obtain ⟨flushed, -, clean, stays⟩ := flush_page_keeps coherent k
    obtain ⟨rest, all, keeps⟩ := ih flushed.coherent
    rw [List.foldl_cons]
    refine ⟨flushed.keep rest, ?_, fun j j_clean => keeps j (stays j j_clean)⟩
    intro j mem
    rcases List.mem_cons.mp mem with rfl | mem
    · exact keeps j clean
    · exact all j mem

theorem flush_ok (coherent : s.Coherent c) (sync : Bool) : Keeps c s (s.flush c sync) ∧
    (sync = true → ∀ i < s.size, (s.flush c sync).handle.getD (s.start_offset + i) 0 =
      s.byteAt c i) := by
  cases sync with
  | false => exact ⟨Keeps.refl coherent, nofun⟩
  | true =>
    obtain ⟨kept, all, -⟩ := flushAll_keeps coherent (s.dirty_pages.insertionSort (· ≤ ·))
    obtain ⟨-, -, stays⟩ := flushAll_keeps coherent (s.dirty_pages.insertionSort (· ≤ ·))
    unfold flush
    rw [if_pos rfl]
    generalize (s.dirty_pages.insertionSort (· ≤ ·)).foldl (fun s k => s.flush_page c k) s = t at *
    refine ⟨{ kept with coherent := { kept.coherent with } }, fun _ i small => ?_⟩
    have clean : ∀ k, k ∉ t.dirty_pages := by
      intro k
      by_cases dirty : k ∈ s.dirty_pages
      · exact all k ((List.mem_insertionSort (· ≤ ·)).mpr dirty)
      · exact stays k dirty
    rw [← kept.bytes i small]
    unfold byteAt
    cases found : get t.pages (i / c.page_size) with
    | none => rw [kept.start]
    | some page =>
      dsimp only
      have length := kept.coherent.length _ page found
      rw [page_length_eq, kept.size] at length
      have split := div_add_mod' i c.page_size
      have low := mod_lt i c.page_size_pos
      rw [kept.coherent.clean _ page found (clean _) _ (by omega), kept.start, Nat.add_assoc, split]

end DiskBackedSlice
end DiskBacked
