import Svr4.Host.PageCache

/- Calls on the cached part of a file return what the same calls on a flat array return. -/
namespace DiskBacked
open OrderedDicts List

theorem sliceIndices_bounds (size : Nat) (start stop : Option Int) (step : Int) :
    (0 < step → 0 ≤ (sliceIndices size start stop step).1 ∧
      (sliceIndices size start stop step).1 ≤ size ∧
      0 ≤ (sliceIndices size start stop step).2 ∧ (sliceIndices size start stop step).2 ≤ size) ∧
    (step < 0 → (sliceIndices size start stop step).1 < size ∧
      -1 ≤ (sliceIndices size start stop step).2) := by
  unfold sliceIndices
  refine ⟨fun up => ?_, fun down => ?_⟩
  · cases start <;> cases stop <;> simp only [Option.map_none, Option.map_some, Option.getD_none,
      Option.getD_some] <;> (repeat' split) <;> omega
  · cases start <;> cases stop <;> simp only [Option.map_none, Option.map_some, Option.getD_none,
      Option.getD_some] <;> (repeat' split) <;> omega

theorem pyRange_inside {size : Nat} {start stop step : Int} (nonzero : step ≠ 0)
    (up : 0 < step → 0 ≤ start ∧ stop ≤ size) (down : step < 0 → start < size ∧ -1 ≤ stop) :
    ∀ i ∈ pyRange start stop step, 0 ≤ i ∧ i < size := by
  intro i mem
  obtain ⟨j, j_mem, rfl⟩ := mem_map.mp mem
  rw [mem_range] at j_mem
  by_cases pos : 0 < step
  · have below : (j + 1 : Int) ≤ (stop - start + step - 1) / step := by omega
    have product := Int.mul_le_of_le_ediv pos below
    have nonneg : 0 ≤ (j : Int) * step := Int.mul_nonneg (by omega) (by omega)
    have expand : ((j : Int) + 1) * step = j * step + step := by
      rw [Int.add_mul, Int.one_mul]
    omega
  · have neg : 0 < -step := by omega
    have below : (j + 1 : Int) ≤ (start - stop - step - 1) / -step := by omega
    have product := Int.mul_le_of_le_ediv neg below
    have nonneg : 0 ≤ (j : Int) * -step := Int.mul_nonneg (by omega) (by omega)
    have expand : ((j : Int) + 1) * -step = -(j * step) - step := by
      rw [Int.add_mul, Int.one_mul, Int.mul_neg, Int.sub_eq_add_neg]
    have turned : (j : Int) * -step = -(j * step) := Int.mul_neg _ _
    omega

theorem pyRange_one {start stop : Int} : pyRange start stop 1 =
    (range (stop - start).toNat).map fun i : Nat => start + i := by
  unfold pyRange
  simp

variable {c : Config} {s t : DiskBackedSlice} {a : Bytes} {i : Nat}

structure Shows (c : Config) (s : DiskBackedSlice) (a : Bytes) : Prop where
  coherent : s.Coherent c
  size : a.length = s.size
  bytes : ∀ i < s.size, a.getD i 0 = s.byteAt c i

namespace DiskBackedSlice

theorem getByte_ok (shows : Shows c s a) (room : 1 ≤ c.max_cached_pages) (inside : i < s.size) :
    Keeps c s (s.getByte c i).1 ∧ (s.getByte c i).2 = a.getD i 0 := by
  have next : i + 1 ≤ s.size := inside
  unfold getByte
  dsimp only
  obtain ⟨kept, bytes⟩ : Keeps c s (s.read_range c i (i + 1)).1 ∧ _ :=
    read_range_ok shows.coherent room next
  refine ⟨kept, ?_⟩
  rw [bytes, shows.bytes i inside]
  simp

theorem Keeps.shows (kept : Keeps c s t) (shows : Shows c s a) : Shows c t a :=
  ⟨kept.coherent, shows.size.trans kept.size.symm, fun i small => by
    rw [kept.size] at small
    rw [shows.bytes i small, kept.bytes i small]⟩

theorem getBytes_ok (shows : Shows c s a) (room : 1 ≤ c.max_cached_pages) (is : List Nat)
    (inside : ∀ i ∈ is, i < s.size) : Keeps c s (getBytes c is s).1 ∧
      (getBytes c is s).2 = is.map fun i => a.getD i 0 := by
  induction is generalizing s with
  | nil => exact ⟨Keeps.refl shows.coherent, rfl⟩
  | cons i is ih =>
    obtain ⟨first, byte⟩ := getByte_ok shows room (inside i mem_cons_self)
    obtain ⟨rest, bytes⟩ := ih (first.shows shows) fun j mem => by
      rw [first.size]
      exact inside j (mem_cons_of_mem _ mem)
    unfold getBytes
    dsimp only
    refine ⟨first.keep rest, ?_⟩
    rw [byte, bytes]
    rfl

def Moves (c : Config) (s t : DiskBackedSlice) : Prop := ∃ f, Becomes c s t f

theorem Moves.trans {u : DiskBackedSlice} (first : Moves c s t) (second : Moves c t u) :
    Moves c s u := by
  obtain ⟨f, first⟩ := first
  obtain ⟨g, second⟩ := second
  exact ⟨g, first.trans second⟩

theorem write_shows (shows : Shows c s a) (room : 1 ≤ c.max_cached_pages) (start : Nat)
    (payload : Bytes) (inside : start + payload.length ≤ s.size) :
    Moves c s (s.write_range c start payload) ∧
      Shows c (s.write_range c start payload) (overwrite a start payload) := by
  have wrote := write_range_ok shows.coherent room inside
  have size := shows.size
  refine ⟨⟨_, wrote⟩, wrote.coherent, ?_, ?_⟩
  · rw [overwrite_length (by omega), wrote.size, size]
  · intro i small
    rw [wrote.size] at small
    rw [wrote.bytes i small, overwrite_getD (by omega), shows.bytes i small]

theorem set_eq_overwrite (small : i < a.length) (b : UInt8) : a.set i b = overwrite a i [b] := by
  unfold overwrite
  rw [set_eq_take_append_cons_drop, if_pos small, append_assoc, singleton_append]
  rfl

theorem setBytes_shows (room : 1 ≤ c.max_cached_pages) (pbs : List (Nat × UInt8))
    (shows : Shows c s a) (inside : ∀ pb ∈ pbs, pb.1 < s.size) :
    Moves c s (pbs.foldl (fun s pb => s.write_range c pb.1 [pb.2]) s) ∧
      Shows c (pbs.foldl (fun s pb => s.write_range c pb.1 [pb.2]) s)
        (pbs.foldl (fun a pb => a.set pb.1 pb.2) a) := by
  induction pbs generalizing s a with
  | nil => exact ⟨⟨_, Keeps.refl shows.coherent⟩, shows⟩
  | cons pb pbs ih =>
    have here := inside pb mem_cons_self
    obtain ⟨moved, shown⟩ := write_shows shows room pb.1 [pb.2] (by rw [length_singleton]; omega)
    rw [← set_eq_overwrite (by rw [shows.size]; exact here)] at shown
    obtain ⟨f, becomes⟩ := moved
    obtain ⟨rest, shown'⟩ := ih shown fun pb' mem => by
      rw [becomes.size]
      exact inside pb' (mem_cons_of_mem _ mem)
    exact ⟨Moves.trans ⟨f, becomes⟩ rest, shown'⟩

theorem call_ok (shows : Shows c s a) (room : 1 ≤ c.max_cached_pages) (op : Op) :
    (s.call c op).2 = (flatCall a op).2 ∧ Shows c (s.call c op).1 (flatCall a op).1 ∧
      Moves c s (s.call c op).1 := by
  have size := shows.size
  have still : Moves c s s := ⟨_, Keeps.refl shows.coherent⟩
  unfold call flatCall
  rw [size]
  cases op with
  | getItem key =>
    dsimp only
    generalize (if 0 ≤ key then key else (s.size : Int) + key) = index
    by_cases bad : index < 0 ∨ (s.size : Int) ≤ index
    · rw [if_pos bad, if_pos bad]
      exact ⟨rfl, shows, still⟩
    · rw [if_neg bad, if_neg bad]
      obtain ⟨kept, byte⟩ := getByte_ok shows room (show index.toNat < s.size by omega)
      exact ⟨congrArg Output.byte byte, kept.shows shows, _, kept⟩
  | getSlice start stop step =>
    dsimp only
    generalize step.getD 1 = step
    by_cases zero : step = 0
    · rw [if_pos zero, if_pos zero]
      exact ⟨rfl, shows, still⟩
    rw [if_neg zero, if_neg zero]
    obtain ⟨up, down⟩ := sliceIndices_bounds s.size start stop step
    generalize sliceIndices s.size start stop step = pair at *
    obtain ⟨start, stop⟩ := pair
    by_cases strided : step ≠ 1
    · rw [if_pos strided]
      have inside := pyRange_inside zero (fun pos => ⟨(up pos).1, (up pos).2.2.2⟩) down
      obtain ⟨kept, bytes⟩ := getBytes_ok shows room ((pyRange start stop step).map Int.toNat)
        (fun i mem => by
          obtain ⟨j, j_mem, rfl⟩ := mem_map.mp mem
          have := inside j j_mem
          omega)
      refine ⟨?_, kept.shows shows, _, kept⟩
      rw [bytes, map_map]
      rfl
    · rw [if_neg strided]
      obtain rfl : step = 1 := not_not.mp strided
      rw [pyRange_one]
      by_cases empty : stop ≤ start
      · rw [if_pos empty, Int.toNat_of_nonpos (by omega : stop - start ≤ 0)]
        exact ⟨rfl, shows, still⟩
      rw [if_neg empty]
      have stop_inside : stop.toNat ≤ s.size := by omega
      obtain ⟨kept, bytes⟩ : Keeps c s (s.read_range c start.toNat stop.toNat).1 ∧ _ :=
        read_range_ok shows.coherent room stop_inside
      refine ⟨?_, kept.shows shows, _, kept⟩
      dsimp only
      have count : stop.toNat - start.toNat = (stop - start).toNat := by omega
      rw [bytes, map_map, count]
      congr 1
      apply map_congr_left
      intro j mem
      rw [mem_range] at mem
      have place : (start + (j : Int)).toNat = start.toNat + j := by omega
      dsimp only [Function.comp]
      rw [place, shows.bytes _ (by omega)]
  | setItem key value =>
    dsimp only
    generalize (if 0 ≤ key then key else (s.size : Int) + key) = index
    by_cases bad : index < 0 ∨ (s.size : Int) ≤ index
    · rw [if_pos bad, if_pos bad]
      exact ⟨rfl, shows, still⟩
    · rw [if_neg bad, if_neg bad]
      have inside : index.toNat < s.size := by omega
      obtain ⟨moved, shown⟩ := write_shows shows room index.toNat
        [UInt8.ofNat (value % 256).toNat] (by rw [length_singleton]; omega)
      rw [← set_eq_overwrite (by rw [size]; exact inside)] at shown
      exact ⟨rfl, shown, moved⟩
  | setSlice start stop step payload =>
    dsimp only
    generalize step.getD 1 = step
    by_cases zero : step = 0
    · rw [if_pos zero, if_pos zero]
      exact ⟨rfl, shows, still⟩
    rw [if_neg zero, if_neg zero]
    obtain ⟨up, down⟩ := sliceIndices_bounds s.size start stop step
    generalize sliceIndices s.size start stop step = pair at *
    obtain ⟨start, stop⟩ := pair
    by_cases strided : step ≠ 1
    · rw [if_pos strided, if_pos strided]
      by_cases wrong : payload.length ≠ ((pyRange start stop step).map Int.toNat).length
      · rw [if_pos wrong, if_pos wrong]
        exact ⟨rfl, shows, still⟩
      rw [if_neg wrong, if_neg wrong]
      have inside := pyRange_inside zero (fun pos => ⟨(up pos).1, (up pos).2.2.2⟩) down
      obtain ⟨moved, shown⟩ := setBytes_shows room
        (((pyRange start stop step).map Int.toNat).zip payload) shows (fun pb mem => by
          obtain ⟨j, j_mem, eq⟩ := mem_map.mp (of_mem_zip mem).1
          have := inside j j_mem
          omega)
      exact ⟨rfl, shown, moved⟩
    · rw [if_neg strided, if_neg strided]
      by_cases wrong : stop - start ≠ payload.length
      · rw [if_pos wrong, if_pos wrong]
        exact ⟨rfl, shows, still⟩
      rw [if_neg wrong, if_neg wrong]
      by_cases empty : payload = []
      · rw [if_pos empty, empty]
        have same : overwrite a start.toNat [] = a := by
          unfold overwrite
          rw [append_nil, length_nil, Nat.add_zero, take_append_drop]
        rw [same]
        exact ⟨rfl, shows, still⟩
      · rw [if_neg empty]
        obtain ⟨moved, shown⟩ := write_shows shows room start.toNat payload (by omega)
        exact ⟨rfl, shown, moved⟩
  | evict =>
    have kept := evict_keeps shows.coherent
    exact ⟨rfl, kept.shows shows, _, kept⟩
  | flush sync =>
    have kept := (flush_ok shows.coherent sync).1
    exact ⟨rfl, kept.shows shows, _, kept⟩

theorem run_ok (shows : Shows c s a) (room : 1 ≤ c.max_cached_pages) (ops : List Op) :
    (s.run c ops).2 = (flatRun ops a).2 ∧ Shows c (s.run c ops).1 (flatRun ops a).1 ∧
      Moves c s (s.run c ops).1 := by
  induction ops generalizing s a with
  | nil => exact ⟨rfl, shows, _, Keeps.refl shows.coherent⟩
  | cons op ops ih =>
    obtain ⟨out, shown, moved⟩ := call_ok shows room op
    obtain ⟨outs, shown', moved'⟩ := ih shown
    unfold run flatRun
    dsimp only
    rw [out, outs]
    exact ⟨rfl, shown', moved.trans moved'⟩

theorem init_shows (file : Bytes) (start size : Nat) : Shows c (init file start size)
    ((range size).map fun i => file.getD (start + i) 0) := by
  refine ⟨⟨nodup_nil, nofun, nofun, nofun, nofun⟩, ?_, ?_⟩
  · rw [length_map, length_range]
    rfl
  · intro i small
    have inside : i < size := small
    simp only [getD_eq_getElem?_getD, getElem?_map, getElem?_range inside]
    rfl

end DiskBackedSlice

open DiskBackedSlice

/-- Every call returns what a flat array would. The file keeps its bytes outside the part, and after
a synchronous flush or `close` has those of the array. -/
theorem cache_transparent (c : Config) (room : 1 ≤ c.max_cached_pages) (file : Bytes)
    (start size : Nat) (ops : List Op) :
    let flat := (range size).map fun i => file.getD (start + i) 0
    let s := (init file start size).run c ops
    s.2 = (flatRun ops flat).2 ∧
    (∀ t, t = s.1 ∨ t = s.1.flush c true ∨ t = s.1.close c →
      (∀ i, i < start ∨ start + size ≤ i → t.handle.getD i 0 = file.getD i 0) ∧
      file.length ≤ t.handle.length ∧ t.handle.length ≤ max file.length (start + size)) ∧
    ∀ t, t = s.1.flush c true ∨ t = s.1.close c → ∀ i < size,
      t.handle.getD (start + i) 0 = (flatRun ops flat).1.getD i 0 := by
  intro flat s
  obtain ⟨outs, shown, f, moved⟩ := run_ok (init_shows file start size (c := c)) room ops
  have size_eq : s.1.size = size := moved.size
  have start_eq : s.1.start_offset = start := moved.start
  obtain ⟨flushed, file_bytes⟩ := flush_ok shown.coherent true
  have synced := moved.trans flushed
  refine ⟨outs, ?_, ?_⟩
  · rintro t (rfl | rfl | rfl)
    · exact ⟨moved.outside, moved.shrinks, moved.grows⟩
    · exact ⟨synced.outside, synced.shrinks, synced.grows⟩
    · exact ⟨synced.outside, synced.shrinks, synced.grows⟩
  · have after : ∀ i < size, (s.1.flush c true).handle.getD (start + i) 0 =
        (flatRun ops flat).1.getD i 0 := by
      intro i small
      have inside : i < s.1.size := by rwa [size_eq]
      have here := file_bytes rfl i inside
      rw [start_eq] at here
      rw [here, shown.bytes i inside]
    rintro t (rfl | rfl)
    · exact after
    · exact after

/-- Pages of four bytes, one of them in the cache; the part is longer than the file. -/
theorem cache_transparent_small :
    ((init [1, 2, 3, 4, 5, 6] 1 10).run ⟨2, 1⟩
      [.setSlice (some 2) (some 8) none [9, 9, 9, 9, 9, 9], .getSlice none none none,
        .getItem (-1)]).2 = [.done, .bytes [2, 3, 9, 9, 9, 9, 9, 9, 0, 0], .byte 0] := by
  rw [(cache_transparent ⟨2, 1⟩ (by decide) [1, 2, 3, 4, 5, 6] 1 10 _).1]
  decide +kernel

end DiskBacked
