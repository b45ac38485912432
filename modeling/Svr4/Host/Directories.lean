import Svr4.Host.DirectoryEdits

/- Directories of blocks: an entry that is added and one that is deleted. -/
namespace UfsDirectory
open ByteImages List Option

def room (name : List Nat) (block : Block) : Option (List Direct × Direct × List Direct) :=
  (first_fit (dirsiz name.length) block.records).join

section Blocks
variable {name : List Nat} {child : Nat} {block : Block}

theorem Block.length (block : Block) : (layout block.records).length = 512 := by
  rw [layout_length, block.total_eq]

theorem Block.few (block : Block) : block.records.length < 512 := by
  have few (records : List Direct) (good : ∀ ep ∈ records, Good ep) :
      12 * records.length ≤ total records := by
    induction records with
    | nil => exact le_refl 0
    | cons ep records ih =>
      have here := (good ep (mem_cons_self ..)).reclen_ge
      have rest := ih fun e mem => good e (mem_cons_of_mem _ mem)
      have sum : total (ep :: records) = ep.d_reclen + total records := rfl
      rw [length_cons, sum]
      omega
  have := few block.records block.good
  have := block.total_eq
  omega

theorem Block.nonempty (block : Block) : block.records.isEmpty = false := by
  have all := block.total_eq
  cases records : block.records with
  | nil =>
    rw [records] at all
    cases all
  | cons ep rest => rfl

variable {pre post : List Direct} {ep : Direct}

theorem room_spec (found : room name block = some (pre, ep, post)) :
    first_fit (dirsiz name.length) block.records = some (some (pre, ep, post)) := by
  unfold room at found
  cases fit : first_fit (dirsiz name.length) block.records with
  | none =>
    rw [fit] at found
    cases found
  | some inner =>
    rw [fit] at found
    exact congrArg some found

theorem find_loop_step (front back rest : List Nat) (block : Block) (needed max_length : Nat)
    (inside : front.length + 512 ≤ max_length) :
    find_loop (front ++ (layout block.records ++ back)) needed max_length (front.length :: rest) =
      match first_fit needed block.records with
      | none => none
      | some (some (pre, ep, _)) =>
          some (some (slot_at front.length (front.length + total pre) ep))
      | some none =>
          find_loop (front ++ (layout block.records ++ back)) needed max_length rest := by
  have limit : min (front.length + UFS_DIRBLKSIZ) max_length = front.length + 512 :=
    Nat.min_eq_left inside
  rw [find_loop, limit, if_neg (by omega),
    scan_records back front.length (front.length + 512) front block.good (by rw [block.total_eq])
    (Nat.le_of_eq block.total_eq) UFS_DIRBLKSIZ block.few false]
  cases first_fit needed block.records with
  | none => rfl
  | some fit =>
    cases fit with
    | none => simp [block.nonempty]
    | some found => rfl

theorem block_offsets_eq (n : Nat) (some_ : 0 < n) :
    block_offsets (512 * n) = (List.range' 0 n).map (· * 512) := by
  have blocks : (512 * n + UFS_DIRBLKSIZ - 1) / UFS_DIRBLKSIZ = n := by
    unfold UFS_DIRBLKSIZ
    omega
  unfold block_offsets
  rw [blocks, max_eq_right some_, range_eq_range']
  rfl

theorem ufs_dirsiz_eq (ascii : ∀ c ∈ name, c < 128) :
    ufs_dirsiz name = some (dirsiz name.length) := by
  unfold ufs_dirsiz encode_ascii
  rw [if_pos ascii]
  rfl

theorem find_block (ascii : ∀ c ∈ name, c < 128) (block : Block) :
    find_ufs_directory_insert_slot (layout block.records) 512 name =
      (first_fit (dirsiz name.length) block.records).map
        (Option.map fun fit => slot_at 0 (total fit.1) fit.2.1) := by
  have step := find_loop_step [] [] [] block (dirsiz name.length) 512 (le_refl _)
  unfold find_ufs_directory_insert_slot
  rw [ufs_dirsiz_eq ascii]
  dsimp only
  rw [block.length, min_self, show block_offsets 512 = [0] from rfl]
  rw [append_nil, nil_append] at step
  refine step.trans ?_
  cases first_fit (dirsiz name.length) block.records with
  | none => rfl
  | some fit =>
    cases fit with
    | none => rfl
    | some found => simp

theorem slot_iff (ascii : ∀ c ∈ name, c < 128) (block : Block) :
    (∃ slot, find_ufs_directory_insert_slot (layout block.records) 512 name = some (some slot)) ↔
      ∃ fit, room name block = some fit := by
  rw [find_block ascii, room]
  cases first_fit (dirsiz name.length) block.records with
  | none => simp
  | some fit => cases fit <;> simp

theorem fill_directory (front back : List Nat) (named : Name name) (child : Nat)
    (fit : first_fit (dirsiz name.length) block.records = some (some (pre, ep, post))) :
    fill_slot (front ++ (layout block.records ++ back))
        (slot_at front.length (front.length + total pre) ep) child name (dirsiz name.length) =
      if Gap (dirsiz name.length) ep then none
      else some (front ++ (layout (pre ++ fitted child name ep ++ post) ++ back)) := by
  obtain ⟨records, takes⟩ := first_fit_spec fit
  have good := block.good ep (by rw [records]; simp)
  have place : (front ++ layout pre).length = front.length + total pre := by
    rw [length_append, layout_length]
  have whole : front ++ (layout block.records ++ back) =
      (front ++ layout pre) ++ (ep.bytes ++ (layout post ++ back)) := by
    rw [records, layout_append, layout_cons]
    simp only [append_assoc]
  have inside : front.length + 512 ≤ (front ++ (layout block.records ++ back)).length := by
    rw [length_append, length_append, block.length]
    omega
  rw [whole] at inside ⊢
  rw [← place, fill_slot_eq _ _ _ good takes named.ascii child inside]
  simp only [layout_append, append_assoc]

theorem insert_block (named : Name name) (child : Nat) (block : Block) :
    insert_ufs_directory_entry (layout block.records) 512 child name =
      match room name block with
      | some (pre, ep, post) =>
          if Gap (dirsiz name.length) ep then none
          else some (layout (pre ++ fitted child name ep ++ post))
      | none => none := by
  unfold insert_ufs_directory_entry room
  rw [find_block named.ascii, ufs_dirsiz_eq named.ascii]
  cases fit : first_fit (dirsiz name.length) block.records with
  | none => rfl
  | some inner =>
    cases inner with
    | none => rfl
    | some found =>
      have fills := fill_directory [] [] named child fit
      simpa using fills

def Block.filled (block : Block) {pre post : List Direct} {ep : Direct}
    (found : room name block = some (pre, ep, post)) (gap : ¬ Gap (dirsiz name.length) ep)
    (named : Name name) (small : child < 2 ^ 32) : Block where
  records := pre ++ fitted child name ep ++ post
  tiles := by
    obtain ⟨records, takes⟩ := first_fit_spec (room_spec found)
    have good := block.good
    have all := block.total_eq
    rw [records] at good all
    have here := good ep (by simp)
    rw [tiles_iff, total_append, total_append, fitted_total here takes gap]
    rw [total_append] at all
    have sum : total (ep :: post) = ep.d_reclen + total post := rfl
    refine ⟨fun e mem => ?_, by omega⟩
    rcases mem_append.mp mem with mem | mem
    · rcases mem_append.mp mem with mem | mem
      · exact good e (mem_append_left _ mem)
      · exact fitted_good here takes gap named small e mem
    · exact good e (mem_append_right _ (mem_cons_of_mem _ mem))

theorem filled_pairs (found : room name block = some (pre, ep, post)) (real : child ≠ 0) :
    (pairs (pre ++ fitted child name ep ++ post)).Perm ((name, child) :: pairs block.records) := by
  obtain ⟨records, -⟩ := first_fit_spec (room_spec found)
  rw [records, pairs_append, pairs_append, pairs_append, pairs_cons, append_assoc]
  have new : (pairs (fitted child name ep)).Perm ((name, child) :: pairs [ep]) := fitted_live real
  exact ((new.append_right (pairs post)).append_left (pairs pre)).trans perm_middle

end Blocks

section Directories
variable {name : List Nat} {child : Nat}

variable (blocks front back : List Block)

theorem directory_append :
    directory (front ++ back) = directory front ++ directory back := flatMap_append

theorem directory_cons (block : Block) (blocks : List Block) :
    directory (block :: blocks) = layout block.records ++ directory blocks := rfl

theorem directory_length : (directory blocks).length = 512 * blocks.length := by
  induction blocks with
  | nil => rfl
  | cons block blocks ih =>
    rw [directory_cons, length_append, block.length, ih, length_cons]
    omega

theorem live_pairs_append :
    live_pairs (front ++ back) = live_pairs front ++ live_pairs back := flatMap_append

theorem live_pairs_cons (block : Block) (blocks : List Block) :
    live_pairs (block :: blocks) = pairs block.records ++ live_pairs blocks := rfl

theorem read_block_eq (block : Block) :
    read_block (directory (front ++ block :: back)) (front.length * 512) =
      layout block.records := by
  have place : front.length * 512 = (directory front).length + 0 := by
    rw [directory_length, Nat.mul_comm, Nat.add_zero]
  have whole := directory_length (front ++ block :: back)
  rw [length_append, length_cons] at whole
  unfold read_block UFS_DIRBLKSIZ
  rw [Nat.min_eq_left (by omega), directory_append, directory_cons, place,
    slice_middle _ _ (by rw [block.length])]
  have all := slice_all (layout block.records)
  rwa [block.length] at all

theorem write_block_eq (block : Block) {bytes : List Nat} (length : bytes.length = 512) :
    write_range (directory (front ++ block :: back)) (front.length * 512) bytes =
      directory front ++ (bytes ++ directory back) := by
  have place : front.length * 512 = (directory front).length := by
    rw [directory_length, Nat.mul_comm]
  have within : (directory front).length ≤ (directory (front ++ block :: back)).length := by
    rw [directory_append, length_append]
    omega
  have piece := assign_piece (directory front) (layout block.records) (directory back) bytes
  unfold write_range extended
  rw [place, Nat.sub_eq_zero_of_le within, replicate_zero, append_nil, length,
    ← block.length, directory_append, directory_cons]
  exact piece

theorem write_beyond {directory_bytes : List Nat} {offset : Nat}
    (beyond : directory_bytes.length ≤ offset) (bytes : List Nat) :
    write_range directory_bytes offset bytes = extended directory_bytes offset ++ bytes := by
  have length : (extended directory_bytes offset).length = offset := by
    unfold extended
    rw [length_append, length_replicate]
    omega
  unfold write_range assign
  rw [take_of_length_le (le_of_eq length), drop_of_length_le (by omega), append_nil]

theorem write_behind (bytes : List Nat) :
    write_range (directory blocks) (blocks.length * 512) bytes = directory blocks ++ bytes := by
  have place : (directory blocks).length = blocks.length * 512 := by
    rw [directory_length, mul_comm]
  rw [write_beyond (Nat.le_of_eq place), extended, place, Nat.sub_self, replicate_zero, append_nil]

def new_records (child : Nat) (name : List Nat) : List Direct :=
  [entry child name (dirsiz name.length), entry 0 [] (512 - dirsiz name.length)]

theorem new_block (named : Name name) (child : Nat) :
    insert_ufs_directory_entry [] 0 child name = some (layout (new_records child name)) := by
  have most := dirsiz_le named.short
  have twelve : dirsiz ([] : List Nat).length = 12 := rfl
  have found : find_ufs_directory_insert_slot [] 0 name = some (some (empty_block 0)) := by
    unfold find_ufs_directory_insert_slot
    rw [ufs_dirsiz_eq named.ascii]
    show find_loop [] _ 0 [0] = _
    rw [find_loop]
    exact (if_pos (Nat.zero_le _)).trans (if_pos (by unfold UFS_DIRBLKSIZ; omega))
  unfold insert_ufs_directory_entry
  rw [found, ufs_dirsiz_eq named.ascii]
  unfold fill_slot empty_block UFS_DIRBLKSIZ
  dsimp only
  have zeros : extended [] (max ([] : List Nat).length
      (max (0 + 512) (0 + max (dirsiz name.length) 512))) = replicate (dirsiz name.length) 0 ++
          (replicate (512 - dirsiz name.length) 0 ++ []) := by
    unfold extended
    rw [append_nil, ← replicate_add, nil_append, length_nil]
    congr 1
    omega
  have second := @place_piece [] (replicate (dirsiz name.length) 0)
    (replicate (512 - dirsiz name.length) 0) [] (by simp)
    (by rw [twelve, length_replicate]; omega) 0
  have first := place_piece [] (replicate (dirsiz name.length) 0)
    ((entry 0 [] (512 - dirsiz name.length)).bytes ++ []) named.ascii
    (by rw [length_replicate]) child
  rw [length_replicate, length_replicate] at second
  rw [length_replicate] at first
  rw [zeros, if_pos (by omega), zero_add, second]
  refine first.trans ?_
  simp [new_records, layout]

def Block.new (child : Nat) (name : List Nat) (named : Name name) (small : child < 2 ^ 32) :
    Block where
  records := new_records child name
  tiles := by
    have most := dirsiz_le named.short
    have aligned := dirsiz_aligned name.length
    have twelve : dirsiz ([] : List Nat).length = 12 := rfl
    have room : dirsiz ([] : List Nat).length ≤ 512 - dirsiz name.length := by
      rw [twelve]
      omega
    rw [tiles_iff]
    unfold new_records total
    simp only [forall_mem_cons, not_mem_nil, false_implies, implies_true, and_true,
      map_cons, map_nil, sum_cons, sum_nil]
    rw [entry_reclen child (Nat.le_refl _), entry_reclen 0 room]
    exact ⟨⟨entry_good small named.short aligned (Nat.le_refl _),
      entry_good (by decide) (by decide) (by omega) room⟩, by omega⟩

theorem new_pairs (real : child ≠ 0) (name : List Nat) :
    pairs (new_records child name) = [(name, child)] := by
  have first : (entry child name (dirsiz name.length)).live = some (name, child) := by
    unfold Direct.live
    rw [entry_name]
    exact if_neg real
  have second : (entry 0 [] (512 - dirsiz name.length)).live = none := if_pos rfl
  simp [pairs, new_records, first, second]

def tried (blocks : List Block) (append_only : Bool) : List Nat :=
  (if 1 < blocks.length then [blocks.length - 1] else []) ++
    if append_only then [] else List.range blocks.length

/-- A record of the block that takes the name leaves no gap. -/
def Fills (name : List Nat) (block : Block) : Prop :=
  ∀ pre ep post, room name block = some (pre, ep, post) → ¬ Gap (dirsiz name.length) ep

theorem insert_in_block_eq (block : Block) (named : Name name) (small : child < 2 ^ 32)
    (real : child ≠ 0) (fills : Fills name block) :
    (room name block = none ∧
      insert_in_block (directory (front ++ block :: back)) name child (front.length * 512) = none) ∨
    ∃ block' : Block,
      insert_in_block (directory (front ++ block :: back)) name child (front.length * 512) =
        some (directory (front ++ block' :: back)) ∧
      (pairs block'.records).Perm ((name, child) :: pairs block.records) := by
  unfold insert_in_block
  dsimp only
  rw [read_block_eq, block.length, insert_block named child block]
  cases found : room name block with
  | none => exact .inl ⟨rfl, rfl⟩
  | some fit =>
    obtain ⟨pre, ep, post⟩ := fit
    have gap := fills pre ep post found
    refine .inr ⟨block.filled found gap named small, ?_, filled_pairs found real⟩
    dsimp only
    rw [if_neg gap, map_some]
    have length := (block.filled found gap named small).length
    have wrote := write_block_eq front back block length
    exact congrArg some (wrote.trans (by rw [directory_append, directory_cons]))

theorem live_pairs_replace {front back : List Block} {block block' : Block}
    (new : (pairs block'.records).Perm ((name, child) :: pairs block.records)) :
    (live_pairs (front ++ block' :: back)).Perm
      ((name, child) :: live_pairs (front ++ block :: back)) := by
  rw [live_pairs_append, live_pairs_append, live_pairs_cons, live_pairs_cons]
  exact ((new.append_right _).append_left _).trans perm_middle

theorem append_block_eq (some_ : blocks ≠ []) (named : Name name) (small : child < 2 ^ 32) :
    append_block (directory blocks) name child =
      some (directory (blocks ++ [Block.new child name named small])) := by
  have count : 0 < blocks.length := length_pos_of_ne_nil some_
  have blocks_eq : max 1 (((directory blocks).length + UFS_DIRBLKSIZ - 1) / UFS_DIRBLKSIZ) =
      blocks.length := by
    rw [directory_length]
    unfold UFS_DIRBLKSIZ
    omega
  unfold append_block
  rw [blocks_eq, new_block named child, map_some]
  unfold UFS_DIRBLKSIZ
  rw [write_behind, directory_append]
  exact congrArg (fun bytes => some (directory blocks ++ bytes)) (append_nil _).symm

theorem add_loop_spec (some_ : blocks ≠ []) (named : Name name) (small : child < 2 ^ 32)
    (real : child ≠ 0) (fills : ∀ block ∈ blocks, Fills name block) (places : List Nat)
    (inside : ∀ k ∈ places, k < blocks.length) :
    ∃ blocks', add_loop (directory blocks) name child (places.map (· * 512)) =
        some (directory blocks') ∧
      (live_pairs blocks').Perm ((name, child) :: live_pairs blocks) ∧
      ((∃ k ∈ places, ∃ block, blocks[k]? = some block ∧ room name block ≠ none) →
        blocks'.length = blocks.length) := by
  induction places with
  | nil =>
    refine ⟨_, append_block_eq blocks some_ named small, ?_, fun h => ?_⟩
    · have new : pairs (Block.new child name named small).records = [(name, child)] :=
        new_pairs real name
      rw [live_pairs_append, live_pairs_cons, new]
      exact perm_append_comm
    · obtain ⟨k, mem, -⟩ := h
      cases mem
  | cons k places ih =>
    have here := inside k (mem_cons_self ..)
    obtain ⟨block, there⟩ : ∃ block, blocks[k]? = some block :=
      ⟨blocks[k], getElem?_eq_getElem here⟩
    obtain ⟨front, back, split, count⟩ : ∃ front back, blocks = front ++ block :: back ∧
        front.length = k := by
      refine ⟨blocks.take k, blocks.drop (k + 1), ?_, by rw [length_take]; omega⟩
      obtain ⟨_, rfl⟩ := List.getElem?_eq_some_iff.mp there
      rw [← drop_eq_getElem_cons here, take_append_drop]
    have mem : block ∈ blocks := by
      rw [split]
      simp
    rw [map_cons, add_loop]
    have tries := insert_in_block_eq front back block named small real (fills block mem)
    rw [← split, count] at tries
    rcases tries with ⟨full, skipped⟩ | ⟨block', filled, new⟩
    · rw [skipped]
      obtain ⟨blocks', added, live, used⟩ := ih fun j m => inside j (mem_cons_of_mem _ m)
      refine ⟨blocks', added, live, fun h => used ?_⟩
      obtain ⟨j, m, other, at_j, has_room⟩ := h
      rcases mem_cons.mp m with rfl | m
      · rw [there] at at_j
        cases at_j
        exact absurd full has_room
      · exact ⟨j, m, other, at_j, has_room⟩
    · rw [filled]
      refine ⟨front ++ block' :: back, rfl, ?_, fun _ => ?_⟩
      · rw [split]
        exact live_pairs_replace new
      · rw [split, length_append, length_append, length_cons, length_cons]

theorem fast_path_eq : fast_path (directory blocks) =
    (if 1 < blocks.length then [blocks.length - 1] else []).map (· * 512) := by
  unfold fast_path UFS_DIRBLKSIZ
  rw [directory_length]
  have count : (512 * blocks.length + 512 - 1) / 512 = blocks.length := by omega
  rw [count]
  split
  · rw [if_pos (by omega)]
    simp only [map_cons, map_nil, cons.injEq, and_true]
    omega
  · rw [if_neg (by omega)]
    rfl

theorem places_eq (some_ : blocks ≠ []) (append_only : Bool) : (fast_path (directory blocks) ++
      if append_only then [] else block_offsets (directory blocks).length) =
      (tried blocks append_only).map (· * 512) := by
  have count : 0 < blocks.length := length_pos_of_ne_nil some_
  unfold tried
  rw [fast_path_eq, map_append]
  congr 1
  cases append_only with
  | true => rfl
  | false =>
    rw [if_neg Bool.false_ne_true, if_neg Bool.false_ne_true, directory_length,
      block_offsets_eq _ count, range_eq_range']

end Directories

/-- What adding an entry is to do: the directory is of blocks again, the pair is in it, and it has
not grown if a block tried has a slot. -/
structure Adds (name : List Nat) (child : Nat) (append_only : Bool) (blocks : List Block) :
    Prop where
  added : ∃ blocks', add_ufs_directory_entry (directory blocks) name child append_only =
      some (directory blocks') ∧
    (live_pairs blocks').Perm ((name, child) :: live_pairs blocks) ∧
    ((∃ k ∈ tried blocks append_only, ∃ block, blocks[k]? = some block ∧ ∃ slot,
        find_ufs_directory_insert_slot (layout block.records) 512 name = some (some slot)) →
      blocks'.length = blocks.length)
  /-- an insertion that has a slot, in a block or in the directory as a whole, does not raise -/
  block_inserts : ∀ block ∈ blocks, ∀ slot,
    find_ufs_directory_insert_slot (layout block.records) 512 name = some (some slot) →
      insert_ufs_directory_entry (layout block.records) 512 child name ≠ none
  inserts : ∀ slot, find_ufs_directory_insert_slot (directory blocks) (directory blocks).length
      name = some (some slot) →
    insert_ufs_directory_entry (directory blocks) (directory blocks).length child name ≠ none

section Results
variable {name : List Nat} {child : Nat} {slot : UFSDirectoryInsertSlot}

theorem find_loop_blocks (needed : Nat) (blocks : List Block) (front : List Nat)
    (j max_length : Nat) (start : front.length = j * 512)
    (length : front.length + 512 * blocks.length = max_length)
    (found : find_loop (front ++ directory blocks) needed max_length ((List.range' j
      blocks.length).map (· * 512)) = some (some slot)) :
    ∃ pre block post, blocks = pre ++ block :: post ∧ ∃ fit,
      first_fit needed block.records = some (some fit) ∧
        slot = slot_at (front ++ directory pre).length
          ((front ++ directory pre).length + total fit.1) fit.2.1 := by
  induction blocks generalizing front j with
  | nil => cases found
  | cons block blocks ih =>
    rw [length_cons, range'_succ, map_cons, ← start, directory_cons,
      find_loop_step front _ _ block needed max_length (by
        rw [← length, length_cons]
        omega)] at found
    cases fit : first_fit needed block.records with
    | none =>
      rw [fit] at found
      cases found
    | some inner =>
      rw [fit] at found
      cases inner with
      | some fit' =>
        cases found
        refine ⟨[], block, blocks, rfl, fit', fit, ?_⟩
        rw [show directory [] = [] from rfl, append_nil]
      | none =>
        rw [← append_assoc] at found
        obtain ⟨pre, block', post, split, fit', here, same⟩ := ih (front ++ layout block.records)
          (j + 1) (by rw [length_append, block.length, start, add_mul])
          (by rw [length_append, block.length, ← length, length_cons]; omega) found
        refine ⟨block :: pre, block', post, by rw [split]; rfl, fit', here, ?_⟩
        rw [directory_cons, ← append_assoc]
        exact same

theorem insert_whole (blocks : List Block) (named : Name name)
    (fills : ∀ block ∈ blocks, Fills name block)
    (found : find_ufs_directory_insert_slot (directory blocks) (directory blocks).length name =
      some (some slot)) :
    insert_ufs_directory_entry (directory blocks) (directory blocks).length child name ≠ none := by
  by_cases none_ : blocks = []
  · rw [none_, show (directory []) = [] from rfl, length_nil, new_block named child]
    exact some_ne_none _
  have count : 0 < blocks.length := length_pos_of_ne_nil none_
  unfold insert_ufs_directory_entry
  rw [found, ufs_dirsiz_eq named.ascii]
  dsimp only
  unfold find_ufs_directory_insert_slot at found
  rw [ufs_dirsiz_eq named.ascii] at found
  dsimp only at found
  rw [min_self, directory_length, block_offsets_eq _ count] at found
  obtain ⟨pre, block, post, split, ⟨before, ep, behind⟩, fit, rfl⟩ :=
    find_loop_blocks _ blocks [] 0 (512 * blocks.length) rfl (by rw [length_nil, zero_add]) found
  have no_gap : ¬ Gap (dirsiz name.length) ep := by
    refine fills block (by rw [split]; simp) before ep behind ?_
    unfold room
    rw [fit]
    rfl
  rw [split, directory_append, directory_cons, nil_append,
    fill_directory _ _ named child fit, if_neg no_gap]
  exact some_ne_none _

theorem add_some (blocks : List Block) (some_ : blocks ≠ []) (named : Name name)
    (small : child < 2 ^ 32) (real : child ≠ 0) (fills : ∀ block ∈ blocks, Fills name block)
    (append_only : Bool) : Adds name child append_only blocks where
  added := by
    have inside : ∀ k ∈ tried blocks append_only, k < blocks.length := by
      intro k mem
      rcases mem_append.mp mem with last | all
      · split at last
        · have := mem_singleton.mp last
          omega
        · cases last
      · cases append_only with
        | true => cases all
        | false => exact mem_range.mp all
    obtain ⟨blocks', added, live, used⟩ :=
      add_loop_spec blocks some_ named small real fills _ inside
    refine ⟨blocks', ?_, live, fun h => used ?_⟩
    · unfold add_ufs_directory_entry
      rw [places_eq blocks some_]
      exact added
    · obtain ⟨k, mem, block, there, slot⟩ := h
      obtain ⟨fit, has_room⟩ := (slot_iff named.ascii block).mp slot
      exact ⟨k, mem, block, there, by rw [has_room]; exact some_ne_none _⟩
  block_inserts block mem slot found := by
    obtain ⟨⟨pre, ep, post⟩, has_room⟩ := (slot_iff named.ascii block).mp ⟨slot, found⟩
    rw [insert_block named child block, has_room]
    dsimp only
    rw [if_neg (fills block mem pre ep post has_room)]
    exact some_ne_none _
  inserts slot found := insert_whole blocks named fills found

theorem add_first (named : Name name) (small : child < 2 ^ 32) (real : child ≠ 0) :
    Adds name child false [] where
  added := by
    refine ⟨[Block.new child name named small], ?_, ?_, ?_⟩
    · have place : insert_in_block [] name child (0 * 512) =
          some (directory [Block.new child name named small]) := by
        unfold insert_in_block
        dsimp only
        rw [show read_block [] (0 * 512) = [] from rfl, length_nil, new_block named child,
          map_some]
        refine congrArg some ((write_behind [] _).trans ?_)
        exact (append_nil _).symm
      show add_loop [] name child [0 * 512] = _
      rw [add_loop, place]
    · have new : pairs (Block.new child name named small).records = [(name, child)] :=
        new_pairs real name
      rw [live_pairs_cons, new]
      exact List.Perm.refl _
    · rintro ⟨k, mem, -⟩
      cases mem
  block_inserts block mem := (nomatch mem)
  inserts _ found := insert_whole [] named (fun _ mem => (nomatch mem)) found

theorem add_behind (named : Name name) (blocks : List Block) :
    add_ufs_directory_entry (directory []) name child true ≠ some (directory blocks) := by
  have added : add_ufs_directory_entry (directory []) name child true =
      some (replicate 512 0 ++ layout (new_records child name)) := by
    show append_block [] name child = _
    unfold append_block
    rw [new_block named child, map_some]
    exact congrArg some (write_beyond (Nat.zero_le 512) _)
  intro same
  rw [added] at same
  have same := some.inj same
  match blocks with
  | [] => exact absurd same (append_ne_nil_of_left_ne_nil (cons_ne_nil _ _) _)
  | block :: blocks =>
    obtain ⟨ep, records, split⟩ := exists_cons_of_ne_nil (isEmpty_eq_false_iff.mp block.nonempty)
    have mem : ep ∈ block.records := by
      rw [split]
      exact mem_cons_self ..
    have twelve := (block.good ep mem).reclen_ge
    have most := block.reclen_le mem
    rw [directory_cons, split, layout_cons, append_assoc] at same
    have bytes : to_bytes 2 0 = to_bytes 2 ep.d_reclen := congrArg (slice · 4 2) same
    have number := congrArg from_bytes bytes
    rw [from_to_bytes (by decide), from_to_bytes (by omega)] at number
    omega

/-- An entry is added right exactly when no record that takes the name leaves a gap, and a directory
that is only appended to has a block. -/
theorem adds_iff (blocks : List Block) (named : Name name) (small : child < 2 ^ 32)
    (real : child ≠ 0) (append_only : Bool) : Adds name child append_only blocks ↔
      (append_only = true → blocks ≠ []) ∧ ∀ block ∈ blocks, Fills name block := by
  constructor
  · intro adds
    refine ⟨?_, fun block mem pre ep post found gap => ?_⟩
    · rintro rfl rfl
      obtain ⟨blocks', added, -, -⟩ := adds.added
      exact add_behind named blocks' added
    · obtain ⟨slot, has_slot⟩ := (slot_iff named.ascii block).mpr ⟨_, found⟩
      apply adds.block_inserts block mem slot has_slot
      rw [insert_block named child block, found]
      exact if_pos gap
  · rintro ⟨some_, fills⟩
    by_cases none_ : blocks = []
    · cases append_only with
      | true => exact absurd none_ (some_ rfl)
      | false =>
        rw [none_]
        exact add_first named small real
    · exact add_some blocks none_ named small real fills append_only

theorem remove_block (ascii : ∀ c ∈ name, c < 128) (block : Block)
    (present : ∃ p ∈ pairs block.records, p.1 = name) :
    ∃ block' : Block, remove_ufs_directory_entry (layout block.records) 512 name =
        some (layout block'.records) ∧
      pairs block'.records = without name (pairs block.records) := by
  have all := block.total_eq
  obtain ⟨after, removes, removed⟩ := @remove_present name block.records ascii [] [] []
    (Nat.zero_le 1) block.good (by rw [length_nil, nil_append]; omega)
    (fun _ mem => (nomatch mem)) present
  have tiles : Tiles 0 after := by
    refine tiles_iff.mpr ⟨removed.good, ?_⟩
    have same := removed.total
    rw [nil_append] at same
    omega
  refine ⟨⟨after, tiles⟩, ?_, removed.pairs⟩
  have records := iter_records [] 512 [] block.good (by rw [length_nil]; omega)
    (le_of_eq all) 512 (le_of_lt block.few)
  unfold remove_ufs_directory_entry iter_ufs_directory_records
  rw [block.length, min_self]
  rw [nil_append, append_nil, length_nil] at records
  rw [records]
  simpa [total] using removes

theorem remove_block_absent (ascii : ∀ c ∈ name, c < 128) (block : Block)
    (absent : ∀ p ∈ pairs block.records, p.1 ≠ name) :
    remove_ufs_directory_entry (layout block.records) 512 name = none := by
  have records := iter_records [] 512 [] block.good
    (by rw [length_nil, block.total_eq]) (le_of_eq block.total_eq) 512
    (le_of_lt block.few)
  rw [nil_append, append_nil, length_nil] at records
  unfold remove_ufs_directory_entry iter_ufs_directory_records
  rw [block.length, min_self, records]
  exact remove_nothing ascii _ _ absent _

theorem delete_loop_spec (ascii : ∀ c ∈ name, c < 128) (front blocks : List Block)
    (present : ∃ p ∈ live_pairs blocks, p.1 = name) :
    ∃ blocks', delete_loop (directory (front ++ blocks)) name
        ((List.range' front.length blocks.length).map (· * 512)) =
          some (directory (front ++ blocks')) ∧
      live_pairs blocks' = without name (live_pairs blocks) := by
  induction blocks generalizing front with
  | nil =>
    obtain ⟨p, mem, -⟩ := present
    cases mem
  | cons block blocks ih =>
    rw [length_cons, range'_succ, map_cons, delete_loop, read_block_eq, block.length]
    by_cases here : ∃ p ∈ pairs block.records, p.1 = name
    · obtain ⟨block', removes, left_⟩ := remove_block ascii block here
      refine ⟨block' :: blocks, ?_, ?_⟩
      · rw [removes]
        dsimp only
        rw [write_block_eq front blocks block block'.length, directory_append, directory_cons]
      · obtain ⟨p, mem, same⟩ := here
        rw [live_pairs_cons, live_pairs_cons, left_]
        exact (@eraseP_append_left _ (fun p => decide (p.1 = name)) p (decide_eq_true same)
          _ (live_pairs blocks) mem).symm
    · have absent : ∀ p ∈ pairs block.records, p.1 ≠ name := fun p mem same =>
        here ⟨p, mem, same⟩
      have later : ∃ p ∈ live_pairs blocks, p.1 = name := by
        obtain ⟨p, mem, same⟩ := present
        rcases mem_append.mp mem with first | mem
        · exact absurd same (absent p first)
        · exact ⟨p, mem, same⟩
      obtain ⟨blocks', removes, left_⟩ := ih (front ++ [block]) later
      refine ⟨block :: blocks', ?_, ?_⟩
      · rw [remove_block_absent ascii block absent]
        simpa using removes
      · rw [live_pairs_cons, live_pairs_cons, left_]
        refine (eraseP_append_right _ fun p mem => ?_).symm
        simpa using absent p mem

theorem delete_spec (ascii : ∀ c ∈ name, c < 128) (blocks : List Block)
    (present : ∃ p ∈ live_pairs blocks, p.1 = name) :
    ∃ blocks', delete_ufs_directory_entry (directory blocks) name = some (directory blocks') ∧
      live_pairs blocks' = without name (live_pairs blocks) := by
  have count : ((directory blocks).length + UFS_DIRBLKSIZ - 1) / UFS_DIRBLKSIZ = blocks.length := by
    rw [directory_length]
    unfold UFS_DIRBLKSIZ
    omega
  unfold delete_ufs_directory_entry
  rw [count, range_eq_range']
  exact delete_loop_spec ascii [] blocks present

/-- The directories keep the format of the kernel: a deleted entry is gone and nothing else, and an
added one is there, in a block with a slot, exactly when no record that takes the name leaves a gap
of 8 bytes. -/
theorem edits_keep_format (blocks : List Block) (named : Name name) (small : child < 2 ^ 32)
    (real : child ≠ 0) (append_only : Bool) :
    ((∃ p ∈ live_pairs blocks, p.1 = name) →
      ∃ blocks', delete_ufs_directory_entry (directory blocks) name = some (directory blocks') ∧
        live_pairs blocks' = without name (live_pairs blocks)) ∧
    (Adds name child append_only blocks ↔
      (append_only = true → blocks ≠ []) ∧ ∀ block ∈ blocks, Fills name block) :=
  ⟨delete_spec named.ascii blocks, adds_iff blocks named small real append_only⟩

end Results

section Sample

theorem name_b : Name [98] := ⟨by decide, by decide, by decide⟩

def one_entry : Block := ⟨[entry 5 [97] 512], by decide +kernel⟩

theorem edits_keep_format_one_entry : Adds [98] 3 false [one_entry] := by
  refine (edits_keep_format [one_entry] name_b (by decide) (by decide) false).2.mpr
    ⟨fun h => (Bool.false_ne_true h).elim, fun block mem pre ep post found gap => ?_⟩
  obtain rfl := mem_singleton.mp mem
  obtain ⟨records, -⟩ := first_fit_spec (room_spec found)
  have there : ep ∈ one_entry.records := by
    rw [records]
    simp
  obtain rfl := mem_singleton.mp there
  exact absurd gap.1 (by decide)

def gapped : Block := ⟨[entry 0 [] 20, entry 5 [97] 492], by decide +kernel⟩

/-- A name of one byte has a slot in the free record, but cannot be put in. -/
theorem insert_raises : (∃ slot, find_ufs_directory_insert_slot (layout gapped.records) 512 [98] =
      some (some slot)) ∧
    insert_ufs_directory_entry (layout gapped.records) 512 3 [98] = none ∧
    ¬ Adds [98] 3 false [gapped] := by
  have fit : room [98] gapped = some ([], entry 0 [] 20, [entry 5 [97] 492]) := by decide +kernel
  have slot := (slot_iff name_b.ascii gapped).mpr ⟨_, fit⟩
  have raises : insert_ufs_directory_entry (layout gapped.records) 512 3 [98] = none := by
    rw [insert_block name_b 3 gapped, fit]
    exact if_pos ⟨rfl, rfl⟩
  obtain ⟨found, has_slot⟩ := slot
  exact ⟨⟨found, has_slot⟩, raises, fun adds =>
    adds.block_inserts gapped (mem_singleton.mpr rfl) found has_slot raises⟩

end Sample

end UfsDirectory
