import Svr4.Host.DirectoryBlocks

/- The changes of a directory block that the host tools make, as changes of its records. -/
namespace UfsDirectory
open ByteImages List Nat

def entry (inode_number : Nat) (name : List Nat) (record_length : Nat) : Direct :=
  ⟨inode_number, name.length, name ++ List.replicate (record_length - 8 - name.length) 0⟩

def trim (ep : Direct) : Direct :=
  ⟨ep.d_ino, ep.d_namlen, ep.rest.take (dirsiz ep.d_namlen - 8)⟩

def fitted (child : Nat) (name : List Nat) (ep : Direct) : List Direct :=
  let needed := dirsiz name.length
  if ep.d_ino = 0 then
    if needed + 8 ≤ ep.d_reclen then
      [entry child name needed, entry 0 [] (ep.d_reclen - needed)]
    else [entry child name ep.d_reclen]
  else [trim ep, entry child name (ep.d_reclen - dirsiz ep.d_namlen)]

def Gap (needed : Nat) (ep : Direct) : Prop := ep.d_ino = 0 ∧ ep.d_reclen = needed + 8

instance (needed : Nat) (ep : Direct) : Decidable (Gap needed ep) :=
  inferInstanceAs (Decidable (_ ∧ _))

structure Name (name : List Nat) : Prop where
  ascii : ∀ c ∈ name, c < 128
  some_ : 1 ≤ name.length
  short : name.length ≤ 255

section Records
variable {child len : Nat} {name : List Nat} {ep : Direct}

theorem entry_reclen (ino : Nat) (holds : dirsiz name.length ≤ len) :
    (entry ino name len).d_reclen = len := by
  have := (dirsiz_ge name.length).1
  unfold entry Direct.d_reclen
  rw [length_append, length_replicate]
  omega

theorem entry_good {ino : Nat} (small : ino < 2 ^ 32) (short : name.length ≤ 255)
    (aligned : len % 4 = 0) (holds : dirsiz name.length ≤ len) : Good (entry ino name len) := by
  have reclen := entry_reclen ino holds
  exact ⟨small, reclen.symm ▸ aligned, reclen.symm ▸ holds, short⟩

theorem entry_name (ino : Nat) (name : List Nat) (len : Nat) :
    (entry ino name len).d_name = name := take_left

theorem encode_eq (ascii : ∀ c ∈ name, c < 128) (holds : dirsiz name.length ≤ len) (ino : Nat) :
    encode_ufs_directory_entry ino name len = some (entry ino name len).bytes := by
  unfold encode_ufs_directory_entry encode_ascii
  rw [if_pos ascii]
  dsimp only
  rw [if_neg (by omega), Direct.bytes, entry_reclen ino holds]
  simp [entry]

theorem encode_short (few : len < 12) : encode_ufs_directory_entry 0 [] len = none := by
  unfold encode_ufs_directory_entry encode_ascii
  rw [if_pos (by simp)]
  exact if_pos few

theorem trim_reclen (good : Good ep) : (trim ep).d_reclen = dirsiz ep.d_namlen := by
  have holds := good.holds
  have := (dirsiz_ge ep.d_namlen).1
  unfold Direct.d_reclen at holds
  unfold trim Direct.d_reclen
  rw [length_take]
  omega

theorem trim_good (good : Good ep) : Good (trim ep) := by
  have reclen := trim_reclen good
  exact ⟨good.ino, reclen.symm ▸ dirsiz_aligned _, le_of_eq reclen.symm, good.short⟩

theorem trim_live (ep : Direct) : (trim ep).live = ep.live := by
  have := (dirsiz_ge ep.d_namlen).1
  have name : (trim ep).d_name = ep.d_name := by
    have within : ep.d_namlen ≤ dirsiz ep.d_namlen - 8 := by omega
    unfold trim Direct.d_name
    rw [take_take, min_eq_left within]
  unfold Direct.live
  rw [name]
  rfl

section
variable (good : Good ep) (takes : Takes (dirsiz name.length) ep)
  (gap : ¬ Gap (dirsiz name.length) ep)
include good takes gap

theorem fitted_good (named : Name name) (small : child < 2 ^ 32) :
    ∀ e ∈ fitted child name ep, Good e := by
  have aligned := good.aligned
  have aligned' := dirsiz_aligned name.length
  have aligned'' := dirsiz_aligned ep.d_namlen
  unfold fitted
  dsimp only
  split
  · next free =>
    obtain ⟨-, room⟩ := takes.resolve_right fun full => full.1 free
    split
    · next splits =>
      have more : ep.d_reclen ≠ dirsiz name.length + 8 := fun same => gap ⟨free, same⟩
      have twelve : dirsiz 0 = 12 := rfl
      simp only [forall_mem_cons, not_mem_nil, false_implies, implies_true, and_true]
      exact ⟨entry_good small named.short aligned' (le_refl _),
        entry_good (by decide) (by decide) (by omega) (by rw [length_nil, twelve]; omega)⟩
    · simp only [forall_mem_cons, not_mem_nil, false_implies, implies_true, and_true]
      exact entry_good small named.short aligned room
  · next used =>
    obtain ⟨-, room⟩ := takes.resolve_left fun unused => used unused.1
    simp only [forall_mem_cons, not_mem_nil, false_implies, implies_true, and_true]
    exact ⟨trim_good good, entry_good small named.short (by omega) (by omega)⟩

theorem fitted_total : total (fitted child name ep) = ep.d_reclen := by
  have aligned := good.aligned
  have aligned' := dirsiz_aligned name.length
  unfold fitted total
  dsimp only
  split
  · next free =>
    obtain ⟨-, room⟩ := takes.resolve_right fun full => full.1 free
    split
    · next splits =>
      have more : ep.d_reclen ≠ dirsiz name.length + 8 := fun same => gap ⟨free, same⟩
      have twelve : dirsiz ([] : List Nat).length = 12 := rfl
      simp only [map_cons, map_nil, sum_cons, sum_nil]
      rw [entry_reclen child (le_refl _), entry_reclen 0 (by rw [twelve]; omega)]
      omega
    · simp only [map_cons, map_nil, sum_cons, sum_nil]
      rw [entry_reclen child room, add_zero]
  · next used =>
    obtain ⟨-, room⟩ := takes.resolve_left fun unused => used unused.1
    simp only [map_cons, map_nil, sum_cons, sum_nil]
    rw [trim_reclen good, entry_reclen child (by omega)]
    omega

end

theorem fitted_live (real : child ≠ 0) : ((fitted child name ep).filterMap Direct.live).Perm
      ((name, child) :: [ep].filterMap Direct.live) := by
  have new (len : Nat) : (entry child name len).live = some (name, child) := by
    unfold Direct.live
    rw [entry_name]
    exact if_neg real
  have free (len : Nat) : (entry 0 [] len).live = none := if_pos rfl
  unfold fitted
  dsimp only
  split
  · next zero =>
    have nobody : ep.live = none := if_pos zero
    split
    · simp [new, free, nobody]
    · simp [new, nobody]
  · next used =>
    have there : ep.live = some (ep.d_name, ep.d_ino) := if_neg used
    simp only [filterMap_cons, trim_live, there, new, filterMap_nil]
    exact List.Perm.swap _ _ _

end Records

section Slots
variable {child len : Nat} {name : List Nat} {ep : Direct}

variable (front back : List Nat) (block_offset : Nat)

theorem assign_piece (middle back bytes : List Nat) :
    assign (front ++ (middle ++ back)) front.length middle.length bytes =
      front ++ (bytes ++ back) := by
  unfold assign
  rw [take_left, ← append_assoc front middle back, ← length_append, drop_left, append_assoc]

theorem place_piece (middle back : List Nat) (ascii : ∀ c ∈ name, c < 128)
    (holds : dirsiz name.length ≤ middle.length) (ino : Nat) :
    place_entry (front ++ (middle ++ back)) front.length middle.length ino name =
      some (front ++ ((entry ino name middle.length).bytes ++ back)) := by
  unfold place_entry
  rw [encode_eq ascii holds, Option.map_some, assign_piece]

theorem extended_within {directory_bytes : List Nat} {new_size : Nat}
    (within : new_size ≤ directory_bytes.length) :
    extended directory_bytes (max directory_bytes.length new_size) = directory_bytes := by
  unfold extended
  rw [Nat.max_eq_left within, Nat.sub_self, replicate_zero, append_nil]

theorem fill_free (free : ep.d_ino = 0) (room : dirsiz name.length ≤ ep.d_reclen)
    (ascii : ∀ c ∈ name, c < 128) (child : Nat)
    (inside : block_offset + 512 ≤ (front ++ (ep.bytes ++ back)).length) :
    fill_slot (front ++ (ep.bytes ++ back)) ⟨block_offset, front.length, ep.d_reclen, none⟩ child
        name (dirsiz name.length) =
      if dirsiz name.length + 8 ≤ ep.d_reclen ∧ ep.d_reclen < dirsiz name.length + 12 then none
      else some (front ++ (layout (fitted child name ep) ++ back)) := by
  have length := bytes_length ep
  have all : (front ++ (ep.bytes ++ back)).length = front.length + ep.d_reclen + back.length := by
    rw [length_append, length_append, length, add_assoc]
  unfold fill_slot
  dsimp only
  rw [max_eq_right room,
    extended_within (by unfold UFS_DIRBLKSIZ; exact Nat.max_le.mpr ⟨inside, by omega⟩)]
  unfold fitted
  rw [if_pos free]
  split
  · next splits =>
    -- the record in two: what the name takes, and the rest
    obtain ⟨used, left_, both, used_length⟩ :
        ∃ used left_, ep.bytes = used ++ left_ ∧ used.length = dirsiz name.length :=
      ⟨ep.bytes.take (dirsiz name.length), ep.bytes.drop (dirsiz name.length),
        (take_append_drop _ _).symm, by rw [length_take, length]; omega⟩
    have left_length : left_.length = ep.d_reclen - dirsiz name.length := by
      rw [both, length_append, used_length] at length
      omega
    rw [both, append_assoc, ← append_assoc front, ← used_length, ← length_append,
      used_length, ← left_length]
    by_cases few : ep.d_reclen < dirsiz name.length + 12
    · rw [if_pos ⟨splits, few⟩, place_entry, encode_short (by omega)]
      rfl
    have twelve : dirsiz ([] : List Nat).length = 12 := rfl
    rw [if_neg fun both => few both.2,
      place_piece (front ++ used) left_ back (by simp) (by rw [twelve]; omega) 0]
    dsimp only
    rw [append_assoc, ← used_length, place_piece front used _ ascii
      (le_of_eq used_length.symm) child]
    unfold layout
    simp [used_length]
  · next whole =>
    rw [if_neg (by omega), ← length, place_piece front ep.bytes back ascii (by omega) child]
    simp [layout]

theorem fill_slack (good : Good ep) (used : ep.d_ino ≠ 0)
    (room : dirsiz ep.d_namlen + dirsiz name.length ≤ ep.d_reclen) (ascii : ∀ c ∈ name, c < 128)
    (child : Nat) (inside : block_offset + 512 ≤ (front ++ (ep.bytes ++ back)).length) :
    fill_slot (front ++ (ep.bytes ++ back))
        ⟨block_offset, front.length + dirsiz ep.d_namlen, ep.d_reclen - dirsiz ep.d_namlen,
          some (front.length, dirsiz ep.d_namlen)⟩ child name (dirsiz name.length) =
      some (front ++ (layout (fitted child name ep) ++ back)) := by
  have length := bytes_length ep
  have minimal := (dirsiz_ge ep.d_namlen).2
  have all : (front ++ (ep.bytes ++ back)).length = front.length + ep.d_reclen + back.length := by
    rw [length_append, length_append, length, add_assoc]
  unfold fill_slot
  dsimp only
  rw [max_eq_right (show dirsiz name.length ≤ ep.d_reclen - dirsiz ep.d_namlen by omega),
    extended_within (by unfold UFS_DIRBLKSIZ; exact Nat.max_le.mpr ⟨inside, by omega⟩)]
  -- the length of the record is replaced, then what is behind its name
  have reclen : 8 + ep.rest.length = ep.d_reclen := rfl
  have head : (front ++ to_bytes 4 ep.d_ino).length = front.length + 4 := by
    rw [length_append, length_to_bytes]
  have shorter : assign (front ++ (ep.bytes ++ back)) (front.length + 4) 2
      (to_bytes 2 (dirsiz ep.d_namlen)) =
        (front ++ (trim ep).bytes) ++ (ep.rest.drop (dirsiz ep.d_namlen - 8) ++ back) := by
    have piece := assign_piece (front ++ to_bytes 4 ep.d_ino) (to_bytes 2 ep.d_reclen)
      (to_bytes 2 ep.d_namlen ++ ep.rest ++ back) (to_bytes 2 (dirsiz ep.d_namlen))
    rw [head, length_to_bytes] at piece
    have before : front ++ (ep.bytes ++ back) = front ++ to_bytes 4 ep.d_ino ++
        (to_bytes 2 ep.d_reclen ++ (to_bytes 2 ep.d_namlen ++ ep.rest ++ back)) := by
      unfold Direct.bytes
      simp only [append_assoc]
    rw [before, piece, Direct.bytes, trim_reclen good]
    unfold trim
    simp only [append_assoc]
    rw [← append_assoc (ep.rest.take _), take_append_drop]
  have slack : (ep.rest.drop (dirsiz ep.d_namlen - 8)).length =
      ep.d_reclen - dirsiz ep.d_namlen := by
    rw [length_drop]
    omega
  have behind : (front ++ (trim ep).bytes).length = front.length + dirsiz ep.d_namlen := by
    rw [length_append, bytes_length, trim_reclen good]
  rw [shorter, ← slack, ← behind, place_piece _ _ back ascii (by omega) child, slack]
  unfold fitted layout
  rw [if_neg used]
  simp

theorem fill_slot_eq (good : Good ep) (takes : Takes (dirsiz name.length) ep)
    (ascii : ∀ c ∈ name, c < 128) (child : Nat)
    (inside : block_offset + 512 ≤ (front ++ (ep.bytes ++ back)).length) :
    fill_slot (front ++ (ep.bytes ++ back)) (slot_at block_offset front.length ep) child name
        (dirsiz name.length) =
      if Gap (dirsiz name.length) ep then none
      else some (front ++ (layout (fitted child name ep) ++ back)) := by
  have aligned := good.aligned
  have aligned' := dirsiz_aligned name.length
  rcases takes with ⟨free, room⟩ | ⟨used, room⟩
  · rw [slot_at, if_pos free, fill_free front back block_offset free room ascii child inside]
    by_cases gap : Gap (dirsiz name.length) ep
    · have same := gap.2
      rw [if_pos gap, if_pos (by omega)]
    · have more : ep.d_reclen ≠ dirsiz name.length + 8 := fun same => gap ⟨free, same⟩
      rw [if_neg gap, if_neg (by omega)]
  · rw [slot_at, if_neg used, if_neg fun gap => used gap.1]
    exact fill_slack front back block_offset good used room ascii child inside

end Slots

def merged (previous ep : Direct) : Direct :=
  ⟨previous.d_ino, previous.d_namlen, previous.rest ++ ep.bytes⟩

def decoded (offset : Nat) (ep : Direct) : UFSDirectoryEntry :=
  ⟨ep.d_ino, ep.d_reclen, ep.d_namlen, decode_ascii ep.d_name, offset⟩

def decoded_records : Nat → List Direct → List UFSDirectoryEntry
  | _, [] => []
  | offset, ep :: records => decoded offset ep :: decoded_records (offset + ep.d_reclen) records

def pairs (records : List Direct) : List (List Nat × Nat) := records.filterMap Direct.live

def without (name : List Nat) (ps : List (List Nat × Nat)) : List (List Nat × Nat) :=
  ps.eraseP fun p => p.1 = name

section Removing
variable {name : List Nat} {ep previous : Direct} {records : List Direct}

theorem merged_reclen (previous ep : Direct) :
    (merged previous ep).d_reclen = previous.d_reclen + ep.d_reclen := by
  unfold merged Direct.d_reclen
  rw [length_append, bytes_length, Direct.d_reclen, add_assoc]

theorem merged_good (good : Good previous) (here : Good ep) : Good (merged previous ep) := by
  have aligned := good.aligned
  have aligned' := here.aligned
  have holds := good.holds
  have reclen := merged_reclen previous ep
  exact ⟨good.ino, by omega, by rw [reclen]; exact le_trans holds (le_add_right _ _), good.short⟩

theorem merged_live (good : Good previous) (ep : Direct) :
    (merged previous ep).live = previous.live := by
  have within := good.name_within
  have name : (merged previous ep).d_name = previous.d_name := by
    exact take_append_of_le_length (le_of_succ_le within)
  unfold Direct.live
  rw [name]
  rfl

theorem iter_records (back : List Nat) (limit : Nat) (front : List Nat)
    (good : ∀ ep ∈ records, Good ep) (fills : front.length + total records = limit)
    (small : total records ≤ 512) (rounds : Nat) (enough : records.length ≤ rounds) :
    iter_loop (front ++ (layout records ++ back)) limit rounds front.length =
      decoded_records front.length records := by
  induction records generalizing front rounds with
  | nil =>
    have fills : front.length = limit := fills
    cases rounds with
    | zero => rfl
    | succ rounds => exact if_pos (by omega)
  | cons ep records ih =>
    obtain ⟨rounds, rfl⟩ := exists_eq_add_one_of_ne_zero
      (ne_of_gt (lt_of_lt_of_le (succ_pos _) enough))
    have sum : total (ep :: records) = ep.d_reclen + total records := rfl
    have here := good ep (mem_cons_self ..)
    have twelve := here.reclen_ge
    rw [length_cons] at enough
    have moved := ih (front ++ ep.bytes) (fun e mem => good e (mem_cons_of_mem _ mem))
      (by rw [length_append, bytes_length]; omega) (by omega) rounds (by omega)
    rw [append_assoc, length_append, bytes_length] at moved
    rw [iter_loop, if_neg (by omega), layout_cons, append_assoc,
      decode_at front _ here (by omega) (by omega)]
    dsimp only
    rw [moved]
    rfl

theorem matches_iff (ascii : ∀ c ∈ name, c < 128) (offset : Nat) (ep : Direct) :
    ((decoded offset ep).name ≠ name ∨ (decoded offset ep).inode = 0) ↔
      ∀ p, ep.live = some p → p.1 ≠ name := by
  have same : (decoded offset ep).name = name ↔ ep.d_name = name := decode_ascii_inj ascii
  have inode : (decoded offset ep).inode = ep.d_ino := rfl
  unfold Direct.live
  rw [inode, Ne, same]
  split
  · next free => exact ⟨fun _ p nobody => (nomatch nobody), fun _ => .inr free⟩
  · next used =>
    constructor
    · rintro (other | free) p there
      · cases there
        exact other
      · exact absurd free used
    · exact fun other => .inl (other _ rfl)

theorem remove_nothing (ascii : ∀ c ∈ name, c < 128) (updated : List Nat) (offset : Nat)
    (absent : ∀ p ∈ pairs records, p.1 ≠ name) (previous : Option UFSDirectoryEntry) :
    remove_loop updated name (decoded_records offset records) previous = none := by
  induction records generalizing offset previous with
  | nil => rfl
  | cons ep records ih =>
    have here : ∀ p, ep.live = some p → p.1 ≠ name := fun p there =>
      absent p (mem_filterMap.mpr ⟨ep, mem_cons_self .., there⟩)
    rw [decoded_records, remove_loop, if_pos ((matches_iff ascii offset ep).mpr here)]
    refine ih _ (fun p mem => absent p ?_) _
    obtain ⟨e, there, live⟩ := mem_filterMap.mp mem
    exact mem_filterMap.mpr ⟨e, mem_cons_of_mem _ there, live⟩

structure Removed (name : List Nat) (before after : List Direct) : Prop where
  good : ∀ ep ∈ after, Good ep
  total : total after = total before
  pairs : pairs after = without name (pairs before)

theorem pairs_cons (ep : Direct) (records : List Direct) :
    pairs (ep :: records) = pairs [ep] ++ pairs records := by
  show ([ep] ++ records).filterMap Direct.live = _
  exact filterMap_append

theorem pairs_append (xs ys : List Direct) : pairs (xs ++ ys) = pairs xs ++ pairs ys :=
  filterMap_append

theorem without_cons_of_ne (other : ∀ p, ep.live = some p → p.1 ≠ name) (records : List Direct) :
    without name (pairs (ep :: records)) = pairs [ep] ++ without name (pairs records) := by
  rw [pairs_cons]
  refine eraseP_append_right _ fun p mem => ?_
  obtain ⟨e, there, live⟩ := mem_filterMap.mp mem
  obtain rfl := mem_singleton.mp there
  simpa using other p live

theorem Removed.append {pr after : List Direct} (good : ∀ ep ∈ pr, Good ep)
    (others : ∀ ep ∈ pr, ∀ p, ep.live = some p → p.1 ≠ name)
    (removed : Removed name records after) : Removed name (pr ++ records) (pr ++ after) where
  good ep mem := (mem_append.mp mem).elim (good ep) (removed.good ep)
  total := by rw [total_append, total_append, removed.total]
  pairs := by
    rw [pairs_append, pairs_append, removed.pairs]
    refine (eraseP_append_right _ fun p mem => ?_).symm
    obtain ⟨e, there, live⟩ := mem_filterMap.mp mem
    simpa using others e there p live

theorem merged_bytes (previous ep : Direct) : (merged previous ep).bytes =
    to_bytes 4 previous.d_ino ++ to_bytes 2 (previous.d_reclen + ep.d_reclen) ++
      to_bytes 2 previous.d_namlen ++ previous.rest ++ ep.bytes := by
  rw [Direct.bytes, merged_reclen]
  simp only [merged, append_assoc]

theorem assign_merged (front back : List Nat) (previous ep : Direct) (records : List Direct) :
    assign (front ++ (layout (previous :: ep :: records) ++ back)) (front.length + 4) 2
        (to_bytes 2 (previous.d_reclen + ep.d_reclen)) =
      front ++ (layout (merged previous ep :: records) ++ back) := by
  have piece := assign_piece (front ++ to_bytes 4 previous.d_ino) (to_bytes 2 previous.d_reclen)
    (to_bytes 2 previous.d_namlen ++ previous.rest ++ layout (ep :: records) ++ back)
    (to_bytes 2 (previous.d_reclen + ep.d_reclen))
  rw [length_append, length_to_bytes, length_to_bytes] at piece
  have before : front ++ (layout (previous :: ep :: records) ++ back) =
      front ++ to_bytes 4 previous.d_ino ++ (to_bytes 2 previous.d_reclen ++
        (to_bytes 2 previous.d_namlen ++ previous.rest ++ layout (ep :: records) ++ back)) := by
    rw [layout_cons previous]
    simp only [Direct.bytes, append_assoc]
  rw [before, piece, layout_cons, layout_cons, merged_bytes]
  simp only [append_assoc]

theorem without_first {p : List Nat × Nat} (live : ep.live = some p) (same : p.1 = name)
    (records : List Direct) :
    without name (pairs (ep :: records)) = pairs records := by
  have first : pairs (ep :: records) = p :: pairs records := filterMap_cons_some live
  rw [first]
  exact eraseP_cons_of_pos (by simpa using same)

theorem remove_present (ascii : ∀ c ∈ name, c < 128) (back front : List Nat)
    (pr : List Direct) (few : pr.length ≤ 1) (good : ∀ ep ∈ pr ++ records, Good ep)
    (inside : front.length + total (pr ++ records) ≤ 512)
    (others : ∀ ep ∈ pr, ∀ p, ep.live = some p → p.1 ≠ name)
    (present : ∃ p ∈ pairs records, p.1 = name) :
    ∃ after, remove_loop (front ++ (layout (pr ++ records) ++ back)) name
        (decoded_records (front.length + total pr) records)
        (pr.head?.map (decoded front.length)) = some (front ++ (layout after ++ back)) ∧
      Removed name (pr ++ records) after := by
  induction records generalizing front pr with
  | nil =>
    obtain ⟨p, mem, -⟩ := present
    cases mem
  | cons ep records ih =>
    have here := good ep (mem_append_right _ (mem_cons_self ..))
    have twelve := here.reclen_ge
    have behind : ∀ e ∈ records, Good e := fun e mem =>
      good e (mem_append_right _ (mem_cons_of_mem _ mem))
    have sum : total (ep :: records) = ep.d_reclen + total records := rfl
    have single : total [ep] = ep.d_reclen := rfl
    have place : (front ++ layout pr).length = front.length + total pr := by
      rw [length_append, layout_length]
    rw [total_append, sum] at inside
    rw [decoded_records, remove_loop]
    by_cases other : ∀ p, ep.live = some p → p.1 ≠ name
    · have later : ∃ p ∈ pairs records, p.1 = name := by
        obtain ⟨p, mem, same⟩ := present
        obtain ⟨e, there, live⟩ := mem_filterMap.mp mem
        rcases mem_cons.mp there with rfl | there
        · exact absurd same (other p live)
        · exact ⟨p, mem_filterMap.mpr ⟨e, there, live⟩, same⟩
      rw [if_pos ((matches_iff ascii _ ep).mpr other)]
      have skips : ∀ e ∈ pr, Good e := fun e mem => good e (mem_append_left _ mem)
      split
      · -- the first record of the block: it takes nothing in
        obtain ⟨after, removes, removed⟩ := ih (front ++ layout pr ++ ep.bytes) [] (by simp)
          behind (by
            rw [length_append, place, bytes_length, nil_append]
            omega) (by simp) later
        have all : Removed name ((pr ++ [ep]) ++ records) ((pr ++ [ep]) ++ after) := by
          refine removed.append (fun e mem => ?_) fun e mem => ?_
          · exact (mem_append.mp mem).elim (skips e) fun m => mem_singleton.mp m ▸ here
          · exact (mem_append.mp mem).elim (others e) fun m => mem_singleton.mp m ▸ other
        rw [append_assoc] at all
        refine ⟨(pr ++ [ep]) ++ after, ?_, all⟩
        have whole (rest : List Direct) : front ++ (layout ((pr ++ [ep]) ++ rest) ++ back) =
            front ++ layout pr ++ ep.bytes ++ (layout ([] ++ rest) ++ back) := by
          simp [layout]
        have start : front.length + total pr + ep.d_reclen =
            (front ++ layout pr ++ ep.bytes).length + total [] := by
          rw [length_append, place, bytes_length]
          rfl
        have split : pr ++ ep :: records = (pr ++ [ep]) ++ records := by simp
        rw [split, whole records, whole after, start]
        exact removes
      · obtain ⟨after, removes, removed⟩ := ih (front ++ layout pr) [ep] (by simp)
          (fun e mem => (mem_cons.mp mem).elim (· ▸ here) (behind e)) (by
            rw [place, total_append, single]
            omega) (fun e mem => mem_singleton.mp mem ▸ other) later
        refine ⟨pr ++ after, ?_, removed.append skips others⟩
        rw [place, single, append_assoc, append_assoc] at removes
        rw [layout_append, layout_append, append_assoc, append_assoc]
        exact removes
    · obtain ⟨p, live, same⟩ : ∃ p, ep.live = some p ∧ p.1 = name := by
        push Not at other
        exact other
      rw [if_neg fun not_here => other ((matches_iff ascii _ ep).mp not_here)]
      match pr with
      | [] =>
        have gone : Removed name (ep :: records) (entry 0 [] ep.d_reclen :: records) := by
          refine ⟨?_, ?_, ?_⟩
          · refine forall_mem_cons.mpr ⟨entry_good (by decide) (by decide) here.aligned
              twelve, behind⟩
          · have reclen : (entry 0 [] ep.d_reclen).d_reclen = ep.d_reclen := entry_reclen 0 twelve
            exact congrArg (· + total records) reclen
          · rw [without_first live same]
            exact filterMap_cons_none (if_pos rfl)
        refine ⟨_, ?_, gone⟩
        have freed := @place_piece [] front ep.bytes (layout records ++ back)
          (by simp) (by rw [bytes_length]; exact twelve) 0
        rw [bytes_length] at freed
        simpa [layout, decoded, total] using freed
      | [previous] =>
        have good' : Good previous := good previous (mem_cons_self ..)
        have before : total [previous] = previous.d_reclen := rfl
        have kept := without_cons_of_ne (others previous (mem_singleton.mpr rfl)) (ep :: records)
        refine ⟨merged previous ep :: records, ?_, ?_, ?_, ?_⟩
        · have same_block : (decoded front.length previous).offset / UFS_DIRBLKSIZ =
              (decoded (front.length + total [previous]) ep).offset / UFS_DIRBLKSIZ := by
            show front.length / 512 = (front.length + total [previous]) / 512
            rw [div_eq_of_lt (by omega), before, div_eq_of_lt (by omega)]
          dsimp only [List.head?_cons, Option.map_some]
          rw [if_pos same_block]
          exact congrArg some (assign_merged front back previous ep records)
        · exact forall_mem_cons.mpr ⟨merged_good good' here, behind⟩
        · have reclen := merged_reclen previous ep
          show (merged previous ep).d_reclen + total records =
            previous.d_reclen + (ep.d_reclen + total records)
          omega
        · rw [cons_append, nil_append, kept, without_first live same, pairs_cons]
          have first : pairs [merged previous ep] = pairs [previous] :=
            congrArg (fun live : Option _ => live.toList) (merged_live good' ep)
          rw [first]

end Removing

end UfsDirectory
