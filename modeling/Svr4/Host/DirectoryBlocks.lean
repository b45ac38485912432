import Mathlib.Data.List.Perm.Basic
import Svr4.Host.DirectoryRecords

/- Blocks of a directory as rows of records, in the format that the kernel takes, and what the
   host tools find and change in them. -/
namespace UfsDirectory
open ByteImages List

def MAXNAMLEN : Nat := 255

/-- `struct direct` of ufs_fsdir.h, with all the bytes of the record behind its header. -/
structure Direct where
  d_ino : Nat
  d_namlen : Nat
  rest : List Nat
  deriving DecidableEq

namespace Direct
variable (ep : Direct)

def d_reclen : Nat := 8 + ep.rest.length

def d_name : List Nat := ep.rest.take ep.d_namlen

def bytes : List Nat :=
  to_bytes 4 ep.d_ino ++ to_bytes 2 ep.d_reclen ++ to_bytes 2 ep.d_namlen ++ ep.rest

def live : Option (List Nat × Nat) := if ep.d_ino = 0 then none else some (ep.d_name, ep.d_ino)

end Direct

/-- ufs_dir.c: the names are not checked. -/
def dirchk : Bool := false

/-- ufs_dir.c -/
def dirbadname (sp : List Nat) (l : Nat) : Bool := (sp.take l).any (· = 0) || sp.getD l 0 ≠ 0

/-- ufs_dir.c -/
def dirmangled (ep : Direct) (entryoffsetinblock : Nat) : Bool :=
  let i := UFS_DIRBLKSIZ - entryoffsetinblock % UFS_DIRBLKSIZ
  ep.d_reclen % 4 ≠ 0 || i < ep.d_reclen || ep.d_reclen < dirsiz ep.d_namlen ||
    MAXNAMLEN < ep.d_namlen || (dirchk && dirbadname ep.rest ep.d_namlen)

/-- From this offset on the records fill the block, and none of them is mangled. -/
def Tiles : Nat → List Direct → Prop
  | offset, [] => offset = UFS_DIRBLKSIZ
  | offset, ep :: records =>
      ep.d_ino < 2 ^ 32 ∧ dirmangled ep offset = false ∧ Tiles (offset + ep.d_reclen) records

instance decidableTiles : (offset : Nat) → (records : List Direct) →
    Decidable (Tiles offset records)
  | offset, [] => inferInstanceAs (Decidable (offset = UFS_DIRBLKSIZ))
  | offset, ep :: records =>
      have := decidableTiles (offset + ep.d_reclen) records
      inferInstanceAs (Decidable (ep.d_ino < 2 ^ 32 ∧ dirmangled ep offset = false ∧
        Tiles (offset + ep.d_reclen) records))

structure Block where
  records : List Direct
  tiles : Tiles 0 records

def layout (records : List Direct) : List Nat := records.flatMap Direct.bytes

def directory (blocks : List Block) : List Nat := blocks.flatMap fun block => layout block.records

def live_pairs (blocks : List Block) : List (List Nat × Nat) :=
  blocks.flatMap fun block => block.records.filterMap Direct.live

/-- What makes a record one that is not mangled, wherever it fits. -/
structure Good (ep : Direct) : Prop where
  ino : ep.d_ino < 2 ^ 32
  aligned : ep.d_reclen % 4 = 0
  holds : dirsiz ep.d_namlen ≤ ep.d_reclen
  short : ep.d_namlen ≤ 255

def total (records : List Direct) : Nat := (records.map Direct.d_reclen).sum

section Records
variable {ep : Direct} {records : List Direct} {offset n : Nat}

theorem dirsiz_ge (n : Nat) : 8 + n + 1 ≤ dirsiz n ∧ 12 ≤ dirsiz n := by
  unfold dirsiz
  omega

theorem dirsiz_le (short : n ≤ 255) : dirsiz n ≤ 264 := by
  unfold dirsiz
  omega

theorem dirsiz_aligned (n : Nat) : dirsiz n % 4 = 0 := by
  unfold dirsiz
  omega

theorem dirmangled_iff : dirmangled ep offset = false ↔
    ep.d_reclen % 4 = 0 ∧ ep.d_reclen ≤ 512 - offset % 512 ∧ dirsiz ep.d_namlen ≤ ep.d_reclen ∧
      ep.d_namlen ≤ 255 := by
  unfold dirmangled dirchk UFS_DIRBLKSIZ MAXNAMLEN
  simp [and_assoc]

theorem Good.name_within (good : Good ep) : ep.d_namlen + 1 ≤ ep.rest.length := by
  have holds := good.holds
  have enough := (dirsiz_ge ep.d_namlen).1
  unfold Direct.d_reclen at holds
  omega

theorem Good.reclen_ge (good : Good ep) : 12 ≤ ep.d_reclen :=
  Nat.le_trans (dirsiz_ge ep.d_namlen).2 good.holds

theorem tiles_iff : Tiles offset records ↔
    (∀ ep ∈ records, Good ep) ∧ offset + total records = 512 := by
  induction records generalizing offset with
  | nil =>
    unfold Tiles total
    simp [UFS_DIRBLKSIZ]
  | cons ep records ih =>
    unfold Tiles
    rw [dirmangled_iff, ih, forall_mem_cons]
    have sum : total (ep :: records) = ep.d_reclen + total records := rfl
    rw [sum, ← Nat.add_assoc]
    constructor
    · rintro ⟨ino, ⟨aligned, -, holds, short⟩, good, fills⟩
      exact ⟨⟨⟨ino, aligned, holds, short⟩, good⟩, fills⟩
    · rintro ⟨⟨here, good⟩, fills⟩
      exact ⟨here.ino, ⟨here.aligned, by omega, here.holds, here.short⟩, good, fills⟩

variable (block : Block)

theorem Block.good : ∀ ep ∈ block.records, Good ep := (tiles_iff.mp block.tiles).1

theorem Block.total_eq : total block.records = 512 := by
  have := (tiles_iff.mp block.tiles).2
  omega

theorem bytes_length (ep : Direct) : ep.bytes.length = ep.d_reclen := by
  unfold Direct.bytes Direct.d_reclen
  simp only [length_append, length_to_bytes]

theorem layout_length (records : List Direct) : (layout records).length = total records := by
  unfold layout total
  rw [length_flatMap]
  congr 1
  exact map_congr_left fun ep _ => bytes_length ep

theorem layout_append (pre post : List Direct) :
    layout (pre ++ post) = layout pre ++ layout post := flatMap_append

theorem layout_cons (ep : Direct) (records : List Direct) :
    layout (ep :: records) = ep.bytes ++ layout records := rfl

theorem total_append (pre post : List Direct) : total (pre ++ post) = total pre + total post := by
  unfold total
  rw [map_append, sum_append]

theorem Block.reclen_le (mem : ep ∈ block.records) : ep.d_reclen ≤ 512 := by
  have all := block.total_eq
  obtain ⟨pre, post, split⟩ := append_of_mem mem
  have here : total (ep :: post) = ep.d_reclen + total post := rfl
  rw [split, total_append, here] at all
  omega

end Records

section Decoding
variable {ep : Direct} {limit : Nat}

variable {bytes : List Nat}

theorem decode_ascii_eq (ascii : ∀ c ∈ bytes, c < 128) : decode_ascii bytes = bytes := by
  refine (map_congr_left fun c mem => if_pos (ascii c mem)).trans ?_
  exact map_id' bytes

theorem decode_ascii_iff : (∀ c ∈ decode_ascii bytes, c < 128) ↔ ∀ c ∈ bytes, c < 128 := by
  constructor
  · intro ascii c mem
    by_contra high
    have there : REPLACEMENT ∈ decode_ascii bytes := mem_map.mpr ⟨c, mem, if_neg high⟩
    exact absurd (ascii _ there) (by decide)
  · intro ascii
    rw [decode_ascii_eq ascii]
    exact ascii

theorem decode_ascii_inj {name : List Nat} (ascii : ∀ c ∈ name, c < 128) :
    decode_ascii bytes = name ↔ bytes = name := by
  constructor
  · rintro rfl
    exact (decode_ascii_eq (decode_ascii_iff.mp ascii)).symm
  · rintro rfl
    exact decode_ascii_eq ascii

theorem dirsiz_decoded (bytes : List Nat) : ufs_dirsiz (decode_ascii bytes) =
    if ∀ c ∈ bytes, c < 128 then some (dirsiz bytes.length) else none := by
  unfold ufs_dirsiz encode_ascii
  split
  · next ascii =>
    have ascii := decode_ascii_iff.mp ascii
    rw [if_pos ascii, decode_ascii_eq ascii]
    rfl
  · next other =>
    rw [if_neg fun ascii => other (decode_ascii_iff.mpr ascii)]
    rfl

theorem decode_at (front back : List Nat) (good : Good ep) (small : ep.d_reclen ≤ 512)
    (within : front.length + ep.d_reclen ≤ limit) :
    decode_ufs_directory_entry (front ++ (ep.bytes ++ back)) front.length limit =
      some ⟨ep.d_ino, ep.d_reclen, ep.d_namlen, decode_ascii ep.d_name, front.length⟩ := by
  have name := good.name_within
  have length := bytes_length ep
  have reclen : ep.d_reclen = 8 + ep.rest.length := rfl
  have first : slice ep.bytes 0 4 = to_bytes 4 ep.d_ino := rfl
  have second : slice ep.bytes 4 2 = to_bytes 2 ep.d_reclen := rfl
  have third : slice ep.bytes 6 2 = to_bytes 2 ep.d_namlen := rfl
  have fourth : slice ep.bytes 8 ep.d_namlen = ep.d_name := rfl
  have ino : u32 (front ++ (ep.bytes ++ back)) front.length = ep.d_ino := by
    have middle : slice (front ++ (ep.bytes ++ back)) (front.length + 0) 4 = slice ep.bytes 0 4 :=
      slice_middle front back (by omega)
    rw [Nat.add_zero, first] at middle
    rw [u32, middle, from_to_bytes good.ino]
  have reclen_eq : u16 (front ++ (ep.bytes ++ back)) (front.length + 4) = ep.d_reclen := by
    rw [u16, slice_middle front back (by omega), second, from_to_bytes (by omega)]
  have namlen_eq : u16 (front ++ (ep.bytes ++ back)) (front.length + 6) = ep.d_namlen := by
    rw [u16, slice_middle front back (by omega), third, from_to_bytes (by omega)]
  unfold decode_ufs_directory_entry
  dsimp only
  rw [ino, reclen_eq, namlen_eq, slice_middle front back (by omega), fourth,
    if_neg (by omega), if_neg (by omega), if_neg (by have := good.short; omega)]

end Decoding

section Finding
variable {needed : Nat} {records : List Direct}

/-- The first record with room, and those around it; none if a name that is not ASCII comes before.
-/
def first_fit (needed : Nat) :
    List Direct → Option (Option (List Direct × Direct × List Direct))
  | [] => some none
  | ep :: records =>
      if ep.d_ino = 0 ∧ needed ≤ ep.d_reclen then some (some ([], ep, records))
      else if ∀ c ∈ ep.d_name, c < 128 then
        if ep.d_ino ≠ 0 ∧ dirsiz ep.d_namlen + needed ≤ ep.d_reclen then
          some (some ([], ep, records))
        else (first_fit needed records).map (Option.map fun fit => (ep :: fit.1, fit.2))
      else none

def Takes (needed : Nat) (ep : Direct) : Prop :=
  (ep.d_ino = 0 ∧ needed ≤ ep.d_reclen) ∨
    (ep.d_ino ≠ 0 ∧ dirsiz ep.d_namlen + needed ≤ ep.d_reclen)

theorem first_fit_spec {pre post : List Direct} {ep : Direct}
    (fit : first_fit needed records = some (some (pre, ep, post))) :
    records = pre ++ ep :: post ∧ Takes needed ep := by
  induction records generalizing pre with
  | nil => cases fit
  | cons here records ih =>
    unfold first_fit at fit
    split at fit
    · next free =>
      cases fit
      exact ⟨rfl, .inl free⟩
    split at fit
    · split at fit
      · next slack =>
        cases fit
        exact ⟨rfl, .inr slack⟩
      cases later : first_fit needed records with
      | none =>
        rw [later] at fit
        cases fit
      | some found =>
        rw [later] at fit
        cases found with
        | none => cases fit
        | some found =>
          obtain ⟨pre', ep', post'⟩ := found
          cases fit
          obtain ⟨same, takes⟩ := ih later
          exact ⟨congrArg (here :: ·) same, takes⟩
    · cases fit

def slot_at (block_offset offset : Nat) (ep : Direct) : UFSDirectoryInsertSlot :=
  if ep.d_ino = 0 then ⟨block_offset, offset, ep.d_reclen, none⟩
  else ⟨block_offset, offset + dirsiz ep.d_namlen, ep.d_reclen - dirsiz ep.d_namlen,
    some (offset, dirsiz ep.d_namlen)⟩

theorem scan_records (back : List Nat) (block_offset limit : Nat) (front : List Nat)
    (good : ∀ ep ∈ records, Good ep) (fills : front.length + total records = limit)
    (small : total records ≤ 512) (rounds : Nat) (enough : records.length < rounds)
    (found_record : Bool) :
    scan_block (front ++ (layout records ++ back)) needed block_offset limit rounds front.length
        found_record =
      (first_fit needed records).map fun fit => match fit with
        | some (pre, ep, _) =>
            (some (slot_at block_offset (front.length + total pre) ep), true)
        | none => (none, found_record || !records.isEmpty) := by
  induction records generalizing front rounds found_record with
  | nil =>
    obtain ⟨rounds, rfl⟩ := Nat.exists_eq_add_one_of_ne_zero (Nat.ne_of_gt enough)
    have fills : front.length = limit := fills
    rw [scan_block, if_pos (by omega)]
    simp [first_fit]
  | cons ep records ih =>
    obtain ⟨rounds, rfl⟩ := Nat.exists_eq_add_one_of_ne_zero
      (Nat.ne_of_gt (Nat.zero_lt_of_lt enough))
    have sum : total (ep :: records) = ep.d_reclen + total records := rfl
    have here := good ep (mem_cons_self ..)
    have twelve := here.reclen_ge
    rw [sum] at fills small
    rw [length_cons] at enough
    have name : ep.d_name.length = ep.d_namlen := by
      have := here.name_within
      rw [Direct.d_name, length_take]
      omega
    rw [scan_block, if_neg (by omega), layout_cons, append_assoc,
      decode_at front _ here (by omega) (by omega)]
    dsimp only
    rw [dirsiz_decoded, name]
    unfold first_fit
    split
    · next free =>
      simp [slot_at, free.1, total]
    next short =>
    by_cases ascii : ∀ c ∈ ep.d_name, c < 128
    · rw [if_pos ascii, if_pos ascii]
      dsimp only
      split
      · next slack =>
        simp [slot_at, slack.1, total]
      have moved := ih (front ++ ep.bytes)
        (fun e mem => good e (mem_cons_of_mem _ mem))
        (by rw [length_append, bytes_length]; omega) (by omega) rounds (by omega) true
      rw [append_assoc, length_append, bytes_length] at moved
      rw [moved]
      cases first_fit needed records with
      | none => rfl
      | some found =>
        cases found with
        | none => simp
        | some found =>
          have rest : total (ep :: found.1) = ep.d_reclen + total found.1 := rfl
          simp [rest, Nat.add_assoc]
    · rw [if_neg ascii, if_neg ascii]
      rfl

end Finding

end UfsDirectory
