import Svr4.ByteImages

/- host_tools/fs/ufs_directory.py and the callers in ufs.py: the records of a directory, looked
   through, put in and taken out in its bytes. A function that raises a ValueError gives none. -/
namespace UfsDirectory
open ByteImages

def UFS_DIRBLKSIZ : Nat := 512

def REPLACEMENT : Nat := 0xFFFD

structure UFSDirectoryEntry where
  inode : Nat
  record_length : Nat
  name_length : Nat
  name : List Nat
  offset : Nat

structure UFSDirectoryInsertSlot where
  block_offset : Nat
  entry_offset : Nat
  record_length : Nat
  /-- `previous_entry_offset` and `previous_entry_new_length` -/
  previous_entry : Option (Nat × Nat)

def u32 (directory_bytes : List Nat) (offset : Nat) : Nat :=
  from_bytes (slice directory_bytes offset 4)

def u16 (directory_bytes : List Nat) (offset : Nat) : Nat :=
  from_bytes (slice directory_bytes offset 2)

/-- `bytes.decode('ascii', errors='replace')` -/
def decode_ascii (bytes : List Nat) : List Nat :=
  bytes.map fun b => if b < 128 then b else REPLACEMENT

def encode_ascii (name : List Nat) : Option (List Nat) :=
  if ∀ c ∈ name, c < 128 then some name else none

/-- What a name of this length takes, with its NUL and rounded up. -/
def dirsiz (name_length : Nat) : Nat := 8 + (name_length + 1 + 3) / 4 * 4

def ufs_dirsiz (name : List Nat) : Option Nat :=
  (encode_ascii name).map fun encoded_name => dirsiz encoded_name.length

def decode_ufs_directory_entry (directory_bytes : List Nat) (offset max_length : Nat) :
    Option UFSDirectoryEntry :=
  if max_length < offset + 8 then none
  else
    let inode_number := u32 directory_bytes offset
    let record_length := u16 directory_bytes (offset + 4)
    let name_length := u16 directory_bytes (offset + 6)
    if record_length = 0 ∨ max_length < offset + record_length then none
    else if 255 < name_length ∨ max_length < offset + 8 + name_length then none
    else
      some
        { inode := inode_number
          record_length := record_length
          name_length := name_length
          name := decode_ascii (slice directory_bytes (offset + 8) name_length)
          offset := offset }

def encode_ufs_directory_entry (inode_number : Nat) (name : List Nat) (record_length : Nat) :
    Option (List Nat) :=
  match encode_ascii name with
  | none => none
  | some encoded_name =>
      if record_length < dirsiz encoded_name.length then none
      else
        some (to_bytes 4 inode_number ++ to_bytes 2 record_length ++
          to_bytes 2 encoded_name.length ++ encoded_name ++
          List.replicate (record_length - 8 - encoded_name.length) 0)

/-- The loop of `iter_ufs_directory_records`; a record has a byte at least. -/
def iter_loop (directory_bytes : List Nat) (max_length : Nat) : Nat → Nat → List UFSDirectoryEntry
  | 0, _ => []
  | rounds + 1, offset =>
      if max_length < offset + 8 then []
      else
        match decode_ufs_directory_entry directory_bytes offset max_length with
        | none => []
        | some entry => entry :: iter_loop directory_bytes max_length rounds
            (offset + entry.record_length)

def iter_ufs_directory_records (directory_bytes : List Nat) (size : Nat) :
    List UFSDirectoryEntry :=
  let max_length := min directory_bytes.length size
  iter_loop directory_bytes max_length max_length 0

section Slots
variable (directory_bytes : List Nat) (needed_length : Nat)

/-- The loop over the records of a block: a slot, or whether a record was found. -/
def scan_block (block_offset block_limit : Nat) :
    Nat → Nat → Bool → Option (Option UFSDirectoryInsertSlot × Bool)
  | 0, _, found_record => some (none, found_record)
  | rounds + 1, cursor, found_record =>
      if block_limit < cursor + 8 then some (none, found_record)
      else
        match decode_ufs_directory_entry directory_bytes cursor block_limit with
        | none => some (none, found_record)
        | some entry =>
            if entry.inode = 0 ∧ needed_length ≤ entry.record_length then
              some (some ⟨block_offset, entry.offset, entry.record_length, none⟩, true)
            else
              match ufs_dirsiz entry.name with
              | none => none
              | some minimal_length =>
                  if entry.inode ≠ 0 ∧ minimal_length + needed_length ≤ entry.record_length then
                    some (some ⟨block_offset, entry.offset + minimal_length,
                      entry.record_length - minimal_length,
                      some (entry.offset, minimal_length)⟩, true)
                  else
                    scan_block block_offset block_limit rounds (cursor + entry.record_length) true

def empty_block (block_offset : Nat) : UFSDirectoryInsertSlot :=
  ⟨block_offset, block_offset, UFS_DIRBLKSIZ, none⟩

def find_loop (max_length : Nat) : List Nat → Option (Option UFSDirectoryInsertSlot)
  | [] => some none
  | block_offset :: rest =>
      let block_limit := min (block_offset + UFS_DIRBLKSIZ) max_length
      if block_limit ≤ block_offset then
        if needed_length ≤ UFS_DIRBLKSIZ then some (some (empty_block block_offset))
        else find_loop max_length rest
      else
        match scan_block directory_bytes needed_length block_offset block_limit UFS_DIRBLKSIZ
          block_offset false with
        | none => none
        | some (some slot, _) => some (some slot)
        | some (none, found_record) =>
            if found_record = false ∧ needed_length ≤ UFS_DIRBLKSIZ then
              some (some (empty_block block_offset))
            else find_loop max_length rest

end Slots

/-- `range(0, rounded_length, UFS_DIRBLKSIZ)` with a length rounded up to blocks, one at least -/
def block_offsets (length : Nat) : List Nat :=
  (List.range (max 1 ((length + UFS_DIRBLKSIZ - 1) / UFS_DIRBLKSIZ))).map (· * UFS_DIRBLKSIZ)

def find_ufs_directory_insert_slot (directory_bytes : List Nat) (size : Nat) (name : List Nat) :
    Option (Option UFSDirectoryInsertSlot) :=
  match ufs_dirsiz name with
  | none => none
  | some needed_length =>
      let max_length := min directory_bytes.length size
      find_loop directory_bytes needed_length max_length (block_offsets max_length)

/-- `bytearray(new_size)` with the bytes in front -/
def extended (directory_bytes : List Nat) (new_size : Nat) : List Nat :=
  directory_bytes ++ List.replicate (new_size - directory_bytes.length) 0

def place_entry (updated : List Nat) (offset target_length inode_number : Nat) (name : List Nat) :
    Option (List Nat) :=
  (encode_ufs_directory_entry inode_number name target_length).map
    (assign updated offset target_length)

/-- What `insert_ufs_directory_entry` does with a slot. -/
def fill_slot (directory_bytes : List Nat) (slot : UFSDirectoryInsertSlot) (inode_number : Nat)
    (name : List Nat) (needed_length : Nat) : Option (List Nat) :=
  let target_length := max needed_length slot.record_length
  let updated := extended directory_bytes (max directory_bytes.length
    (max (slot.block_offset + UFS_DIRBLKSIZ) (slot.entry_offset + target_length)))
  match slot.previous_entry with
  | some (previous_entry_offset, previous_entry_new_length) =>
      place_entry (assign updated (previous_entry_offset + 4) 2
        (to_bytes 2 previous_entry_new_length)) slot.entry_offset slot.record_length inode_number
        name
  | none =>
      if needed_length + 8 ≤ slot.record_length then
        let remaining_length := slot.record_length - needed_length
        match place_entry updated (slot.entry_offset + needed_length) remaining_length 0 [] with
        | none => none
        | some updated => place_entry updated slot.entry_offset needed_length inode_number name
      else place_entry updated slot.entry_offset target_length inode_number name

def insert_ufs_directory_entry (directory_bytes : List Nat) (size inode_number : Nat)
    (name : List Nat) : Option (List Nat) :=
  match find_ufs_directory_insert_slot directory_bytes size name, ufs_dirsiz name with
  | some (some slot), some needed_length =>
      fill_slot directory_bytes slot inode_number name needed_length
  | _, _ => none

/-- The loop of `remove_ufs_directory_entry`, with `previous_record`. -/
def remove_loop (updated name : List Nat) :
    List UFSDirectoryEntry → Option UFSDirectoryEntry → Option (List Nat)
  | [], _ => none
  | record :: records, previous_record =>
      if record.name ≠ name ∨ record.inode = 0 then
        remove_loop updated name records
          (if record.offset % UFS_DIRBLKSIZ = 0 then none else some record)
      else
        let freed := place_entry updated record.offset record.record_length 0 []
        match previous_record with
        | none => freed
        | some previous =>
            if previous.offset / UFS_DIRBLKSIZ = record.offset / UFS_DIRBLKSIZ then
              some (assign updated (previous.offset + 4) 2
                (to_bytes 2 (previous.record_length + record.record_length)))
            else freed

def remove_ufs_directory_entry (directory_bytes : List Nat) (size : Nat) (name : List Nat) :
    Option (List Nat) :=
  remove_loop directory_bytes name (iter_ufs_directory_records directory_bytes size) none

section Directories
variable (directory_bytes entry_name : List Nat)

/-- `apply_ufs_inode_write`: what the file reads as afterwards. -/
def write_range (offset : Nat) (data : List Nat) : List Nat :=
  assign (extended directory_bytes offset) offset data.length data

def read_block (block_offset : Nat) : List Nat :=
  slice directory_bytes block_offset (min UFS_DIRBLKSIZ (directory_bytes.length - block_offset))

/-- `insert_ufs_directory_entry` in a block of the directory, and the write -/
def insert_in_block (child_inode_number block_offset : Nat) : Option (List Nat) :=
  let block_bytes := read_block directory_bytes block_offset
  (insert_ufs_directory_entry block_bytes block_bytes.length child_inode_number entry_name).map
    (write_range directory_bytes block_offset)

def append_block (child_inode_number : Nat) : Option (List Nat) :=
  let rounded_length := max 1 ((directory_bytes.length + UFS_DIRBLKSIZ - 1) / UFS_DIRBLKSIZ) *
    UFS_DIRBLKSIZ
  (insert_ufs_directory_entry [] 0 child_inode_number entry_name).map
    (write_range directory_bytes rounded_length)

def add_loop (child_inode_number : Nat) : List Nat → Option (List Nat)
  | [] => append_block directory_bytes entry_name child_inode_number
  | block_offset :: rest =>
      match insert_in_block directory_bytes entry_name child_inode_number block_offset with
      | some updated => some updated
      | none => add_loop child_inode_number rest

def fast_path : List Nat :=
  let rounded_length := max 1 ((directory_bytes.length + UFS_DIRBLKSIZ - 1) / UFS_DIRBLKSIZ) *
    UFS_DIRBLKSIZ
  if UFS_DIRBLKSIZ < rounded_length then [rounded_length - UFS_DIRBLKSIZ] else []

def add_ufs_directory_entry (child_inode_number : Nat) (append_only : Bool) : Option (List Nat) :=
  add_loop directory_bytes entry_name child_inode_number
    (fast_path directory_bytes ++
      if append_only then [] else block_offsets directory_bytes.length)

def delete_loop : List Nat → Option (List Nat)
  | [] => none
  | block_offset :: rest =>
      let block_bytes := read_block directory_bytes block_offset
      match remove_ufs_directory_entry block_bytes block_bytes.length entry_name with
      | some updated_block => some (write_range directory_bytes block_offset updated_block)
      | none => delete_loop rest

/-- `range(0, directory_size, UFS_DIRBLKSIZ)` has no block if there are no bytes. -/
def delete_ufs_directory_entry : Option (List Nat) :=
  delete_loop directory_bytes entry_name
    ((List.range ((directory_bytes.length + UFS_DIRBLKSIZ - 1) / UFS_DIRBLKSIZ)).map
      (· * UFS_DIRBLKSIZ))

end Directories

end UfsDirectory
