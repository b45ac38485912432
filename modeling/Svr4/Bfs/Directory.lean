import Mathlib.Algebra.BigOperators.Group.Finset.Piecewise
import Svr4.Bfs.Books

/- What a change of one inode does to the sums. -/
namespace Bfs
open Function BlockExtents List Option

section Put
variable {im : Image} {k : Nat} {d : Dirent}

theorem in_use_put (inside : k < im.slots) :
    (im.put k d).in_use + blocks (im.layout k) = im.in_use + blocks (extent d) := by
  unfold Image.in_use
  rw [put_slots, put_layout im inside]
  exact used_update (Finset.mem_range.mpr inside) _

def one_if_free (d : Dirent) : Nat := if d.d_ino = 0 then 1 else 0

theorem vacant_put (inside : k < im.slots) :
    (im.put k d).vacant + one_if_free (im.inodes k) = im.vacant + one_if_free d := by
  unfold Image.vacant
  rw [Finset.card_filter, Finset.card_filter]
  exact sum_update one_if_free (Finset.mem_range.mpr inside) d

theorem Rooted.put (rooted : Rooted im) (kept : k = root → d.d_ino ≠ 0 ∧ d.d_sblock ≠ 0) :
    Rooted (im.put k d) := by
  by_cases same : root = k
  · refine ⟨rooted.slot, ?_, ?_⟩
    · rw [same, put_inodes_self]; exact (kept same.symm).1
    · rw [same, put_inodes_self]; exact (kept same.symm).2
  · refine ⟨rooted.slot, ?_, ?_⟩
    · rw [put_inodes_of_ne im d same]; exact rooted.live
    · rw [put_inodes_of_ne im d same]; exact rooted.full

theorem Sums.put {free drents : Int} {last : Option Nat} {compacted : Bool}
    (sums : Sums im free drents last compacted) (last' : Option Nat) (compacted' : Bool)
    (inside : k < im.slots)
    (laid : Laid (im.put k d)) (rooted : k = root → d.d_ino ≠ 0 ∧ d.d_sblock ≠ 0)
    (linked : Linked (im.put k d))
    (top : Top (update im.layout k (extent d)) last')
    (packed : compacted' = true → Packed im.floor (update im.layout k (extent d))) :
    Sums (im.put k d) (free + blocks (im.layout k) - blocks (extent d))
      (drents - one_if_free (im.inodes k) + one_if_free d) last' compacted' := by
  have total : (im.put k d).total = im.total := rfl
  have in_use := @in_use_put im k d inside
  have vacant := @vacant_put im k d inside
  refine ⟨laid, sums.rooted.put rooted, linked, ?_, ?_, ?_, ?_⟩
  · rw [sums.free, total]
    omega
  · rw [sums.drents]
    omega
  · rw [put_layout im inside]
    exact top
  · intro compact
    rw [put_layout im inside]
    exact packed compact

end Put

theorem Sums.with_disk {im : Image} {free drents : Int} {last : Option Nat} {compacted : Bool}
    (sums : Sums im free drents last compacted) (disk : Nat → UInt8) :
    Sums { im with disk := disk } free drents last compacted :=
  { sums with
    laid := sums.laid.with_disk disk
    rooted := { sums.rooted with }
    linked := { sums.linked with } }

/- Links. -/

theorem Linked.unnamed {im : Image} (linked : Linked im) {k : Nat}
    (dead : (im.inodes k).d_ino = 0) :
    im.names.countP (fun ld => ld.l_ino == k + BFSROOTINO) = 0 := by
  rw [countP_eq_zero]
  intro ld member names_k
  have number : ld.l_ino = k + BFSROOTINO := by simpa using names_k
  have pos : ld.l_ino ≠ 0 := by
    rw [number]
    exact Nat.succ_ne_zero _
  obtain ⟨j, _, number', live⟩ := linked.named ld member pos
  have same : j = k := add_right_cancel (number'.symm.trans number)
  rw [same] at live
  exact live dead

theorem Linked.put {im : Image} (linked : Linked im) {k : Nat} {d : Dirent}
    (live : d.d_ino ≠ 0)
    (nlink : (im.inodes k).d_ino ≠ 0 → (im.inodes k).va_nlink ≤ d.va_nlink) :
    Linked (im.put k d) := by
  constructor
  · intro ld member pos
    obtain ⟨j, inside, number, live_j⟩ := linked.named ld member pos
    refine ⟨j, inside, number, ?_⟩
    by_cases same : j = k
    · rw [same, put_inodes_self]; exact live
    · rw [put_inodes_of_ne im d same]; exact live_j
  · intro j inside live_j not_root
    by_cases same : j = k
    · subst same
      rw [put_inodes_self]
      by_cases dead : (im.inodes j).d_ino = 0
      · have := linked.unnamed dead
        show im.names.countP _ ≤ _
        omega
      · exact le_trans (linked.counted j inside dead not_root) (nlink dead)
    · rw [put_inodes_of_ne im d same] at live_j ⊢
      exact linked.counted j inside live_j not_root

/- The changes of the operations. -/

section Operations
variable {im : Image} {free drents : Int} {last : Option Nat} {compacted compacted' : Bool}
  {k : Nat} {d : Dirent}

theorem extent_of_free (free : d.d_ino = 0 ∨ d.d_sblock = 0) : extent d = none := by
  unfold extent
  rw [if_neg]
  rintro ⟨live, full⟩
  rcases free with h | h
  · exact live h
  · exact full h

theorem extent_of_full (live : d.d_ino ≠ 0) (full : d.d_sblock ≠ 0) :
    extent d = some ⟨d.d_sblock, d.d_eblock - d.d_sblock⟩ := if_pos ⟨live, full⟩

theorem one_if_free_of_live (live : d.d_ino ≠ 0) : one_if_free d = 0 := if_neg live

/-- The summary after a file has lost its blocks: the code looks for the new last file, and else
notes a gap. -/
def last_without (im : Image) (last : Option Nat) (k : Nat) : Option Nat :=
  if last = some k then last_scan im.inodes (some k) (List.range im.slots) 0 none else last

section
variable (sums : Sums im free drents last compacted) (inside : k < im.slots)
include sums inside

theorem top_without (gone : extent d = none) (laid : Laid (im.put k d)) :
    Top (update im.layout k (extent d)) (last_without im last k) := by
  have layout := put_layout im inside d
  unfold last_without
  by_cases was_last : last = some k
  · rw [if_pos was_last, ← layout]
    have scan := last_scan_update im.inodes k d (range im.slots) 0 none
    rw [← scan]
    apply last_scan_top laid
    intro j same
    cases same
    rw [layout, gone, update_self]
  · rw [if_neg was_last, gone]
    have top := sums.last
    cases last with
    | none =>
      intro i
      by_cases same : i = k
      · rw [same, update_self]
      · rw [update_of_ne same]; exact top i
    | some l =>
      exact Topmost.clear_other top (fun same => was_last (by rw [same]))

theorem Sums.lose_blocks (gone : d.d_ino = 0 ∨ (d.d_sblock = 0 ∧ d.d_eblock = 0))
    (not_root : k ≠ root) (linked : Linked (im.put k d))
    (noted : compacted' = true → compacted = true ∧ (last = some k ∨ im.layout k = none)) :
    Sums (im.put k d) (free + blocks (im.layout k))
      (drents - one_if_free (im.inodes k) + one_if_free d) (last_without im last k) compacted' := by
  have none_left : extent d = none := extent_of_free (gone.imp_right And.left)
  have apart : Apart (update im.layout k (extent d)) := by
    rw [none_left]
    exact sums.laid.apart.clear
  have laid : Laid (im.put k d) := by
    refine sums.laid.put inside ?_ ?_ apart
    · intro live full
      rcases gone with dead | ⟨empty, _⟩
      · exact absurd dead live
      · exact absurd empty full
    · intro live _
      rcases gone with dead | ⟨_, empty⟩
      · exact absurd dead live
      · exact empty
  have changed := sums.put (last_without im last k) compacted' inside laid
    (fun same => absurd same not_root) linked (top_without sums inside none_left laid) ?_
  · rw [none_left] at changed
    simpa [blocks] using changed
  · intro set
    obtain ⟨was, reason⟩ := noted set
    rw [none_left]
    rcases reason with is_last | nothing
    · have top := sums.last
      rw [is_last] at top
      exact (sums.packed was).clear_top top
    · rw [← nothing, update_eq_self]
      exact sums.packed was

theorem Sums.raise (live : d.d_ino ≠ 0) (was_live : (im.inodes k).d_ino ≠ 0) (full : d.d_sblock ≠ 0)
    (nlink : (im.inodes k).va_nlink = d.va_nlink) (placed : Placed im d)
    (above : ∀ j b, j ≠ k → im.layout j = some b → b.last < d.d_sblock)
    (packed : compacted' = true → Packed im.floor (update im.layout k (extent d))) :
    Sums (im.put k d) (free + blocks (im.layout k) - blocks (extent d)) drents (some k)
      compacted' := by
  have layout := extent_of_full live full
  have laid : Laid (im.put k d) := by
    refine sums.laid.put inside (fun _ _ => placed) (fun _ empty => absurd empty full) ?_
    rw [layout]
    exact sums.laid.apart.raise above
  have changed := sums.put (some k) compacted' inside laid (fun _ => ⟨live, full⟩)
    (sums.linked.put live fun _ => le_of_eq nlink) ?_ packed
  · rw [one_if_free_of_live live, one_if_free_of_live was_live] at changed
    simpa using changed
  · rw [layout]
    exact topmost_raise above

/-- A file is cut short; if it was not the last one and blocks went away, compaction was not
claimed. -/
theorem Sums.shorten (live : d.d_ino ≠ 0) (was_live : (im.inodes k).d_ino ≠ 0)
    (full : (im.inodes k).d_sblock ≠ 0) (first : d.d_sblock = (im.inodes k).d_sblock)
    (shorter : d.d_eblock ≤ (im.inodes k).d_eblock) (nlink : (im.inodes k).va_nlink = d.va_nlink)
    (placed : Placed im d)
    (noted : compacted = true → last = some k ∨ d.d_eblock = (im.inodes k).d_eblock) :
    Sums (im.put k d) (free + blocks (im.layout k) - blocks (extent d)) drents last compacted := by
  have full' : d.d_sblock ≠ 0 := by rw [first]; exact full
  have layout := extent_of_full live full'
  have old := layout_of_full inside was_live full
  have more : d.d_eblock - d.d_sblock ≤ (im.inodes k).d_eblock - (im.inodes k).d_sblock := by
    rw [first]
    omega
  have laid : Laid (im.put k d) := by
    refine sums.laid.put inside (fun _ _ => placed) (fun _ empty => absurd empty full') ?_
    rw [layout]
    exact sums.laid.apart.shorten old first more
  have changed := sums.put last compacted inside laid (fun _ => ⟨live, full'⟩)
    (sums.linked.put live fun _ => le_of_eq nlink) ?_ ?_
  · rw [one_if_free_of_live live, one_if_free_of_live was_live] at changed
    simpa using changed
  · rw [layout]
    have top := sums.last
    cases last with
    | none =>
      rw [top k] at old
      cases old
    | some l =>
      by_cases same : k = l
      · subst same
        obtain ⟨t, at_k, above⟩ := top
        obtain rfl := some.inj (old.symm.trans at_k)
        apply topmost_raise
        intro j b ne at_j
        have := above j b ne at_j
        rw [first]
        exact this
      · exact Topmost.shorten_other top same old first more
  · intro set
    rw [layout]
    rcases noted set with is_last | same_end
    · have top := sums.last
      rw [is_last] at top
      exact (sums.packed set).regrow_top top old first
    · rw [same_end, first, ← old, update_eq_self]
      exact sums.packed set

end

end Operations

end Bfs

/- The directory: what the search finds, and what an entry more or less does to the links. -/
namespace Bfs
open Function BlockExtents List Option

variable {bs : Bsuper} {names : List Ldirs} {i k a : Nat} (nm : List Char)

theorem locked_section (free : bs.bsup_inomap k = false) :
    update (update bs.bsup_inomap k true) k false = bs.bsup_inomap := by
  rw [update_idem]
  conv_rhs => rw [← update_eq_self k bs.bsup_inomap, free]

def Bsuper.held (bs : Bsuper) (k : Nat) : Bsuper :=
  { bs with bsup_ioinprog := bs.bsup_ioinprog + 1,
            bsup_inomap := update bs.bsup_inomap k true }

theorem lock_eq (free : bs.bsup_inomap k = false) :
    BFS_INOLOCK (BFS_IOBEGIN bs) k = some (bs.held k) := by
  have same : (BFS_IOBEGIN bs).bsup_inomap k = false := free
  rw [BFS_INOLOCK, same]
  rfl

theorem enter_eq {α : Type} (unlocked : bs.bsup_fslocked = false) (free : bs.bsup_inomap k = false)
    (inside : Bsuper → Option α) :
    ((CHECK_LOCK (BFS_IOBEGIN bs)).bind fun bs => (BFS_INOLOCK bs k).bind inside) =
      inside (bs.held k) := by
  have open_ : CHECK_LOCK (BFS_IOBEGIN bs) = some (BFS_IOBEGIN bs) := by
    have same : (BFS_IOBEGIN bs).bsup_fslocked = false := unlocked
    rw [CHECK_LOCK, same]
    rfl
  rw [open_, bind_some, lock_eq free, bind_some]

theorem dotsearch_eq (unlocked : bs.bsup_fslocked = false) (free : bs.bsup_inomap root = false) :
    bfs_dotsearch bs nm = some (search bs.names nm, bs) := by
  unfold bfs_dotsearch
  simp only [bind_eq_bind, enter_eq unlocked free, Bsuper.held, BFS_INOUNLOCK, BFS_IOEND,
    locked_section free]
  rfl

theorem searchdir_eq (unlocked : bs.bsup_fslocked = false) (free : bs.bsup_inomap root = false) :
    bfs_searchdir bs nm = some (if 0 < (search bs.names nm).1
      then some ((search bs.names nm).1 - BFSROOTINO) else none, bs) := by
  simp [bfs_searchdir, dotsearch_eq nm unlocked free]

theorem iaccess_eq (deny : Option Errno) (unlocked : bs.bsup_fslocked = false) :
    bfs_iaccess deny bs = some (deny, bs) := by
  have same : (BFS_IOBEGIN bs).bsup_fslocked = false := unlocked
  rw [bfs_iaccess, CHECK_LOCK, same]
  rfl

theorem search_found {nm : List Char} (found : 0 < (search names nm).1) :
    ∃ i ld, (search names nm).2 = some i ∧ names[i]? = some ld ∧
      ld.l_ino = (search names nm).1 ∧ ld.l_ino ≠ 0 := by
  unfold search at found ⊢
  split at found
  · rename_i i at_i
    obtain ⟨inside, holds, _⟩ := findIdx?_eq_some_iff_getElem.mp at_i
    have present : names[i]? = some (names.get ⟨i, inside⟩) := getElem?_eq_getElem inside
    simp only [List.getD, present, getD_some] at found ⊢
    exact ⟨i, _, rfl, present, rfl, by omega⟩
  · exact absurd found (lt_irrefl 0)

theorem search_free {nm : List Char} (missing : ¬ 0 < (search names nm).1)
    (place : (search names nm).2 = some i) : ∃ ld, names[i]? = some ld ∧ ld.l_ino = 0 := by
  unfold search at missing place
  split at missing
  · rename_i j at_j
    obtain ⟨inside, holds, _⟩ := findIdx?_eq_some_iff_getElem.mp at_j
    have present : names[j]? = some (names.get ⟨j, inside⟩) := getElem?_eq_getElem inside
    simp only [List.getD, present, getD_some] at missing
    simp only [Bool.and_eq_true, bne_iff_ne] at holds
    exact absurd (pos_of_ne_zero holds.1) missing
  · rename_i none_found
    simp only [none_found] at place
    obtain ⟨inside, holds, _⟩ := findIdx?_eq_some_iff_getElem.mp place
    have present : names[i]? = some (names.get ⟨i, inside⟩) := getElem?_eq_getElem inside
    exact ⟨_, present, by simpa using holds⟩

theorem Linked.of_search {im : Image} (linked : Linked im) {nm : List Char}
    (found : 0 < (search im.names nm).1) :
    ∃ k i ld, (search im.names nm).1 = k + BFSROOTINO ∧ (search im.names nm).2 = some i ∧
      im.names[i]? = some ld ∧ ld.l_ino = k + BFSROOTINO ∧ k < im.slots ∧
      (im.inodes k).d_ino ≠ 0 := by
  obtain ⟨i, ld, place, present, number, live⟩ := search_found found
  obtain ⟨k, inside, number', live'⟩ := linked.named ld (mem_of_getElem? present) live
  exact ⟨k, i, ld, number.symm.trans number', place, present, number', inside, live'⟩

theorem count_set {old ld : Ldirs} (present : names[i]? = some old) (a : Nat) :
    (names.set i ld).countP (fun ld => ld.l_ino == a) + (if old.l_ino = a then 1 else 0) =
      names.countP (fun ld => ld.l_ino == a) + (if ld.l_ino = a then 1 else 0) := by
  obtain ⟨inside, at_i⟩ := List.getElem?_eq_some_iff.mp present
  rw [countP_set inside, at_i]
  by_cases was : old.l_ino = a
  · have member : old ∈ names := mem_of_getElem? present
    have pos : 0 < names.countP fun ld => ld.l_ino == a :=
      countP_pos_iff.mpr ⟨old, member, by simp [was]⟩
    simp only [was, beq_self_eq_true, if_true]
    by_cases now : ld.l_ino = a <;> simp [now] <;> omega
  · by_cases now : ld.l_ino = a <;> simp [was, now]

structure OneMore (names names' : List Ldirs) (a : Nat) : Prop where
  mem : ∀ ld ∈ names', ld ∈ names ∨ ld.l_ino = a
  count : ∀ b, names'.countP (fun ld => ld.l_ino == b) ≤
    names.countP (fun ld => ld.l_ino == b) + if b = a then 1 else 0

theorem one_more_set {old : Ldirs} (present : names[i]? = some old) :
    OneMore names (names.set i ⟨a, nm⟩) a := by
  constructor
  · intro ld member
    rcases mem_or_eq_of_mem_set member with old | rfl
    · exact .inl old
    · exact .inr rfl
  · intro b
    have count := @count_set names i old ⟨a, nm⟩ present b
    by_cases same : b = a
    · subst same
      simp only [if_true] at count ⊢
      omega
    · simp only [if_neg same, if_neg (Ne.symm same)] at count ⊢
      omega

theorem one_more_append : OneMore names (names ++ [⟨a, nm⟩]) a := by
  constructor
  · intro ld member
    rcases mem_append.mp member with old | new
    · exact .inl old
    · rw [mem_singleton] at new
      exact .inr (by rw [new])
  · intro b
    rw [countP_append]
    by_cases same : b = a <;> simp [same, Ne.symm]

/-- The root directory may have grown inside its last block. -/
def Image.entered (im : Image) (dir : Dirent) (names : List Ldirs) : Image :=
  { im.put root dir with names := names }

/-- What bfs_addirent leaves: one entry more, the root inode the same up to its end. -/
structure Entered (im : Image) (dir : Dirent) (names : List Ldirs) (a : Nat) : Prop where
  number : dir.d_ino = (im.inodes root).d_ino
  sblock : dir.d_sblock = (im.inodes root).d_sblock
  eblock : dir.d_eblock = (im.inodes root).d_eblock
  nlink : dir.va_nlink = (im.inodes root).va_nlink
  placed : Placed im dir
  one_more : OneMore im.names names a

def Image.room (im : Image) (nm : List Char) : Prop :=
  (search im.names nm).2.isSome ∨
    (im.inodes root).d_eoffset + LDIRS_SIZE < ((im.inodes root).d_eblock + 1) * BFS_BSIZE

theorem addirent_spec (laid : Laid bs.toImage) (rooted : Rooted bs.toImage) (nm : List Char)
    (a : Nat) (unlocked : bs.bsup_fslocked = false) (free : bs.bsup_inomap root = false) :
    (0 < (search bs.names nm).1 ∧ bfs_addirent bs nm a = some (some .EEXIST, bs)) ∨
    (¬ 0 < (search bs.names nm).1 ∧ ¬ bs.room nm ∧ bfs_addirent bs nm a = some (some .ENFILE, bs)) ∨
    (¬ 0 < (search bs.names nm).1 ∧ bs.room nm ∧ ∃ dir names, Entered bs.toImage dir names a ∧
      bfs_addirent bs nm a = some (none, { bs with toImage := bs.toImage.entered dir names })) := by
  have placed := laid.placed root rooted.slot rooted.live rooted.full
  by_cases found : 0 < (search bs.names nm).1
  · refine .inl ⟨found, ?_⟩
    simp [bfs_addirent, dotsearch_eq nm unlocked free, found]
  refine .inr ?_
  cases place : (search bs.names nm).2 with
  | some i =>
    obtain ⟨old, present, _⟩ := search_free found place
    refine .inr ⟨found, .inl (by rw [place]; rfl), bs.inodes root,
      bs.names.set i ⟨a, nm.take BFS_MAXFNLEN⟩, ⟨rfl, rfl, rfl, rfl, placed,
        one_more_set _ present⟩, ?_⟩
    simp only [bfs_addirent, bind_eq_bind, dotsearch_eq nm unlocked free, bind_some,
      if_neg found, enter_eq unlocked free, Bsuper.held, place, BFS_INOUNLOCK, BFS_IOEND,
      locked_section free]
    simp [Image.entered, Image.put]
  | none =>
    by_cases fits : (bs.inodes root).d_eoffset + LDIRS_SIZE <
        ((bs.inodes root).d_eblock + 1) * BFS_BSIZE
    · refine .inr ⟨found, .inr fits,
        { bs.inodes root with d_eoffset := (bs.inodes root).d_eoffset + LDIRS_SIZE },
        bs.names ++ [⟨a, nm.take BFS_MAXFNLEN⟩], ⟨rfl, rfl, rfl, rfl, ?_, one_more_append _⟩, ?_⟩
      · have inside := placed.inside
        have below := placed.below_end laid.whole
        have bytes := placed.bytes
        refine ⟨placed.start, Nat.le_trans bytes (Nat.le_add_right _ _), ?_, ?_⟩
        · show (bs.inodes root).d_eblock = ((bs.inodes root).d_eoffset + LDIRS_SIZE) / BFS_BSIZE
          unfold BFS_BSIZE LDIRS_SIZE at *
          omega
        · show (bs.inodes root).d_eoffset + LDIRS_SIZE ≤ bs.bsup_end
          unfold BFS_BSIZE LDIRS_SIZE at *
          omega
      · simp only [bfs_addirent, bind_eq_bind, dotsearch_eq nm unlocked free,
          bind_some, if_neg found, enter_eq unlocked free, Bsuper.held, place, fits, if_true,
          BFS_INOUNLOCK, BFS_IOEND]
        simp [BFS_PUTINODE, locked_section free, Image.entered, Image.put]
    · refine .inl ⟨found, ?_, ?_⟩
      · rintro (there | room)
        · rw [place] at there
          cases there
        · exact fits room
      · simp only [bfs_addirent, bind_eq_bind, dotsearch_eq nm unlocked free,
          bind_some, if_neg found, enter_eq unlocked free, Bsuper.held, place, fits,
          if_false,
          BFS_INOUNLOCK, BFS_IOEND, locked_section free]
        rfl

theorem rmdirent_eq {nm : List Char} (unlocked : bs.bsup_fslocked = false)
    (free : bs.bsup_inomap root = false) (found : 0 < (search bs.names nm).1) {ld : Ldirs}
    (place : (search bs.names nm).2 = some i) (present : bs.names[i]? = some ld) :
    bfs_rmdirent bs nm = some (none, { bs with toImage :=
      { bs.toImage with names := bs.names.set i { ld with l_ino := 0 } } }) := by
  have entry : bs.names.getD i ⟨0, []⟩ = ld := by rw [List.getD, present]; rfl
  simp only [bfs_rmdirent, bind_eq_bind, dotsearch_eq nm unlocked free, bind_some,
    enter_eq unlocked free, Bsuper.held, place, if_pos found, BFS_INOUNLOCK, BFS_IOEND,
    locked_section free, entry]
  rfl

theorem rendirent_eq (snm tnm : List Char) (unlocked : bs.bsup_fslocked = false)
    (free : bs.bsup_inomap root = false) :
    bfs_rendirent bs snm tnm = some (some .ENOENT, bs) ∨
    (∃ i, 0 < (search bs.names snm).1 ∧ (search bs.names snm).2 = some i ∧
      bfs_rendirent bs snm tnm = some (none, { bs with toImage := { bs.toImage with
        names := bs.names.set i ⟨(search bs.names snm).1, tnm.take BFS_MAXFNLEN⟩ } })) := by
  cases place : (search bs.names snm).2 with
  | none =>
    refine .inl ?_
    simp only [bfs_rendirent, bind_eq_bind, dotsearch_eq snm unlocked free,
      bind_some, enter_eq unlocked free, Bsuper.held, place, BFS_INOUNLOCK, BFS_IOEND,
      locked_section free]
    rfl
  | some i =>
    by_cases found : 0 < (search bs.names snm).1
    · refine .inr ⟨i, found, rfl, ?_⟩
      simp only [bfs_rendirent, bind_eq_bind, dotsearch_eq snm unlocked free,
        bind_some, enter_eq unlocked free, Bsuper.held, place, if_pos found, BFS_INOUNLOCK,
        BFS_IOEND,
        locked_section free]
      rfl
    · refine .inl ?_
      simp only [bfs_rendirent, bind_eq_bind, dotsearch_eq snm unlocked free,
        bind_some, enter_eq unlocked free, Bsuper.held, place, if_neg found, BFS_INOUNLOCK,
        BFS_IOEND,
        locked_section free]
      rfl

end Bfs
