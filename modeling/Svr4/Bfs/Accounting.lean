import Mathlib.Algebra.GroupWithZero.Nat
import Svr4.Bfs.Entries
import Svr4.Bfs.WriteCalls
import Svr4.Runs

/- The summary of a mounted file system over any run of the operations. -/
namespace Bfs
open BlockExtents LabelledRuns List

/- What bfs_mount adds up. -/

theorem mount_scan_eq (inodes : Nat → Dirent) : ∀ (is : List Nat) (t : Tally),
    (∀ i ∈ is, (inodes i).d_ino ≠ 0 → (inodes i).d_sblock = 0 → (inodes i).d_eblock = 0) →
    (∀ i ∈ is, (inodes i).d_ino ≠ 0 → (inodes i).d_sblock ≠ 0 →
      (inodes i).d_sblock ≤ (inodes i).d_eblock) →
    mount_scan inodes is t =
      ⟨t.freeblocks - ((is.map fun i => blocks (extent (inodes i))).sum : Nat),
        t.freedrents + ((is.map fun i => one_if_free (inodes i)).sum : Nat)⟩ := by
  intro is
  induction is with
  | nil =>
    intro t _ _
    simp [mount_scan]
  | cons i is ih =>
    intro t empty order
    have empty' := fun j member => empty j (mem_cons_of_mem _ member)
    have order' := fun j member => order j (mem_cons_of_mem _ member)
    rw [map_cons, map_cons, sum_cons, sum_cons, mount_scan]
    by_cases dead : (inodes i).d_ino = 0
    · have one : one_if_free (inodes i) = 1 := if_pos dead
      rw [if_pos dead, ih _ empty' order', extent_of_free (.inl dead), one]
      simp only [blocks, Tally.mk.injEq]
      omega
    rw [if_neg dead, one_if_free_of_live dead]
    by_cases none_there : (inodes i).d_sblock = 0
    · rw [if_neg fun some_there => some_there (empty i mem_cons_self dead none_there),
        ih _ empty' order', extent_of_free (.inr none_there)]
      simp only [blocks, Tally.mk.injEq]
      omega
    · have up := order i mem_cons_self dead none_there
      rw [if_pos (by omega), ih _ empty' order', extent_of_full dead none_there]
      simp only [blocks, Tally.mk.injEq]
      omega

theorem mount_sums {im : Image} (laid : Laid im) (rooted : Rooted im) (linked : Linked im) :
    (bfs_mount im).Sums := by
  have scan := mount_scan_eq im.inodes (range im.slots) ⟨im.total, 0⟩
    (fun i member => laid.empty i (mem_range.mp member))
    (fun i member live full => (laid.placed i (mem_range.mp member) live full).order)
  have in_use : ((range im.slots).map fun i => blocks (extent (im.inodes i))).sum =
      im.in_use := by
    unfold Image.in_use used
    rw [Finset.sum_congr rfl fun i member => congrArg blocks
      (show im.layout i = extent (im.inodes i) from if_pos (Finset.mem_range.mp member))]
    rfl
  have vacant : ((range im.slots).map fun i => one_if_free (im.inodes i)).sum = im.vacant := by
    unfold Image.vacant
    rw [Finset.card_filter]
    rfl
  rw [in_use, vacant] at scan
  refine ⟨laid, rooted, linked, ?_, ?_, ?_, ?_⟩
  · show (mount_scan im.inodes (range im.slots) ⟨im.total, 0⟩).freeblocks = _
    rw [scan]
    rfl
  · show (mount_scan im.inodes (range im.slots) ⟨im.total, 0⟩).freedrents = _
    rw [scan]
    exact Int.zero_add _
  · exact last_scan_top laid fun k absurd => by cases absurd
  · intro absurd
    cases absurd

theorem mount_quiet (im : Image) : Quiet (bfs_mount im) := ⟨rfl, rfl, rfl⟩

/- The operations. -/

/-- The operations, with what they are asked for. A vnode is named by the slot of its inode. -/
inductive Call
  | create (fname : List Char) (vap : Creat)
  | write (v : Nat) (uio : Uio)
  | truncate (v length : Nat)
  | setattr (v : Nat) (vap : Vattr)
  | remove (nm : List Char) (deny : Option Errno)
  | link (v : Nat) (tnm : List Char)
  | rename (snm tnm : List Char) (denyw denyx : Option Errno)
  | open_ (v : Nat) (fwrite : Bool)
  | close (count : Nat) (fwrite : Bool)

def call (bs : Bsuper) : Call → Option (Option Errno × Bsuper)
  | .create fname vap => bfs_create bs fname vap
  | .write v uio => bfs_write 4 bs v uio
  | .truncate v length => bfs_truncate bs v length
  | .setattr v vap => bfs_setattr bs v vap
  | .remove nm deny => bfs_remove bs nm deny
  | .link v tnm => bfs_link bs v tnm
  | .rename snm tnm denyw denyx => bfs_rename bs snm tnm denyw denyx
  | .open_ v fwrite => some (bfs_open bs v fwrite)
  | .close count fwrite => some (none, bfs_close bs count fwrite)

def Call.Valid (bs : Bsuper) : Call → Prop
  | .write v _ | .truncate v _ | .link v _ => v < bs.slots ∧ v ≠ root
  | .setattr v _ => v < bs.slots
  | _ => True

/-- When bfs_write keeps the summary and gives up only for want of room: the move finds memory and
arrives whole, the data ends before the very last byte of the device, and an empty file meets a
fault in the first chunk at the latest. -/
structure WriteOk (bs : Bsuper) (v : Nat) (uio : Uio) : Prop where
  move : MustMove bs v uio → bs.CopyFits v → uio.nomem = false ∧ WholeMove (bs.length v)
  edge : (MustMove bs v uio → bs.CopyFits v) → GoesLast bs v uio →
    bs.data_end v uio ≠ bs.bsup_end + 1
  fault : (bs.inodes v).d_sblock = 0 → bs.data_end v uio ≤ bs.bsup_end →
    uio.readable < uio.bytes.length → uio.readable < min MAXBSIZE uio.bytes.length

def Call.Ok (bs : Bsuper) : Call → Prop
  | .create fname vap => CreateOk bs fname vap
  | .write v uio => uio.bytes ≠ [] → (bs.inodes v).d_ino ≠ 0 → WriteOk bs v uio
  | .truncate v length => TruncateOk bs v length
  | .setattr v vap => SetattrOk bs v vap
  | .link v tnm => ¬ 0 < (search bs.names tnm).1 → bs.room tnm → (bs.inodes v).d_ino ≠ 0
  | _ => True

/-- The data fits: a file that moves can be copied behind the others, and what goes behind
everything else ends on the device. -/
def Room (bs : Bsuper) (v : Nat) (uio : Uio) : Prop :=
  (MustMove bs v uio → bs.CopyFits v) ∧
    (GoesLast bs v uio → bs.data_end v uio ≤ bs.bsup_end + 1)

/-- What the summary has to say, and that nothing is locked or counted. -/
structure Accounted (bs : Bsuper) : Prop where
  freeblocks : bs.bsup_freeblocks = bs.total - bs.in_use
  recount : bs.bsup_freeblocks = (bfs_mount bs.toImage).bsup_freeblocks
  freedrents : bs.bsup_freedrents = bs.vacant
  lastfile : Top bs.layout bs.bsup_lastfile
  compacted : bs.bsup_compacted = true → Packed bs.toImage.floor bs.layout
  quiet : Quiet bs

theorem Accounted.of_sums {bs : Bsuper} (sums : bs.Sums) (quiet : Quiet bs) : Accounted bs where
  freeblocks := sums.free
  recount := sums.free.trans (mount_sums sums.laid sums.rooted sums.linked).free.symm
  freedrents := sums.drents
  lastfile := sums.last
  compacted := sums.packed
  quiet := quiet

section Steps
variable {bs : Bsuper}

theorem open_kept (v : Nat) (fwrite : Bool) (sums : bs.Sums) :
    (bfs_open bs v fwrite).2.Sums ∧ Kept bs (bfs_open bs v fwrite).2 := by
  unfold bfs_open
  split
  · exact ⟨sums, Kept.refl bs⟩
  split
  · split
    · exact ⟨sums, Kept.refl bs⟩
    · exact ⟨sums, rfl, rfl, rfl⟩
  · exact ⟨sums, Kept.refl bs⟩

theorem close_kept (count : Nat) (fwrite : Bool) (sums : bs.Sums) :
    (bfs_close bs count fwrite).Sums ∧ Kept bs (bfs_close bs count fwrite) := by
  unfold bfs_close
  split
  · exact ⟨sums, rfl, rfl, rfl⟩
  · exact ⟨sums, Kept.refl bs⟩

theorem write_any (sums : bs.Sums) (quiet : Quiet bs) {v : Nat} {uio : Uio} (inside : v < bs.slots)
    (not_root : v ≠ root) (ok : uio.bytes ≠ [] → (bs.inodes v).d_ino ≠ 0 → WriteOk bs v uio) :
    ∃ r bs', bfs_write 4 bs v uio = some (r, bs') ∧ bs'.Sums ∧ Kept bs bs' ∧
      (r = some .ENOSPC → ¬ Room bs v uio) := by
  have free : bs.bsup_inomap v = false := by rw [quiet.free_inodes]
  by_cases no_bytes : uio.bytes = []
  · refine ⟨none, bs, ?_, sums, Kept.refl bs, fun absurd => by cases absurd⟩
    rw [bfs_write, if_pos no_bytes]
    rfl
  by_cases dead : (bs.inodes v).d_ino = 0
  · refine ⟨some .EINVAL, BFS_INOUNLOCK (BFS_IOEND (bs.held v)) v, ?_, leave_sums sums v,
      leave_kept free (Kept.refl _), fun absurd => by cases absurd⟩
    rw [bfs_write, if_neg no_bytes]
    simp only [Option.bind_eq_bind, enter_eq quiet.unlocked free]
    rw [if_pos (show ((bs.held v).inodes v).d_ino = 0 from dead)]
    rfl
  have allowed := ok no_bytes dead
  have ready : Ready bs v := { quiet with sums, inside, not_root, live := dead, free }
  obtain ⟨r, bs', run, done⟩ := write_spec ready no_bytes
    (fun must fits _ => (allowed.move must fits).2) allowed.fault
  refine ⟨r, bs', run, done.sums, ⟨?_, done.ioinprog, done.inomap⟩, ?_⟩
  · have memory : r ≠ some .ENOMEM := by
      intro failed
      obtain ⟨must, fits, nomem⟩ := done.nomem failed
      rw [(allowed.move must fits).1] at nomem
      cases nomem
    rw [done.locked, decide_eq_false memory, quiet.unlocked]
  · intro failed room
    rcases done.full failed with ⟨must, no_room⟩ | ⟨last, past⟩
    · exact no_room (room.1 must)
    · have edge := allowed.edge room.1 last
      have fits := room.2 last
      omega

theorem call_spec (sums : bs.Sums) (quiet : Quiet bs) {c : Call} (valid : c.Valid bs)
    (ok : c.Ok bs) : ∃ r bs', call bs c = some (r, bs') ∧ bs'.Sums ∧ Kept bs bs' ∧
      ∀ v uio, c = .write v uio → r = some .ENOSPC → ¬ Room bs v uio := by
  have free : ∀ k, bs.bsup_inomap k = false := fun k => by rw [quiet.free_inodes]
  cases c with
  | create fname vap =>
    obtain ⟨r, bs', run, sums', kept⟩ := create_spec sums quiet fname vap ok
    exact ⟨r, bs', run, sums', kept, fun _ _ other => by cases other⟩
  | write v uio =>
    obtain ⟨r, bs', run, sums', kept, full⟩ := write_any sums quiet valid.1 valid.2 ok
    exact ⟨r, bs', run, sums', kept, fun _ _ same => by cases same; exact full⟩
  | truncate v length =>
    obtain ⟨r, bs', run, sums', kept⟩ :=
      truncate_spec sums valid.1 valid.2 (free v) quiet.unlocked ok
    exact ⟨r, bs', run, sums', kept, fun _ _ other => by cases other⟩
  | setattr v vap =>
    obtain ⟨r, bs', run, sums', kept⟩ := setattr_spec sums valid (free v) quiet.unlocked vap ok
    exact ⟨r, bs', run, sums', kept, fun _ _ other => by cases other⟩
  | remove nm deny =>
    obtain ⟨r, bs', run, sums', kept⟩ := remove_spec sums quiet nm deny
    exact ⟨r, bs', run, sums', kept, fun _ _ other => by cases other⟩
  | link v tnm =>
    obtain ⟨r, bs', run, sums', kept⟩ := link_spec sums quiet valid.1 valid.2 tnm ok
    exact ⟨r, bs', run, sums', kept, fun _ _ other => by cases other⟩
  | rename snm tnm denyw denyx =>
    obtain ⟨r, bs', run, sums', kept⟩ := rename_spec sums quiet snm tnm denyw denyx
    exact ⟨r, bs', run, sums', kept, fun _ _ other => by cases other⟩
  | open_ v fwrite =>
    obtain ⟨sums', kept⟩ := open_kept v fwrite sums
    exact ⟨_, _, rfl, sums', kept, fun _ _ other => by cases other⟩
  | close count fwrite =>
    obtain ⟨sums', kept⟩ := close_kept count fwrite sums
    exact ⟨_, _, rfl, sums', kept, fun _ _ other => by cases other⟩

end Steps

def Allowed (bs : Bsuper) (c : Call) : Prop := c.Valid bs ∧ c.Ok bs

def step (bs : Bsuper) (c : Call) : Option Bsuper := (call bs c).map Prod.snd

/-- In any run of allowed calls the summary matches the disk and nothing is locked; the next call
returns, keeps that, and says ENOSPC only if the data does not fit. -/
theorem accounting {im : Image} (laid : Laid im) (rooted : Rooted im) (linked : Linked im)
    (calls : List Call) (allowed : Guarded step Allowed (bfs_mount im) calls) :
    ∃ bs, exec step (bfs_mount im) calls = some bs ∧ Accounted bs ∧
      ∀ c, Allowed bs c → ∃ r bs', call bs c = some (r, bs') ∧ Accounted bs' ∧
        ∀ v uio, c = .write v uio → r = some .ENOSPC → ¬ Room bs v uio := by
  have start : (bfs_mount im).Sums ∧ Quiet (bfs_mount im) :=
    ⟨mount_sums laid rooted linked, mount_quiet im⟩
  have taken : ∀ bs c, bs.Sums ∧ Quiet bs → Allowed bs c →
      ∃ bs', step bs c = some bs' ∧ bs'.Sums ∧ Quiet bs' := by
    intro bs c ⟨sums, quiet⟩ ⟨valid, ok⟩
    obtain ⟨r, bs', run, sums', kept, _⟩ := call_spec sums quiet valid ok
    refine ⟨bs', ?_, sums', quiet.of_kept kept⟩
    rw [step, run]
    rfl
  obtain ⟨bs, run⟩ := exec_of_guarded (fun bs => bs.Sums ∧ Quiet bs) taken start allowed
  have preserved : ∀ bs c bs', bs.Sums ∧ Quiet bs → Allowed bs c → step bs c = some bs' →
      bs'.Sums ∧ Quiet bs' := by
    intro bs c bs' inv ok taken_here
    obtain ⟨bs'', there, after⟩ := taken bs c inv ok
    rw [taken_here] at there
    cases there
    exact after
  obtain ⟨sums, quiet⟩ := exec_invariant (fun bs : Bsuper => bs.Sums ∧ Quiet bs) preserved start
    allowed run
  refine ⟨bs, run, Accounted.of_sums sums quiet, ?_⟩
  intro c ⟨valid, ok⟩
  obtain ⟨r, bs', there, sums', kept, full⟩ := call_spec sums quiet valid ok
  exact ⟨r, bs', there, Accounted.of_sums sums' (quiet.of_kept kept), full⟩

def small : Image where
  bsup_start := 1024
  bsup_end := 4095
  inodes k := if k = 0 then ⟨2, 2, 2, 1071, 2⟩ else if k = 1 then ⟨3, 0, 0, 0, 1⟩
    else ⟨0, 0, 0, 0, 0⟩
  names := [⟨2, ['.']⟩, ⟨2, ['.', '.']⟩, ⟨3, ['a']⟩]
  disk _ := 0

theorem small_full {k : Nat} (live : (small.inodes k).d_ino ≠ 0)
    (full : (small.inodes k).d_sblock ≠ 0) : k = 0 := by
  by_contra other
  by_cases one : k = 1
  · subst one
    exact full rfl
  · have inode : small.inodes k = ⟨0, 0, 0, 0, 0⟩ := by simp [small, other, one]
    rw [inode] at live
    exact live rfl

theorem small_laid : Laid small := by
  refine ⟨by decide, by decide, by decide, ?_, ?_, ?_⟩
  · intro k _ live full
    obtain rfl := small_full live full
    exact ⟨by decide, by decide, by decide, by decide⟩
  · intro k _ _ empty
    by_cases zero : k = 0
    · subst zero
      cases empty
    · by_cases one : k = 1 <;> simp [small, zero, one]
  · intro i j a b ne at_i at_j
    obtain ⟨_, live, full, _⟩ := layout_eq_some.mp at_i
    obtain ⟨_, live', full', _⟩ := layout_eq_some.mp at_j
    exact absurd ((small_full live full).trans (small_full live' full').symm) ne

theorem small_rooted : Rooted small := ⟨by decide, by decide, by decide⟩

theorem small_linked : Linked small := by
  constructor
  · intro ld member _
    have cases_ : ld = ⟨2, ['.']⟩ ∨ ld = ⟨2, ['.', '.']⟩ ∨ ld = ⟨3, ['a']⟩ := by
      simpa [small] using member
    rcases cases_ with rfl | rfl | rfl
    · exact ⟨0, by decide, rfl, by decide⟩
    · exact ⟨0, by decide, rfl, by decide⟩
    · exact ⟨1, by decide, rfl, by decide⟩
  · intro k _ live not_root
    have one : k = 1 := by
      by_contra other
      have zero : k ≠ 0 := not_root
      have inode : small.inodes k = ⟨0, 0, 0, 0, 0⟩ := by simp [small, zero, other]
      rw [inode] at live
      exact live rfl
    subst one
    decide

/-- Three bytes go into the empty file, which is then removed. -/
theorem accounting_small : ∃ bs, exec step (bfs_mount small)
      [.write 1 ⟨0, [1, 2, 3], 3, false, false⟩, .remove ['a'] none] = some bs ∧ Accounted bs := by
  obtain ⟨bs, run, accounted, _⟩ := accounting small_laid small_rooted small_linked
    [.write 1 ⟨0, [1, 2, 3], 3, false, false⟩, .remove ['a'] none]
    ⟨⟨⟨by decide, by decide⟩, fun _ _ => ⟨fun must => absurd rfl must.1, fun _ _ => by decide,
        fun _ _ few => absurd few (by decide)⟩⟩,
      fun _ _ => ⟨⟨trivial, trivial⟩, fun _ _ => trivial⟩⟩
  exact ⟨bs, run, accounted⟩

/-- bfs_setattr counts a block back that the empty file never had. -/
theorem setattr_empty_file : Laid small ∧ Rooted small ∧ Linked small ∧ ∃ bs',
    call (bfs_mount small) (.setattr 1 ⟨false, none, some 0, none, none⟩) = some (none, bs') ∧
      bs'.bsup_freeblocks = 6 ∧ (bs'.total : Int) - bs'.in_use = 5 ∧ ¬ Accounted bs' := by
  refine ⟨small_laid, small_rooted, small_linked, _, rfl, by decide, by decide, ?_⟩
  intro accounted
  have := accounted.freeblocks
  revert this
  decide

end Bfs
