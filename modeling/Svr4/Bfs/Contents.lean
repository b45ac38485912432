import Svr4.Bfs.Accounting

/- Writes, moves and compactions do not look at the entries of the directory. -/
namespace Bfs

def Bsuper.with_names (bs : Bsuper) (names : List Ldirs) : Bsuper := { bs with names := names }

section Names
variable (names : List Ldirs)

theorem next_scan_names (bs : Bsuper) (curblock : Nat) : ∀ (is : List Nat) (off : Option Nat),
    next_scan (bs.with_names names) curblock is off = next_scan bs curblock is off := by
  intro is
  induction is with
  | nil => intro off; rfl
  | cons i is ih =>
    intro off
    have bound : next_bound (bs.with_names names) off = next_bound bs off := by cases off <;> rfl
    simp only [next_scan, bound, ih]
    rfl

theorem getnxtcblock_names (bs : Bsuper) (curblock : Nat) :
    bfs_getnxtcblock (bs.with_names names) curblock = bfs_getnxtcblock bs curblock :=
  next_scan_names names bs curblock _ none

theorem compact_file_names (bs : Bsuper) (off eblock : Nat) :
    compact_file (bs.with_names names) off eblock =
      (compact_file bs off eblock).map fun out => (out.1.with_names names, out.2) := by
  unfold compact_file bfs_shiftfile
  have dir : (bs.with_names names).inodes off = bs.inodes off := rfl
  have disk : (bs.with_names names).disk = bs.disk := rfl
  simp only [dir, disk]
  split
  · cases shift_loop (bs.inodes off).d_eblock
      ((bs.inodes off).d_eblock + 1 - (bs.inodes off).d_sblock) _ (bs.inodes off).d_sblock _
      bs.disk <;> rfl
  · rfl

theorem compact_loop_names : ∀ (fuel : Nat) (bs : Bsuper) (off eblock : Nat),
    compact_loop fuel (bs.with_names names) off eblock =
      (compact_loop fuel bs off eblock).map fun bs => bs.with_names names := by
  intro fuel
  induction fuel with
  | zero => intros; rfl
  | succ fuel ih =>
    intro bs off eblock
    rw [compact_loop, compact_file_names]
    cases file : compact_file bs off eblock with
    | none => simp [compact_loop, file]
    | some out =>
      simp only [Option.map_some, Option.bind_eq_bind, Option.bind_some, getnxtcblock_names]
      rw [compact_loop, file]
      simp only [Option.bind_eq_bind, Option.bind_some]
      cases bfs_getnxtcblock out.1 out.2.d_eblock with
      | none => rfl
      | some next => exact ih out.1 next out.2.d_eblock

theorem compact_names (bs : Bsuper) : bfs_compact (bs.with_names names) =
    (bfs_compact bs).map fun bs => bs.with_names names := by
  unfold bfs_compact
  have first : bfs_getnxtcblock (BFS_LOCK (bs.with_names names)) 0 =
      bfs_getnxtcblock (BFS_LOCK bs) 0 := getnxtcblock_names names (BFS_LOCK bs) 0
  simp only [first, Option.bind_eq_bind]
  cases bfs_getnxtcblock (BFS_LOCK bs) 0 with
  | none => rfl
  | some off =>
    have loop := compact_loop_names names ((bs.bsup_end + 1) / BFS_BSIZE) (BFS_LOCK bs) off
      (bs.bsup_start / BFS_BSIZE)
    simp only [Option.bind_some]
    have same : compact_loop (((BFS_LOCK (bs.with_names names)).bsup_end + 1) / BFS_BSIZE)
        (BFS_LOCK (bs.with_names names)) off
        ((BFS_LOCK (bs.with_names names)).bsup_start / BFS_BSIZE) =
        _ := loop
    rw [same]
    cases run : compact_loop ((bs.bsup_end + 1) / BFS_BSIZE) (BFS_LOCK bs) off
      (bs.bsup_start / BFS_BSIZE) with
    | none =>
      have : compact_loop (((BFS_LOCK bs).bsup_end + 1) / BFS_BSIZE) (BFS_LOCK bs) off
        ((BFS_LOCK bs).bsup_start / BFS_BSIZE) = none := run
      rw [this]
      rfl
    | some out =>
      have : compact_loop (((BFS_LOCK bs).bsup_end + 1) / BFS_BSIZE) (BFS_LOCK bs) off
        ((BFS_LOCK bs).bsup_start / BFS_BSIZE) = some out := run
      rw [this]
      rfl

def renamed (out : Option Errno × Bsuper) : Option Errno × Bsuper :=
  (out.1, out.2.with_names names)

theorem filetoend_names (nomem : Bool) (dir : Dirent) (off : Nat) : ∀ (fuel : Nat) (bs : Bsuper),
    bfs_filetoend nomem fuel (bs.with_names names) dir off =
      (bfs_filetoend nomem fuel bs dir off).map (renamed names) := by
  intro fuel
  induction fuel with
  | zero => intros; rfl
  | succ fuel ih =>
    intro bs
    have locked : BFS_LOCK (bs.with_names names) = (BFS_LOCK bs).with_names names := rfl
    obtain ⟨l, hl⟩ : ∃ l, l = BFS_LOCK bs := ⟨_, rfl⟩
    have next : bfs_nextfile (l.with_names names) = bfs_nextfile l := rfl
    have ioinprog : (l.with_names names).bsup_ioinprog = l.bsup_ioinprog := rfl
    have stop : (l.with_names names).bsup_end = l.bsup_end := rfl
    have compacted : (l.with_names names).bsup_compacted = l.bsup_compacted := rfl
    have disk : (l.with_names names).disk = l.disk := rfl
    rw [bfs_filetoend, bfs_filetoend, locked, ← hl]
    simp only [next, ioinprog, stop, compacted, disk]
    by_cases busy : 1 < l.bsup_ioinprog
    · rw [if_pos busy, if_pos busy]
      rfl
    rw [if_neg busy, if_neg busy]
    split
    · split
      · rw [compact_names]
        cases bfs_compact l with
        | none => rfl
        | some out => exact ih (bfs_unlock out)
      · rfl
    · split
      · rfl
      · cases copy_loop dir.d_eoffset _ _ _ _ l.disk <;> rfl

theorem find_room_names : ∀ (fuel : Nat) (bs : Bsuper), find_room fuel (bs.with_names names) =
    (find_room fuel bs).map fun out => (out.1, out.2.with_names names) := by
  intro fuel
  induction fuel with
  | zero => intros; rfl
  | succ fuel ih =>
    intro bs
    have next : bfs_nextfile (bs.with_names names) = bfs_nextfile bs := rfl
    have stop : (bs.with_names names).bsup_end = bs.bsup_end := rfl
    have compacted : (bs.with_names names).bsup_compacted = bs.bsup_compacted := rfl
    rw [find_room, find_room]
    simp only [next, stop, compacted]
    split
    · split
      · rw [compact_names]
        cases bfs_compact bs with
        | none => rfl
        | some out => exact ih out
      · rfl
    · rfl

theorem write_loop_names (v chunksize : Nat) : ∀ (fuel : Nat) (bytes : List UInt8) (readable : Nat)
    (dir : Dirent) (oeblock offset : Nat) (bs : Bsuper),
    write_loop v chunksize fuel bytes readable dir oeblock offset (bs.with_names names) =
      (write_loop v chunksize fuel bytes readable dir oeblock offset bs).map (renamed names) := by
  intro fuel
  induction fuel with
  | zero =>
    intro bytes readable dir oeblock offset bs
    cases bytes <;> rfl
  | succ fuel ih =>
    intro bytes readable dir oeblock offset bs
    cases bytes with
    | nil => rfl
    | cons b bytes =>
      rw [write_loop, write_loop]
      split
      · rfl
      simp only
      split
      all_goals
        split
        · rw [← ih]
          rfl
        · rw [← ih]
          rfl

theorem write_out_names (bs : Bsuper) (v : Nat) (uio : Uio) (t : Target) (offset : Nat) :
    write_out (bs.with_names names) v uio t offset =
      (write_out bs v uio t offset).map (renamed names) := by
  unfold write_out
  have loop := write_loop_names names v (min MAXBSIZE uio.bytes.length) uio.bytes.length uio.bytes
    uio.readable t.dir t.oeblock offset { bs with disk := fill_hole bs.disk t.endfile offset }
  simp only [Option.bind_eq_bind]
  refine (congrArg (Option.bind · _) loop).trans ?_
  cases write_loop v (min MAXBSIZE uio.bytes.length) uio.bytes.length uio.bytes
    uio.readable t.dir t.oeblock offset { bs with disk := fill_hole bs.disk t.endfile offset } with
  | none => rfl
  | some out =>
    simp only [Option.map_some, Option.bind_some, renamed]
    split <;> rfl

theorem open_target_names (bs : Bsuper) (v uio_offset : Nat) :
    open_target (bs.with_names names) v uio_offset =
      (open_target bs v uio_offset).map fun out => (out.1, out.2.with_names names) := by
  unfold open_target
  have dir : (bs.with_names names).inodes v = bs.inodes v := rfl
  simp only [dir, find_room_names]
  split
  · cases find_room 2 bs <;> rfl
  · rfl

theorem write_names (v : Nat) (uio : Uio) : ∀ (fuel : Nat) (bs : Bsuper),
    bfs_write fuel (bs.with_names names) v uio = (bfs_write fuel bs v uio).map (renamed names) := by
  intro fuel
  induction fuel with
  | zero => intros; rfl
  | succ fuel ih =>
    intro bs
    rw [bfs_write, bfs_write]
    by_cases no_bytes : uio.bytes = []
    · rw [if_pos no_bytes, if_pos no_bytes]
      rfl
    rw [if_neg no_bytes, if_neg no_bytes]
    simp only [Option.bind_eq_bind]
    by_cases locked : bs.bsup_fslocked = true
    · have one : CHECK_LOCK (BFS_IOBEGIN bs) = none := if_pos locked
      have two : CHECK_LOCK (BFS_IOBEGIN (bs.with_names names)) = none := if_pos locked
      rw [one, two]
      rfl
    have unlocked : bs.bsup_fslocked = false := by simpa using locked
    by_cases busy : bs.bsup_inomap v = true
    · have one : CHECK_LOCK (BFS_IOBEGIN bs) = some (BFS_IOBEGIN bs) := if_neg locked
      have two : CHECK_LOCK (BFS_IOBEGIN (bs.with_names names)) =
          some (BFS_IOBEGIN (bs.with_names names)) := if_neg locked
      have three : BFS_INOLOCK (BFS_IOBEGIN bs) v = none := if_pos busy
      have four : BFS_INOLOCK (BFS_IOBEGIN (bs.with_names names)) v = none := if_pos busy
      rw [one, two, Option.bind_some, Option.bind_some, three, four]
      rfl
    have free : bs.bsup_inomap v = false := by simpa using busy
    have unlocked' : (bs.with_names names).bsup_fslocked = false := unlocked
    have free' : (bs.with_names names).bsup_inomap v = false := free
    have held : (bs.with_names names).held v = (bs.held v).with_names names := rfl
    have dir : ((bs.held v).with_names names).inodes v = (bs.held v).inodes v := rfl
    rw [enter_eq unlocked free, enter_eq unlocked' free', held]
    simp only [dir]
    by_cases dead : ((bs.held v).inodes v).d_ino = 0
    · rw [if_pos dead, if_pos dead]
      rfl
    rw [if_neg dead, if_neg dead, open_target_names]
    cases open_target (bs.held v) v uio.uio_offset with
    | none => rfl
    | some found =>
      obtain ⟨target, b⟩ := found
      simp only [Option.map_some, Option.bind_some]
      cases target with
      | none => rfl
      | some t =>
        have unlock : BFS_INOUNLOCK (b.with_names names) v =
            (BFS_INOUNLOCK b v).with_names names := rfl
        have stop : (b.with_names names).bsup_end = b.bsup_end := rfl
        obtain ⟨c, hc⟩ : ∃ c, c = BFS_INOUNLOCK b v := ⟨_, rfl⟩
        have compacted : (c.with_names names).bsup_compacted = c.bsup_compacted := rfl
        simp only [unlock, stop, ← hc, compacted, filetoend_names, compact_names, write_out_names]
        generalize (if uio.append = true then t.dir.d_eoffset + 1
          else t.dir.d_sblock * BFS_BSIZE + uio.uio_offset) = offset
        split
        · cases bfs_filetoend uio.nomem 2 c t.dir v with
          | none => rfl
          | some out =>
            simp only [Option.map_some, Option.bind_some, renamed]
            split
            · rfl
            · exact ih (BFS_IOEND out.2)
        · split
          · split
            · cases bfs_compact c with
              | none => rfl
              | some out => exact ih (BFS_IOEND out)
            · rfl
          · cases write_out b v uio t _ <;> rfl

end Names

end Bfs

/- What the files hold, over any run of writes, moves and compactions. -/
namespace Bfs
open BlockExtents LabelledRuns Option

inductive Op
  | write (v : Nat) (uio : Uio)
  | move (v : Nat) (nomem : Bool)
  | compact

/-- A move and a compaction as bfs_write makes them: behind the lock, a transfer counted and the
inode just read. -/
def Op.apply (bs : Bsuper) : Op → Option (Option Errno × Bsuper)
  | .write v uio => bfs_write 4 bs v uio
  | .move v nomem => do
    let bs ← CHECK_LOCK (BFS_IOBEGIN bs)
    let (error, bs) ← bfs_filetoend nomem 2 bs (bs.inodes v) v
    return (error, BFS_IOEND bs)
  | .compact => do
    let bs ← CHECK_LOCK (BFS_IOBEGIN bs)
    let bs ← bfs_compact bs
    return (none, BFS_IOEND bs)

def Op.Valid (bs : Bsuper) : Op → Prop
  | .write v _ => v < bs.slots ∧ v ≠ root
  | .move v _ => v < bs.slots ∧ (bs.inodes v).d_ino ≠ 0 ∧ (bs.inodes v).d_sblock ≠ 0
  | .compact => True

/-- When a move with room leaves the file its bytes: the copy arrives whole, and is made from where
the file lies. -/
def MoveOk (bs : Bsuper) (v : Nat) (nomem : Bool) : Prop :=
  bs.CopyFits v → nomem = false → WholeMove (bs.length v) ∧ InPlace bs v

def Op.Ok (bs : Bsuper) : Op → Prop
  | .write v uio => uio.bytes ≠ [] → (bs.inodes v).d_ino ≠ 0 →
    (MustMove bs v uio → MoveOk bs v uio.nomem) ∧
    ((bs.inodes v).d_sblock = 0 → bs.data_end v uio ≤ bs.bsup_end →
      uio.readable < uio.bytes.length → uio.readable < min MAXBSIZE uio.bytes.length)
  | .move v nomem => MoveOk bs v nomem
  | .compact => True

/-- What an operation may do: a write changes its own file's bytes from its place on, and nothing
else changes. -/
def Op.Effect (im im' : Image) (r : Option Errno) : Op → Prop
  | .write v uio => Wrote im im' v (im.write_at v uio) uio.bytes r
  | .move _ _ | .compact => im'.bsup_start = im.bsup_start ∧ im'.bsup_end = im.bsup_end ∧
    ∀ j < im.slots, (im.inodes j).d_ino ≠ 0 → Unharmed im im' j

/-- The state between two operations; a move that found no memory has left it locked. -/
structure Between (bs : Bsuper) : Prop where
  sums : bs.Sums
  no_io : bs.bsup_ioinprog = 0
  free : ∀ v, bs.bsup_inomap v = false

section Steps
variable {bs : Bsuper} {r : Option Errno} {op : Op}

theorem apply_locked (locked : bs.bsup_fslocked = true) {bs' : Bsuper}
    (run : op.apply bs = some (r, bs')) : r = none ∧ bs' = bs ∧ ∃ v uio, op = .write v uio ∧
      uio.bytes = [] := by
  have stuck : CHECK_LOCK (BFS_IOBEGIN bs) = none := if_pos locked
  cases op with
  | write v uio =>
    by_cases no_bytes : uio.bytes = []
    · have quick : bfs_write 4 bs v uio = some (none, bs) := by
        rw [bfs_write, if_pos no_bytes]
        rfl
      rw [Op.apply, quick] at run
      cases run
      exact ⟨rfl, rfl, v, uio, rfl, no_bytes⟩
    · rw [Op.apply, bfs_write, if_neg no_bytes, stuck] at run
      cases run
  | move v nomem | compact =>
    rw [Op.apply, stuck] at run
    cases run

theorem wrote_same (v at_ : Nat) (bytes : List UInt8) (short : r = none → bytes = []) :
    Wrote bs.toImage bs.toImage v at_ bytes r := by
  refine ⟨rfl, rfl, fun j _ _ _ => Unharmed.refl _ j, rfl, 0, Nat.zero_le _, ?_, fun _ _ => rfl, ?_⟩
  · intro ok
    rw [short ok]
    rfl
  · rw [List.take_zero, overwrite_nil]

theorem apply_spec (between : Between bs) (unlocked : bs.bsup_fslocked = false)
    (valid : op.Valid bs) (ok : op.Ok bs) :
    ∃ r bs', op.apply bs = some (r, bs') ∧ Between bs' ∧ op.Effect bs.toImage bs'.toImage r := by
  have sums := between.sums
  have check : CHECK_LOCK (BFS_IOBEGIN bs) = some (BFS_IOBEGIN bs) := by
    rw [CHECK_LOCK, show (BFS_IOBEGIN bs).bsup_fslocked = false from unlocked]
    rfl
  cases op with
  | write v uio =>
    obtain ⟨inside, not_root⟩ := valid
    by_cases no_bytes : uio.bytes = []
    · refine ⟨none, bs, ?_, between, wrote_same v _ uio.bytes fun _ => no_bytes⟩
      rw [Op.apply, bfs_write, if_pos no_bytes]
      rfl
    by_cases dead : (bs.inodes v).d_ino = 0
    · have left := leave_kept (between.free v) (Kept.refl (bs.held v))
      refine ⟨some .EINVAL, BFS_INOUNLOCK (BFS_IOEND (bs.held v)) v, ?_,
        ⟨leave_sums sums v, left.ioinprog.trans between.no_io, ?_⟩,
        wrote_same v _ uio.bytes fun absurd => by cases absurd⟩
      · rw [Op.apply, bfs_write, if_neg no_bytes]
        simp only [bind_eq_bind, enter_eq unlocked (between.free v)]
        rw [if_pos (show ((bs.held v).inodes v).d_ino = 0 from dead)]
        rfl
      · intro k
        rw [left.inomap]
        exact between.free k
    obtain ⟨move, fault⟩ := ok no_bytes dead
    have ready : Ready bs v :=
      ⟨sums, inside, not_root, dead, unlocked, between.no_io, between.free v⟩
    obtain ⟨r, bs', run, done⟩ := write_spec ready no_bytes
      (fun must fits mem => (move must fits mem).1) fault
    refine ⟨r, bs', run, ⟨done.sums, done.ioinprog.trans between.no_io, ?_⟩,
      done.wrote fun must fits mem => (move must fits mem).2⟩
    intro k
    rw [done.inomap]
    exact between.free k
  | move v nomem =>
    obtain ⟨inside, live, full⟩ := valid
    have no_io : (BFS_IOBEGIN bs).bsup_ioinprog ≤ 1 := by
      show bs.bsup_ioinprog + 1 ≤ 1
      rw [between.no_io]
    obtain ⟨r, out, run, ended⟩ :=
      filetoend_spec (show (BFS_IOBEGIN bs).Sums from sums) inside live full no_io fun fits mem => (ok fits mem).1
    refine ⟨r, BFS_IOEND out, ?_, ⟨ended.sums, ?_, ?_⟩, ended.alike.start, ended.alike.stop,
      ended.unharmed fun fits mem => (ok fits mem).2⟩
    · rw [Op.apply, check]
      simp only [bind_eq_bind, bind_some, run]
      rfl
    · show out.bsup_ioinprog - 1 = 0
      rw [ended.ioinprog]
      show bs.bsup_ioinprog + 1 - 1 = 0
      rw [between.no_io]
    · intro k
      show out.bsup_inomap k = false
      rw [ended.inomap]
      exact between.free k
  | compact =>
    obtain ⟨im, run, slid, packed⟩ := compact_sums (show (BFS_IOBEGIN bs).Sums from sums)
    refine ⟨none, BFS_IOEND { BFS_IOBEGIN bs with
        toImage := im, bsup_compacted := true, bsup_fslocked := false }, ?_, ⟨?_, ?_, ?_⟩,
      slid.start, slid.stop, fun j j_inside j_live => slid.unharmed j_inside j_live⟩
    · rw [Op.apply, check]
      simp only [bind_eq_bind, bind_some, run]
      rfl
    · exact packed
    · exact between.no_io
    · exact between.free

end Steps

/- The directory may be anything. -/

section AnyDirectory
variable {im im' : Image}

theorem Laid.with_names (laid : Laid im) (names : List Ldirs) : Laid { im with names := names } :=
  { laid with placed := fun k hk live full =>
      have := laid.placed k hk live full
      { this with } }

theorem Op.Effect.with_names {r : Option Errno} {op : Op} (names : List Ldirs)
    (effect : op.Effect { im with names := names } { im' with names := names } r) :
    op.Effect im im' r := by
  have same : ∀ j, Unharmed { im with names := names } { im' with names := names } j →
      Unharmed im im' j := fun j unharmed => { unharmed with }
  cases op with
  | write v uio =>
    exact { effect with others := fun j inside ne live => same j (effect.others j inside ne live) }
  | move v nomem =>
    exact ⟨effect.1, effect.2.1, fun j inside live => same j (effect.2.2 j inside live)⟩
  | compact => exact ⟨effect.1, effect.2.1, fun j inside live => same j (effect.2.2 j inside live)⟩

theorem apply_names (bs : Bsuper) (op : Op) (names : List Ldirs) :
    op.apply (bs.with_names names) = (op.apply bs).map (renamed names) := by
  have begun : BFS_IOBEGIN (bs.with_names names) = (BFS_IOBEGIN bs).with_names names := rfl
  have check : CHECK_LOCK ((BFS_IOBEGIN bs).with_names names) =
      (CHECK_LOCK (BFS_IOBEGIN bs)).map fun bs => bs.with_names names := by
    unfold CHECK_LOCK
    have same : ((BFS_IOBEGIN bs).with_names names).bsup_fslocked =
      (BFS_IOBEGIN bs).bsup_fslocked := rfl
    rw [same]
    split <;> rfl
  cases op with
  | write v uio => exact write_names names v uio 4 bs
  | move v nomem =>
    simp only [Op.apply, begun, check, bind_eq_bind]
    cases CHECK_LOCK (BFS_IOBEGIN bs) with
    | none => rfl
    | some b =>
      have dir : (b.with_names names).inodes v = b.inodes v := rfl
      simp only [map_some, bind_some, dir, filetoend_names]
      cases bfs_filetoend nomem 2 b (b.inodes v) v <;> rfl
  | compact =>
    simp only [Op.apply, begun, check, bind_eq_bind]
    cases CHECK_LOCK (BFS_IOBEGIN bs) with
    | none => rfl
    | some b =>
      simp only [map_some, bind_some, compact_names]
      cases bfs_compact b <;> rfl

theorem apply_sound {bs : Bsuper} (sound : Between (bs.with_names []))
    (unlocked : bs.bsup_fslocked = false) {op : Op} (valid : op.Valid bs) (ok : op.Ok bs) :
    ∃ r bs', op.apply bs = some (r, bs') ∧ Between (bs'.with_names []) ∧
      op.Effect bs.toImage bs'.toImage r := by
  have valid' : op.Valid (bs.with_names []) := by cases op <;> exact valid
  have ok' : op.Ok (bs.with_names []) := by cases op <;> exact ok
  obtain ⟨r, out, run, between, effect⟩ := apply_spec sound unlocked valid' ok'
  rw [apply_names] at run
  cases there : op.apply bs with
  | none =>
    rw [there] at run
    cases run
  | some pair =>
    obtain ⟨r', bs'⟩ := pair
    rw [there] at run
    cases run
    exact ⟨_, bs', rfl, between, Op.Effect.with_names [] effect⟩

end AnyDirectory

def AllowedOp (bs : Bsuper) (op : Op) : Prop := op.Valid bs ∧ op.Ok bs

def op_step (bs : Bsuper) (op : Op) : Option Bsuper := (op.apply bs).map Prod.snd

/-- In any run of allowed operations no two files share a block or leave the data, and the next one
changes the files only as it may. It returns unless a move without memory has left the lock. -/
theorem contents_kept {im : Image} (laid : Laid im) (rooted : Rooted im) (ops : List Op)
    (allowed : Guarded op_step AllowedOp (bfs_mount im) ops) {bs : Bsuper}
    (run : exec op_step (bfs_mount im) ops = some bs) :
    Laid bs.toImage ∧ ∀ op, AllowedOp bs op →
      (∀ r bs', op.apply bs = some (r, bs') →
        Laid bs'.toImage ∧ op.Effect bs.toImage bs'.toImage r) ∧
      (bs.bsup_fslocked = false → (op.apply bs).isSome) := by
  have start : Between ((bfs_mount im).with_names []) := by
    refine ⟨?_, rfl, fun _ => rfl⟩
    refine mount_sums (laid.with_names []) { rooted with } ⟨?_, ?_⟩
    · intro ld absurd
      cases absurd
    · exact fun _ _ _ _ => Nat.zero_le _
  have one : ∀ bs op r bs', Between (bs.with_names []) → AllowedOp bs op →
      op.apply bs = some (r, bs') →
      Between (bs'.with_names []) ∧ op.Effect bs.toImage bs'.toImage r := by
    intro bs op r bs' between ⟨valid, ok⟩ taken
    cases locked : bs.bsup_fslocked with
    | true =>
      obtain ⟨rfl, rfl, v, uio, rfl, no_bytes⟩ := apply_locked locked taken
      exact ⟨between, wrote_same v _ uio.bytes fun _ => no_bytes⟩
    | false =>
      obtain ⟨r', out, there, after, effect⟩ := apply_sound between locked valid ok
      rw [taken] at there
      cases there
      exact ⟨after, effect⟩
  have between := exec_invariant (fun bs : Bsuper => Between (bs.with_names []))
    (fun bs op bs' inv ok taken => by
      obtain ⟨⟨r, out⟩, there, rfl⟩ := map_eq_some_iff.mp taken
      exact (one bs op r out inv ok there).1) start allowed run
  have laid_of : ∀ b : Bsuper, Between (b.with_names []) → Laid b.toImage :=
    fun b inv => inv.sums.laid.with_names b.names
  refine ⟨laid_of bs between, fun op ok => ⟨fun r bs' taken => ?_, fun unlocked => ?_⟩⟩
  · obtain ⟨after, effect⟩ := one bs op r bs' between ok taken
    exact ⟨laid_of bs' after, effect⟩
  · obtain ⟨r, bs', there, _⟩ := apply_sound between unlocked ok.1 ok.2
    rw [there]
    rfl

/-- A file that ends at `last`, and one of a byte behind it. -/
def two_files (last : Nat) : Image where
  bsup_start := 1024
  bsup_end := 32767
  inodes k := if k = 0 then ⟨2, 2, 2, 1071, 2⟩ else if k = 1 then ⟨3, 3, last / 512, last, 1⟩
    else if k = 2 then ⟨4, last / 512 + 1, last / 512 + 1, (last / 512 + 1) * 512, 1⟩
    else ⟨0, 0, 0, 0, 0⟩
  names := [⟨2, ['.']⟩, ⟨2, ['.', '.']⟩, ⟨3, ['a']⟩, ⟨4, ['b']⟩]
  disk _ := 0

theorem two_files_full {last k : Nat} (live : ((two_files last).inodes k).d_ino ≠ 0) :
    k = 0 ∨ k = 1 ∨ k = 2 := by
  by_contra other
  rw [not_or, not_or] at other
  have inode : (two_files last).inodes k = ⟨0, 0, 0, 0, 0⟩ := by
    simp [two_files, other.1, other.2.1, other.2.2]
  rw [inode] at live
  exact live rfl

theorem two_files_laid {last : Nat} (either : last = 1538 ∨ last = 9728) :
    Laid (two_files last) := by
  have slots : ((two_files 0).bsup_start - BFS_DIRSTART) % DIRENT_SIZE = 0 := by decide
  have ends : ((two_files 0).bsup_end + 1) % BFS_BSIZE = 0 := by decide
  refine ⟨Nat.le_add_left _ _, slots, ends, ?_, ?_, ?_⟩
  · intro k _ live _
    rcases two_files_full live with rfl | rfl | rfl <;> rcases either with rfl | rfl <;>
      exact ⟨by decide, by decide, by decide, by decide⟩
  · intro k _ live empty
    rcases two_files_full live with rfl | rfl | rfl <;> cases empty
  · intro i j a b ne at_i at_j
    obtain ⟨_, live, _, rfl⟩ := layout_eq_some.mp at_i
    obtain ⟨_, live', _, rfl⟩ := layout_eq_some.mp at_j
    rcases two_files_full live with rfl | rfl | rfl <;>
      rcases two_files_full live' with rfl | rfl | rfl <;> rcases either with rfl | rfl
    all_goals
      unfold Extent.Before Extent.last
      first
        | exact absurd rfl ne
        | decide

theorem two_files_rooted (last : Nat) : Rooted (two_files last) :=
  ⟨show root < (two_files 0).slots by decide, show 2 ≠ 0 by decide, show 2 ≠ 0 by decide⟩

/-- Three bytes are appended to a file that is not the last one, which moves to the end, and the
compaction closes the gap. -/
theorem contents_kept_small : ∃ bs, exec op_step (bfs_mount (two_files 1538))
      [.write 1 ⟨3, [4, 5, 6], 3, false, false⟩, .compact] = some bs ∧ Laid bs.toImage ∧
    (bs.inodes 2).d_sblock = 3 ∧ (bs.inodes 1).d_sblock = 4 ∧
      bs.contents 1 = [0, 0, 0, 4, 5, 6] := by
  have ran : (exec op_step (bfs_mount (two_files 1538))
      [.write 1 ⟨3, [4, 5, 6], 3, false, false⟩, .compact]).map (fun bs =>
        ((bs.inodes 2).d_sblock, (bs.inodes 1).d_sblock, bs.contents 1)) =
      some (3, 4, [0, 0, 0, 4, 5, 6]) := by decide +kernel
  obtain ⟨bs, run, seen⟩ := map_eq_some_iff.mp ran
  obtain ⟨laid, _⟩ := contents_kept (two_files_laid (.inl rfl)) (two_files_rooted 1538)
    [.write 1 ⟨3, [4, 5, 6], 3, false, false⟩, .compact]
    ⟨⟨⟨by decide, by decide⟩, fun _ _ => ⟨fun _ _ _ => ⟨fun _ => by contradiction,
        .inl (show _ ≤ _ by decide)⟩, fun empty => by contradiction⟩⟩,
      fun _ _ => ⟨⟨trivial, trivial⟩, fun _ _ => trivial⟩⟩ run
  exact ⟨bs, run, laid, by simpa using seen⟩

def long : Image := two_files 9728

/-- The move to the end leaves the last byte of the file behind. -/
theorem move_drops_byte : Laid long ∧ Rooted long ∧ Op.Valid (bfs_mount long) (.move 1 false) ∧
    ∃ bs', Op.apply (bfs_mount long) (.move 1 false) = some (none, bs') ∧
      long.length 1 = 8193 ∧ bs'.length 1 = 8192 ∧ ¬ Unharmed long bs'.toImage 1 := by
  refine ⟨two_files_laid (.inr rfl), two_files_rooted _, ⟨by decide, by decide, by decide⟩, _, rfl,
    by decide, by decide, ?_⟩
  intro unharmed
  have same := congrArg List.length (unharmed.contents (by decide))
  unfold Image.contents at same
  rw [ByteMoves.length_slice, ByteMoves.length_slice] at same
  revert same
  decide

end Bfs
