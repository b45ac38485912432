import Svr4.Bfs.Layout
import Svr4.ExtentReach

/- What bfs_compact does to the files: they end up without gaps, each with the bytes it had. -/
namespace Bfs
open ByteMoves BlockExtents List Option Nat

/-- The files of `im` moved to other blocks, and nothing else changed. -/
structure Slid (im im' : Image) : Prop where
  start : im'.bsup_start = im.bsup_start
  stop : im'.bsup_end = im.bsup_end
  names : im'.names = im.names
  number : ∀ k, (im'.inodes k).d_ino = (im.inodes k).d_ino
  nlink : ∀ k, (im'.inodes k).va_nlink = (im.inodes k).va_nlink
  idle : ∀ k, im.layout k = none → im'.inodes k = im.inodes k
  laid : Laid im'
  rearranged : Rearranged im.layout im'.layout
  lowered : Lowered im.floor im.layout im'.layout
  length : ∀ k e, im.layout k = some e → im'.length k = im.length k
  contents : ∀ k e, im.layout k = some e → im'.contents k = im.contents k

theorem Slid.refl {im : Image} (laid : Laid im) : Slid im im :=
  ⟨rfl, rfl, rfl, fun _ => rfl, fun _ => rfl, fun _ _ => rfl, laid, Rearranged.refl _,
    Lowered.refl _ _, fun _ _ _ => rfl, fun _ _ _ => rfl⟩

theorem Slid.trans {im₁ im₂ im₃ : Image} (one : Slid im₁ im₂) (two : Slid im₂ im₃) :
    Slid im₁ im₃ where
  start := two.start.trans one.start
  stop := two.stop.trans one.stop
  names := two.names.trans one.names
  number k := (two.number k).trans (one.number k)
  nlink k := (two.nlink k).trans (one.nlink k)
  idle k none₁ := by
    have none₂ : im₂.layout k = none := by
      cases at_k : im₂.layout k with
      | none => rfl
      | some e =>
        obtain ⟨a, ha, _⟩ := one.rearranged.preimage at_k
        rw [none₁] at ha
        cases ha
    exact (two.idle k none₂).trans (one.idle k none₁)
  laid := two.laid
  rearranged := one.rearranged.trans two.rearranged
  lowered := by
    have same : im₂.floor = im₁.floor := by
      unfold Image.floor
      rw [one.start]
    have second := two.lowered
    rw [same] at second
    exact Lowered.trans one.rearranged one.lowered second
  length k e at_k := by
    obtain ⟨e', at_k', _⟩ := one.rearranged.image at_k
    exact (two.length k e' at_k').trans (one.length k e at_k)
  contents k e at_k := by
    obtain ⟨e', at_k', _⟩ := one.rearranged.image at_k
    exact (two.contents k e' at_k').trans (one.contents k e at_k)

theorem Slid.slots {im im' : Image} (slid : Slid im im') : im'.slots = im.slots := by
  unfold Image.slots
  rw [slid.start]

/- The scan for the next file. -/

variable {bs : Bsuper} {curblock off i : Nat} {c e : Extent} {im : Image} {d : Dirent}

theorem next_scan_spec : ∀ (is : List Nat) (off : Option Nat),
      next_bound bs (next_scan bs curblock is off) ≤ next_bound bs off ∧
      (∀ i ∈ is, (bs.inodes i).d_ino ≠ 0 → curblock < (bs.inodes i).d_sblock →
        next_bound bs (next_scan bs curblock is off) ≤ (bs.inodes i).d_sblock) ∧
      (next_scan bs curblock is off = off ∨ ∃ o ∈ is, next_scan bs curblock is off = some o ∧
        (bs.inodes o).d_ino ≠ 0 ∧ curblock < (bs.inodes o).d_sblock) := by
  intro is
  induction is with
  | nil => intro off; simp [next_scan]
  | cons i is ih =>
    intro off
    unfold next_scan
    by_cases free : (bs.inodes i).d_ino = 0
    · simp only [if_pos free]
      obtain ⟨bound, least, found⟩ := ih off
      refine ⟨bound, ?_, ?_⟩
      · intro j member live above
        rcases mem_cons.mp member with rfl | rest
        · exact absurd free live
        · exact least j rest live above
      · rcases found with same | ⟨o, ho, rest⟩
        · exact .inl same
        · exact .inr ⟨o, mem_cons_of_mem _ ho, rest⟩
    simp only [if_neg free]
    by_cases better : curblock < (bs.inodes i).d_sblock ∧ (bs.inodes i).d_sblock < next_bound bs off
    · rw [if_pos better]
      obtain ⟨bound, least, found⟩ := ih (some i)
      have at_i : next_bound bs (some i) = (bs.inodes i).d_sblock := rfl
      refine ⟨by omega, ?_, ?_⟩
      · intro j member live above
        rcases mem_cons.mp member with rfl | rest
        · omega
        · exact least j rest live above
      · rcases found with same | ⟨o, ho, rest⟩
        · exact .inr ⟨i, mem_cons_self, same, free, better.1⟩
        · exact .inr ⟨o, mem_cons_of_mem _ ho, rest⟩
    · rw [if_neg better]
      obtain ⟨bound, least, found⟩ := ih off
      refine ⟨bound, ?_, ?_⟩
      · intro j member live above
        rcases mem_cons.mp member with rfl | rest
        · omega
        · exact least j rest live above
      · rcases found with same | ⟨o, ho, rest⟩
        · exact .inl same
        · exact .inr ⟨o, mem_cons_of_mem _ ho, rest⟩

theorem getnxtcblock_none (laid : Laid bs.toImage) (last : bfs_getnxtcblock bs curblock = none) :
    ∀ i e, bs.layout i = some e → ¬ curblock < e.first := by
  intro i e at_i above
  obtain ⟨inside, live, full, rfl⟩ := layout_eq_some.mp at_i
  have least := (@next_scan_spec bs curblock (List.range bs.slots) none).2.1
    i (mem_range.mpr inside) live above
  have bound := (laid.placed i inside live full).below_end laid.whole
  have order := (laid.placed i inside live full).order
  unfold bfs_getnxtcblock at last
  rw [last] at least
  exact absurd (le_trans least order) (not_le.mpr bound)

theorem getnxtcblock_some (next : bfs_getnxtcblock bs curblock = some off) :
    ∃ e, bs.layout off = some e ∧ curblock < e.first ∧
      ∀ i c, bs.layout i = some c → curblock < c.first → e.first ≤ c.first := by
  obtain ⟨_, least, found⟩ := @next_scan_spec bs curblock (List.range bs.slots) none
  unfold bfs_getnxtcblock at next
  rw [next] at least found
  rcases found with absurd | ⟨o, member, same, live, above⟩
  · cases absurd
  cases same
  have full : (bs.inodes off).d_sblock ≠ 0 := by omega
  refine ⟨_, layout_of_full (mem_range.mp member) live full, above, ?_⟩
  intro i c at_i later
  obtain ⟨inside, live', _, rfl⟩ := layout_eq_some.mp at_i
  exact least i (mem_range.mpr inside) live' later

theorem getnxtcblock_of_file (laid : Laid bs.toImage) (at_i : bs.layout i = some e) :
    ∃ off, bfs_getnxtcblock bs 0 = some off := by
  cases found : bfs_getnxtcblock bs 0 with
  | some off => exact ⟨off, rfl⟩
  | none =>
    have nothing := getnxtcblock_none laid found i e at_i
    obtain ⟨_, _, full, rfl⟩ := layout_eq_some.mp at_i
    exact absurd (pos_of_ne_zero full) nothing

/- One file. -/

theorem shift_loop_eq (d_eblock : Nat) : ∀ (fuel m fromblock toblock : Nat) (disk : Nat → UInt8),
    0 < m → toblock ≤ fromblock → fromblock ≤ d_eblock + 1 → d_eblock + 1 - fromblock ≤ fuel →
    shift_loop d_eblock fuel (m * BFS_BSIZE) fromblock toblock disk =
      some (transfer disk (fromblock * BFS_BSIZE) (toblock * BFS_BSIZE)
        ((d_eblock + 1 - fromblock) * BFS_BSIZE)) := by
  intro fuel
  induction fuel with
  | zero =>
    intro m fromblock toblock disk _ _ low short
    have done : fromblock = d_eblock + 1 := by omega
    rw [shift_loop, if_pos done, done, Nat.sub_self, Nat.zero_mul, transfer_zero]
  | succ fuel ih =>
    intro m fromblock toblock disk pos down low short
    by_cases done : fromblock = d_eblock + 1
    · rw [shift_loop, if_pos done, done, Nat.sub_self, Nat.zero_mul, transfer_zero]
    obtain ⟨n, hn⟩ : ∃ n, n = min m (d_eblock - fromblock + 1) := ⟨_, rfl⟩
    have least : min (m * BFS_BSIZE) ((d_eblock - fromblock + 1) * BFS_BSIZE) = n * BFS_BSIZE := by
      rw [hn, Nat.mul_min_mul_right]
    have bytes : n * BFS_BSIZE / BFS_BSIZE = n := Nat.mul_div_cancel _ (by decide)
    rw [shift_loop, if_neg done]
    simp only [least, bytes]
    have rest : n * BFS_BSIZE + (d_eblock + 1 - (fromblock + n)) * BFS_BSIZE =
        (d_eblock + 1 - fromblock) * BFS_BSIZE := by
      rw [← Nat.add_mul]
      congr 1
      omega
    have glue := @transfer_transfer _ disk (fromblock * BFS_BSIZE) (toblock * BFS_BSIZE)
      (n * BFS_BSIZE) ((d_eblock + 1 - (fromblock + n)) * BFS_BSIZE)
      (.inl (mul_le_mul_right _ down))
    rw [rest, ← Nat.add_mul, ← Nat.add_mul] at glue
    rw [ih n _ _ _ (by omega) (by omega) (by omega) (by omega), glue]

def Dirent.startAt (d : Dirent) (goal : Nat) : Dirent :=
  { d with d_sblock := goal, d_eblock := goal + (d.d_eblock - d.d_sblock),
           d_eoffset := d.d_eoffset - d.d_sblock * BFS_BSIZE + goal * BFS_BSIZE }

theorem extent_startAt {goal : Nat} (live : d.d_ino ≠ 0) (pos : goal ≠ 0) :
    extent (d.startAt goal) = some ⟨goal, d.d_eblock - d.d_sblock⟩ := by
  have full : (d.startAt goal).d_ino ≠ 0 ∧ (d.startAt goal).d_sblock ≠ 0 := ⟨live, pos⟩
  have more : goal + (d.d_eblock - d.d_sblock) - goal = d.d_eblock - d.d_sblock := by omega
  rw [extent, if_pos full]
  simp only [Dirent.startAt, more]

theorem Placed.startAt (placed : Placed im d) {goal : Nat}
    (start : im.bsup_start ≤ goal * BFS_BSIZE)
    (stop : d.d_eoffset - d.d_sblock * BFS_BSIZE + goal * BFS_BSIZE ≤ im.bsup_end) :
    Placed im (d.startAt goal) := by
  have inside := placed.inside
  refine ⟨start, le_add_left _ _, ?_, stop⟩
  simp only [Dirent.startAt]
  unfold BFS_BSIZE at *
  omega

def Image.shifted (im : Image) (off goal : Nat) (c : Extent) : Image :=
  { im with disk := transfer im.disk (c.first * BFS_BSIZE) (goal * BFS_BSIZE)
              ((c.more + 1) * BFS_BSIZE) }.put off ((im.inodes off).startAt goal)

section Shift
variable {im : Image} {off goal : Nat} {c : Extent}

section
variable (laid : Laid im) (at_off : im.layout off = some c)
  (start : im.bsup_start ≤ goal * BFS_BSIZE)
include laid at_off start

theorem shifted_layout :
    (im.shifted off goal c).layout = Function.update im.layout off (some ⟨goal, c.more⟩) := by
  obtain ⟨inside, live, full, rfl⟩ := layout_eq_some.mp at_off
  have pos : goal ≠ 0 := by
    rintro rfl
    have := laid.start
    unfold BFS_DIRSTART at this
    omega
  refine (put_layout _ (show off < _ from inside) _).trans ?_
  rw [extent_startAt live pos]

theorem slid_shifted (down : goal ≤ c.first) (kept : goal < im.floor → goal = c.first)
    (clear : ∀ i e, im.layout i = some e → e.Before c → e.last < goal) :
    Slid im (im.shifted off goal c) := by
  have rearranged := rearranged_slide at_off down clear
  have layout := shifted_layout laid at_off start
  have placed := laid.placed_of_layout at_off
  have first := Laid.first_eq at_off
  have own := laid.bytes_inside at_off
  obtain ⟨inside, live, full, _⟩ := layout_eq_some.mp at_off
  have bytes : goal * BFS_BSIZE ≤ c.first * BFS_BSIZE := mul_le_mul_right _ down
  have size : (c.last + 1) * BFS_BSIZE = c.first * BFS_BSIZE + (c.more + 1) * BFS_BSIZE := by
    rw [← Nat.add_mul]
    rfl
  have of_ne : ∀ k, k ≠ off → (im.shifted off goal c).inodes k = im.inodes k :=
    fun k ne => put_inodes_of_ne _ _ ne
  have at_off' : (im.shifted off goal c).inodes off = (im.inodes off).startAt goal :=
    put_inodes_self _ _ _
  have pos : goal ≠ 0 := by
    rintro rfl
    have := laid.start
    unfold BFS_DIRSTART at this
    omega
  have length : (im.shifted off goal c).length off = im.length off := by
    unfold Image.length
    rw [at_off', if_neg full, if_neg (show ((im.inodes off).startAt goal).d_sblock ≠ 0 from pos)]
    simp only [Dirent.startAt]
    omega
  refine ⟨rfl, rfl, rfl, ?_, ?_, ?_, ?_, by rw [layout]; exact rearranged, ?_, ?_, ?_⟩
  · intro k
    by_cases same : k = off
    · rw [same, at_off']; rfl
    · rw [of_ne k same]
  · intro k
    by_cases same : k = off
    · rw [same, at_off']; rfl
    · rw [of_ne k same]
  · intro k idle
    apply of_ne
    rintro rfl
    rw [at_off] at idle
    cases idle
  · have laid' := laid.with_disk (transfer im.disk (c.first * BFS_BSIZE) (goal * BFS_BSIZE)
      ((c.more + 1) * BFS_BSIZE))
    refine laid'.put (d := (im.inodes off).startAt goal) inside ?_
      (fun _ empty => absurd empty pos) ?_
    · intro _ _
      have stop : (im.inodes off).d_eoffset - (im.inodes off).d_sblock * BFS_BSIZE +
          goal * BFS_BSIZE ≤ im.bsup_end := by
        have := placed.stop
        rw [first] at bytes
        omega
      have moved := placed.startAt start stop
      exact { moved with }
    · rw [extent_startAt live pos]
      obtain ⟨_, _, _, rfl⟩ := layout_eq_some.mp at_off
      exact rearranged.apart laid.apart
  · rw [layout]
    exact lowered_slide at_off down kept
  · intro k e at_k
    by_cases same : k = off
    · rw [same, length]
    · unfold Image.length
      rw [of_ne k same]
  · intro k e at_k
    by_cases same : k = off
    · subst same
      unfold Image.contents
      rw [length, at_off', ← first]
      apply slice_transfer
      rw [← first, size] at own
      omega
    · have others := laid.bytes_inside at_k
      have first_k := Laid.first_eq at_k
      have same_length : (im.shifted off goal c).length k = im.length k := by
        unfold Image.length
        rw [of_ne k same]
      unfold Image.contents
      rw [same_length, of_ne k same]
      apply slice_transfer_of_apart
      rw [← first_k] at others ⊢
      rcases laid.apart k off e c same at_k at_off with before | after
      · have low : (e.last + 1) * BFS_BSIZE ≤ goal * BFS_BSIZE :=
          mul_le_mul_right _ (clear k e at_k before)
        omega
      · have high : (c.last + 1) * BFS_BSIZE ≤ e.first * BFS_BSIZE := mul_le_mul_right _ after
        omega

end

end Shift

variable {bs : Bsuper} {eblock : Nat}

theorem shiftfile_eq (laid : Laid bs.toImage) {off goal : Nat} (at_off : bs.layout off = some c)
    (down : goal < c.first) :
    bfs_shiftfile bs (bs.inodes off) (c.first - goal) off =
      some ({ bs with toImage := bs.toImage.shifted off goal c },
        (bs.inodes off).startAt goal) := by
  have placed := laid.placed_of_layout at_off
  have order := placed.order
  obtain ⟨inside, live, full, rfl⟩ := layout_eq_some.mp at_off
  simp only at down
  obtain ⟨m, hm⟩ : ∃ m, m = min 16 ((bs.inodes off).d_sblock - goal) := ⟨_, rfl⟩
  have buffer : min BFSBUFSIZE (((bs.inodes off).d_sblock - goal) * BFS_BSIZE) = m * BFS_BSIZE := by
    rw [hm, ← Nat.mul_min_mul_right]
    rfl
  have goal_eq : (bs.inodes off).d_sblock - ((bs.inodes off).d_sblock - goal) = goal := by omega
  have shift := shift_loop_eq (bs.inodes off).d_eblock
    ((bs.inodes off).d_eblock + 1 - (bs.inodes off).d_sblock) m
    (bs.inodes off).d_sblock goal bs.disk
    (by omega) (by omega) (by omega) (le_refl _)
  have size : (bs.inodes off).d_eblock + 1 - (bs.inodes off).d_sblock =
      (bs.inodes off).d_eblock - (bs.inodes off).d_sblock + 1 := by omega
  have eblock : (bs.inodes off).d_eblock - ((bs.inodes off).d_sblock - goal) =
      goal + ((bs.inodes off).d_eblock - (bs.inodes off).d_sblock) := by omega
  unfold bfs_shiftfile
  simp only [goal_eq, buffer, ← placed.eblock, order, and_self, if_true, eblock]
  rw [shift, size]
  rfl

/- The loop. -/

def goal (first eblock : Nat) : Nat :=
  if first ≠ eblock + 1 ∧ first ≠ eblock then eblock + 1 else first

theorem compact_file_spec (laid : Laid bs.toImage) (at_off : bs.layout off = some c)
    (above : eblock ≤ c.first) (start : bs.bsup_start / BFS_BSIZE ≤ eblock)
    (clear : ∀ i e, bs.layout i = some e → e.Before c → e.last < goal c.first eblock) :
    ∃ im dir, compact_file bs off eblock = some ({ bs with toImage := im }, dir) ∧
      Slid bs.toImage im ∧ dir.d_eblock = goal c.first eblock + c.more ∧
      im.layout = Function.update bs.layout off (some ⟨goal c.first eblock, c.more⟩) := by
  have first := Laid.first_eq at_off
  have last := laid.last_eq at_off
  by_cases gap : c.first ≠ eblock + 1 ∧ c.first ≠ eblock
  · have at_goal : goal c.first eblock = eblock + 1 := if_pos gap
    have down : eblock + 1 < c.first := by omega
    have room : bs.bsup_start ≤ (eblock + 1) * BFS_BSIZE := by
      unfold BFS_BSIZE at *
      omega
    rw [at_goal] at clear ⊢
    refine ⟨_, (bs.inodes off).startAt (eblock + 1), ?_,
      slid_shifted laid at_off room (le_of_lt down) ?_ clear, ?_,
      shifted_layout laid at_off room⟩
    · have size : (bs.inodes off).d_sblock - eblock - 1 = c.first - (eblock + 1) := by omega
      unfold compact_file
      rw [first] at gap
      rw [if_pos gap, size, shiftfile_eq laid at_off down]
    · intro low
      unfold Image.floor at low
      omega
    · obtain ⟨_, _, _, rfl⟩ := layout_eq_some.mp at_off
      rfl
  · have at_goal : goal c.first eblock = c.first := if_neg gap
    rw [at_goal]
    refine ⟨bs.toImage, bs.inodes off, ?_, Slid.refl laid, last.symm, ?_⟩
    · unfold compact_file
      rw [first] at gap
      rw [if_neg gap]
    · rw [← at_off, Function.update_eq_self]

/-- Below file `off` everything is packed, and `eblock` is the last block in use there. -/
structure Reached (im : Image) (off eblock : Nat) (c : Extent) : Prop where
  here : im.layout off = some c
  below : PackedBelow im.floor im.layout off
  start : im.bsup_start / BFS_BSIZE ≤ eblock
  above : eblock ≤ c.first
  rests : (eblock = im.bsup_start / BFS_BSIZE ∧ ∀ i e, im.layout i = some e → ¬ e.Before c) ∨
    ∃ j b, im.layout j = some b ∧ b.last = eblock ∧ eblock < c.first ∧
      ∀ i e, im.layout i = some e → e.Before c → e.last ≤ eblock

theorem Reached.clear (reached : Reached im off eblock c) :
    ∀ i e, im.layout i = some e → e.Before c → e.last < goal c.first eblock := by
  intro i e at_i before
  rcases reached.rests with ⟨_, nothing⟩ | ⟨j, b, at_j, ends, low, all⟩
  · exact absurd before (nothing i e at_i)
  · have := all i e at_i before
    unfold goal
    split <;> omega

theorem Reached.support (reached : Reached im off eblock c) : goal c.first eblock ≤ im.floor ∨
      ∃ j b, j ≠ off ∧ im.layout j = some b ∧ b.last + 1 = goal c.first eblock := by
  rcases reached.rests with ⟨bottom, _⟩ | ⟨j, b, at_j, ends, low, _⟩
  · refine .inl ?_
    unfold goal Image.floor
    split <;> omega
  · refine .inr ⟨j, b, ?_, at_j, ?_⟩
    · rintro rfl
      obtain rfl : c = b := some.inj (reached.here.symm.trans at_j)
      have := c.first_le_last
      omega
    · unfold goal
      split <;> omega

theorem compact_loop_spec : ∀ (fuel : Nat) (bs : Bsuper) (off eblock : Nat) (c : Extent),
    Laid bs.toImage → Reached bs.toImage off eblock c →
    (bs.bsup_end + 1) / BFS_BSIZE ≤ fuel + c.first →
    ∃ im, compact_loop fuel bs off eblock = some { bs with toImage := im } ∧
      Slid bs.toImage im ∧ Packed im.floor im.layout := by
  intro fuel
  induction fuel with
  | zero =>
    intro bs off eblock c laid reached enough
    have := laid.below_end reached.here
    have := c.first_le_last
    omega
  | succ fuel ih =>
    intro bs off eblock c laid reached enough
    obtain ⟨im, dir, file, slid, ends, layout⟩ :=
      compact_file_spec laid reached.here reached.above reached.start reached.clear
    have down : goal c.first eblock ≤ c.first := by
      have := reached.above
      unfold goal
      split <;> omega
    have high : eblock ≤ goal c.first eblock := by
      unfold goal
      split <;> omega
    have floor : im.floor = bs.toImage.floor := by
      unfold Image.floor
      rw [slid.start]
    have put_down : PackedTo im.floor im.layout off := by
      rw [layout, floor]
      exact packedTo_slide laid.apart reached.below reached.here down reached.clear reached.support
    have at_off : im.layout off = some ⟨goal c.first eblock, c.more⟩ := by
      rw [layout, Function.update_self]
    obtain ⟨bs', hbs⟩ : ∃ bs' : Bsuper, bs' = { bs with toImage := im } := ⟨_, rfl⟩
    have im_eq : bs'.toImage = im := by rw [hbs]
    have laid' : Laid bs'.toImage := by rw [im_eq]; exact slid.laid
    unfold compact_loop
    rw [file, ← hbs]
    simp only [bind_eq_bind, bind_some]
    cases next : bfs_getnxtcblock bs' dir.d_eblock with
    | none =>
      refine ⟨im, by rw [hbs]; rfl, slid, put_down.packed slid.laid.apart at_off ?_⟩
      have nothing := getnxtcblock_none laid' next
      rw [im_eq, ends] at nothing
      exact nothing
    | some off' =>
      obtain ⟨d, at_off', above, nearest⟩ := getnxtcblock_some next
      rw [ends] at above
      rw [im_eq, ends] at nearest
      rw [im_eq] at at_off'
      have next_reached : Reached bs'.toImage off' dir.d_eblock d := by
        rw [im_eq, ends]
        refine ⟨at_off', put_down.next slid.laid.apart at_off at_off' nearest, ?_,
          le_of_lt above, .inr ⟨off, _, at_off, rfl, above, ?_⟩⟩
        · have := reached.start
          rw [slid.start]
          omega
        · intro i e at_i before
          by_contra far
          rcases slid.laid.apart i off e _ (by
            rintro rfl
            rw [at_off] at at_i
            cases at_i
            exact far (le_refl _)) at_i at_off with lower | upper
          · have low : e.last < goal c.first eblock := lower
            omega
          · have := nearest i e at_i upper
            have := e.first_le_last
            unfold Extent.Before at before
            omega
      have far : goal c.first eblock + c.more < d.first := above
      have ne : off' ≠ off := by
        rintro rfl
        obtain rfl := some.inj (at_off.symm.trans at_off')
        exact absurd far (not_lt.mpr (le_add_right _ _))
      have at_old : bs.layout off' = some d := by
        rw [layout, Function.update_of_ne ne] at at_off'
        exact at_off'
      have order : c.last < d.first := by
        rcases laid.apart off off' c d ne.symm reached.here at_old with lower | upper
        · exact lower
        · have down := reached.clear off' d at_old upper
          have := d.first_le_last
          omega
      have enough' : (bs'.bsup_end + 1) / BFS_BSIZE ≤ fuel + d.first := by
        have stop : bs'.bsup_end = bs.bsup_end := by
          rw [show bs'.bsup_end = im.bsup_end from congrArg Image.bsup_end im_eq, slid.stop]
        have := c.first_le_last
        rw [stop]
        omega
      obtain ⟨im', run, slid', packed⟩ := ih bs' off' dir.d_eblock d laid' next_reached enough'
      refine ⟨im', ?_, ?_, packed⟩
      · show compact_loop fuel bs' off' dir.d_eblock = _
        rw [run, hbs]
      · rw [im_eq] at slid'
        exact slid.trans slid'

theorem compact_spec (laid : Laid bs.toImage) (at_i : bs.layout i = some e) : ∃ im, bfs_compact bs =
        some { bs with toImage := im, bsup_compacted := true, bsup_fslocked := false } ∧
      Slid bs.toImage im ∧ Packed im.floor im.layout := by
  have laid' : Laid (BFS_LOCK bs).toImage := laid
  have at_i' : (BFS_LOCK bs).layout i = some e := at_i
  obtain ⟨off, found⟩ := getnxtcblock_of_file laid' at_i'
  obtain ⟨c, at_off, _, nearest⟩ := getnxtcblock_some found
  have placed := laid'.placed_of_layout at_off
  have first := Laid.first_eq at_off
  have none_below : ∀ j d, (BFS_LOCK bs).layout j = some d → ¬ d.Before c := by
    intro j d at_j before
    have pos : 0 < d.first := by
      obtain ⟨_, _, full, rfl⟩ := layout_eq_some.mp at_j
      exact pos_of_ne_zero full
    have := nearest j d at_j pos
    have := d.first_le_last
    unfold Extent.Before at before
    omega
  have reached : Reached (BFS_LOCK bs).toImage off (bs.bsup_start / BFS_BSIZE) c := by
    refine ⟨at_off, ?_, le_refl _, ?_, .inl ⟨rfl, none_below⟩⟩
    · intro c' at_off' j d at_j before
      obtain rfl : c = c' := some.inj (at_off.symm.trans at_off')
      exact absurd before (none_below j d at_j)
    · have := placed.start
      rw [first]
      exact Nat.div_le_of_le_mul (by rw [Nat.mul_comm]; exact this)
  obtain ⟨im, run, slid, packed⟩ := compact_loop_spec _ (BFS_LOCK bs) off _ c laid' reached
    (le_add_right ((bs.bsup_end + 1) / BFS_BSIZE) c.first)
  refine ⟨im, ?_, slid, packed⟩
  unfold bfs_compact
  simp only [found, bind_eq_bind, bind_some]
  rw [show (BFS_LOCK bs).bsup_end = bs.bsup_end from rfl,
    show (BFS_LOCK bs).bsup_start = bs.bsup_start from rfl, run]
  rfl

end Bfs
