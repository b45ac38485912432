import Mathlib.Data.Int.Basic
import Svr4.Bfs.Calls
import Svr4.Bfs.Compaction

/- The summary the mounted file system keeps, and what it has to agree with. -/
namespace Bfs
open BlockExtents List

structure Rooted (im : Image) : Prop where
  slot : root < im.slots
  live : (im.inodes root).d_ino ≠ 0
  full : (im.inodes root).d_sblock ≠ 0

/-- Entries name inodes in use, and no file has more of them than its link count says. -/
structure Linked (im : Image) : Prop where
  named : ∀ ld ∈ im.names, ld.l_ino ≠ 0 →
    ∃ k < im.slots, ld.l_ino = k + BFSROOTINO ∧ (im.inodes k).d_ino ≠ 0
  counted : ∀ k < im.slots, (im.inodes k).d_ino ≠ 0 → k ≠ root →
    im.names.countP (fun ld => ld.l_ino == k + BFSROOTINO) ≤ (im.inodes k).va_nlink

def Image.total (im : Image) : Nat := (im.bsup_end + 1 - im.bsup_start) / BFS_BSIZE

def Image.in_use (im : Image) : Nat := used (Finset.range im.slots) im.layout

def Image.vacant (im : Image) : Nat :=
  ((Finset.range im.slots).filter fun k => (im.inodes k).d_ino = 0).card

/-- The four summary fields agree with the image. -/
structure Sums (im : Image) (free drents : Int) (last : Option Nat) (compacted : Bool) : Prop where
  laid : Laid im
  rooted : Rooted im
  linked : Linked im
  free : free = im.total - im.in_use
  drents : drents = im.vacant
  last : Top im.layout last
  packed : compacted = true → Packed im.floor im.layout

def Bsuper.Sums (bs : Bsuper) : Prop :=
  Bfs.Sums bs.toImage bs.bsup_freeblocks bs.bsup_freedrents bs.bsup_lastfile bs.bsup_compacted

structure Quiet (bs : Bsuper) : Prop where
  unlocked : bs.bsup_fslocked = false
  no_io : bs.bsup_ioinprog = 0
  free_inodes : bs.bsup_inomap = fun _ => false

/- The last file. -/

theorem last_scan_spec (inodes : Nat → Dirent) (skip : Option Nat) :
    ∀ (is : List Nat) (lastblock : Nat) (lastoff : Option Nat),
      (∀ l, lastoff = some l → (inodes l).d_eblock = lastblock) →
      (last_scan inodes skip is lastblock lastoff = lastoff ∧
        ∀ i ∈ is, some i ≠ skip → (inodes i).d_ino ≠ 0 → (inodes i).d_eblock ≤ lastblock) ∨
      ∃ l ∈ is, last_scan inodes skip is lastblock lastoff = some l ∧ some l ≠ skip ∧
        (inodes l).d_ino ≠ 0 ∧ lastblock < (inodes l).d_eblock ∧
        ∀ i ∈ is, some i ≠ skip → (inodes i).d_ino ≠ 0 →
          (inodes i).d_eblock ≤ (inodes l).d_eblock := by
  intro is
  induction is with
  | nil => intro lastblock lastoff _; exact .inl ⟨rfl, by simp⟩
  | cons i is ih =>
    intro lastblock lastoff at_last
    unfold last_scan
    by_cases better : some i ≠ skip ∧ lastblock < (inodes i).d_eblock ∧ (inodes i).d_ino ≠ 0
    · simp only [if_pos better]
      obtain ⟨other, above, live⟩ := better
      refine .inr ?_
      rcases ih (inodes i).d_eblock (some i) (fun l same => by cases same; rfl) with
        ⟨same, all⟩ | ⟨l, member, same, l_other, l_live, l_above, all⟩
      · refine ⟨i, mem_cons_self, same, other, live, above, ?_⟩
        intro j member
        rcases mem_cons.mp member with rfl | rest
        · intros; exact le_refl _
        · exact all j rest
      · refine ⟨l, mem_cons_of_mem _ member, same, l_other, l_live, by omega, ?_⟩
        intro j member
        rcases mem_cons.mp member with rfl | rest
        · intros; exact le_of_lt l_above
        · exact all j rest
    · simp only [if_neg better]
      rcases ih lastblock lastoff at_last with
        ⟨same, all⟩ | ⟨l, member, same, l_other, l_live, l_above, all⟩
      · refine .inl ⟨same, ?_⟩
        intro j member other live
        rcases mem_cons.mp member with rfl | rest
        · exact not_lt.mp fun above => better ⟨other, above, live⟩
        · exact all j rest other live
      · refine .inr ⟨l, mem_cons_of_mem _ member, same, l_other, l_live, l_above, ?_⟩
        intro j member other live
        rcases mem_cons.mp member with rfl | rest
        · have := not_lt.mp fun above => better ⟨other, above, live⟩
          omega
        · exact all j rest other live

theorem last_scan_update (inodes : Nat → Dirent) (k : Nat) (d : Dirent) :
    ∀ (is : List Nat) (lastblock : Nat) (lastoff : Option Nat),
      last_scan (Function.update inodes k d) (some k) is lastblock lastoff =
        last_scan inodes (some k) is lastblock lastoff := by
  intro is
  induction is with
  | nil => intros; rfl
  | cons i is ih =>
    intro lastblock lastoff
    unfold last_scan
    by_cases same : i = k
    · simp [same, ih]
    · simp only [Function.update_of_ne same, ih]

theorem last_scan_top {im : Image} (laid : Laid im) {skip : Option Nat}
    (skipped : ∀ k, skip = some k → im.layout k = none) :
    Top im.layout (last_scan im.inodes skip (List.range im.slots) 0 none) := by
  have full_pos : ∀ i e, im.layout i = some e → 0 < (im.inodes i).d_eblock ∧ some i ≠ skip := by
    intro i e at_i
    have order := (laid.placed_of_layout at_i).order
    obtain ⟨_, _, full, _⟩ := layout_eq_some.mp at_i
    refine ⟨by omega, ?_⟩
    intro same
    rw [skipped i same.symm] at at_i
    cases at_i
  rcases last_scan_spec im.inodes skip (List.range im.slots) 0 none (by simp) with
    ⟨same, all⟩ | ⟨l, member, same, other, live, above, all⟩
  · rw [same]
    intro i
    cases at_i : im.layout i with
    | none => rfl
    | some e =>
      obtain ⟨inside, live, _, _⟩ := layout_eq_some.mp at_i
      obtain ⟨pos, other⟩ := full_pos i e at_i
      have := all i (mem_range.mpr inside) other live
      omega
  · rw [same]
    have inside := mem_range.mp member
    have full : (im.inodes l).d_sblock ≠ 0 := by
      intro empty
      have := laid.empty l inside live empty
      omega
    have at_l := layout_of_full inside live full
    refine ⟨_, at_l, ?_⟩
    intro j b ne at_j
    obtain ⟨j_inside, j_live, _, _⟩ := layout_eq_some.mp at_j
    have most := all j (mem_range.mpr j_inside) (full_pos j b at_j).2 j_live
    rcases laid.apart j l b _ ne at_j at_l with before | after
    · exact before
    · have last_l := laid.last_eq at_l
      have last_j := laid.last_eq at_j
      have := b.first_le_last
      unfold Extent.Before at after
      omega

/- What the image determines. -/

theorem Slid.total {im im' : Image} (slid : Slid im im') : im'.total = im.total := by
  unfold Image.total
  rw [slid.start, slid.stop]

theorem Slid.in_use {im im' : Image} (slid : Slid im im') : im'.in_use = im.in_use := by
  unfold Image.in_use
  rw [slid.slots]
  exact slid.rearranged.used _

theorem Slid.vacant {im im' : Image} (slid : Slid im im') : im'.vacant = im.vacant := by
  unfold Image.vacant
  rw [slid.slots]
  simp only [slid.number]

theorem Slid.sblock_ne {im im' : Image} (slid : Slid im im') {k : Nat} (inside : k < im.slots)
    (live : (im.inodes k).d_ino ≠ 0) :
    (im'.inodes k).d_sblock ≠ 0 ↔ (im.inodes k).d_sblock ≠ 0 := by
  constructor
  · intro full
    have live' : (im'.inodes k).d_ino ≠ 0 := by rw [slid.number]; exact live
    obtain ⟨a, at_k, _⟩ := slid.rearranged.preimage
      (layout_of_full (by rw [slid.slots]; exact inside) live' full)
    exact (layout_eq_some.mp at_k).2.2.1
  · intro full
    obtain ⟨a, at_k, _⟩ := slid.rearranged.image (layout_of_full inside live full)
    exact (layout_eq_some.mp at_k).2.2.1

theorem Slid.rooted {im im' : Image} (slid : Slid im im') (rooted : Rooted im) : Rooted im' where
  slot := by rw [slid.slots]; exact rooted.slot
  live := by rw [slid.number]; exact rooted.live
  full := (slid.sblock_ne rooted.slot rooted.live).mpr rooted.full

theorem Slid.linked {im im' : Image} (slid : Slid im im') (linked : Linked im) : Linked im' := by
  constructor
  · rw [slid.names, slid.slots]
    simp only [slid.number]
    exact linked.named
  · rw [slid.names, slid.slots]
    simp only [slid.number, slid.nlink]
    exact linked.counted

theorem Sums.compact {im im' : Image} {free drents : Int} {last : Option Nat} {compacted : Bool}
    (sums : Sums im free drents last compacted) (slid : Slid im im')
    (packed : Packed im'.floor im'.layout) : Sums im' free drents last true where
  laid := slid.laid
  rooted := slid.rooted sums.rooted
  linked := slid.linked sums.linked
  free := by rw [slid.total, slid.in_use]; exact sums.free
  drents := by rw [slid.vacant]; exact sums.drents
  last := slid.rearranged.top sums.last
  packed := fun _ => packed

theorem compact_sums {bs : Bsuper} (sums : bs.Sums) : ∃ im, bfs_compact bs =
        some { bs with toImage := im, bsup_compacted := true, bsup_fslocked := false } ∧
      Slid bs.toImage im ∧
      Sums im bs.bsup_freeblocks bs.bsup_freedrents bs.bsup_lastfile true := by
  have rooted := sums.rooted
  obtain ⟨im, run, slid, packed⟩ :=
    compact_spec sums.laid (layout_of_full rooted.slot rooted.live rooted.full)
  exact ⟨im, run, slid, sums.compact slid packed⟩

end Bfs
