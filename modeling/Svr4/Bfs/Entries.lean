import Svr4.Bfs.Truncation

/- The operations on the directory: bfs_remove, bfs_rename, bfs_link and bfs_create. -/
namespace Bfs
open Function BlockExtents List Option Nat

/- Changes of the directory that leave the files where they are. -/

variable {bs : Bsuper} {im : Image} {k i : Nat} {ld : Ldirs} {names : List Ldirs}
  {free drents : Int} {last : Option Nat} {compacted : Bool} {dir : Dirent}

theorem Sums.with_names (sums : Sums im free drents last compacted)
    (linked : Linked { im with names := names }) :
    Sums { im with names := names } free drents last compacted :=
  { sums with laid := ⟨sums.laid.start, sums.laid.aligned, sums.laid.whole, fun k hk live full =>
        have := sums.laid.placed k hk live full
        { this with },
      sums.laid.empty, sums.laid.apart⟩, rooted := { sums.rooted with }, linked }

theorem Sums.relabel (sums : Sums im free drents last compacted) (inside : k < im.slots)
    {d : Dirent} (live : (im.inodes k).d_ino ≠ 0) (number : d.d_ino = (im.inodes k).d_ino)
    (sblock : d.d_sblock = (im.inodes k).d_sblock) (eblock : d.d_eblock = (im.inodes k).d_eblock)
    (placed : d.d_sblock ≠ 0 → Placed im d) (linked : Linked (im.put k d)) :
    Sums (im.put k d) free drents last compacted := by
  have same : extent d = im.layout k := by
    unfold Image.layout extent
    rw [if_pos inside, number, sblock, eblock]
  have layout : update im.layout k (extent d) = im.layout := by
    rw [same, update_eq_self]
  have live' : d.d_ino ≠ 0 := by rw [number]; exact live
  have laid : Laid (im.put k d) := by
    refine sums.laid.put inside (fun _ => placed) ?_ (by rw [layout]; exact sums.laid.apart)
    intro _ empty
    rw [eblock]
    exact sums.laid.empty k inside live (by rw [← sblock]; exact empty)
  have changed := sums.put last compacted inside laid ?_ linked (by rw [layout]; exact sums.last)
    (by rw [layout]; exact sums.packed)
  · rw [one_if_free_of_live live, one_if_free_of_live live', same] at changed
    simpa using changed
  · intro is_root
    rw [number, sblock, is_root]
    exact ⟨sums.rooted.live, sums.rooted.full⟩

theorem Linked.drop (linked : Linked im) (present : im.names[i]? = some ld) :
    Linked { im with names := im.names.set i { ld with l_ino := 0 } } := by
  constructor
  · intro other member pos
    rcases mem_or_eq_of_mem_set member with old | rfl
    · exact linked.named other old pos
    · exact absurd rfl pos
  · intro k inside live not_root
    have count := @count_set im.names i ld { ld with l_ino := 0 } present (k + BFSROOTINO)
    have pos : ¬ 0 = k + BFSROOTINO := succ_ne_zero _ ∘ Eq.symm
    simp only [if_neg pos] at count
    have bound := linked.counted k inside live not_root
    show (im.names.set i { ld with l_ino := 0 }).countP _ ≤ (im.inodes k).va_nlink
    omega

def Dirent.unlinked (d : Dirent) : Dirent :=
  { d with d_ino := if d.va_nlink = 1 then 0 else d.d_ino,
           va_nlink := if d.va_nlink = 0 then 2 ^ 32 - 1 else d.va_nlink - 1 }

theorem Linked.unlink (linked : Linked im) (inside : k < im.slots) (live : (im.inodes k).d_ino ≠ 0)
    (not_root : k ≠ root) (present : im.names[i]? = some ld) (number : ld.l_ino = k + BFSROOTINO) :
    0 < (im.inodes k).va_nlink ∧
      Linked ({ im with names := im.names.set i { ld with l_ino := 0 } }.put k
        (im.inodes k).unlinked) := by
  have dropped := linked.drop present
  have count := @count_set im.names i ld { ld with l_ino := 0 } present (k + BFSROOTINO)
  have pos : ¬ 0 = k + BFSROOTINO := succ_ne_zero _ ∘ Eq.symm
  simp only [number, if_true, if_neg pos] at count
  have bound := linked.counted k inside live not_root
  have links : 0 < (im.inodes k).va_nlink := by omega
  refine ⟨links, ?_, ?_⟩
  · intro other member nonzero
    obtain ⟨j, j_inside, j_number, j_live⟩ := dropped.named other member nonzero
    refine ⟨j, j_inside, j_number, ?_⟩
    by_cases same : j = k
    · subst same
      rw [put_inodes_self]
      by_cases last_link : (im.inodes j).va_nlink = 1
      · -- then no entry of it is left
        have some_left : 0 < (im.names.set i { ld with l_ino := 0 }).countP
            fun ld => ld.l_ino == j + BFSROOTINO :=
          countP_pos_iff.mpr ⟨other, member, by simp [j_number]⟩
        omega
      · show (if _ then _ else _) ≠ 0
        rw [if_neg last_link]
        exact live
    · rw [put_inodes_of_ne _ _ same]
      exact j_live
  · intro j j_inside j_live j_root
    by_cases same : j = k
    · subst same
      rw [put_inodes_self]
      show (im.names.set i { ld with l_ino := 0 }).countP _ ≤ if _ then _ else _
      rw [if_neg (by omega)]
      omega
    · rw [put_inodes_of_ne _ _ same] at j_live ⊢
      exact dropped.counted j j_inside j_live j_root

theorem remove_space_spec {old : Option Extent}
    (freed : (if dir.d_eblock ≠ 0 then (dir.d_eblock + 1 : Int) - dir.d_sblock else 0) = blocks old)
    (gap : Sums bs.toImage (bs.bsup_freeblocks + blocks old) (bs.bsup_freedrents + 1) (last_without
      bs.toImage bs.bsup_lastfile k) false)
    (end_ : bs.bsup_lastfile = some k → Sums bs.toImage (bs.bsup_freeblocks + blocks old)
      (bs.bsup_freedrents + 1) (last_without bs.toImage bs.bsup_lastfile k) bs.bsup_compacted)
    (unlocked : bs.bsup_fslocked = false) :
    ∃ bs', remove_space bs k dir = some bs' ∧ bs'.Sums ∧
      Kept { bs with bsup_ioinprog := bs.bsup_ioinprog - 1 } bs' := by
  unfold remove_space
  simp only [freed]
  by_cases was_last : bs.bsup_lastfile = some k
  · rw [if_pos was_last]
    refine ⟨_, rfl, ?_, ⟨rfl, rfl, rfl⟩⟩
    have sums := end_ was_last
    unfold last_without at sums
    rw [if_pos was_last] at sums
    exact sums
  rw [if_neg was_last]
  unfold last_without at gap
  rw [if_neg was_last] at gap
  by_cases big : BIGFILE < dir.d_eblock - dir.d_sblock
  · rw [if_pos big]
    have top := gap.last
    cases last : bs.bsup_lastfile with
    | none =>
      rw [last] at top
      have nothing := top root
      rw [layout_of_full gap.rooted.slot gap.rooted.live gap.rooted.full] at nothing
      cases nothing
    | some l =>
      rw [last] at gap
      simp only [BFS_IOEND, bind_eq_bind, bind_some]
      by_cases small : small_behind (bs.inodes l) dir.d_eblock = true
      · simp only [small, if_true]
        obtain ⟨im, run, _, after⟩ := @compact_sums { bs with
          bsup_freeblocks := bs.bsup_freeblocks + blocks old,
          bsup_freedrents := bs.bsup_freedrents + 1, bsup_lastfile := some l,
          bsup_compacted := false, bsup_ioinprog := bs.bsup_ioinprog - 1 } gap
        exact ⟨_, run, after, ⟨unlocked.symm, rfl, rfl⟩⟩
      · simp only [small]
        exact ⟨_, rfl, gap, ⟨rfl, rfl, rfl⟩⟩
  · rw [if_neg big]
    exact ⟨_, rfl, gap, ⟨rfl, rfl, rfl⟩⟩

theorem remove_spec (sums : bs.Sums) (quiet : Quiet bs) (nm : List Char) (deny : Option Errno) :
    ∃ r bs', bfs_remove bs nm deny = some (r, bs') ∧ bs'.Sums ∧ Kept bs bs' := by
  have unlocked := quiet.unlocked
  have free : ∀ k, bs.bsup_inomap k = false := fun k => by rw [quiet.free_inodes]
  unfold bfs_remove bfs_lookup
  simp only [bind_eq_bind, iaccess_eq _ unlocked, bind_some]
  by_cases denied : deny.isSome = true
  · rw [if_pos denied]
    exact ⟨_, _, rfl, sums, Kept.refl bs⟩
  rw [if_neg denied]
  by_cases itself : nm = [] ∨ nm = ['.', '.']
  · simp only [if_pos itself]
    exact ⟨_, _, rfl, sums, Kept.refl bs⟩
  simp only [if_neg itself, searchdir_eq nm unlocked (free root), bind_some]
  by_cases found : 0 < (search bs.names nm).1
  swap
  · simp only [if_neg found]
    exact ⟨_, _, rfl, sums, Kept.refl bs⟩
  obtain ⟨k, i, ld, number, place, present, entry, inside, live⟩ := sums.linked.of_search found
  have slot : (search bs.names nm).1 - BFSROOTINO = k := by
    rw [number]
    exact Nat.add_sub_cancel _ _
  simp only [if_pos found, slot]
  show ∃ r bs', (if k = root then _ else _) = some (r, bs') ∧ _
  by_cases is_root : k = root
  · rw [if_pos is_root]
    exact ⟨_, _, rfl, sums, Kept.refl bs⟩
  rw [if_neg is_root, enter_eq unlocked (free k)]
  have held_free : (bs.held k).bsup_inomap root = false := by
    show update bs.bsup_inomap k true root = false
    rw [update_of_ne (Ne.symm is_root)]
    exact free root
  have remove_entry := @rmdirent_eq (bs.held k) i nm unlocked held_free found ld place present
  obtain ⟨links, linked⟩ := sums.linked.unlink inside live is_root present entry
  have dropped := sums.linked.drop present
  rw [remove_entry]
  show ∃ r bs', (if 1 ≤ (bs.inodes k).unlinked.va_nlink then _ else _) = some (r, bs') ∧ _
  have names_sums := Sums.with_names sums dropped
  by_cases more : 1 ≤ (bs.inodes k).unlinked.va_nlink
  · rw [if_pos more]
    have not_last : (bs.inodes k).va_nlink ≠ 1 := by
      intro one
      have none_left : (bs.inodes k).unlinked.va_nlink = 0 := by
        show (if _ then _ else _) = 0
        rw [if_neg (by omega), one]
      omega
    have number_kept : (bs.inodes k).unlinked.d_ino = (bs.inodes k).d_ino := if_neg not_last
    refine ⟨_, _, rfl, ?_, leave_kept (free k) ⟨rfl, rfl, rfl⟩⟩
    refine Sums.relabel names_sums inside live number_kept rfl rfl ?_ linked
    intro full
    have placed := sums.laid.placed k inside live full
    exact { placed with }
  · rw [if_neg more]
    have one : (bs.inodes k).va_nlink = 1 := by
      have none_left : (bs.inodes k).unlinked.va_nlink = (bs.inodes k).va_nlink - 1 :=
        if_neg (by omega)
      omega
    have dead : (bs.inodes k).unlinked.d_ino = 0 := if_pos one
    have freed : (if (bs.inodes k).unlinked.d_eblock ≠ 0 then
        ((bs.inodes k).unlinked.d_eblock + 1 : Int) - (bs.inodes k).unlinked.d_sblock else 0) =
        blocks (bs.layout k) := by
      show (if (bs.inodes k).d_eblock ≠ 0 then ((bs.inodes k).d_eblock + 1 : Int) -
        (bs.inodes k).d_sblock else 0) = _
      by_cases full : (bs.inodes k).d_sblock = 0
      · have nothing : bs.layout k = none := by
          show (if k < bs.slots then extent _ else none) = none
          rw [if_pos inside, extent_of_free (.inr full)]
        rw [sums.laid.empty k inside live full, nothing]
        rfl
      · have order := (sums.laid.placed k inside live full).order
        rw [layout_of_full inside live full, if_pos (by omega)]
        simp only [blocks]
        omega
    obtain ⟨gone, hg⟩ : ∃ gone, gone = BFS_PUTINODE { bs.held k with toImage :=
        { bs.toImage with names := bs.names.set i { ld with l_ino := 0 } } } k
          (bs.inodes k).unlinked := ⟨_, rfl⟩
    have scan : last_without gone.toImage gone.bsup_lastfile k =
        last_without bs.toImage bs.bsup_lastfile k := by
      rw [hg]
      show (if bs.bsup_lastfile = some k then last_scan (update bs.inodes k _) _ _ _ _
        else bs.bsup_lastfile) = _
      rw [last_scan_update]
      rfl
    have lost : ∀ compacted, (compacted = true → bs.bsup_compacted = true ∧
        (bs.bsup_lastfile = some k ∨ bs.layout k = none)) →
        Sums gone.toImage (gone.bsup_freeblocks + blocks (bs.layout k)) (gone.bsup_freedrents + 1)
          (last_without gone.toImage gone.bsup_lastfile k) compacted := by
      intro compacted noted
      have lost := Sums.lose_blocks names_sums inside (d := (bs.inodes k).unlinked) (.inl dead)
        is_root linked noted
      rw [show one_if_free (bs.inodes k).unlinked = 1 from if_pos dead,
        show one_if_free _ = 0 from one_if_free_of_live live] at lost
      have one_more : bs.bsup_freedrents - (0 : Nat) + (1 : Nat) = bs.bsup_freedrents + 1 := by
        omega
      rw [one_more] at lost
      rw [scan, hg]
      exact lost
    obtain ⟨bs', run, sums', kept⟩ := @remove_space_spec gone k (bs.inodes k).unlinked (bs.layout k)
      freed (lost false (fun absurd => by cases absurd))
      (by
        intro was_last
        rw [hg] at was_last
        refine lost _ fun set => ⟨?_, .inl was_last⟩
        rw [hg] at set
        exact set)
      (by rw [hg]; exact unlocked)
    refine ⟨none, BFS_INOUNLOCK bs' k, ?_, sums', ?_⟩
    · rw [hg] at run
      exact congrArg (fun o : Option Bsuper => o.bind fun bs => some (none, BFS_INOUNLOCK bs k)) run
    · rw [hg] at kept
      refine { kept with inomap := ?_ }
      show update bs'.bsup_inomap k false = _
      rw [kept.inomap]
      exact locked_section (free k)

theorem Linked.rename (linked : Linked im) (present : im.names[i]? = some ld) (nm : List Char) :
    Linked { im with names := im.names.set i ⟨ld.l_ino, nm⟩ } := by
  constructor
  · intro other member pos
    rcases mem_or_eq_of_mem_set member with old | rfl
    · exact linked.named other old pos
    · exact linked.named ld (mem_of_getElem? present) pos
  · intro k inside live not_root
    have count := @count_set im.names i ld ⟨ld.l_ino, nm⟩ present (k + BFSROOTINO)
    have bound := linked.counted k inside live not_root
    rw [add_right_cancel count]
    exact bound

theorem rename_spec (sums : bs.Sums) (quiet : Quiet bs) (snm tnm : List Char)
    (denyw denyx : Option Errno) :
    ∃ r bs', bfs_rename bs snm tnm denyw denyx = some (r, bs') ∧ bs'.Sums ∧ Kept bs bs' := by
  have unlocked := quiet.unlocked
  have free : bs.bsup_inomap root = false := by rw [quiet.free_inodes]
  have renamed : ∀ bs' : Bsuper, bs'.Sums → Kept bs bs' →
      ∃ r bs'', bfs_rendirent bs' snm tnm = some (r, bs'') ∧ bs''.Sums ∧ Kept bs bs'' := by
    intro bs' sums' kept
    have quiet' := quiet.of_kept kept
    rcases rendirent_eq snm tnm quiet'.unlocked (by rw [quiet'.free_inodes]) with
      missing | ⟨i, found, place, run⟩
    · exact ⟨_, _, missing, sums', kept⟩
    · obtain ⟨j, ld, place', present, number, _⟩ := search_found found
      obtain rfl : i = j := some.inj (place.symm.trans place')
      refine ⟨_, _, run, ?_, { kept with }⟩
      rw [← number]
      exact Sums.with_names sums' (sums'.linked.rename present _)
  unfold bfs_rename bfs_lookup
  simp only [bind_eq_bind, iaccess_eq _ unlocked, bind_some]
  by_cases denied : denyw.isSome = true
  · rw [if_pos denied]
    exact ⟨_, _, rfl, sums, Kept.refl bs⟩
  rw [if_neg denied]
  by_cases dots : snm = ['.'] ∨ snm = ['.', '.']
  · rw [if_pos dots]
    exact ⟨_, _, rfl, sums, Kept.refl bs⟩
  rw [if_neg dots]
  -- the source is there: the target goes away first
  have target : ∃ r bs', ((bfs_searchdir bs tnm).bind fun x =>
      if x.1.isSome then (bfs_remove x.2 tnm none).bind fun y =>
        if y.1.isSome then some (y.1, y.2) else bfs_rendirent y.2 snm tnm
      else bfs_rendirent x.2 snm tnm) = some (r, bs') ∧ bs'.Sums ∧ Kept bs bs' := by
    rw [searchdir_eq tnm unlocked free, bind_some]
    by_cases found : 0 < (search bs.names tnm).1
    · rw [if_pos found]
      obtain ⟨r, bs', run, sums', kept⟩ := remove_spec sums quiet tnm none
      simp only [isSome_some, if_true, run, bind_some]
      by_cases failed : r.isSome = true
      · rw [if_pos failed]
        exact ⟨_, _, rfl, sums', kept⟩
      · rw [if_neg failed]
        exact renamed bs' sums' kept
    · rw [if_neg found]
      exact renamed bs sums (Kept.refl bs)
  cases denyx with
  | some e => exact ⟨_, _, rfl, sums, Kept.refl bs⟩
  | none =>
    by_cases itself : snm = [] ∨ snm = ['.', '.']
    · simp only [if_pos itself]
      exact target
    simp only [if_neg itself, searchdir_eq snm unlocked free, bind_some]
    by_cases found : 0 < (search bs.names snm).1
    · simp only [if_pos found]
      exact target
    · simp only [if_neg found]
      exact ⟨_, _, rfl, sums, Kept.refl bs⟩

theorem Linked.enter (linked : Linked im) (inside : k < im.slots) (live : (im.inodes k).d_ino ≠ 0)
    (one_more : OneMore im.names names (k + BFSROOTINO))
    (room : im.names.countP (fun ld => ld.l_ino == k + BFSROOTINO) + 1 ≤ (im.inodes k).va_nlink) :
    Linked { im with names := names } := by
  constructor
  · intro ld member pos
    rcases one_more.mem ld member with old | number
    · exact linked.named ld old pos
    · exact ⟨k, inside, number, live⟩
  · intro j j_inside j_live not_root
    have count := one_more.count (j + BFSROOTINO)
    show names.countP _ ≤ (im.inodes j).va_nlink
    by_cases same : j = k
    · subst same
      rw [if_pos rfl] at count
      omega
    · have other : j + BFSROOTINO ≠ k + BFSROOTINO := fun eq => same (add_right_cancel eq)
      rw [if_neg other] at count
      exact le_trans count (linked.counted j j_inside j_live not_root)

theorem Sums.enter {im : Image} (sums : Sums im free drents last compacted) {k : Nat}
    (inside : k < im.slots) (not_root : k ≠ root) (live : (im.inodes k).d_ino ≠ 0)
    (entered : Entered im dir names (k + BFSROOTINO))
    (room : im.names.countP (fun ld => ld.l_ino == k + BFSROOTINO) + 1 ≤ (im.inodes k).va_nlink) :
    Sums (im.entered dir names) free drents last compacted := by
  have rooted := sums.rooted
  have dir_live : dir.d_ino ≠ 0 := by rw [entered.number]; exact rooted.live
  have grown := Sums.relabel sums rooted.slot rooted.live entered.number entered.sblock
    entered.eblock (fun _ => entered.placed)
    (sums.linked.put dir_live fun _ => le_of_eq entered.nlink.symm)
  refine Sums.with_names grown (grown.linked.enter inside ?_ entered.one_more ?_)
  · rw [put_inodes_of_ne im dir not_root]
    exact live
  · rw [put_inodes_of_ne im dir not_root]
    exact room

theorem link_spec (sums : bs.Sums) (quiet : Quiet bs) {svp : Nat} (inside : svp < bs.slots)
    (not_root : svp ≠ root) (tnm : List Char)
    (live : ¬ 0 < (search bs.names tnm).1 → bs.room tnm → (bs.inodes svp).d_ino ≠ 0) :
    ∃ r bs', bfs_link bs svp tnm = some (r, bs') ∧ bs'.Sums ∧ Kept bs bs' := by
  have unlocked := quiet.unlocked
  have free : ∀ k, bs.bsup_inomap k = false := fun k => by rw [quiet.free_inodes]
  unfold bfs_link
  rcases addirent_spec sums.laid sums.rooted tnm (svp + BFSROOTINO) unlocked (free root) with
    ⟨_, run⟩ | ⟨_, _, run⟩ | ⟨missing, room, dir, names, entered, run⟩
  · rw [run]
    exact ⟨_, _, rfl, sums, Kept.refl bs⟩
  · rw [run]
    exact ⟨_, _, rfl, sums, Kept.refl bs⟩
  · have live := live missing room
    obtain ⟨after, ha⟩ : ∃ after : Bsuper, after =
        { bs with toImage := bs.toImage.entered dir names } := ⟨_, rfl⟩
    have after_free : after.bsup_inomap svp = false := by rw [ha]; exact free svp
    have after_unlocked : after.bsup_fslocked = false := by rw [ha]; exact unlocked
    have inode : after.inodes svp = bs.inodes svp := by
      rw [ha]
      exact put_inodes_of_ne bs.toImage dir not_root
    rw [run, ← ha]
    simp only [bind_eq_bind, bind_some, isSome_none, Bool.false_eq_true,
      if_false, enter_eq after_unlocked after_free]
    have kept : Kept bs after := by rw [ha]; exact ⟨rfl, rfl, rfl⟩
    refine ⟨_, _, rfl, ?_, kept.trans (leave_kept after_free ⟨rfl, rfl, rfl⟩)⟩
    -- the link is counted first, then entered
    obtain ⟨d, hd⟩ : ∃ d, d = { bs.inodes svp with va_nlink := (bs.inodes svp).va_nlink + 1 } :=
      ⟨_, rfl⟩
    have d_live : d.d_ino ≠ 0 := by rw [hd]; exact live
    have counted := Sums.relabel sums inside (d := d) live (by rw [hd]) (by rw [hd]) (by rw [hd])
      (by
        rw [hd]
        intro full
        have placed := sums.laid.placed svp inside live full
        exact { placed with })
      (sums.linked.put d_live fun _ => by rw [hd]; exact le_succ _)
    have root_same : (bs.toImage.put svp d).inodes root = bs.inodes root :=
      put_inodes_of_ne _ _ (Ne.symm not_root)
    have entered' : Entered (bs.toImage.put svp d) dir names (svp + BFSROOTINO) := by
      refine ⟨?_, ?_, ?_, ?_, ?_, entered.one_more⟩
      · rw [root_same]; exact entered.number
      · rw [root_same]; exact entered.sblock
      · rw [root_same]; exact entered.eblock
      · rw [root_same]; exact entered.nlink
      · exact ⟨entered.placed.start, entered.placed.bytes, entered.placed.eblock,
          entered.placed.stop⟩
    have linked := Sums.enter counted inside not_root
        (by rw [put_inodes_self]; exact d_live) entered'
      (by
        rw [put_inodes_self, hd]
        exact succ_le_succ (sums.linked.counted svp inside live not_root))
    have image : (bs.toImage.put svp d).entered dir names =
        (bs.toImage.entered dir names).put svp d := by
      unfold Image.entered Image.put
      simp only [update_comm (Ne.symm not_root)]
    rw [image, hd, ← inode] at linked
    rw [ha] at linked ⊢
    exact linked

/-- When bfs_create does its work: a file to be truncated can be, and a new name finds a place. -/
def CreateOk (bs : Bsuper) (fname : List Char) (vap : Creat) : Prop :=
  (0 < (search bs.names fname).1 → vap.excl = false → vap.mode = true → vap.deny = none →
    vap.trunc = true → (search bs.names fname).1 - BFSROOTINO ≠ root ∧
      TruncateOk bs ((search bs.names fname).1 - BFSROOTINO) 0) ∧
  (¬ 0 < (search bs.names fname).1 → 0 < bs.bsup_freedrents → vap.denyw = none → bs.room fname)

theorem create_existing_spec (sums : bs.Sums) (quiet : Quiet bs)
    (inside : k < bs.slots) (vap : Creat)
    (ok : vap.excl = false → vap.mode = true → vap.deny = none → vap.trunc = true →
      k ≠ root ∧ TruncateOk bs k 0) :
    ∃ r bs', create_existing bs k vap = some (r, bs') ∧ bs'.Sums ∧ Kept bs bs' := by
  have unlocked := quiet.unlocked
  have free : bs.bsup_inomap k = false := by rw [quiet.free_inodes]
  unfold create_existing
  simp only [bind_eq_bind, iaccess_eq _ unlocked, bind_some]
  by_cases excl : vap.excl = true
  · rw [if_pos excl]
    exact ⟨_, _, rfl, sums, Kept.refl bs⟩
  rw [if_neg excl]
  by_cases mode : vap.mode = true
  swap
  · rw [if_pos (by simpa using mode)]
    exact ⟨_, _, rfl, sums, Kept.refl bs⟩
  rw [if_neg (by simpa using mode)]
  by_cases denied : vap.deny.isSome = true
  · rw [if_pos denied]
    exact ⟨_, _, rfl, sums, Kept.refl bs⟩
  rw [if_neg denied]
  by_cases trunc : vap.trunc = true
  · rw [if_pos trunc]
    obtain ⟨not_root, allowed⟩ := ok (by simpa using excl) mode (by simpa using denied) trunc
    obtain ⟨r, bs', run, sums', kept⟩ := truncate_spec sums inside not_root free unlocked allowed
    rw [run]
    exact ⟨_, _, rfl, sums', kept⟩
  · rw [if_neg trunc]
    exact ⟨_, _, rfl, sums, Kept.refl bs⟩

theorem nextfile_free (sums : bs.Sums) (some_left : 0 < bs.bsup_freedrents) :
    ∃ k, (bfs_nextfile bs).1 = some k ∧ k < bs.slots ∧ (bs.inodes k).d_ino = 0 := by
  have count : bs.bsup_freedrents = bs.toImage.vacant := sums.drents
  have pos : 0 < bs.toImage.vacant := by omega
  obtain ⟨j, member⟩ := Finset.card_pos.mp pos
  rw [Finset.mem_filter, Finset.mem_range] at member
  cases found : (bfs_nextfile bs).1 with
  | none =>
    have none_free := List.find?_eq_none.mp found j (mem_range.mpr member.1)
    exact absurd member.2 (by simpa using none_free)
  | some k =>
    have inside := mem_range.mp (mem_of_find?_eq_some found)
    have dead := List.find?_some found
    exact ⟨k, rfl, inside, by simpa using dead⟩

theorem create_new_spec (sums : bs.Sums) (quiet : Quiet bs) (fname : List Char) (vap : Creat)
    (missing : ¬ 0 < (search bs.names fname).1)
    (ok : 0 < bs.bsup_freedrents → vap.denyw = none → bs.room fname) :
    ∃ r bs', create_new bs fname vap = some (r, bs') ∧ bs'.Sums ∧ Kept bs bs' := by
  have unlocked := quiet.unlocked
  have free : ∀ k, bs.bsup_inomap k = false := fun k => by rw [quiet.free_inodes]
  unfold create_new
  simp only [bind_eq_bind, iaccess_eq _ unlocked, bind_some]
  by_cases full : bs.bsup_freedrents ≤ 0
  · rw [if_pos full]
    exact ⟨_, _, rfl, sums, Kept.refl bs⟩
  rw [if_neg full]
  by_cases denied : vap.denyw.isSome = true
  · rw [if_pos denied]
    exact ⟨_, _, rfl, sums, Kept.refl bs⟩
  rw [if_neg denied]
  have room := ok (by omega) (by simpa using denied)
  obtain ⟨k, found, inside, dead⟩ := nextfile_free sums (by omega)
  have not_root : k ≠ root := by
    rintro rfl
    exact sums.rooted.live dead
  -- the new inode
  obtain ⟨d, hd⟩ : ∃ d : Dirent, d = ⟨k + BFSROOTINO, 0, 0, 0, 1⟩ := ⟨_, rfl⟩
  have d_live : d.d_ino ≠ 0 := by rw [hd]; exact succ_ne_zero _
  have d_empty : d.d_sblock = 0 ∧ d.d_eblock = 0 := by rw [hd]; exact ⟨rfl, rfl⟩
  have nothing : bs.layout k = none := by
    show (if k < bs.slots then extent _ else none) = none
    rw [if_pos inside, extent_of_free (.inl dead)]
  have made := Sums.lose_blocks sums inside (d := d) (.inr d_empty) not_root
    (sums.linked.put d_live fun live => absurd dead live)
    (fun set : bs.bsup_compacted = true => ⟨set, .inr nothing⟩)
  have last_same : last_without bs.toImage bs.bsup_lastfile k = bs.bsup_lastfile := by
    refine if_neg ?_
    intro was_last
    have top := sums.last
    rw [was_last] at top
    obtain ⟨e, at_k, _⟩ := top
    rw [nothing] at at_k
    cases at_k
  rw [last_same, nothing, one_if_free_of_live d_live,
    show one_if_free (bs.inodes k) = 1 from if_pos dead]
    at made
  have amount : bs.bsup_freeblocks + (blocks none : Nat) = bs.bsup_freeblocks := by
    simp [blocks]
  have one_less : bs.bsup_freedrents - (1 : Nat) + (0 : Nat) = bs.bsup_freedrents - 1 := by omega
  rw [amount, one_less] at made
  obtain ⟨mid, hm⟩ : ∃ mid : Bsuper, mid = { BFS_PUTINODE bs k d with
      bsup_inomap := update bs.bsup_inomap k true } := ⟨_, rfl⟩
  have mid_unlocked : mid.bsup_fslocked = false := by rw [hm]; exact unlocked
  have mid_free : mid.bsup_inomap root = false := by
    rw [hm]
    show update bs.bsup_inomap k true root = false
    rw [update_of_ne (Ne.symm not_root)]
    exact free root
  have mid_image : mid.toImage = bs.toImage.put k d := by rw [hm]; rfl
  have root_same : mid.inodes root = bs.inodes root := by
    rw [mid_image]
    exact put_inodes_of_ne _ _ (Ne.symm not_root)
  have names_same : mid.names = bs.names := by rw [hm]; rfl
  have open_ : CHECK_LOCK (BFS_IOBEGIN bs) = some (BFS_IOBEGIN bs) := by
    have same : (BFS_IOBEGIN bs).bsup_fslocked = false := unlocked
    rw [CHECK_LOCK, same]
    rfl
  have next : (bfs_nextfile (BFS_IOBEGIN bs)).1 = some k := found
  rw [open_]
  simp only [bind_some, next, lock_eq (free k)]
  have mid_eq : BFS_IOEND (BFS_PUTINODE (bs.held k) k ⟨k + BFSROOTINO, 0, 0, 0, 1⟩) = mid := by
    rw [hm, hd]
    rfl
  rw [mid_eq]
  rcases addirent_spec (by rw [mid_image]; exact made.laid) (by rw [mid_image]; exact made.rooted)
    fname (k + BFSROOTINO) mid_unlocked mid_free with
    ⟨there, _⟩ | ⟨_, no_room, _⟩ | ⟨_, _, dir, names, entered, run⟩
  · rw [names_same] at there
    exact absurd there missing
  · refine absurd ?_ no_room
    unfold Image.room
    rw [names_same, root_same]
    exact room
  · rw [run]
    refine ⟨_, _, rfl, ?_, ?_⟩
    · rw [mid_image] at entered
      have entry := Sums.enter made inside not_root (by rw [put_inodes_self]; exact d_live) entered
        (by
          rw [put_inodes_self, hd]
          exact succ_le_succ (le_of_eq (sums.linked.unnamed dead)))
      rw [← mid_image] at entry
      rw [hm] at entry ⊢
      exact entry
    · rw [hm]
      exact ⟨rfl, rfl, locked_section (free k)⟩

theorem create_spec (sums : bs.Sums) (quiet : Quiet bs) (fname : List Char) (vap : Creat)
    (ok : CreateOk bs fname vap) :
    ∃ r bs', bfs_create bs fname vap = some (r, bs') ∧ bs'.Sums ∧ Kept bs bs' := by
  unfold bfs_create
  rw [searchdir_eq fname quiet.unlocked (by rw [quiet.free_inodes])]
  simp only [bind_eq_bind, bind_some]
  by_cases found : 0 < (search bs.names fname).1
  · rw [if_pos found]
    obtain ⟨k, i, ld, number, _, _, _, inside, _⟩ := sums.linked.of_search found
    have slot : (search bs.names fname).1 - BFSROOTINO = k := by
      rw [number]
      exact Nat.add_sub_cancel _ _
    have allowed := ok.1 found
    rw [slot] at allowed ⊢
    split
    · exact ⟨_, _, rfl, sums, Kept.refl bs⟩
    · exact create_existing_spec sums quiet inside vap allowed
  · rw [if_neg found]
    split
    · exact ⟨_, _, rfl, sums, Kept.refl bs⟩
    · exact create_new_spec sums quiet fname vap found (ok.2 found)

end Bfs
