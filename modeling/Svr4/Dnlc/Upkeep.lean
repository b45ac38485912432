import Svr4.Dnlc.References

/- Every step keeps the lists, the hands and the counts. -/
namespace Dnlc
open Function Rings List

variable {s t u : State} {p q i k ncp hash : Nat} {dp vp : Vnode} {name : List Nat} {cred : Wanted}
  {lru : List Nat} {chain : Nat → List Nat} {due : Due} {pc pc' : Pc} {l : Label} {w : Sweep}

structure Counted (s : State) : Prop where
  vnodes : ∀ v, s.v_count v =
    s.outside v + ∑ i ∈ Finset.range s.ncsize, (s.due i).left (s.ncache i) v
  creds : ∀ c, s.cr_ref c =
    s.outsideCred c + ∑ i ∈ Finset.range s.ncsize, one ((s.ncache i).cred = some c)

structure Sound (s : State) : Prop where
  lists : ∃ lru chain, Lists s lru chain
  hands : Hands s
  counted : Counted s

section
variable (lists : Lists s lru chain)
include lists

theorem Lists.oldest (head : (s.lru.next .nc_lru).index = some ncp) : s.Listed ncp := by
  rw [lists.lru_ring.next_header] at head
  cases lru with
  | nil => cases head
  | cons i lru =>
    obtain rfl : i = ncp := Option.some.inj head
    exact (lists.on_lru i).mp (by simp)

theorem Lists.found (found : dnlc_search s dp name hash cred = some i) :
    i ∈ chain hash ∧ s.Listed i ∧ (s.ncache i).matching dp name cred = true := by
  rw [lists.search_eq] at found
  have mem := mem_of_find?_eq_some found
  have test := find?_some (p := fun i => (s.ncache i).matching dp name cred) found
  exact ⟨mem, ((lists.on_chain hash i).mp mem).1, test⟩

theorem Lists.listed_on_chain (listed : s.Listed i) (dir : (s.ncache i).dp = some dp) :
    i ∈ chain (NC_HASH (s.ncache i).component dp) :=
  (lists.on_chain _ i).mpr ⟨listed, dp, dir, rfl⟩

theorem Lists.not_found (hands : Hands s) (nonempty : name ≠ [])
    (missing : dnlc_search s dp name (NC_HASH name dp) cred = none) (listed : s.Listed i)
    (dir : (s.ncache i).dp = some dp) (named : (s.ncache i).component = name) :
    cred.admits (s.ncache i).cred = false := by
  rw [lists.search_eq, find?_eq_none] at missing
  have mem := lists.listed_on_chain listed dir
  rw [named] at mem
  have filled := (hands.listed i listed).resolve_left fun free => by
    rw [free.1] at dir
    cases dir
  have no := missing i mem
  rw [filled.matching_iff nonempty] at no
  cases admitted : cred.admits (s.ncache i).cred with
  | false => rfl
  | true => exact absurd ⟨dir, named, admitted⟩ no

end

theorem Hands.filled (hands : Hands s) (listed : s.Listed i)
    (used : (s.ncache i).dp ≠ none ∨ (s.ncache i).vp ≠ none) : (s.ncache i).Filled := by
  refine (hands.listed i listed).resolve_left fun free => ?_
  rcases used with used | used
  · exact used free.1
  · exact used free.2.1

theorem Lists.victim_some (lists : Lists s lru chain) (hands : Hands s)
    (found : victim s w = some i) : s.Listed i ∧ (s.ncache i).Filled ∧
      ∀ dp vp, (s.ncache i).dp = some dp → (s.ncache i).vp = some vp →
        w.selects s dp (s.ncache i).component vp = true := by
  have on_lru : ∀ test, first s test = some i → s.Listed i ∧ test i = true := by
    intro test found
    rw [lists.first_eq] at found
    exact ⟨(lists.on_lru i).mp (mem_of_find?_eq_some found), find?_some found⟩
  cases w with
  | dnlc_remove d n =>
    obtain ⟨-, listed, test⟩ := lists.found found
    have filled := hands.filled listed (.inl ?_)
    · rw [filled.matching_iff n.nonempty] at test
      refine ⟨listed, filled, fun dp vp dir _ => ?_⟩
      rw [test.1] at dir
      cases dir
      simp [Sweep.selects, test.2.1]
    · intro free
      simp [Ncache.matching, free] at test
  | dnlc_purge =>
    obtain ⟨h, -, head⟩ := exists_of_findSome?_eq_some found
    rw [(lists.chains.ring h).next_header] at head
    cases shape : chain h with
    | nil => simp [shape, Cell.index] at head
    | cons j rest =>
      rw [shape] at head
      obtain rfl : j = i := Option.some.inj head
      obtain ⟨listed, dp, dir, -⟩ := (lists.on_chain h j).mp (by simp [shape])
      exact ⟨listed, hands.filled listed (.inl (by simp [dir])), fun _ _ _ _ => rfl⟩
  | dnlc_purge_vp v =>
    obtain ⟨listed, test⟩ := on_lru _ found
    simp only [Bool.or_eq_true, beq_iff_eq] at test
    refine ⟨listed, hands.filled listed ?_, fun dp vp dir file => ?_⟩
    · rcases test with test | test
      · exact .inl (by simp [test])
      · exact .inr (by simp [test])
    · simp only [Sweep.selects, Bool.or_eq_true, beq_iff_eq]
      rw [dir, file] at test
      simpa using test
  | dnlc_purge_vfsp v count =>
    obtain ⟨listed, test⟩ := on_lru _ found
    simp only [Bool.or_eq_true] at test
    refine ⟨listed, hands.filled listed ?_, fun dp vp dir file => ?_⟩
    · rcases test with test | test
      · left
        intro free
        simp [free] at test
      · right
        intro free
        simp [free] at test
    · simp only [Sweep.selects, Bool.or_eq_true]
      rw [dir, file] at test
      simpa using test
  | dnlc_purge1 =>
    obtain ⟨listed, test⟩ := on_lru _ found
    refine ⟨listed, hands.filled listed (.inl ?_), fun _ _ _ _ => rfl⟩
    intro free
    simp [free] at test

theorem Lists.victim_none (lists : Lists s lru chain) (hands : Hands s)
    (none_left : victim s w = none) (listed : s.Listed i) (dir : (s.ncache i).dp = some dp)
    (file : (s.ncache i).vp = some vp) : w.selects s dp (s.ncache i).component vp = false := by
  have on_lru : ∀ test, first s test = none → test i = false := by
    intro test nothing
    rw [lists.first_eq, find?_eq_none] at nothing
    simpa using nothing i ((lists.on_lru i).mpr listed)
  cases w with
  | dnlc_remove d n =>
    rw [Bool.eq_false_iff]
    intro selected
    simp only [Sweep.selects, Bool.and_eq_true, beq_iff_eq] at selected
    obtain ⟨rfl, named⟩ := selected
    have := lists.not_found hands n.nonempty none_left listed dir named
    cases this
  | dnlc_purge =>
    have mem := lists.listed_on_chain listed dir
    obtain ⟨h, hh⟩ : ∃ h, h = NC_HASH (s.ncache i).component dp := ⟨_, rfl⟩
    rw [← hh] at mem
    have small : h < NC_HASH_SIZE := hh ▸ hash_lt
    have empty := findSome?_eq_none_iff.mp none_left h (mem_range.mpr small)
    rw [(lists.chains.ring h).next_header] at empty
    cases shape : chain h with
    | nil => simp [shape] at mem
    | cons j rest => simp [shape, Cell.index] at empty
  | dnlc_purge_vp v | dnlc_purge_vfsp v count =>
    have := on_lru _ none_left
    rw [dir, file] at this
    simpa [Sweep.selects] using this
  | dnlc_purge1 =>
    have := on_lru _ none_left
    rw [dir] at this
    cases this

theorem sum_one {f g : Nat → Nat} {n : Nat} (below : k < n) (others : ∀ i, i ≠ k → f i = g i) :
    ∑ i ∈ Finset.range n, f i + g k = ∑ i ∈ Finset.range n, g i + f k := by
  have mem := Finset.mem_range.mpr below
  rw [← Finset.sum_erase_add _ f mem, ← Finset.sum_erase_add _ g mem]
  have same : ∑ i ∈ (Finset.range n).erase k, f i = ∑ i ∈ (Finset.range n).erase k, g i :=
    Finset.sum_congr rfl fun i hi => others i (Finset.ne_of_mem_erase hi)
  omega

theorem Counted.change (counted : Counted s) (size : t.ncsize = s.ncsize) (below : ncp < s.ncsize)
    (others : ∀ i, i ≠ ncp → t.held i = s.held i ∧ t.ncache i = s.ncache i)
    (outside : t.outside = s.outside ∧ t.outsideCred = s.outsideCred)
    (vnodes : ∀ v, t.v_count v + (s.due ncp).left (s.ncache ncp) v =
      s.v_count v + (t.due ncp).left (t.ncache ncp) v)
    (creds : ∀ c, t.cr_ref c + one ((s.ncache ncp).cred = some c) =
      s.cr_ref c + one ((t.ncache ncp).cred = some c)) : Counted t := by
  have same : ∀ i, i ≠ ncp → t.due i = s.due i := by
    intro i other
    unfold State.due
    rw [(others i other).1]
  constructor
  · intro v
    have sums := sum_one (f := fun i => (t.due i).left (t.ncache i) v)
      (g := fun i => (s.due i).left (s.ncache i) v) below fun i other => by
        rw [same i other, (others i other).2]
    have before := counted.vnodes v
    have changed := vnodes v
    rw [size, outside.1]
    omega
  · intro c
    have sums := sum_one (f := fun i => one ((t.ncache i).cred = some c))
      (g := fun i => one ((s.ncache i).cred = some c)) below fun i other => by
        rw [(others i other).2]
    have before := counted.creds c
    have changed := creds c
    rw [size, outside.2]
    omega

theorem ready_hand (ready : s.ready p = true) : s.pc p = .user := by
  unfold State.ready Pc.idle at ready
  split at ready
  · assumption
  · cases ready

theorem Sound.take (sound : Sound s) (listed : s.Listed ncp) (idle : (s.pc p).hand = none)
    (hand : pc.hand = some (ncp, .both)) (carries : pc.Carries (s.ncache ncp))
    (made : ∃ cpu overtaken,
      t = { s.take p ncp with pc := update s.pc p pc, cpu := cpu, overtaken := overtaken }) :
    Sound t := by
  obtain ⟨cpu, overtaken, rfl⟩ := made
  obtain ⟨lru, chain, lists⟩ := sound.lists
  obtain ⟨lru', chain', lists'⟩ := lists.take (p := p) listed
  refine ⟨⟨lru', chain', lists'.frame rfl ⟨rfl, rfl⟩ (fun i => Iff.rfl) fun i _ => rfl⟩, ?_, ?_⟩
  · exact sound.hands.change (h := some (p, .both)) rfl listed.1 (.inl ⟨listed.2, idle⟩)
      (.inr ⟨.both, rfl, hand⟩) rfl rfl (fun i _ => rfl) nofun (fun _ => carries)
      (sound.hands.buffer ncp)
  · refine sound.counted.change rfl listed.1 ?_ ⟨rfl, rfl⟩ ?_ fun c => rfl
    · intro i other
      exact ⟨update_of_ne other _ _, rfl⟩
    · intro v
      have before : s.due ncp = .both := by simp [State.due, listed.2]
      rw [before]
      simp [State.due, State.take]

theorem Sound.drop {v : Option Vnode} {n : Ncache} (sound : Sound s)
    (drops : Drops ncp (s.ncache ncp) (s.pc p) pc due n v)
    (released : unless_null VN_RELE
      { s.owes p pc ncp due with ncache := update s.ncache ncp n } v = some t) : Sound t := by
  obtain ⟨count, cpu, rfl, counts⟩ := released_spec released
  obtain ⟨was, hand, hand', carries, buffer, cred, left⟩ : ∃ was, (s.pc p).hand = some (ncp, was) ∧
      pc.hand = some (ncp, due) ∧ ((s.pc p).Carries (s.ncache ncp) → pc.Carries n) ∧
      n.name = (s.ncache ncp).name ∧ n.cred = (s.ncache ncp).cred ∧
      ∀ w, was.left (s.ncache ncp) w = due.left n w + one (v = some w) := by
    generalize s.pc p = old at drops
    cases drops with
    | enter_dp e => exact ⟨_, rfl, rfl, id, rfl, rfl, fun w => add_comm _ _⟩
    | enter_vp e => exact ⟨_, rfl, rfl, id, rfl, rfl, fun w => (zero_add _).symm⟩
    | rm_dp k c dp dir =>
      exact ⟨_, rfl, rfl, id, rfl, rfl, fun w => by rw [← dir]; exact add_comm _ _⟩
    | rm_vp k c vp file =>
      refine ⟨_, rfl, rfl, fun _ => rfl, rfl, rfl, fun w => ?_⟩
      rw [← file]
      exact (zero_add _).symm
  have held : s.held ncp = some (p, was) := (sound.hands.hand ncp p was).mpr hand
  have below : ncp < s.ncsize := sound.hands.below ncp (by simp [held])
  have carried := sound.hands.carried p ncp was hand
  obtain ⟨lru, chain, lists⟩ := sound.lists
  refine ⟨⟨lru, chain, lists.frame rfl ⟨rfl, rfl⟩ ?_ ?_⟩, ?_, ?_⟩
  · intro i
    show update s.held ncp _ i = none ↔ _
    by_cases here : i = ncp
    · subst here
      simp [held]
    · rw [update_of_ne here]
  · intro i listed
    refine update_of_ne ?_ _ _
    rintro rfl
    simp [listed.2] at held
  · refine sound.hands.change (h := some (p, due)) rfl below (.inr ⟨was, held, hand⟩)
      (.inr ⟨due, rfl, hand'⟩) rfl rfl (fun i other => update_of_ne other _ _) nofun ?_ ?_
    · intro _
      simpa using carries carried
    · simpa [buffer] using sound.hands.buffer ncp
  · refine sound.counted.change rfl below ?_ ⟨rfl, rfl⟩ ?_ ?_
    · intro i other
      exact ⟨update_of_ne other _ _, update_of_ne other _ _⟩
    · intro w
      have before : s.due ncp = was := by simp [State.due, held]
      have now := counts w
      change _ = s.v_count w at now
      rw [before, left w]
      simp only [State.due, State.owes, update_self, Option.elim_some]
      omega
    · intro c
      simp [State.owes, State.goes, cred]

section
variable {e : Entering} {n : Ncache}

theorem entry_buffer (short : e.name.bytes.length ≤ NC_NAMLEN)
    (buffer : n.name.length = NC_NAMLEN) :
    (e.entry n).name.length = NC_NAMLEN := by
  show (e.name.bytes ++ n.name.drop e.name.bytes.length).length = NC_NAMLEN
  rw [length_append, length_drop, buffer]
  omega

@[simp] theorem entry_component : (e.entry n).component = e.name.bytes := by
  exact take_left

theorem entry_filled (short : e.name.bytes.length ≤ NC_NAMLEN)
    (buffer : n.name.length = NC_NAMLEN) :
    (e.entry n).Filled := by
  refine ⟨rfl, rfl, ?_⟩
  rw [entry_buffer short buffer]
  exact short

end

theorem Sound.fill {e : Entering} (sound : Sound s) (at_pc : s.pc p = .enter e ncp .nothing)
    (filled : fill s p e ncp = some t) : Sound t := by
  obtain ⟨count, ref, rfl, counts, refs⟩ := fill_spec filled
  have hand : (s.pc p).hand = some (ncp, .nothing) := by rw [at_pc]; rfl
  have held : s.held ncp = some (p, .nothing) := (sound.hands.hand ncp p .nothing).mpr hand
  have below : ncp < s.ncsize := sound.hands.below ncp (by simp [held])
  have carried := sound.hands.carried p ncp .nothing hand
  rw [at_pc] at carried
  have buffer := sound.hands.buffer ncp
  obtain ⟨lru, chain, lists⟩ := sound.lists
  refine ⟨?_, ?_, ?_⟩
  · refine lists.enlist below (by simp [held]) rfl rfl rfl rfl
      (fun i other => update_of_ne other _ _) (show _ = some e.dp from ?_) ?_
    · simp [Entering.entry]
    · simp
  · refine sound.hands.change (h := none) rfl below (.inr ⟨.nothing, held, hand⟩) (.inl ⟨rfl, rfl⟩)
      rfl rfl (fun i other => update_of_ne other _ _) ?_ (fun no => absurd rfl no) ?_
    · intro _
      right
      simpa using entry_filled carried.2 buffer
    · simpa using entry_buffer carried.2 buffer
  · refine sound.counted.change rfl below ?_ ⟨rfl, rfl⟩ ?_ ?_
    · intro i other
      exact ⟨update_of_ne other _ _, update_of_ne other _ _⟩
    · intro v
      have before : s.due ncp = .nothing := by simp [State.due, held]
      rw [before]
      show count v + 0 = _
      rw [counts v]
      simp [State.due, Due.left, Entering.entry, one, add_assoc]
    · intro c
      rw [refs c]
      simp [Entering.entry]

theorem Sound.put_back {c : Nat} (sound : Sound s) (at_pc : s.pc p = .rm w c ncp .nothing)
    (back : put_back s p w c ncp = some t) : Sound t := by
  obtain ⟨ref, pc, cpu, rfl, refs, next⟩ := put_back_spec back
  have hand : (s.pc p).hand = some (ncp, .nothing) := by rw [at_pc]; rfl
  have held : s.held ncp = some (p, .nothing) := (sound.hands.hand ncp p .nothing).mpr hand
  have below : ncp < s.ncsize := sound.hands.below ncp (by simp [held])
  have carried : (s.ncache ncp).dp = none := by
    have := sound.hands.carried p ncp .nothing hand
    rwa [at_pc] at this
  have idle : pc.hand = none := by
    rcases next with rfl | rfl
    all_goals rfl
  obtain ⟨lru, chain, lists⟩ := sound.lists
  refine ⟨?_, ?_, ?_⟩
  · refine lists.relist below (by simp [held]) rfl rfl rfl rfl
      (fun i other => update_of_ne other _ _) ?_
    simpa using carried
  · refine sound.hands.change (h := none) rfl below (.inr ⟨.nothing, held, hand⟩)
      (.inl ⟨rfl, idle⟩) rfl rfl (fun i other => update_of_ne other _ _) ?_
      (fun no => absurd rfl no) ?_
    · intro _
      left
      simpa [Ncache.Free] using carried
    · simpa using sound.hands.buffer ncp
  · refine sound.counted.change rfl below ?_ ⟨rfl, rfl⟩ ?_ ?_
    · intro i other
      exact ⟨update_of_ne other _ _, update_of_ne other _ _⟩
    · intro v
      have before : s.due ncp = .nothing := by simp [State.due, held]
      rw [before]
      simp [State.due, Due.left, carried]
    · intro c
      rw [refs c]
      simp [one]

theorem Sound.kept (sound : Sound s) (moves : Moves s l t) : Sound t := by
  obtain ⟨lru, chain, lists⟩ := sound.lists
  have hands := sound.hands
  have counted := sound.counted
  cases moves with
  | nothing => exact sound
  | enter p e ncp ready short oldest =>
    have listed := lists.oldest oldest
    refine sound.take listed ?_ (show (Pc.enter e ncp .both).hand = _ from rfl)
      ⟨hands.listed ncp listed, short⟩ ⟨_, _, rfl⟩
    rw [ready_hand ready]
    rfl
  | hit p dp name cred ncp ready found =>
    exact ⟨lists.hit (lists.found found).1,
      { hands with },
      { counted with }⟩
  | sweep p k ready =>
    have idle : (s.pc p).hand = none := by
      rw [ready_hand ready]
      rfl
    exact ⟨⟨lru, chain, { lists with }⟩,
      hands.turn rfl idle rfl rfl rfl rfl, { counted with }⟩
  | swept p k c at_pc nothing_left =>
    have idle : (s.pc p).hand = none := by
      rw [at_pc]
      rfl
    exact ⟨⟨lru, chain, { lists with }⟩,
      hands.turn rfl idle (show Pc.user.hand = none from rfl) rfl rfl rfl,
      { counted with }⟩
  | take p k c ncp at_pc found =>
    obtain ⟨listed, filled, -⟩ := lists.victim_some hands found
    refine sound.take listed ?_ (show (Pc.rm k c ncp .both).hand = _ from rfl) filled
      ⟨some p, s.overtaken, rfl⟩
    rw [at_pc]
    rfl
  | drop p ncp pc due n v t drops released => exact sound.drop drops released
  | fill p e ncp t at_pc filled => exact sound.fill at_pc filled
  | put_back p k c ncp t at_pc back => exact sound.put_back at_pc back
  | hold vp =>
    refine ⟨⟨lru, chain, { lists with }⟩,
      { hands with }, ?_, counted.creds⟩
    intro v
    have before := counted.vnodes v
    show plus s.v_count vp v = plus s.outside vp v + _
    rw [plus_apply, plus_apply, before]
    exact add_right_comm _ _ _
  | rele vp u mine released =>
    obtain ⟨count, cpu, rfl, counts⟩ := released_spec (v := some vp) released
    refine ⟨⟨lru, chain, { lists with }⟩,
      { hands with }, ?_, counted.creds⟩
    intro v
    have before := counted.vnodes v
    have now := counts v
    have mine_now := minus_apply mine v
    show count v = update s.outside vp (s.outside vp - 1) v +
      ∑ i ∈ Finset.range s.ncsize, (s.due i).left (s.ncache i) v
    omega
  | crhold cr =>
    refine ⟨⟨lru, chain, { lists with }⟩,
      { hands with }, counted.vnodes, ?_⟩
    intro c
    have before := counted.creds c
    show plus s.cr_ref cr c = plus s.outsideCred cr c + _
    rw [plus_apply, plus_apply, before]
    exact add_right_comm _ _ _
  | crfree cr u mine released =>
    obtain ⟨ref, rfl, refs⟩ := freed_spec
      (show unless_null crfree s (some cr) = some u from released)
    refine ⟨⟨lru, chain, { lists with }⟩,
      { hands with }, counted.vnodes, ?_⟩
    intro c
    have before := counted.creds c
    have now := refs c
    have mine_now := minus_apply mine c
    show ref c = update s.outsideCred cr (s.outsideCred cr - 1) c +
      ∑ i ∈ Finset.range s.ncsize, one ((s.ncache i).cred = some c)
    omega
  | assign vp vfsp unused =>
    exact ⟨⟨lru, chain, { lists with }⟩,
      { hands with },
      { counted with }⟩

end Dnlc
