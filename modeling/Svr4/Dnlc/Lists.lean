import Svr4.Dnlc.Cache

/- The LRU list and the hash chains of the name cache. -/
namespace Dnlc
open Function Rings List

variable {s t : State} {lru xs : List Nat} {chain : Nat → List Nat} {i p ncp hash : Nat}
  {n : Ncache} {dp vp : Vnode} {name : List Nat} {cred : Wanted}

def State.Listed (s : State) (i : Nat) : Prop := i < s.ncsize ∧ s.held i = none

/-- These are the entries on the LRU list, and those on each hash chain. -/
structure Lists (s : State) (lru : List Nat) (chain : Nat → List Nat) : Prop where
  lru_ring : Ring s.lru .nc_lru (lru.map .ncache)
  chains : Family s.hash .nc_hash fun h => (chain h).map .ncache
  on_lru : ∀ i, i ∈ lru ↔ s.Listed i
  on_chain : ∀ h i, i ∈ chain h ↔ s.Listed i ∧
    ∃ dp, (s.ncache i).dp = some dp ∧ NC_HASH (s.ncache i).component dp = h
  free : ∀ i, s.Listed i → (s.ncache i).dp = none → Alone s.hash (.ncache i)

def Ncache.Free (n : Ncache) : Prop := n.dp = none ∧ n.vp = none ∧ n.cred = none

def Ncache.Filled (n : Ncache) : Prop :=
  n.dp.isSome ∧ n.vp.isSome ∧ n.namlen ≤ n.name.length

theorem nodup_of_map (nodup : (xs.map Cell.ncache).Nodup) : xs.Nodup := List.Nodup.of_map _ nodup

theorem ncache_off_header {h : Nat} :
    Cell.ncache i ∈ Cell.nc_hash h :: xs.map Cell.ncache ↔ i ∈ xs := by
  simp

theorem hash_lt : NC_HASH name dp < NC_HASH_SIZE := Nat.mod_lt _ (by decide)

theorem Ncache.Filled.matching_iff (filled : n.Filled) (nonempty : name ≠ []) :
    n.matching dp name cred = true ↔
      n.dp = some dp ∧ n.component = name ∧ cred.admits n.cred = true := by
  obtain ⟨-, -, fits⟩ := filled
  have length : n.component.length = n.namlen := by
    unfold Ncache.component
    rw [length_take]
    omega
  unfold Ncache.matching
  simp only [Bool.and_eq_true, beq_iff_eq]
  constructor
  · rintro ⟨⟨⟨⟨dir, len⟩, admitted⟩, -⟩, bytes⟩
    refine ⟨dir, ?_, admitted⟩
    unfold Ncache.component
    rw [len, bytes]
  · rintro ⟨dir, rfl, admitted⟩
    have bytes : n.name.take n.component.length = n.component := by
      rw [length]
      rfl
    refine ⟨⟨⟨⟨dir, length.symm⟩, admitted⟩, ?_⟩, bytes⟩
    obtain ⟨b, rest, shape⟩ := exists_cons_of_ne_nil nonempty
    have whole := take_append_drop n.namlen n.name
    change n.component ++ _ = _ at whole
    rw [← whole, shape]
    rfl

theorem Lists.lru_nodup (lists : Lists s lru chain) : lru.Nodup := nodup_of_map lists.lru_ring.cells

theorem Lists.few (lists : Lists s lru chain) : lru.length ≤ s.ncsize := by
  have sub : lru ⊆ List.range s.ncsize := by
    intro i mem
    exact mem_range.mpr ((lists.on_lru i).mp mem).1
  simpa using (subperm_of_subset lists.lru_nodup sub).length_le

theorem Lists.chain_few (lists : Lists s lru chain) (h : Nat) : (chain h).length ≤ s.ncsize := by
  have sub : chain h ⊆ List.range s.ncsize := by
    intro i mem
    exact mem_range.mpr ((lists.on_chain h i).mp mem).1.1
  have nodup := nodup_of_map (lists.chains.ring h).cells
  simpa using (subperm_of_subset nodup sub).length_le

theorem find_map (test : Nat → Bool) (xs : List Nat) :
    ((xs.map Cell.ncache).find? (Cell.test test)).bind Cell.index = xs.find? test := by
  induction xs with
  | nil => rfl
  | cons x xs ih =>
    rw [map_cons, List.find?_cons, List.find?_cons]
    show (match test x with
      | true => some (Cell.ncache x)
      | false => (xs.map Cell.ncache).find? (Cell.test test)).bind Cell.index = _
    cases test x
    · exact ih
    · rfl

theorem Lists.first_eq (lists : Lists s lru chain) (test : Nat → Bool) :
    first s test = lru.find? test := by
  unfold first
  rw [lists.lru_ring.next_header]
  have whole : Ring s.lru .nc_lru ([] ++ lru.map .ncache) := lists.lru_ring
  rw [whole.find_eq _ (by simpa using Nat.lt_succ_of_le lists.few), find_map]

theorem Lists.search_eq (lists : Lists s lru chain) : dnlc_search s dp name hash cred =
      (chain hash).find? fun i => (s.ncache i).matching dp name cred := by
  unfold dnlc_search
  have ring := lists.chains.ring hash
  rw [ring.next_header]
  have whole : Ring s.hash (.nc_hash hash) ([] ++ (chain hash).map .ncache) := ring
  rw [whole.find_eq _ (by simpa using Nat.lt_succ_of_le (lists.chain_few hash)), find_map]

theorem Lists.frame (lists : Lists s lru chain) (size : t.ncsize = s.ncsize)
    (links : t.hash = s.hash ∧ t.lru = s.lru) (held : ∀ i, t.held i = none ↔ s.held i = none)
    (same : ∀ i, s.Listed i → t.ncache i = s.ncache i) : Lists t lru chain := by
  have listed : ∀ i, t.Listed i ↔ s.Listed i := fun i => by
    unfold State.Listed
    rw [size, held]
  constructor
  · rw [links.2]
    exact lists.lru_ring
  · rw [links.1]
    exact lists.chains
  · intro i
    rw [listed]
    exact lists.on_lru i
  · intro h i
    rw [listed, lists.on_chain]
    refine and_congr_right fun here => ?_
    rw [same i here]
  · intro i here empty
    rw [listed] at here
    rw [links.1]
    exact lists.free i here (same i here ▸ empty)

theorem map_update (chain : Nat → List Nat) (h : Nat) (xs : List Nat) :
    (fun k => (update chain h xs k).map Cell.ncache) =
      update (fun k => (chain k).map Cell.ncache) h (xs.map Cell.ncache) := by
  funext k
  by_cases here : k = h
  · subst here
    simp
  · simp [here]

theorem Lists.unchain (lists : Lists s lru chain) (listed : s.Listed ncp) :
    ∃ chain' : Nat → List Nat,
      Family (s.hash.remove (.ncache ncp)) .nc_hash (fun h => (chain' h).map .ncache) ∧
      (∀ h i, i ∈ chain' h ↔ i ∈ chain h ∧ i ≠ ncp) ∧
      ∀ i, s.Listed i → (s.ncache i).dp = none →
        Alone (s.hash.remove (.ncache ncp)) (.ncache i) := by
  cases dir : (s.ncache ncp).dp with
  | none =>
    refine ⟨chain, ?_, ?_, ?_⟩
    · rw [remove_alone (lists.free ncp listed dir)]
      exact lists.chains
    · intro h i
      refine ⟨fun mem => ⟨mem, ?_⟩, And.left⟩
      rintro rfl
      obtain ⟨-, dp, some, -⟩ := (lists.on_chain h i).mp mem
      simp [dir] at some
    · rw [remove_alone (lists.free ncp listed dir)]
      exact lists.free
  | some dp =>
    have here := (lists.on_chain _ ncp).mpr ⟨listed, dp, dir, rfl⟩
    obtain ⟨k, hk⟩ : ∃ k, k = NC_HASH (s.ncache ncp).component dp := ⟨_, rfl⟩
    rw [← hk] at here
    obtain ⟨xs, ys, split⟩ := append_of_mem here
    have nodup := nodup_of_map (lists.chains.ring k).cells
    rw [split, nodup_middle, nodup_cons] at nodup
    have shape : (chain k).map Cell.ncache =
        xs.map Cell.ncache ++ Cell.ncache ncp :: ys.map Cell.ncache := by simp [split]
    refine ⟨update chain k (xs ++ ys), ?_, ?_, ?_⟩
    · rw [map_update, map_append]
      exact lists.chains.remove shape
    · intro h i
      by_cases at_k : h = k
      · subst at_k
        rw [update_self, split]
        simp only [mem_append, mem_cons]
        constructor
        · intro mem
          refine ⟨by tauto, ?_⟩
          rintro rfl
          exact nodup.1 (by simpa using mem)
        · rintro ⟨mem, other⟩
          tauto
      · rw [update_of_ne at_k]
        refine ⟨fun mem => ⟨mem, ?_⟩, And.left⟩
        rintro rfl
        obtain ⟨-, dp', dir', there⟩ := (lists.on_chain h i).mp mem
        rw [dir] at dir'
        cases dir'
        exact at_k (there.symm.trans hk.symm)
    · intro i listed' empty
      have ring := lists.chains.ring k
      rw [shape] at ring
      have keep := ring.remove_other (x := .ncache i) ?_
      · have alone := lists.free i listed' empty
        exact ⟨keep.1.trans alone.1, keep.2.trans alone.2⟩
      · rw [← shape, ncache_off_header]
        intro mem
        obtain ⟨-, dp', dir', -⟩ := (lists.on_chain k i).mp mem
        simp [empty] at dir'

theorem Lists.take (lists : Lists s lru chain) (listed : s.Listed ncp) :
    ∃ lru' chain', Lists (s.take p ncp) lru' chain' := by
  obtain ⟨chain', chains, on_chain, alone⟩ := lists.unchain listed
  obtain ⟨xs, ys, split⟩ := append_of_mem ((lists.on_lru ncp).mpr listed)
  have nodup := lists.lru_nodup
  rw [split, nodup_middle, nodup_cons] at nodup
  have listed_iff : ∀ i, (s.take p ncp).Listed i ↔ s.Listed i ∧ i ≠ ncp := by
    intro i
    by_cases here : i = ncp
    · simp [State.Listed, State.take, here]
    · simp [State.Listed, State.take, here]
  refine ⟨xs ++ ys, chain', ?_, chains, ?_, ?_, ?_⟩
  · have ring := lists.lru_ring
    rw [split, map_append, map_cons] at ring
    rw [map_append]
    exact ring.remove
  · intro i
    rw [listed_iff, ← lists.on_lru, split]
    simp only [mem_append, mem_cons]
    constructor
    · intro mem
      refine ⟨by tauto, ?_⟩
      rintro rfl
      exact nodup.1 (by simpa using mem)
    · rintro ⟨mem, other⟩
      tauto
  · intro h i
    rw [on_chain, lists.on_chain, listed_iff]
    tauto
  · intro i here empty
    exact alone i ((listed_iff i).mp here).1 empty

theorem listed_put (below : ncp < s.ncsize) (size : t.ncsize = s.ncsize)
    (held : t.held = update s.held ncp none) (i : Nat) : t.Listed i ↔ s.Listed i ∨ i = ncp := by
  unfold State.Listed
  rw [size, held]
  by_cases here : i = ncp
  · subst here
    simp [below]
  · simp [here]

section
variable (lists : Lists s lru chain) (below : ncp < s.ncsize) (in_hand : s.held ncp ≠ none)
  (size : t.ncsize = s.ncsize)
include lists below in_hand size

theorem Lists.enlist {k : Nat}
    (on_list : t.lru = s.lru.insertAfter (.ncache ncp) (s.lru.prev .nc_lru))
    (on_chain : t.hash = s.hash.insertAfter (.ncache ncp) (.nc_hash k))
    (held : t.held = update s.held ncp none) (others : ∀ i, i ≠ ncp → t.ncache i = s.ncache i)
    (dir : (t.ncache ncp).dp = some dp) (place : NC_HASH (t.ncache ncp).component dp = k) :
    ∃ lru' chain', Lists t lru' chain' := by
  have put := listed_put below size held
  have off : ¬ s.Listed ncp := fun listed => in_hand listed.2
  have off_chain : ∀ h, ncp ∉ chain h := fun h mem => off ((lists.on_chain h ncp).mp mem).1
  have away : ∀ i, s.Listed i → i ≠ ncp := by
    rintro i listed rfl
    exact off listed
  refine ⟨lru ++ [ncp], update chain k (ncp :: chain k), ?_, ?_, ?_, ?_, ?_⟩
  · rw [on_list, map_append]
    refine lists.lru_ring.insert_last ?_
    simpa using fun mem => off ((lists.on_lru ncp).mp mem)
  · rw [on_chain, map_update]
    refine lists.chains.insert (show _ = [] ++ (chain k).map Cell.ncache from rfl) ?_
    intro h
    rw [ncache_off_header]
    exact off_chain h
  · intro i
    rw [put, ← lists.on_lru]
    simp
  · intro h i
    rw [put]
    by_cases here : i = ncp
    · subst here
      by_cases at_k : h = k
      · subst at_k
        simp [dir, place]
      · rw [update_of_ne at_k]
        refine iff_of_false (off_chain h) ?_
        rintro ⟨-, dp', dir', there⟩
        rw [dir] at dir'
        cases dir'
        exact at_k (there.symm.trans place)
    · rw [others i here]
      have same : i ∈ update chain k (ncp :: chain k) h ↔ i ∈ chain h := by
        by_cases at_k : h = k
        · subst at_k
          simp [here]
        · rw [update_of_ne at_k]
      rw [same, lists.on_chain]
      simp [here]
  · intro i listed empty
    rcases (put i).mp listed with listed | rfl
    · rw [others i (away i listed)] at empty
      have alone := lists.free i listed empty
      have outside : ∀ h, Cell.ncache i ∉ Cell.nc_hash h :: (chain h).map Cell.ncache := by
        intro h
        rw [ncache_off_header, lists.on_chain]
        rintro ⟨-, dp', dir', -⟩
        simp [empty] at dir'
      have whole : Ring s.hash (.nc_hash k) ([] ++ (chain k).map .ncache) := lists.chains.ring k
      have keep := whole.insert_other (a := .ncache ncp) (outside k) (by simpa using away i listed)
      rw [on_chain]
      exact ⟨keep.1.trans alone.1, keep.2.trans alone.2⟩
    · simp [dir] at empty

theorem Lists.relist (on_list : t.lru = s.lru.insertAfter (.ncache ncp) .nc_lru)
    (on_chain : t.hash = s.hash.single (.ncache ncp)) (held : t.held = update s.held ncp none)
    (others : ∀ i, i ≠ ncp → t.ncache i = s.ncache i) (dir : (t.ncache ncp).dp = none) :
    ∃ lru' chain', Lists t lru' chain' := by
  have put := listed_put below size held
  have off : ¬ s.Listed ncp := fun listed => in_hand listed.2
  have off_chain : ∀ h, ncp ∉ chain h := fun h mem => off ((lists.on_chain h ncp).mp mem).1
  have away : ∀ i, s.Listed i → i ≠ ncp := by
    rintro i listed rfl
    exact off listed
  refine ⟨ncp :: lru, chain, ?_, ?_, ?_, ?_, ?_⟩
  · rw [on_list, map_cons]
    refine lists.lru_ring.insert_first ?_
    simpa using fun mem => off ((lists.on_lru ncp).mp mem)
  · rw [on_chain]
    refine lists.chains.congr ?_
    intro h x mem
    refine single_other ?_
    rintro rfl
    exact off_chain h (ncache_off_header.mp mem)
  · intro i
    rw [put, ← lists.on_lru, mem_cons, or_comm]
  · intro h i
    rw [put]
    by_cases here : i = ncp
    · subst here
      refine iff_of_false (off_chain h) ?_
      simp [dir]
    · rw [others i here, lists.on_chain]
      simp [here]
  · intro i listed empty
    rw [on_chain]
    rcases (put i).mp listed with listed | rfl
    · have other := away i listed
      rw [others i other] at empty
      have alone := lists.free i listed empty
      have keep := single_other (l := s.hash) (a := .ncache ncp) (x := .ncache i)
        (by simpa using other)
      exact ⟨keep.1.trans alone.1, keep.2.trans alone.2⟩
    · exact single_alone

end

theorem Lists.hit (lists : Lists s lru chain) (mem : ncp ∈ chain hash) :
    ∃ lru' chain', Lists (hit s hash ncp) lru' chain' := by
  have listed := ((lists.on_chain hash ncp).mp mem).1
  obtain ⟨xs, ys, split⟩ := append_of_mem ((lists.on_lru ncp).mpr listed)
  have nodup := lists.lru_nodup
  rw [split, nodup_middle, nodup_cons] at nodup
  have ring := lists.lru_ring
  rw [split, map_append, map_cons] at ring
  have moved : Ring ((s.lru.remove (.ncache ncp)).insertAfter (.ncache ncp)
      ((s.lru.remove (.ncache ncp)).prev .nc_lru)) .nc_lru
      ((xs ++ ys ++ [ncp]).map .ncache) := by
    have shorter := ring.remove
    rw [← map_append] at shorter
    rw [map_append]
    refine shorter.insert_last ?_
    simpa using nodup.1
  have same : ∀ i, i ∈ xs ++ ys ++ [ncp] ↔ i ∈ lru := by
    intro i
    rw [split]
    simp only [mem_append, mem_cons, not_mem_nil, or_false]
    tauto
  obtain ⟨as, bs, split'⟩ := append_of_mem mem
  have chain_ring := lists.chains.ring hash
  have shape : (chain hash).map Cell.ncache =
      as.map Cell.ncache ++ Cell.ncache ncp :: bs.map Cell.ncache := by simp [split']
  rw [shape] at chain_ring
  have before := chain_ring.joined.1.2
  rcases as.eq_nil_or_concat' with rfl | ⟨cs, q, rfl⟩
  · -- the entry is the first of its chain
    have stays : (Dnlc.hit s hash ncp).hash = s.hash := by
      unfold Dnlc.hit
      have at_header : s.hash.prev (.ncache ncp) = .nc_hash hash := before
      simp only [ne_eq, at_header, not_true, if_false]
    refine ⟨xs ++ ys ++ [ncp], chain, moved, ?_, ?_, lists.on_chain, ?_⟩
    · rw [stays]
      exact lists.chains
    · intro i
      rw [same]
      exact lists.on_lru i
    · rw [stays]
      exact lists.free
  · have split'' : (chain hash).map Cell.ncache =
        cs.map Cell.ncache ++ Cell.ncache q :: Cell.ncache ncp :: bs.map Cell.ncache := by
      simp [split']
    obtain ⟨next, hnext⟩ : ∃ l, l = (s.hash.remove (.ncache ncp)).insertAfter (.ncache ncp)
      ((s.hash.remove (.ncache ncp)).prev ((s.hash.remove (.ncache ncp)).prev (.ncache ncp))) :=
        ⟨_, rfl⟩
    have goes : (Dnlc.hit s hash ncp).hash = next := by
      unfold Dnlc.hit
      simp only [ne_eq]
      rw [if_pos (by simp [before]), hnext]
    have forward := lists.chains.forward split''
    rw [← hnext] at forward
    refine ⟨xs ++ ys ++ [ncp], update chain hash (cs ++ ncp :: q :: bs), moved, ?_, ?_, ?_, ?_⟩
    · rw [goes, map_update]
      simpa using forward
    · intro i
      rw [same]
      exact lists.on_lru i
    · intro h i
      refine Iff.trans ?_ (lists.on_chain h i)
      by_cases here : h = hash
      · subst here
        rw [update_self, split']
        simp only [mem_append, mem_cons, not_mem_nil, or_false]
        tauto
      · rw [update_of_ne here]
    · intro i listed' empty
      have alone := lists.free i listed' empty
      have outside : Cell.ncache i ∉ Cell.nc_hash hash :: (chain hash).map Cell.ncache := by
        rw [ncache_off_header, lists.on_chain]
        rintro ⟨-, dp', dir', -⟩
        exact absurd (dir'.symm.trans empty) (by simp)
      have ring' := lists.chains.ring hash
      rw [split''] at ring' outside
      have keep := ring'.forward_other outside
      rw [goes, hnext]
      exact ⟨keep.1.trans alone.1, keep.2.trans alone.2⟩

end Dnlc
