import Svr4.Dnlc.Upkeep

/- What a look-up finds, and how long a purge can take. -/
namespace Dnlc
open Function Rings LabelledRuns

variable {s t u : State} {p q i k ncp hash : Nat} {dp vp : Vnode} {cred : Wanted} {l : Label}
  {w : Sweep} {ncsize : Nat} {memory : Bool} {v_vfsp : Vnode → Vfs} {count : Vnode → Nat}
  {ref : Cred → Nat}

theorem init_ring (n : Nat) :
    Ring ((List.range n).foldl (fun l i => l.insertAfter (.ncache i) .nc_lru) ⟨id, id⟩) Cell.nc_lru
      ((List.range n).reverse.map .ncache) := by
  induction n with
  | zero => exact ring_nil.mpr ⟨rfl, rfl⟩
  | succ n ih =>
    rw [List.range_succ, List.foldl_append, List.reverse_append, List.map_append]
    refine ih.insert_first ?_
    simp

theorem sound_init : Sound (dnlc_init ncsize memory v_vfsp count ref) := by
  refine ⟨⟨(List.range (if memory then ncsize else 0)).reverse, fun _ => [], ?_⟩, ?_, ?_⟩
  · refine ⟨init_ring _, ⟨fun h => ring_nil.mpr ⟨rfl, rfl⟩, ?_⟩, ?_, ?_, ?_⟩
    · intro j h other
      simpa using Ne.symm other
    · intro i
      simp [State.Listed, dnlc_init]
    · intro h i
      simp [dnlc_init]
    · exact fun i _ _ => ⟨rfl, rfl⟩
  · refine ⟨?_, fun i held => absurd rfl held, fun i _ => .inl ⟨rfl, rfl, rfl⟩, ?_, ?_⟩
    · intro i p due
      simp [dnlc_init, Pc.hand]
    · intro p i due hand
      cases hand
    · intro i
      simp [dnlc_init]
  · constructor
    · intro v
      simp [dnlc_init, State.due, Due.left]
    · intro c
      simp [dnlc_init, one]

/-- When a call at last puts its name in, the name is not there and has not been removed since it
looked. -/
def Orderly (s : State) : Label → Prop
  | .go p =>
    match s.pc p with
    | .enter e _ .nothing =>
      dnlc_search s e.dp e.name.bytes (NC_HASH e.name.bytes e.dp) (.cred e.cred) = none ∧
        s.overtaken p = false
    | _ => True
  | _ => True

instance decidable_orderly (s : State) : (l : Label) → Decidable (Orderly s l)
  | .go p =>
    match h : s.pc p with
    | .enter e _ .nothing => decidable_of_iff
        (dnlc_search s e.dp e.name.bytes (NC_HASH e.name.bytes e.dp) (.cred e.cred) = none ∧
          s.overtaken p = false) (by simp only [Orderly, h])
    | .enter _ _ .both | .enter _ _ .vp | .user | .scan .. | .rm .. =>
      isTrue (by simp only [Orderly, h])
  | .enter .. | .lookup .. | .sweep .. | .hold _ | .rele _ | .crhold _ | .crfree _ | .assign .. =>
    isTrue trivial

def Current (s : State) : Prop := ∀ i, s.Listed i → ∀ dp vp, (s.ncache i).dp = some dp →
  (s.ncache i).vp = some vp → s.last ⟨dp, (s.ncache i).component, (s.ncache i).cred⟩ = some vp

theorem Current.shrink (current : Current s) (listed : ∀ i, t.Listed i → s.Listed i)
    (same : ∀ i, t.Listed i → t.ncache i = s.ncache i) (last : t.last = s.last) : Current t := by
  intro i here dp vp dir file
  rw [same i here] at dir file ⊢
  rw [last]
  exact current i (listed i here) dp vp dir file

theorem Current.kept (current : Current s) (sound : Sound s) (orderly : Orderly s l)
    (moves : Moves s l t) : Current t := by
  obtain ⟨lru, chain, lists⟩ := sound.lists
  have taken : ∀ (p ncp i : Nat), (s.take p ncp).Listed i → s.Listed i := by
    intro p ncp i listed
    refine ⟨listed.1, ?_⟩
    have out := listed.2
    by_cases here : i = ncp
    · subst here
      simp [State.take] at out
    · simpa [State.take, here] using out
  cases moves with
  | nothing => exact current
  | enter p e ncp ready short oldest =>
    exact current.shrink (taken p ncp) (fun _ _ => rfl) rfl
  | hit => exact current
  | sweep => exact current
  | swept p w c at_pc nothing_left =>
    intro i listed dp vp dir file
    have kept := lists.victim_none sound.hands nothing_left listed dir file
    have before := current i listed dp vp dir file
    show (s.last ⟨dp, (s.ncache i).component, (s.ncache i).cred⟩).filter _ = some vp
    rw [before, Option.filter_some, if_pos]
    show (! w.selects s dp (s.ncache i).component vp) = true
    rw [kept]
    rfl
  | take p w c ncp at_pc found => exact current.shrink (taken p ncp) (fun _ _ => rfl) rfl
  | drop p ncp pc due n v t drops released =>
    obtain ⟨count, cpu, rfl, -⟩ := released_spec released
    have away : ∀ i, i = ncp → update s.held ncp (some (p, due)) i ≠ none := by
      rintro i rfl
      simp
    refine current.shrink (fun i listed => ?_) (fun i listed => ?_) rfl
    · have other : i ≠ ncp := fun here => away i here listed.2
      exact ⟨listed.1, by simpa [State.owes, State.goes, other] using listed.2⟩
    · have other : i ≠ ncp := fun here => away i here listed.2
      exact update_of_ne other _ _
  | fill p e ncp t at_pc filled =>
    obtain ⟨missing, in_time⟩ : _ ∧ _ := by simpa only [Orderly, at_pc] using orderly
    obtain ⟨count, ref, rfl, -, -⟩ := fill_spec filled
    intro i listed dp vp dir file
    rw [in_time, if_neg (by simp)]
    by_cases here : i = ncp
    · subst here
      simp only [update_self, Entering.entry, Option.some.injEq] at dir file
      subst dir file
      have key : e.key = ⟨e.dp, (e.entry (s.ncache i)).component, e.cred⟩ := by
        rw [entry_component]
        rfl
      simp only [update_self, Entering.entry] at key ⊢
      rw [← key, update_self]
    · have at_s : s.Listed i := ⟨listed.1, by simpa [here] using listed.2⟩
      simp only [ne_eq, here, not_false_eq_true, update_of_ne] at dir file ⊢
      rw [update_of_ne]
      · exact current i at_s dp vp dir file
      · intro same
        obtain ⟨rfl, named, cr⟩ := Key.mk.inj same
        have no := lists.not_found sound.hands e.name.nonempty missing at_s dir named
        rw [cr] at no
        simp [Wanted.admits] at no
  | put_back p w c ncp t at_pc back =>
    obtain ⟨ref, pc, cpu, rfl, -, -⟩ := put_back_spec back
    intro i listed dp vp dir file
    by_cases here : i = ncp
    · subst here
      simp at file
    · have at_s : s.Listed i := ⟨listed.1, by simpa [here] using listed.2⟩
      simp only [ne_eq, here, not_false_eq_true, update_of_ne] at dir file ⊢
      exact current i at_s dp vp dir file
  | hold => exact current
  | rele vp u mine released =>
    obtain ⟨count, cpu, rfl, -⟩ := released_spec (v := some vp) released
    exact current
  | crhold => exact current
  | crfree cr u mine released =>
    obtain ⟨ref, rfl, -⟩ := freed_spec (show unless_null crfree s (some cr) = some u from released)
    exact current
  | assign => exact current

theorem Current.answer {name : Name} (current : Current s) (sound : Sound s)
    (answer : (dnlc_lookup s dp name cred).2 = some vp) :
    ∃ c, cred.admits c = true ∧ s.last ⟨dp, name.bytes, c⟩ = some vp := by
  obtain ⟨lru, chain, lists⟩ := sound.lists
  unfold dnlc_lookup at answer
  split at answer
  · cases answer
  split at answer
  · cases answer
  dsimp only at answer
  split at answer
  · cases answer
  rename_i i found
  obtain ⟨-, listed, test⟩ := lists.found found
  change (s.ncache i).vp = some vp at answer
  have filled := sound.hands.filled listed (.inr (by simp [answer]))
  obtain ⟨dir, named, admitted⟩ := (filled.matching_iff name.nonempty).mp test
  refine ⟨(s.ncache i).cred, admitted, ?_⟩
  rw [← named]
  exact current i listed dp vp dir answer

theorem Current.finds {name : Name} (current : Current s) (sound : Sound s)
    (caching : s.doingcache = true) (listed : s.Listed i) (dir : (s.ncache i).dp = some dp)
    (file : (s.ncache i).vp = some vp) (named : (s.ncache i).component = name.bytes) :
    (dnlc_lookup s dp name (.cred (s.ncache i).cred)).2 = some vp := by
  obtain ⟨lru, chain, lists⟩ := sound.lists
  have short : name.bytes.length ≤ NC_NAMLEN := by
    rw [← named, ← sound.hands.buffer i]
    exact List.length_take_le' _ _
  obtain ⟨vp', hit⟩ : ∃ vp', (dnlc_lookup s dp name (.cred (s.ncache i).cred)).2 = some vp' := by
    unfold dnlc_lookup
    rw [if_neg (by simp [caching]), if_neg (Nat.not_lt.mpr short)]
    dsimp only
    cases found : dnlc_search s dp name.bytes (NC_HASH name.bytes dp) (.cred (s.ncache i).cred) with
    | none =>
      have no := lists.not_found sound.hands name.nonempty found listed dir named
      simp [Wanted.admits] at no
    | some j =>
      obtain ⟨-, at_list, test⟩ := lists.found found
      refine Option.isSome_iff_exists.mp (sound.hands.filled at_list (.inl fun free => ?_)).2.1
      simp [Ncache.matching, free] at test
  obtain ⟨c, admitted, entered⟩ := current.answer sound hit
  obtain rfl : (s.ncache i).cred = c := by simpa [Wanted.admits] using admitted
  rw [← named, current i listed dp vp dir file] at entered
  rw [hit, entered]

end Dnlc
