import Svr4.Dnlc.Lists

/- What a step of a process does. -/
namespace Dnlc
open Function Rings Option

def State.due (s : State) (i : Nat) : Due := (s.held i).elim .both Prod.snd

variable {s t u : State} {p ncp : Nat} {v : Vnode} {due : Due} {n : Ncache} {pc pc' : Pc}

def Due.left (n : Ncache) (v : Vnode) : Due → Nat
  | .both => (if n.dp = some v then 1 else 0) + if n.vp = some v then 1 else 0
  | .vp => if n.vp = some v then 1 else 0
  | .nothing => 0

/-- The call releases a vnode of the entry `ncp` that it has in hand, and goes on later. -/
inductive Drops (ncp : Nat) (n : Ncache) : Pc → Pc → Due → Ncache → Option Vnode → Prop
  | enter_dp (e : Entering) :
    Drops ncp n (.enter e ncp .both) (.enter e ncp .vp) .vp n n.dp
  | enter_vp (e : Entering) :
    Drops ncp n (.enter e ncp .vp) (.enter e ncp .nothing) .nothing n n.vp
  | rm_dp (k : Sweep) (c : Nat) (dp : Vnode) (dir : n.dp = some dp) :
    Drops ncp n (.rm k c ncp .both) (.rm k c ncp .vp) .vp n (some dp)
  | rm_vp (k : Sweep) (c : Nat) (vp : Vnode) (file : n.vp = some vp) :
    Drops ncp n (.rm k c ncp .vp) (.rm k c ncp .nothing) .nothing { n with dp := none } (some vp)

def entering (s : State) (p : Nat) (e : Entering) (ncp : Nat) : State :=
  { (s.take p ncp).goes p (.enter e ncp .both) with overtaken := update s.overtaken p false }

inductive Moves (s : State) : Label → State → Prop
  | nothing (l : Label) (call : ∀ p, l ≠ .go p) : Moves s l s
  | enter (p : Nat) (e : Entering) (ncp : Nat) (ready : s.ready p = true)
      (short : e.name.bytes.length ≤ NC_NAMLEN)
      (oldest : (s.lru.next .nc_lru).index = some ncp) :
    Moves s (.enter p e) (entering s p e ncp)
  | hit (p : Nat) (dp : Vnode) (name : Name) (cred : Wanted) (ncp : Nat) (ready : s.ready p = true)
      (found : dnlc_search s dp name.bytes (NC_HASH name.bytes dp) cred = some ncp) :
    Moves s (.lookup p dp name cred) (hit s (NC_HASH name.bytes dp) ncp)
  | sweep (p : Nat) (k : Sweep) (ready : s.ready p = true) :
    Moves s (.sweep p k) (s.goes p (.scan k 0))
  | swept (p : Nat) (k : Sweep) (c : Nat) (at_pc : s.pc p = .scan k c)
      (nothing_left : victim s k = none) : Moves s (.go p) (swept s p k)
  | take (p : Nat) (k : Sweep) (c ncp : Nat) (at_pc : s.pc p = .scan k c)
      (found : victim s k = some ncp) :
    Moves s (.go p) ((s.take p ncp).goes p (.rm k c ncp .both))
  | drop (p ncp : Nat) (pc : Pc) (due : Due) (n : Ncache) (v : Option Vnode) (t : State)
      (drops : Drops ncp (s.ncache ncp) (s.pc p) pc due n v)
      (released : unless_null VN_RELE
        { s.owes p pc ncp due with ncache := update s.ncache ncp n } v = some t) :
    Moves s (.go p) t
  | fill (p : Nat) (e : Entering) (ncp : Nat) (t : State)
      (at_pc : s.pc p = .enter e ncp .nothing) (filled : fill s p e ncp = some t) :
    Moves s (.go p) t
  | put_back (p : Nat) (k : Sweep) (c ncp : Nat) (t : State)
      (at_pc : s.pc p = .rm k c ncp .nothing) (back : put_back s p k c ncp = some t) :
    Moves s (.go p) t
  | hold (vp : Vnode) :
    Moves s (.hold vp) { VN_HOLD s vp with outside := update s.outside vp (s.outside vp + 1) }
  | rele (vp : Vnode) (u : State) (mine : 0 < s.outside vp) (released : VN_RELE s vp = some u) :
    Moves s (.rele vp) { u with outside := update u.outside vp (u.outside vp - 1) }
  | crhold (cr : Cred) :
    Moves s (.crhold cr)
      { crhold s cr with outsideCred := update s.outsideCred cr (s.outsideCred cr + 1) }
  | crfree (cr : Cred) (u : State) (mine : 0 < s.outsideCred cr) (released : crfree s cr = some u) :
    Moves s (.crfree cr) { u with outsideCred := update u.outsideCred cr (u.outsideCred cr - 1) }
  | assign (vp : Vnode) (vfsp : Vfs) (unused : s.v_count vp = 0) :
    Moves s (.assign vp vfsp) { s with v_vfsp := update s.v_vfsp vp vfsp }

theorem enter_moves {e : Entering} (ready : s.ready p = true) :
    Moves s (.enter p e) (dnlc_enter s p e) := by
  unfold dnlc_enter
  split
  · exact .nothing _ nofun
  split
  · exact .nothing _ nofun
  rename_i long
  split
  · exact .nothing _ nofun
  split
  · exact .nothing _ nofun
  · rename_i ncp oldest
    exact .enter p e ncp ready (Nat.not_lt.mp long) oldest

theorem lookup_moves {dp : Vnode} {name : Name} {cred : Wanted} (ready : s.ready p = true) :
    Moves s (.lookup p dp name cred) (dnlc_lookup s dp name cred).1 := by
  unfold dnlc_lookup
  split
  · exact .nothing _ nofun
  split
  · exact .nothing _ nofun
  dsimp only
  split
  · exact .nothing _ nofun
  · rename_i ncp found
    exact .hit p dp name cred ncp ready found

theorem sweep_moves {k : Sweep} (ready : s.ready p = true) :
    Moves s (.sweep p k) (sweep s p k) := by
  unfold sweep
  split
  · exact .nothing _ nofun
  split
  · split
    · exact .nothing _ nofun
    · exact .sweep p _ ready
  · exact .sweep p _ ready

theorem update_same (f : Nat → Ncache) (i : Nat) : update f i (f i) = f := update_eq_self i f

theorem go_moves (taken : go s p = some t) : Moves s (.go p) t := by
  unfold go at taken
  split at taken
  · cases taken
  · rename_i e ncp at_pc
    refine .drop p ncp (.enter e ncp .vp) .vp (s.ncache ncp) (s.ncache ncp).dp t ?_ ?_
    · rw [at_pc]
      exact .enter_dp e
    · rw [update_same]
      exact taken
  · rename_i e ncp at_pc
    refine .drop p ncp (.enter e ncp .nothing) .nothing (s.ncache ncp) (s.ncache ncp).vp t ?_ ?_
    · rw [at_pc]
      exact .enter_vp e
    · rw [update_same]
      exact taken
  · rename_i e ncp at_pc
    exact .fill p e ncp t at_pc taken
  · rename_i k c at_pc
    unfold scan at taken
    split at taken
    · rename_i nothing_left
      cases taken
      exact .swept p k c at_pc nothing_left
    · rename_i ncp found
      split at taken
      · cases taken
      · cases taken
        exact .take p k c ncp at_pc found
  · rename_i k c ncp at_pc
    obtain ⟨dp, dir, released⟩ := bind_eq_some_iff.mp taken
    refine .drop p ncp (.rm k c ncp .vp) .vp (s.ncache ncp) (some dp) t ?_ ?_
    · rw [at_pc]
      exact .rm_dp k c dp dir
    · rw [update_same]
      exact released
  · rename_i k c ncp at_pc
    obtain ⟨vp, file, released⟩ := bind_eq_some_iff.mp taken
    refine .drop p ncp (.rm k c ncp .nothing) .nothing { s.ncache ncp with dp := none } (some vp) t
      ?_ released
    rw [at_pc]
    exact .rm_vp k c vp (by simpa using file)
  · rename_i k c ncp at_pc
    exact .put_back p k c ncp t at_pc taken

theorem step_moves {l : Label} (taken : step s l = some t) : Moves s l t := by
  cases l with
  | enter p e =>
    simp only [step] at taken
    split at taken
    · cases taken
      exact enter_moves ‹_›
    · cases taken
  | lookup p dp name cred =>
    simp only [step] at taken
    split at taken
    · cases taken
      exact lookup_moves ‹_›
    · cases taken
  | sweep p k =>
    simp only [step] at taken
    split at taken
    · cases taken
      exact sweep_moves ‹_›
    · cases taken
  | go p =>
    simp only [step] at taken
    split at taken
    · exact go_moves taken
    · cases taken
  | hold vp =>
    simp only [step] at taken
    split at taken
    · cases taken
      exact .hold vp
    · cases taken
  | rele vp =>
    simp only [step] at taken
    split at taken
    · rename_i possible
      obtain ⟨u, released, rfl⟩ := map_eq_some_iff.mp taken
      simp only [Bool.and_eq_true, decide_eq_true_eq] at possible
      exact .rele vp u possible.2 released
    · cases taken
  | crhold cr =>
    simp only [step] at taken
    split at taken
    · cases taken
      exact .crhold cr
    · cases taken
  | crfree cr =>
    simp only [step] at taken
    split at taken
    · rename_i possible
      obtain ⟨u, released, rfl⟩ := map_eq_some_iff.mp taken
      simp only [Bool.and_eq_true, decide_eq_true_eq] at possible
      exact .crfree cr u possible.2 released
    · cases taken
  | assign vp vfsp =>
    simp only [step] at taken
    split at taken
    · cases taken
      exact .assign vp vfsp ‹_›
    · cases taken

end Dnlc

/- Which call has which entry in hand, and the references that the entries hold. -/
namespace Dnlc
open Function Rings Option

variable {s t u : State} {p q i k ncp : Nat} {v : Option Vnode} {due due' : Due} {pc pc' : Pc}
  {n n' : Ncache} {h : Option (Nat × Due)}

def one (c : Prop) [Decidable c] : Nat := if c then 1 else 0

def plus (f : Nat → Nat) (a : Nat) : Nat → Nat := update f a (f a + 1)

theorem plus_apply (f : Nat → Nat) (a w : Nat) : plus f a w = f w + one (a = w) := by
  unfold plus
  by_cases here : w = a
  · subst here
    simp [one]
  · simp [one, here, Ne.symm here]

theorem minus_apply {f : Nat → Nat} {a : Nat} (positive : 0 < f a) (w : Nat) :
    update f a (f a - 1) w + one (some a = some w) = f w := by
  by_cases here : w = a
  · subst here
    simp only [update_self, one, if_true]
    omega
  · simp [one, here, Ne.symm here]

def Entering.entry (e : Entering) (n : Ncache) : Ncache :=
  { dp := some e.dp
    vp := some e.vp
    namlen := e.name.bytes.length
    name := bcopy e.name.bytes n.name
    cred := e.cred }

theorem released_spec (released : unless_null VN_RELE u v = some t) :
    ∃ count cpu, t = { u with v_count := count, cpu := cpu } ∧
      ∀ w, count w + one (v = some w) = u.v_count w := by
  cases v with
  | none =>
    cases released
    exact ⟨t.v_count, t.cpu, rfl, fun w => by simp [one]⟩
  | some v =>
    simp only [unless_null, VN_RELE] at released
    split at released
    · cases released
    · cases released
      exact ⟨_, _, rfl, minus_apply (by omega)⟩

theorem freed_spec {cr : Option Cred} (freed : unless_null crfree u cr = some t) :
    ∃ ref, t = { u with cr_ref := ref } ∧ ∀ c, ref c + one (cr = some c) = u.cr_ref c := by
  cases cr with
  | none =>
    cases freed
    exact ⟨t.cr_ref, rfl, fun c => by simp [one]⟩
  | some cr =>
    simp only [unless_null, crfree] at freed
    split at freed
    · cases freed
    · cases freed
      exact ⟨_, rfl, minus_apply (by omega)⟩

theorem fill_spec {e : Entering} (filled : fill s p e ncp = some t) : ∃ count ref, t = { s with
        v_count := count
        cr_ref := ref
        ncache := update s.ncache ncp (e.entry (s.ncache ncp))
        lru := s.lru.insertAfter (.ncache ncp) (s.lru.prev .nc_lru)
        hash := s.hash.insertAfter (.ncache ncp) (.nc_hash (NC_HASH e.name.bytes e.dp))
        held := update s.held ncp none
        last := if s.overtaken p then s.last else update s.last e.key (some e.vp)
        pc := update s.pc p .user
        cpu := none } ∧
      (∀ w, count w = s.v_count w + one (e.dp = w) + one (e.vp = w)) ∧
      ∀ c, ref c + one ((s.ncache ncp).cred = some c) = s.cr_ref c + one (e.cred = some c) := by
  obtain ⟨u, freed, made⟩ := map_eq_some_iff.mp filled
  obtain ⟨ref, rfl, refs⟩ := freed_spec freed
  have twice : ∀ w, plus (plus s.v_count e.dp) e.vp w =
      s.v_count w + one (e.dp = w) + one (e.vp = w) := by
    intro w
    rw [plus_apply, plus_apply]
  cases cr : e.cred with
  | none =>
    refine ⟨plus (plus s.v_count e.dp) e.vp, ref, ?_, twice, fun c => ?_⟩
    · rw [← made]
      simp only [Entering.entry, cr]
      rfl
    · rw [refs c]
      rfl
  | some cr' =>
    refine ⟨plus (plus s.v_count e.dp) e.vp, plus ref cr', ?_, twice, fun c => ?_⟩
    · rw [← made]
      simp only [Entering.entry, cr]
      rfl
    · have := refs c
      rw [plus_apply]
      simp only [one, some.injEq] at this ⊢
      omega

theorem put_back_spec {l : Sweep} {c : Nat} (back : put_back s p l c ncp = some t) :
    ∃ ref pc cpu, t = { s with
        cr_ref := ref
        ncache := update s.ncache ncp { s.ncache ncp with vp := none, cred := none }
        lru := s.lru.insertAfter (.ncache ncp) .nc_lru
        hash := s.hash.single (.ncache ncp)
        held := update s.held ncp none
        pc := update s.pc p pc
        cpu := cpu } ∧
      (∀ c, ref c + one ((s.ncache ncp).cred = some c) = s.cr_ref c) ∧
      (pc = .user ∨ pc = .scan l (c + 1)) := by
  obtain ⟨u, freed, made⟩ := map_eq_some_iff.mp back
  obtain ⟨ref, rfl, refs⟩ := freed_spec freed
  split at made
  · exact ⟨ref, .scan l (c + 1), some p, made.symm, refs, .inr rfl⟩
  · exact ⟨ref, .user, none, made.symm, refs, .inl rfl⟩

def Pc.Carries (n : Ncache) : Pc → Prop
  | .enter e _ _ => (n.Free ∨ n.Filled) ∧ e.name.bytes.length ≤ NC_NAMLEN
  | .rm _ _ _ .both => n.Filled
  | .rm _ _ _ .vp => n.Filled
  | .rm _ _ _ .nothing => n.dp = none
  | _ => True

/-- The calls and the entries agree about which entry is in whose hands. -/
structure Hands (s : State) : Prop where
  hand : ∀ i p due, s.held i = some (p, due) ↔ (s.pc p).hand = some (i, due)
  below : ∀ i, s.held i ≠ none → i < s.ncsize
  listed : ∀ i, s.Listed i → (s.ncache i).Free ∨ (s.ncache i).Filled
  carried : ∀ p i due, (s.pc p).hand = some (i, due) → (s.pc p).Carries (s.ncache i)
  buffer : ∀ i, (s.ncache i).name.length = NC_NAMLEN

def Fits (p ncp : Nat) (h : Option (Nat × Due)) (pc : Pc) : Prop :=
  h = none ∧ pc.hand = none ∨ ∃ due, h = some (p, due) ∧ pc.hand = some (ncp, due)

theorem Hands.change (hands : Hands s) (size : t.ncsize = s.ncsize) (below : ncp < s.ncsize)
    (before : Fits p ncp (s.held ncp) (s.pc p)) (after : Fits p ncp h pc)
    (pcs : t.pc = update s.pc p pc) (helds : t.held = update s.held ncp h)
    (others : ∀ i, i ≠ ncp → t.ncache i = s.ncache i)
    (listed : h = none → (t.ncache ncp).Free ∨ (t.ncache ncp).Filled)
    (carries : h ≠ none → pc.Carries (t.ncache ncp))
    (buffer : (t.ncache ncp).name.length = NC_NAMLEN) : Hands t := by
  have away : ∀ q due, q ≠ p → s.held ncp ≠ some (q, due) := by
    rintro q due other here
    rcases before with ⟨none_here, -⟩ | ⟨due', here', -⟩
    · simp [none_here] at here
    · rw [here'] at here
      exact other (by simpa using (congrArg Prod.fst (some.inj here)).symm)
  have mine : ∀ i due, i ≠ ncp → (s.pc p).hand ≠ some (i, due) := by
    rintro i due other here
    rcases before with ⟨-, none_here⟩ | ⟨due', -, here'⟩
    · simp [none_here] at here
    · rw [here'] at here
      exact other (by simpa using (congrArg Prod.fst (some.inj here)).symm)
  constructor
  · intro i q due
    rw [pcs, helds]
    by_cases here : i = ncp
    · subst here
      rw [update_self]
      by_cases self : q = p
      · subst self
        rw [update_self]
        rcases after with ⟨no_h, no_hand⟩ | ⟨due', h', hand'⟩
        · simp [no_h, no_hand]
        · simp [h', hand']
      · rw [update_of_ne self]
        refine iff_of_false ?_ ?_
        · rcases after with ⟨no_h, -⟩ | ⟨due', h', -⟩
          · simp [no_h]
          · simp [h', Ne.symm self]
        · rw [← hands.hand]
          exact away q due self
    · rw [update_of_ne here]
      by_cases self : q = p
      · subst self
        rw [update_self]
        refine iff_of_false ?_ ?_
        · rw [hands.hand]
          exact mine i due here
        · rcases after with ⟨-, no_hand⟩ | ⟨due', -, hand'⟩
          · simp [no_hand]
          · simp [hand', Ne.symm here]
      · rw [update_of_ne self]
        exact hands.hand i q due
  · intro i taken
    rw [size]
    by_cases here : i = ncp
    · rw [here]
      exact below
    · rw [helds, update_of_ne here] at taken
      exact hands.below i taken
  · intro i at_list
    by_cases here : i = ncp
    · subst here
      refine listed ?_
      have := at_list.2
      rwa [helds, update_self] at this
    · rw [others i here]
      refine hands.listed i ⟨size ▸ at_list.1, ?_⟩
      have := at_list.2
      rwa [helds, update_of_ne here] at this
  · intro q i due hand
    rw [pcs] at hand ⊢
    by_cases self : q = p
    · subst self
      rw [update_self] at hand ⊢
      rcases after with ⟨-, no_hand⟩ | ⟨due', h', hand'⟩
      · simp [no_hand] at hand
      · rw [hand'] at hand
        obtain rfl : ncp = i := congrArg Prod.fst (some.inj hand)
        exact carries (by simp [h'])
    · rw [update_of_ne self] at hand ⊢
      have other : i ≠ ncp := by
        rintro rfl
        exact away q due self ((hands.hand i q due).mpr hand)
      rw [others i other]
      exact hands.carried q i due hand
  · intro i
    by_cases here : i = ncp
    · rw [here]
      exact buffer
    · rw [others i here]
      exact hands.buffer i

theorem Hands.turn (hands : Hands s) (size : t.ncsize = s.ncsize) (before : (s.pc p).hand = none)
    (after : pc.hand = none) (pcs : t.pc = update s.pc p pc) (helds : t.held = s.held)
    (entries : t.ncache = s.ncache) : Hands t := by
  cases t
  subst size pcs helds entries
  have same : ∀ q, (update s.pc p pc q).hand = (s.pc q).hand := by
    intro q
    by_cases self : q = p
    · subst self
      rw [update_self, before, after]
    · rw [update_of_ne self]
  refine { hands with hand := fun i q due => ?_, carried := fun q i due hand => ?_ }
  · rw [same]
    exact hands.hand i q due
  · rw [same] at hand
    have other : q ≠ p := by
      rintro rfl
      rw [before] at hand
      cases hand
    show (update s.pc p pc q).Carries (s.ncache i)
    rw [update_of_ne other]
    exact hands.carried q i due hand

end Dnlc
