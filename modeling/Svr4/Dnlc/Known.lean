import Mathlib.Algebra.Order.BigOperators.Group.Finset
import Svr4.Dnlc.Coherence

/- How long the calls that take entries out can go on. -/
namespace Dnlc
open Function Rings LabelledRuns Option Nat Finset

variable {s t u : State} {p q i k ncp : Nat} {l : Label} {w : Sweep} {ls : List Label} {v : Vnode}

def State.chosen (s : State) (w : Sweep) (i : Nat) : Nat :=
  match s.held i, (s.ncache i).dp, (s.ncache i).vp with
  | none, some dp, some vp => if w.selects s dp (s.ncache i).component vp then 1 else 0
  | _, _, _ => 0

def State.chosenCount (s : State) (w : Sweep) : Nat := ∑ i ∈ Finset.range s.ncsize, s.chosen w i

/-- The call that takes entries out, if the process is in one. -/
def Pc.sweeps : Pc → Option Sweep
  | .scan k _ => some k
  | .rm k _ _ _ => some k
  | _ => none

def Pc.stage : Pc → Nat
  | .scan _ _ => 1
  | .rm _ _ _ .both => 4
  | .rm _ _ _ .vp => 3
  | .rm _ _ _ .nothing => 2
  | _ => 0

def State.todo (s : State) (w : Sweep) (p : Nat) : Nat := 4 * s.chosenCount w + (s.pc p).stage

def arrives (s : State) (w : Sweep) : Label → Nat
  | .go p =>
    match s.pc p with
    | .enter e _ .nothing => if w.selects s e.dp e.name.bytes e.vp then 1 else 0
    | _ => 0
  | _ => 0

def arrivals (w : Sweep) : State → List Label → Nat
  | _, [] => 0
  | s, l :: ls => arrives s w l + (step s l).elim 0 fun t => arrivals w t ls

def turns (p : Nat) : List Label → Nat
  | [] => 0
  | .go q :: ls => one (q = p) + turns p ls
  | _ :: ls => turns p ls

theorem selects_congr {dp vp : Vnode} {name : List Nat} (dir : t.v_vfsp dp = s.v_vfsp dp)
    (file : t.v_vfsp vp = s.v_vfsp vp) : w.selects t dp name vp = w.selects s dp name vp := by
  cases w with
  | dnlc_purge_vfsp f count => simp only [Sweep.selects, dir, file]
  | dnlc_remove d n => rfl
  | dnlc_purge => rfl
  | dnlc_purge_vp v => rfl
  | dnlc_purge1 => rfl

theorem chosen_same (held : t.held i = s.held i) (entry : t.ncache i = s.ncache i)
    (vfs : t.v_vfsp = s.v_vfsp) : t.chosen w i = s.chosen w i := by
  unfold State.chosen
  rw [held, entry]
  split
  · rw [selects_congr (s := s) (t := t) (by rw [vfs]) (by rw [vfs])]
  · rfl

theorem chosen_held (held : s.held i ≠ none) : s.chosen w i = 0 := by
  unfold State.chosen
  split
  · contradiction
  · rfl

theorem chosen_free (free : (s.ncache i).vp = none) : s.chosen w i = 0 := by
  unfold State.chosen
  split
  · simp_all
  · rfl

theorem count_le {a : Nat} (size : t.ncsize = s.ncsize) (below : ncp < s.ncsize)
    (others : ∀ i, i ≠ ncp → t.chosen w i = s.chosen w i) (here : t.chosen w ncp ≤ a) :
    t.chosenCount w ≤ s.chosenCount w + a := by
  have sums := sum_one (f := t.chosen w) (g := s.chosen w) below others
  unfold State.chosenCount
  rw [size]
  omega

theorem count_same (size : t.ncsize = s.ncsize) (held : t.held = s.held)
    (entries : t.ncache = s.ncache) (vfs : t.v_vfsp = s.v_vfsp) :
    t.chosenCount w = s.chosenCount w := by
  unfold State.chosenCount
  rw [size]
  exact sum_congr rfl fun i _ => chosen_same (by rw [held]) (by rw [entries]) vfs

section
variable (sound : Sound s)
include sound

theorem Sound.owed (below : i < s.ncsize) (due : 0 < (s.due i).left (s.ncache i) v) :
    0 < s.v_count v := by
  rw [sound.counted.vnodes v]
  have part := single_le_sum (f := fun i => (s.due i).left (s.ncache i) v)
    (fun _ _ => zero_le _) (mem_range.mpr below)
  omega

theorem Sound.owed_cred {c : Cred} (below : i < s.ncsize) (mine : (s.ncache i).cred = some c) :
    0 < s.cr_ref c := by
  rw [sound.counted.creds c]
  have part := single_le_sum (f := fun i => one ((s.ncache i).cred = some c))
    (fun _ _ => zero_le _) (mem_range.mpr below)
  simp only [one, if_pos mine] at part ⊢
  omega

theorem Sound.referred (listed : s.Listed i)
    (names : (s.ncache i).dp = some v ∨ (s.ncache i).vp = some v) : 0 < s.v_count v := by
  refine sound.owed listed.1 ?_
  have due : s.due i = .both := by simp [State.due, listed.2]
  rw [due]
  rcases names with dir | file
  · simp only [Due.left, if_pos dir]
    omega
  · simp only [Due.left, if_pos file]
    omega

theorem count_step (moves : Moves s l t) : t.chosenCount w ≤ s.chosenCount w + arrives s w l := by
  obtain ⟨lru, chain, lists⟩ := sound.lists
  have taken : ∀ (p ncp : Nat), s.Listed ncp → (s.take p ncp).chosenCount w ≤ s.chosenCount w := by
    intro p ncp listed
    refine count_le (a := 0) rfl listed.1 (fun i other => ?_) ?_
    · exact chosen_same (update_of_ne other _ _) rfl rfl
    · rw [chosen_held (by simp [State.take])]
  cases moves with
  | nothing | hit | sweep | swept | hold | crhold => exact le_add_right _ _
  | enter p e ncp ready short oldest =>
    refine le_add_right_of_le ?_
    rw [count_same (t := entering s p e ncp) (s := s.take p ncp) rfl rfl rfl rfl]
    exact taken p ncp (lists.oldest oldest)
  | take p k c ncp at_pc found =>
    refine le_add_right_of_le ?_
    exact taken p ncp (lists.victim_some sound.hands found).1
  | drop p ncp pc due n v t drops released =>
    obtain ⟨count, cpu, rfl, -⟩ := released_spec released
    have held : ∃ was, s.held ncp = some (p, was) := by
      have hand : ∃ was, (s.pc p).hand = some (ncp, was) := by
        generalize s.pc p = old at drops
        cases drops
        all_goals exact ⟨_, rfl⟩
      obtain ⟨was, hand⟩ := hand
      exact ⟨was, (sound.hands.hand ncp p was).mpr hand⟩
    obtain ⟨was, held⟩ := held
    refine le_add_right_of_le ?_
    refine count_le (a := 0) rfl (sound.hands.below ncp (by simp [held])) (fun i other => ?_) ?_
    · exact chosen_same (update_of_ne other _ _) (update_of_ne other _ _) rfl
    · rw [chosen_held (by simp [State.owes])]
  | fill p e ncp t at_pc filled =>
    obtain ⟨count, ref, rfl, -, -⟩ := fill_spec filled
    have hand : (s.pc p).hand = some (ncp, .nothing) := by rw [at_pc]; rfl
    have held := (sound.hands.hand ncp p .nothing).mpr hand
    refine count_le rfl (sound.hands.below ncp (by simp [held])) (fun i other => ?_) ?_
    · exact chosen_same (update_of_ne other _ _) (update_of_ne other _ _) rfl
    · simp only [arrives, at_pc]
      unfold State.chosen
      simp only [update_self]
      rw [entry_component]
      exact le_of_eq (by rw [selects_congr (s := s) rfl rfl]; rfl)
  | put_back p k c ncp t at_pc back =>
    obtain ⟨ref, pc, cpu, rfl, -, -⟩ := put_back_spec back
    have hand : (s.pc p).hand = some (ncp, .nothing) := by rw [at_pc]; rfl
    have held := (sound.hands.hand ncp p .nothing).mpr hand
    refine le_add_right_of_le ?_
    refine count_le (a := 0) rfl (sound.hands.below ncp (by simp [held])) (fun i other => ?_) ?_
    · exact chosen_same (update_of_ne other _ _) (update_of_ne other _ _) rfl
    · rw [chosen_free (by simp)]
  | rele vp u mine released =>
    obtain ⟨count, cpu, rfl, -⟩ := released_spec (v := some vp) released
    exact le_add_right _ _
  | crfree cr u mine released =>
    obtain ⟨ref, rfl, -⟩ := freed_spec (show unless_null crfree s (some cr) = some u from released)
    exact le_add_right _ _
  | assign vp vfsp unused =>
    refine le_add_right_of_le (le_of_eq (sum_congr rfl fun i mem => ?_))
    have away : ∀ v, s.Listed i → (s.ncache i).dp = some v ∨ (s.ncache i).vp = some v →
        update s.v_vfsp vp vfsp v = s.v_vfsp v := by
      intro v listed names
      refine update_of_ne ?_ _ _
      rintro rfl
      have := sound.referred listed names
      omega
    unfold State.chosen
    show (match s.held i, (s.ncache i).dp, (s.ncache i).vp with
      | none, some dp, some vp => _
      | _, _, _ => 0) = _
    split
    · rename_i dp' vp' held dir file
      have listed : s.Listed i := ⟨mem_range.mp mem, held⟩
      rw [selects_congr (s := s) (away dp' listed (.inl dir)) (away vp' listed (.inr file))]
    · rfl

theorem count_take (found : victim s w = some ncp) :
    (s.take p ncp).chosenCount w + 1 = s.chosenCount w := by
  obtain ⟨lru, chain, lists⟩ := sound.lists
  obtain ⟨listed, filled, selected⟩ := lists.victim_some sound.hands found
  obtain ⟨dp, dir⟩ := isSome_iff_exists.mp filled.1
  obtain ⟨vp, file⟩ := isSome_iff_exists.mp filled.2.1
  have sums := sum_one (f := (s.take p ncp).chosen w) (g := s.chosen w) listed.1 fun i other =>
    chosen_same (update_of_ne other _ _) rfl rfl
  have after : (s.take p ncp).chosen w ncp = 0 := chosen_held (by simp [State.take])
  have before : s.chosen w ncp = 1 := by
    unfold State.chosen
    rw [listed.2, dir, file]
    exact if_pos (selected dp vp dir file)
  show ∑ i ∈ range s.ncsize, (s.take p ncp).chosen w i + 1 = ∑ i ∈ range s.ncsize, s.chosen w i
  omega

/-- Each step of a call that takes entries out brings it nearer to its end. The others only add the
names that they put in. -/
theorem todo_step (moves : Moves s l t) (sweeping : (s.pc p).sweeps = some w)
    (still : (t.pc p).sweeps = some w) :
    turns p [l] + t.todo w p ≤ s.todo w p + 4 * arrives s w l := by
  have count := count_step (w := w) sound moves
  have other : t.pc p = s.pc p → turns p [l] = 0 →
      turns p [l] + t.todo w p ≤ s.todo w p + 4 * arrives s w l := by
    intro same no_turn
    unfold State.todo
    rw [no_turn, same]
    omega
  have passive : ∀ q, q ≠ p → turns p [.go q] = 0 := by
    intro q other
    simp [turns, one, other]
  have calling : ∀ q, s.ready q = true → q ≠ p := by
    rintro q ready rfl
    rw [ready_hand ready] at sweeping
    cases sweeping
  have own : turns p [.go p] = 1 := by simp [turns, one]
  cases moves with
  | nothing _ call =>
    refine other rfl ?_
    cases l with
    | go q => exact absurd rfl (call q)
    | _ => rfl
  | enter q e ncp ready short oldest =>
    exact other (update_of_ne (Ne.symm (calling q ready)) _ _) rfl
  | hit => exact other rfl rfl
  | sweep q k ready => exact other (update_of_ne (Ne.symm (calling q ready)) _ _) rfl
  | swept q k c at_pc nothing_left =>
    by_cases self : q = p
    · subst self
      simp [swept, State.done, Pc.sweeps] at still
    · exact other (update_of_ne (Ne.symm self) _ _) (passive q self)
  | take q k c ncp at_pc found =>
    by_cases self : q = p
    · subst self
      obtain rfl : k = w := by
        rw [at_pc] at sweeping
        exact some.inj sweeping
      have fewer : ((s.take q ncp).goes q (.rm k c ncp .both)).chosenCount k + 1 =
          s.chosenCount k := count_take (p := q) sound found
      have stage : (((s.take q ncp).goes q (.rm k c ncp .both)).pc q).stage = 4 := by
        simp [State.goes, Pc.stage]
      have before : (s.pc q).stage = 1 := by
        rw [at_pc]
        rfl
      unfold State.todo
      omega
    · exact other (update_of_ne (Ne.symm self) _ _) (passive q self)
  | drop q ncp pc due n v t drops released =>
    obtain ⟨vcount, cpu, rfl, -⟩ := released_spec released
    by_cases self : q = p
    · subst self
      have stage : pc.stage + 1 = (s.pc q).stage := by
        have now : pc.sweeps = some w := by simpa [State.owes, State.goes] using still
        generalize s.pc q = old at drops
        cases drops with
        | enter_dp e => cases now
        | enter_vp e => cases now
        | rm_dp k c dp dir => rfl
        | rm_vp k c vp file => rfl
      have here : update s.pc q pc q = pc := update_self q pc s.pc
      unfold State.todo
      show turns q [.go q] + (_ + (update s.pc q pc q).stage) ≤ _
      rw [own, here]
      omega
    · exact other (update_of_ne (Ne.symm self) _ _) (passive q self)
  | fill q e ncp t at_pc filled =>
    obtain ⟨vcount, ref, rfl, -, -⟩ := fill_spec filled
    by_cases self : q = p
    · subst self
      simp [Pc.sweeps] at still
    · exact other (update_of_ne (Ne.symm self) _ _) (passive q self)
  | put_back q k c ncp t at_pc back =>
    obtain ⟨ref, pc, cpu, rfl, -, next⟩ := put_back_spec back
    by_cases self : q = p
    · subst self
      have now : pc.sweeps = some w := by simpa using still
      have here : update s.pc q pc q = pc := update_self q pc s.pc
      have before : (s.pc q).stage = 2 := by
        rw [at_pc]
        rfl
      have stage : pc.stage = 1 := by
        rcases next with rfl | rfl
        · cases now
        · rfl
      unfold State.todo
      show turns q [.go q] + (_ + (update s.pc q pc q).stage) ≤ _
      rw [own, here]
      omega
    · exact other (update_of_ne (Ne.symm self) _ _) (passive q self)
  | hold => exact other rfl rfl
  | rele vp u mine released =>
    obtain ⟨vcount, cpu, rfl, -⟩ := released_spec (v := some vp) released
    exact other rfl rfl
  | crhold => exact other rfl rfl
  | crfree cr u mine released =>
    obtain ⟨ref, rfl, -⟩ := freed_spec (show unless_null crfree s (some cr) = some u from released)
    exact other rfl rfl
  | assign => exact other rfl rfl

end

theorem turns_cons : turns p (l :: ls) = turns p [l] + turns p ls := by
  cases l
  all_goals simp [turns]

theorem turns_bounded (sound : Sound s) (run : exec step s ls = some t)
    (stays : Throughout step (fun s => (s.pc p).sweeps = some w) s ls) :
    turns p ls + t.todo w p ≤ s.todo w p + 4 * arrivals w s ls := by
  induction ls generalizing s with
  | nil =>
    obtain rfl : s = t := by simpa using run
    simp [turns, arrivals]
  | cons l ls ih =>
    obtain ⟨u, taken, rest⟩ := exec_cons_eq_some.mp run
    have moves := step_moves taken
    have after := stays.2 u taken
    have here := todo_step sound moves stays.1 after.start
    have later := ih (sound.kept moves) rest after
    rw [turns_cons]
    simp only [arrivals, taken, elim_some]
    omega

theorem chosen_few : s.chosenCount w ≤ s.ncsize := by
  have each : ∀ i ∈ range s.ncsize, s.chosen w i ≤ 1 := by
    intro i _
    unfold State.chosen
    split
    · split
      all_goals omega
    · omega
  have total := sum_le_card_nsmul (range s.ncsize) (s.chosen w) 1 each
  simpa [State.chosenCount] using total

theorem stage_le {pc : Pc} : pc.stage ≤ 4 := by
  unfold Pc.stage
  split
  all_goals omega

theorem can_release {v : Option Vnode} (counted : ∀ w, v = some w → 0 < u.v_count w) :
    ∃ t, unless_null VN_RELE u v = some t := by
  cases v with
  | none => exact ⟨u, rfl⟩
  | some w =>
    refine ⟨_, if_neg ?_⟩
    have := counted w rfl
    omega

theorem can_free {c : Option Cred} (counted : ∀ d, c = some d → 0 < u.cr_ref d) :
    ∃ t, unless_null crfree u c = some t := by
  cases c with
  | none => exact ⟨u, rfl⟩
  | some d =>
    refine ⟨_, if_neg ?_⟩
    have := counted d rfl
    omega

theorem Sound.goes_on (sound : Sound s) (running : s.running p = true) :
    ∃ t, step s (.go p) = some t := by
  have hands := sound.hands
  have in_hand : ∀ ncp due, (s.pc p).hand = some (ncp, due) → ncp < s.ncsize ∧ s.due ncp = due := by
    intro ncp due hand
    have held := (hands.hand ncp p due).mpr hand
    exact ⟨hands.below ncp (by simp [held]), by simp [State.due, held]⟩
  have due_dp : ∀ ncp v, (s.pc p).hand = some (ncp, .both) → (s.ncache ncp).dp = some v →
      0 < s.v_count v := by
    intro ncp v hand dir
    obtain ⟨below, due⟩ := in_hand ncp .both hand
    refine sound.owed below ?_
    simp only [due, Due.left, if_pos dir]
    omega
  have due_vp : ∀ ncp v, (s.pc p).hand = some (ncp, .vp) → (s.ncache ncp).vp = some v →
      0 < s.v_count v := by
    intro ncp v hand file
    obtain ⟨below, due⟩ := in_hand ncp .vp hand
    refine sound.owed below ?_
    simp [due, Due.left, if_pos file]
  simp only [step, if_pos running]
  cases at_pc : s.pc p with
  | user => simp [State.running, at_pc, Pc.idle] at running
  | enter e ncp due =>
    cases due with
    | both =>
      simp only [go, at_pc]
      exact can_release fun v dir => due_dp ncp v (by rw [at_pc]; rfl) dir
    | vp =>
      simp only [go, at_pc]
      exact can_release fun v file => due_vp ncp v (by rw [at_pc]; rfl) file
    | nothing =>
      simp only [go, at_pc, Dnlc.fill]
      obtain ⟨t, freed⟩ := can_free (u := s) (c := (s.ncache ncp).cred) fun c mine =>
        sound.owed_cred (in_hand ncp .nothing (by rw [at_pc]; rfl)).1 mine
      rw [freed]
      exact ⟨_, rfl⟩
  | scan k c =>
    simp only [go, at_pc, scan]
    split
    · exact ⟨_, rfl⟩
    · rename_i ncp found
      obtain ⟨lru, chain, lists⟩ := sound.lists
      obtain ⟨-, filled, -⟩ := lists.victim_some hands found
      rw [if_neg]
      · exact ⟨_, rfl⟩
      · cases k
        all_goals simp [panics, isNone_iff_eq_none, ← isSome_iff_ne_none, filled.1, filled.2.1]
  | rm k c ncp due =>
    cases due with
    | both =>
      have carried := hands.carried p ncp .both (by rw [at_pc]; rfl)
      rw [at_pc] at carried
      obtain ⟨v, dir⟩ := isSome_iff_exists.mp carried.1
      simp only [go, at_pc, dir, bind_some]
      exact can_release (v := some v) fun w same =>
        due_dp ncp w (by rw [at_pc]; rfl) (dir.trans same)
    | vp =>
      have carried := hands.carried p ncp .vp (by rw [at_pc]; rfl)
      rw [at_pc] at carried
      obtain ⟨v, file⟩ := isSome_iff_exists.mp carried.2.1
      simp only [go, at_pc, update_self, file, bind_some]
      exact can_release (v := some v) fun w same =>
        due_vp ncp w (by rw [at_pc]; rfl) (file.trans same)
    | nothing =>
      simp only [go, at_pc, Dnlc.put_back]
      obtain ⟨t, freed⟩ := can_free (u := s) (c := (s.ncache ncp).cred) fun c mine =>
        sound.owed_cred (in_hand ncp .nothing (by rw [at_pc]; rfl)).1 mine
      rw [freed]
      exact ⟨_, rfl⟩

end Dnlc

/- The name cache over whole runs. -/
namespace Dnlc
open Function Rings LabelledRuns Option Nat Finset

variable {s t : State} {ls : List Label} {ncsize : Nat} {memory : Bool} {v_vfsp : Vnode → Vfs}
  {count : Vnode → Nat} {ref : Cred → Nat}

/-- Every entry is on the LRU list or in hand, on the chain of its name or on none, and accounts for
its references; a look-up answers what was entered last, and finds every entry that is listed. -/
structure Coherent (s : State) : Prop where
  lists : ∃ lru chain, Lists s lru chain ∧ lru.Nodup ∧ ∀ h, (chain h).Nodup
  hands : ∀ i < s.ncsize, s.Listed i ∧ (∀ p due, (s.pc p).hand ≠ some (i, due)) ∨
    ¬ s.Listed i ∧ ∃! p, ∃ due, (s.pc p).hand = some (i, due)
  filled : ∀ i, s.Listed i → (s.ncache i).Free ∨ (s.ncache i).Filled
  counted : Counted s
  answers : ∀ dp name cred vp, (dnlc_lookup s dp name cred).2 = some vp →
    ∃ c, cred.admits c = true ∧ s.last ⟨dp, name.bytes, c⟩ = some vp
  finds : s.doingcache = true → ∀ i dp vp name, s.Listed i → (s.ncache i).dp = some dp →
    (s.ncache i).vp = some vp → (s.ncache i).component = Name.bytes name →
    (dnlc_lookup s dp name (.cred (s.ncache i).cred)).2 = some vp

/-- The call returns after so many of its own steps, whatever others do, unless they enter ever more
names that it selects. -/
structure Returns (s : State) (p : Nat) (w : Sweep) : Prop where
  goes_on : s.running p = true → ∃ t, step s (.go p) = some t
  bounded : ∀ ls t, exec step s ls = some t →
    Throughout step (fun s => (s.pc p).sweeps = some w) s ls →
    turns p ls ≤ 4 * (s.ncsize + arrivals w s ls) + 4

theorem Sound.coherent (sound : Sound s) (current : Current s) : Coherent s := by
  obtain ⟨lru, chain, lists⟩ := sound.lists
  have hands := sound.hands
  refine ⟨⟨lru, chain, lists, lists.lru_nodup, fun h => nodup_of_map (lists.chains.ring h).cells⟩,
    ?_, hands.listed, sound.counted, fun dp name cred vp answer => current.answer sound answer,
    fun caching i dp vp name => current.finds sound caching⟩
  intro i below
  cases held : s.held i with
  | none =>
    left
    refine ⟨⟨below, held⟩, fun p due hand => ?_⟩
    rw [← hands.hand, held] at hand
    cases hand
  | some taken =>
    right
    refine ⟨fun listed => by simp [listed.2] at held, taken.1, ⟨taken.2, ?_⟩, ?_⟩
    · exact (hands.hand i taken.1 taken.2).mp held
    · rintro q ⟨due, hand⟩
      rw [← hands.hand, held] at hand
      rw [some.inj hand]

theorem Sound.returns (sound : Sound s) (p : Nat) (w : Sweep) : Returns s p w := by
  refine ⟨sound.goes_on, fun ls t run stays => ?_⟩
  have bound := turns_bounded sound run stays
  have few := chosen_few (s := s) (w := w)
  have stage : (s.pc p).stage ≤ 4 := stage_le
  unfold State.todo at bound
  omega

/-- The cache is coherent in every orderly run, and every call that takes entries out returns. -/
theorem names_coherent
    (orderly : Guarded step Orderly (dnlc_init ncsize memory v_vfsp count ref) ls)
    (run : exec step (dnlc_init ncsize memory v_vfsp count ref) ls = some s) :
    Coherent s ∧ ∀ p w, (s.pc p).sweeps = some w → Returns s p w := by
  have start : Current (dnlc_init ncsize memory v_vfsp count ref) := by
    intro i _ dp vp dir
    cases dir
  obtain ⟨sound, current⟩ := exec_invariant (fun s => Sound s ∧ Current s)
    (fun s l t ⟨sound, current⟩ orderly taken =>
      ⟨sound.kept (step_moves taken), current.kept sound orderly (step_moves taken)⟩)
    ⟨sound_init, start⟩ orderly run
  exact ⟨sound.coherent current, fun p w _ => sound.returns p w⟩

def first_name : Name := ⟨[97], by decide⟩
def second_name : Name := ⟨[98], by decide⟩
def third_name : Name := ⟨[99], by decide⟩

def small : State :=
  dnlc_init 2 true (fun _ => 0) (fun vp => if vp < 10 then 1 else 0) (fun _ => 0)

def filling : List Label :=
  [.enter 1 ⟨1, second_name, 5, none⟩, .go 1, .go 1, .go 1,
   .enter 1 ⟨1, third_name, 6, none⟩, .go 1, .go 1, .go 1, .rele 5, .rele 6]

def orderly_run : List Label :=
  filling ++ [.enter 1 ⟨2, first_name, 7, none⟩, .go 1, .go 1,
    .enter 2 ⟨3, first_name, 8, none⟩, .go 2, .go 2, .go 2, .go 1, .lookup 1 2 first_name .anycred,
    .sweep 3 (.dnlc_purge_vp 7), .go 3]

theorem names_coherent_small : ∃ s, exec step small orderly_run = some s ∧ Coherent s ∧
    ∀ p w, (s.pc p).sweeps = some w → Returns s p w := by
  obtain ⟨s, run⟩ := isSome_iff_exists.mp
    (show (exec step small orderly_run).isSome = true by decide +kernel)
  exact ⟨s, run, names_coherent (show Guarded step Orderly small orderly_run by decide +kernel) run⟩

/-- Process 2 enters the name for another file while process 1 is asleep in `dnlc_enter`. The file
of process 1, entered last, is purged. -/
def duplicate_run : List Label :=
  filling ++ [.enter 1 ⟨2, first_name, 7, none⟩, .go 1, .go 1,
    .enter 2 ⟨2, first_name, 8, none⟩, .go 2, .go 2, .go 2, .go 1,
    .sweep 3 (.dnlc_purge_vp 7), .go 3, .go 3, .go 3, .go 3, .go 3]

/-- The look-up then answers the other file. -/
theorem duplicate_answers : ¬ ∀ ls s, exec step small ls = some s → Coherent s := by
  intro all
  have answer : (exec step small duplicate_run).map (fun s =>
      ((dnlc_lookup s 2 first_name (.cred none)).2, s.last ⟨2, first_name.bytes, none⟩)) =
      some (some 8, none) := by decide +kernel
  obtain ⟨s, run, both⟩ := map_eq_some_iff.mp answer
  obtain ⟨found, last⟩ := Prod.mk.inj both
  obtain ⟨c, admitted, entered⟩ := (all _ s run).answers _ _ _ _ found
  obtain rfl : none = c := by simpa [Wanted.admits] using admitted
  rw [last] at entered
  cases entered

end Dnlc
