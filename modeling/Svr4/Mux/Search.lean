import Svr4.DepthFirst
import Svr4.Mux.Graph
import Svr4.WaitGraph

/- The search stays in the graph and enters the drivers in the order of a depth-first search. -/
namespace Multiplexors
open NextChains DepthFirst Relation List
variable {cdevcnt : Nat} {m m' m₁ : Muxes cdevcnt} {out : Fin cdevcnt → List Nat}
  {node : mux_node cdevcnt}

/-- The nodes have the edges of these lists, each of them allocated and on one list. -/
structure Shape (m : Muxes cdevcnt) (out : Fin cdevcnt → List Nat) : Prop where
  path : ∀ n, Path m.me_nextp (m.mux_nodes n).mn_outp (out n)
  heap : ∀ n, ∀ ep ∈ out n, ep ∈ m.heap
  nodup : ∀ n, (out n).Nodup
  apart : ∀ n n' ep, ep ∈ out n → ep ∈ out n' → n = n'

theorem Shape.short (h : Shape m out) (n : Fin cdevcnt) : (out n).length ≤ m.heap.length :=
  ((h.nodup n).subperm (h.heap n)).length_le

theorem Shape.edges_eq (h : Shape m out) (n : Fin cdevcnt) : m.edges n = out n :=
  (h.path n).collect_eq (h.short n)

structure Kept (m m' : Muxes cdevcnt) : Prop where
  nodep : m'.me_nodep = m.me_nodep
  nextp : m'.me_nextp = m.me_nextp
  muxid : m'.me_muxid = m.me_muxid
  heap : m'.heap = m.heap
  outp : ∀ n, (m'.mux_nodes n).mn_outp = (m.mux_nodes n).mn_outp

theorem Kept.refl : Kept m m := ⟨rfl, rfl, rfl, rfl, fun _ => rfl⟩

theorem Kept.trans (h : Kept m m') (h' : Kept m' m₁) : Kept m m₁ :=
  ⟨h'.nodep.trans h.nodep, h'.nextp.trans h.nextp, h'.muxid.trans h.muxid, h'.heap.trans h.heap,
    fun n => (h'.outp n).trans (h.outp n)⟩

theorem Kept.set {n : Fin cdevcnt} (outp : node.mn_outp = (m.mux_nodes n).mn_outp) :
    Kept m (m.set n node) := by
  refine ⟨rfl, rfl, rfl, rfl, fun n' => ?_⟩
  rw [Muxes.set_node]
  split
  · next same => rw [outp, same]
  · rfl

theorem Kept.visit (n : Fin cdevcnt) : Kept m (m.visit n) := Kept.set rfl

theorem Kept.set_start (n : Fin cdevcnt) (ep : Option Nat) : Kept m (m.set_start n ep) :=
  Kept.set rfl

theorem Kept.set_origin (n origin : Fin cdevcnt) : Kept m (m.set_origin n origin) := Kept.set rfl

theorem Kept.clear : Kept m m.clear := ⟨rfl, rfl, rfl, rfl, fun _ => rfl⟩

theorem Kept.shape (h : Kept m m') (shape : Shape m out) : Shape m' out := by
  refine ⟨fun n => ?_, fun n ep mem => ?_, shape.nodup, shape.apart⟩
  · rw [h.nextp, h.outp]
    exact shape.path n
  · rw [h.heap]
    exact shape.heap n ep mem

theorem Kept.edges (h : Kept m m') : m'.edges = m.edges := by
  funext n
  unfold Muxes.edges
  rw [h.nextp, h.heap, h.outp]

theorem Kept.targets (h : Kept m m') : m'.targets = m.targets := by
  funext n
  unfold Muxes.targets
  rw [h.edges, h.nodep]

def Turn.Keeps (m : Muxes cdevcnt) : Turn cdevcnt → Prop
  | .goes_on s => Kept m s.mux
  | .returns _ m' _ => Kept m m'
  | .faults => True

theorem leave_keeps {s : Search cdevcnt} (h : Kept m s.mux) : (leave s).Keeps m := by
  unfold leave
  split
  · exact h
  · exact h

theorem turn_keeps (upmaj : Fin cdevcnt) (s : Search cdevcnt) : (turn upmaj s).Keeps s.mux := by
  unfold turn
  dsimp only
  split
  · split
    · exact Kept.refl
    · split
      · exact leave_keeps (Kept.visit _)
      · exact (Kept.visit _).trans (Kept.set_start _ _)
  · split
    · exact leave_keeps Kept.refl
    · split
      · exact (Kept.set_start _ _).trans (Kept.set_origin _ _)
      · trivial

theorem turns_keeps (upmaj : Fin cdevcnt) (rounds : Nat) (s : Search cdevcnt) :
    (turns upmaj rounds s).Keeps s.mux := by
  induction rounds generalizing s with
  | zero => exact Kept.refl
  | succ rounds ih =>
    have first := turn_keeps upmaj s
    unfold turns
    split
    · next s' taken =>
      rw [taken] at first
      have rest := ih s'
      cases result : turns upmaj rounds s' with
      | goes_on t => rw [result] at rest; exact Kept.trans first rest
      | returns answer m' followed => rw [result] at rest; exact Kept.trans first rest
      | faults => trivial
    · exact first

theorem linkcycle_keeps (rounds : Nat) (upstp lostp : stdata cdevcnt) (m : Muxes cdevcnt) :
    (linkcycle rounds upstp lostp m).Keeps m := by
  unfold linkcycle
  split
  · exact Kept.refl
  · have kept := turns_keeps upstp.major rounds ⟨m.clear, lostp.major, []⟩
    cases result : turns upstp.major rounds ⟨m.clear, lostp.major, []⟩ with
    | goes_on t => rw [result] at kept; exact Kept.clear.trans kept
    | returns answer m' followed => rw [result] at kept; exact Kept.clear.trans kept
    | faults => trivial

def Leads (upmaj : Fin cdevcnt) (s : Search cdevcnt) (result : Turn cdevcnt) : Prop :=
  ∃ rounds, turns upmaj rounds s = result

variable {upmaj : Fin cdevcnt} {s s' : Search cdevcnt} {result : Turn cdevcnt}

theorem turns_unique {n k : Nat} {t t' : Turn cdevcnt} (first : turns upmaj n s = t)
    (ends : ∀ s', t ≠ .goes_on s') (second : turns upmaj k s = t')
    (ends' : ∀ s', t' ≠ .goes_on s') : t = t' := by
  induction n generalizing s k with
  | zero => exact absurd first.symm (ends s)
  | succ n ih =>
    cases k with
    | zero => exact absurd second.symm (ends' s)
    | succ k =>
      unfold turns at first second
      cases taken : turn upmaj s with
      | goes_on s' =>
        rw [taken] at first second
        exact ih first second
      | returns => rw [taken] at first second; exact first.symm.trans second
      | faults => rw [taken] at first second; exact first.symm.trans second

theorem Leads.of_turn (taken : turn upmaj s = result) : Leads upmaj s result := by
  refine ⟨1, ?_⟩
  unfold turns
  rw [taken]
  cases result with
  | goes_on t => rfl
  | returns => rfl
  | faults => rfl

theorem Leads.trans (first : Leads upmaj s (.goes_on s')) (rest : Leads upmaj s' result) :
    Leads upmaj s result := by
  obtain ⟨n, first⟩ := first
  obtain ⟨k, rest⟩ := rest
  refine ⟨n + k, ?_⟩
  induction n generalizing s with
  | zero =>
    obtain rfl : s = s' := by injection first
    rw [Nat.zero_add]
    exact rest
  | succ n ih =>
    unfold turns at first
    rw [Nat.succ_add]
    unfold turns
    cases taken : turn upmaj s with
    | goes_on t =>
      rw [taken] at first
      exact ih first
    | returns => rw [taken] at first; cases first
    | faults => rw [taken] at first; cases first

section Walk
variable {M : Muxes cdevcnt} {tr tr' : List (Fin cdevcnt)} {v : Fin cdevcnt} {n : Nat}

/-- The nodes when the search in the graph of `M` has entered those of `tr`. -/
structure During (M m : Muxes cdevcnt) (tr : List (Fin cdevcnt)) : Prop where
  kept : Kept M m
  visited : ∀ x, (m.mux_nodes x).visited = true ↔ x ∈ tr
  leaf : ∀ x, (M.mux_nodes x).mn_outp = none →
    (m.mux_nodes x).mn_startp = (M.mux_nodes x).mn_startp

def Done (m : Muxes cdevcnt) (x : Fin cdevcnt) : Prop :=
  (m.mux_nodes x).mn_startp = none ∨ (m.mux_nodes x).mn_outp = none

def Legal (M : Muxes cdevcnt) (followed : List (Fin cdevcnt × Nat)) : Prop :=
  ∀ p ∈ followed, p.2 ∈ M.edges p.1

def Once (M : Muxes cdevcnt) (tr : List (Fin cdevcnt)) : Prop :=
  ∀ x, (M.mux_nodes x).mn_outp = none → (M.mux_nodes x).mn_startp ≠ none → tr.count x ≤ 1

theorem Once.suffix (h : Once M tr') (suffix : tr <:+ tr') : Once M tr := fun x outp start =>
  Nat.le_trans (suffix.sublist.count_le x) (h x outp start)

/-- What the part of the search from `v` on has done when it goes back from there. -/
structure Explored (M m m' : Muxes cdevcnt) (v : Fin cdevcnt) (tr tr' : List (Fin cdevcnt)) : Prop where
  during : During M m' tr'
  finished : Done m' v
  done : ∀ x ∈ tr', x ∉ tr ∨ Done m x → Done m' x
  frame : ∀ x, ¬ ReflTransGen M.Linked v x → m'.mux_nodes x = m.mux_nodes x
  origin : (m'.mux_nodes v).mn_originp = (m.mux_nodes v).mn_originp

/-- The search from `v` on enters the nodes that the depth-first search enters. -/
structure Follows (M m : Muxes cdevcnt) (upmaj v : Fin cdevcnt) (tr tr' : List (Fin cdevcnt))
    (followed : List (Fin cdevcnt × Nat)) : Prop where
  found : upmaj ∈ tr' → ∃ m' followed', Legal M followed' ∧
    Leads upmaj ⟨m, v, followed⟩ (.returns true m' followed')
  missed : upmaj ∉ tr' → ∃ m' followed', Legal M followed' ∧
    Leads upmaj ⟨m, v, followed⟩ (leave ⟨m', v, followed'⟩) ∧ Explored M m m' v tr tr'

structure Ready (M m : Muxes cdevcnt) (upmaj : Fin cdevcnt) (tr : List (Fin cdevcnt)) (n : Nat)
    (followed : List (Fin cdevcnt × Nat)) : Prop where
  during : During M m tr
  missing : upmaj ∉ tr
  room : unmet (List.finRange cdevcnt) tr ≤ n
  legal : Legal M followed

variable {f : List (Fin cdevcnt × Nat)} {ep : Nat}

theorem turn_done (visited : (m.mux_nodes v).visited = true)
    (start : (m.mux_nodes v).mn_startp = none) : turn upmaj ⟨m, v, f⟩ = leave ⟨m, v, f⟩ := by
  unfold turn
  rw [if_neg (by rw [visited]; exact Bool.noConfusion), start]

theorem turn_edge (visited : (m.mux_nodes v).visited = true)
    (start : (m.mux_nodes v).mn_startp = some ep) (allocated : ep ∈ m.heap) : turn upmaj ⟨m, v, f⟩ =
      .goes_on ⟨(m.set_start v (m.me_nextp ep)).set_origin (m.me_nodep ep) v, m.me_nodep ep,
        (v, ep) :: f⟩ := by
  unfold turn
  rw [if_neg (by rw [visited]; exact Bool.noConfusion), start]
  dsimp only
  rw [if_pos allocated]
  rfl

theorem turn_goal (fresh : (m.mux_nodes upmaj).visited = false) :
    turn upmaj ⟨m, upmaj, f⟩ = .returns true m f := by
  unfold turn
  rw [if_pos fresh, if_pos rfl]

theorem turn_leaf (fresh : (m.mux_nodes v).visited = false) (other : v ≠ upmaj)
    (outp : (m.mux_nodes v).mn_outp = none) : turn upmaj ⟨m, v, f⟩ = leave ⟨m.visit v, v, f⟩ := by
  unfold turn
  rw [if_pos fresh, if_neg other, outp]

theorem turn_open (fresh : (m.mux_nodes v).visited = false) (other : v ≠ upmaj)
    (outp : (m.mux_nodes v).mn_outp = some ep) :
    turn upmaj ⟨m, v, f⟩ = .goes_on ⟨(m.visit v).set_start v (some ep), v, f⟩ := by
  unfold turn
  rw [if_pos fresh, if_neg other, outp]

theorem During.start (h : During M m tr) (edge : (M.mux_nodes v).mn_outp ≠ none)
    (start : Option Nat) : During M (m.set_start v start) tr := by
  refine ⟨h.kept.trans (Kept.set_start _ _), fun x => ?_, fun x outp => ?_⟩
  · rw [← h.visited x, Muxes.set_start, Muxes.set_node]
    split
    · next same => rw [same]
    · rfl
  · have other : x ≠ v := fun same => edge (same ▸ outp)
    rw [← h.leaf x outp, Muxes.set_start, Muxes.set_node, if_neg other]

theorem During.origin (h : During M m tr) (w v : Fin cdevcnt) : During M (m.set_origin w v) tr := by
  refine ⟨h.kept.trans (Kept.set_origin _ _), fun x => ?_, fun x outp => ?_⟩
  · rw [← h.visited x, Muxes.set_origin, Muxes.set_node]
    split
    · next same => rw [same]
    · rfl
  · rw [← h.leaf x outp, Muxes.set_origin, Muxes.set_node]
    split
    · next same => rw [same]
    · rfl

theorem sweep_follows (shape : Shape M M.edges) (acyclic : WaitGraph.Acyclic M.Linked)
    (each : ∀ w m tr f, Ready M m upmaj tr n f → (∀ x ∈ tr, ReflTransGen M.Linked w x → Done m x) →
      Once M (enter M.targets upmaj n w tr) →
      Follows M m upmaj w tr (enter M.targets upmaj n w tr) f)
    {es : List Nat} (ready : Ready M m upmaj tr n f) (here : v ∈ tr)
    (path : Path M.me_nextp (m.mux_nodes v).mn_startp es) (own : ∀ ep ∈ es, ep ∈ M.edges v)
    (below : ∀ x ∈ tr, TransGen M.Linked v x → Done m x)
    (once : Once M (sweep M.targets upmaj n (es.map M.me_nodep) tr)) :
    Follows M m upmaj v tr (sweep M.targets upmaj n (es.map M.me_nodep) tr) f := by
  induction es generalizing tr m f with
  | nil =>
    have start : (m.mux_nodes v).mn_startp = none := path
    refine ⟨fun found => absurd found ready.missing, fun _ => ⟨m, f, ready.legal, ?_, ?_⟩⟩
    · exact Leads.of_turn (turn_done ((ready.during.visited v).mpr here) start)
    · exact ⟨ready.during, .inl start, fun x mem old => old.resolve_left fun fresh => fresh mem,
        fun _ _ => rfl, rfl⟩
  | cons ep es ih =>
    obtain ⟨start, rest⟩ := path
    have during := ready.during
    have edge : ep ∈ M.edges v := own ep mem_cons_self
    have link : M.Linked v (M.me_nodep ep) := mem_map_of_mem edge
    have other : M.me_nodep ep ≠ v := fun same =>
      acyclic v (TransGen.single (same ▸ link))
    have outp : (M.mux_nodes v).mn_outp ≠ none := by
      intro none
      have := (shape.path v).head_eq
      rw [none] at this
      rw [head?_eq_none_iff.mp this.symm] at edge
      cases edge
    have allocated : ep ∈ m.heap := by
      rw [during.kept.heap]
      exact shape.heap v ep edge
    have taken : turn upmaj ⟨m, v, f⟩ = _ := turn_edge ((during.visited v).mpr here) start allocated
    rw [during.kept.nextp, during.kept.nodep] at taken
    rw [map_cons, sweep_cons] at once ⊢
    have during₁ := (during.start outp (M.me_nextp ep)).origin (M.me_nodep ep) v
    generalize M.me_nodep ep = w at *
    have origin₁ : (((m.set_start v (M.me_nextp ep)).set_origin w v).mux_nodes w).mn_originp =
        some v := by
      simp [Muxes.set_origin, Muxes.set_node]
    have start₁ : (((m.set_start v (M.me_nextp ep)).set_origin w v).mux_nodes v).mn_startp =
        M.me_nextp ep := by
      simp [Muxes.set_origin, Muxes.set_start, Muxes.set_node, Ne.symm other]
    have origin_v : (((m.set_start v (M.me_nextp ep)).set_origin w v).mux_nodes v).mn_originp =
        (m.mux_nodes v).mn_originp := by
      simp [Muxes.set_origin, Muxes.set_start, Muxes.set_node, Ne.symm other]
    have elsewhere : ∀ x, ¬ ReflTransGen M.Linked v x →
        ((m.set_start v (M.me_nextp ep)).set_origin w v).mux_nodes x = m.mux_nodes x := by
      intro x apart
      have x_v : x ≠ v := fun same => apart (same ▸ ReflTransGen.refl)
      have x_w : x ≠ w := fun same => apart (same ▸ ReflTransGen.single link)
      simp [Muxes.set_origin, Muxes.set_start, Muxes.set_node, x_v, x_w]
    have done₁ : ∀ x, x ≠ v → Done m x →
        Done ((m.set_start v (M.me_nextp ep)).set_origin w v) x := by
      intro x x_v done
      unfold Done
      simp only [Muxes.set_origin, Muxes.set_start, Muxes.set_node, if_neg x_v]
      split
      · next same => subst same; simpa [x_v, Done] using done
      · exact done
    generalize (m.set_start v (M.me_nextp ep)).set_origin w v = m₁ at *
    -- nothing leads back to `v`
    have apart : ∀ x, ReflTransGen M.Linked w x → x ≠ v := by
      rintro x path rfl
      exact acyclic x (TransGen.head' link path)
    have ready₁ : Ready M m₁ upmaj tr n ((v, ep) :: f) :=
      ⟨during₁, ready.missing, ready.room, forall_mem_cons.mpr ⟨edge, ready.legal⟩⟩
    have first := each w m₁ tr ((v, ep) :: f) ready₁
      (fun x mem path => done₁ x (apart x path) (below x mem (TransGen.head' link path)))
      (once.suffix sweep_suffix)
    have goes := Leads.of_turn taken
    by_cases early : upmaj ∈ enter M.targets upmaj n w tr
    · obtain ⟨m', f', legal, leads⟩ := first.found early
      exact ⟨fun _ => ⟨m', f', legal, goes.trans leads⟩,
        fun missed => absurd (sweep_suffix.subset early) missed⟩
    obtain ⟨m₂, f₂, legal, leads, explored⟩ := first.missed early
    have back : leave ⟨m₂, w, f₂⟩ = .goes_on ⟨m₂, v, f₂⟩ := by
      unfold leave
      rw [explored.origin, origin₁]
    have same_v : m₂.mux_nodes v = m₁.mux_nodes v := explored.frame v fun path => apart v path rfl
    rw [back] at leads
    have ready₂ : Ready M m₂ upmaj (enter M.targets upmaj n w tr) n f₂ :=
      ⟨explored.during, early, Nat.le_trans (unmet_mono enter_suffix.subset) ready.room, legal⟩
    have below₂ : ∀ x ∈ enter M.targets upmaj n w tr, TransGen M.Linked v x → Done m₂ x := by
      intro x mem path
      refine explored.done x mem ?_
      by_cases old : x ∈ tr
      · refine .inr (done₁ x ?_ (below x old path))
        rintro rfl
        exact acyclic x path
      · exact .inl old
    have later := ih ready₂ (enter_suffix.subset here) (by rw [same_v, start₁]; exact rest)
      (fun ep mem => own ep (mem_cons_of_mem _ mem)) below₂ once
    refine ⟨fun found => ?_, fun missed => ?_⟩
    · obtain ⟨m', f', legal, found⟩ := later.found found
      exact ⟨m', f', legal, goes.trans (leads.trans found)⟩
    · obtain ⟨m', f', legal, left, swept⟩ := later.missed missed
      refine ⟨m', f', legal, goes.trans (leads.trans left),
        swept.during, swept.finished, fun x mem old => ?_, fun x far => ?_, ?_⟩
      · by_cases same : x = v
        · exact same ▸ swept.finished
        · refine swept.done x mem ?_
          by_cases new : x ∈ enter M.targets upmaj n w tr
          · exact .inr (explored.done x new (old.imp_right (done₁ x same)))
          · exact .inl new
      · rw [swept.frame x far, explored.frame x fun path => far (path.head link), elsewhere x far]
      · rw [swept.origin, same_v, origin_v]

theorem During.enter_node (h : During M m tr) (v : Fin cdevcnt)
    (outp : node.mn_outp = (m.mux_nodes v).mn_outp) (visited : node.visited = true)
    (leaf : (M.mux_nodes v).mn_outp = none → node.mn_startp = (m.mux_nodes v).mn_startp) :
    During M (m.set v node) (v :: tr) := by
  refine ⟨h.kept.trans (Kept.set outp), fun x => ?_, fun x none => ?_⟩
  · rw [Muxes.set_node, mem_cons]
    split
    · next same => exact iff_of_true visited (.inl same)
    · next other => rw [h.visited x, or_iff_right other]
  · rw [Muxes.set_node]
    split
    · next same =>
      subst same
      rw [leaf none, h.leaf x none]
    · exact h.leaf x none

theorem again_follows (ready : Ready M m upmaj tr n f) (met : v ∈ tr) (done : Done m v)
    (once : Once M (v :: tr)) : Follows M m upmaj v tr (v :: tr) f := by
  have during := ready.during
  -- nothing may be left to follow there
  have start : (m.mux_nodes v).mn_startp = none := by
    rcases done with start | outp
    · exact start
    · rw [during.kept.outp] at outp
      rw [during.leaf v outp]
      by_contra stale
      have twice := once v outp stale
      rw [count_cons_self] at twice
      exact absurd (count_pos_iff.mpr met) (by omega)
  refine ⟨fun found => ?_, fun _ => ⟨m, f, ready.legal, ?_, ?_⟩⟩
  · rcases mem_cons.mp found with rfl | old
    · exact absurd met ready.missing
    · exact absurd old ready.missing
  · exact Leads.of_turn (turn_done ((during.visited v).mpr met) start)
  · refine ⟨⟨during.kept, fun x => ?_, during.leaf⟩, .inl start, fun x mem old => ?_,
      fun _ _ => rfl, rfl⟩
    · rw [during.visited x, mem_cons]
      exact ⟨Or.inr, fun mem => mem.elim (fun same => same ▸ met) id⟩
    · rcases mem_cons.mp mem with rfl | mem
      · exact .inl start
      · exact old.resolve_left fun fresh => fresh mem

theorem leaf_follows (ready : Ready M m upmaj tr n f) (fresh : (m.mux_nodes v).visited = false)
    (other : v ≠ upmaj) (outp : (m.mux_nodes v).mn_outp = none) :
    Follows M m upmaj v tr (v :: tr) f := by
  have entered : During M (m.visit v) (v :: tr) := ready.during.enter_node v rfl rfl fun _ => rfl
  have finished : Done (m.visit v) v := .inr (by simpa [Muxes.visit, Muxes.set_node] using outp)
  have missing : upmaj ∉ v :: tr := fun mem =>
    (mem_cons.mp mem).elim (fun same => other same.symm) ready.missing
  refine ⟨fun found => absurd found missing, fun _ => ⟨m.visit v, f, ready.legal,
    Leads.of_turn (turn_leaf fresh other outp), entered, finished, fun x mem old => ?_,
    fun x far => ?_, ?_⟩⟩
  · by_cases same : x = v
    · exact same ▸ finished
    · have done := old.resolve_left fun new => new ((mem_cons.mp mem).resolve_left same)
      simpa [Done, Muxes.visit, Muxes.set_node, same] using done
  · have other : x ≠ v := fun same => far (same ▸ ReflTransGen.refl)
    simp [Muxes.visit, Muxes.set_node, other]
  · simp [Muxes.visit, Muxes.set_node]

theorem open_follows (shape : Shape M M.edges) (acyclic : WaitGraph.Acyclic M.Linked)
    (each : ∀ w m tr f, Ready M m upmaj tr n f → (∀ x ∈ tr, ReflTransGen M.Linked w x → Done m x) →
      Once M (enter M.targets upmaj n w tr) →
      Follows M m upmaj w tr (enter M.targets upmaj n w tr) f)
    (ready : Ready M m upmaj tr (n + 1) f) (met : v ∉ tr) (fresh : (m.mux_nodes v).visited = false)
    (other : v ≠ upmaj) (outp : (m.mux_nodes v).mn_outp = some ep)
    (below : ∀ x ∈ tr, ReflTransGen M.Linked v x → Done m x)
    (once : Once M (sweep M.targets upmaj n (M.targets v) (v :: tr))) :
    Follows M m upmaj v tr (sweep M.targets upmaj n (M.targets v) (v :: tr)) f := by
  have during := ready.during
  have has : (M.mux_nodes v).mn_outp = some ep := (during.kept.outp v).symm.trans outp
  have goes := Leads.of_turn (turn_open (f := f) fresh other outp)
  have visited : During M (m.visit v) (v :: tr) := during.enter_node v rfl rfl fun _ => rfl
  have entered := visited.start (by rw [has]; exact Option.some_ne_none ep) (some ep)
  have at_v : ((m.visit v).set_start v (some ep)).mux_nodes v =
      { m.mux_nodes v with visited := true, mn_startp := some ep } := by
    simp [Muxes.visit, Muxes.set_start, Muxes.set_node]
  have elsewhere : ∀ x, x ≠ v →
      ((m.visit v).set_start v (some ep)).mux_nodes x = m.mux_nodes x := by
    intro x ne
    simp [Muxes.visit, Muxes.set_start, Muxes.set_node, ne]
  generalize (m.visit v).set_start v (some ep) = m₁ at *
  have done₁ : ∀ x, x ≠ v → Done m x → Done m₁ x := by
    intro x ne done
    unfold Done
    rw [elsewhere x ne]
    exact done
  have missing : upmaj ∉ v :: tr := fun mem =>
    (mem_cons.mp mem).elim (fun same => other same.symm) ready.missing
  have room : unmet (finRange cdevcnt) (v :: tr) ≤ n :=
    Nat.le_of_lt_succ (Nat.lt_of_lt_of_le (unmet_cons_lt (mem_finRange v) met) ready.room)
  have below₁ : ∀ x ∈ v :: tr, TransGen M.Linked v x → Done m₁ x := by
    intro x mem path
    have ne : x ≠ v := by
      rintro rfl
      exact acyclic x path
    exact done₁ x ne (below x ((mem_cons.mp mem).resolve_left ne) path.to_reflTransGen)
  have path : Path M.me_nextp (m₁.mux_nodes v).mn_startp (M.edges v) := by
    rw [at_v, ← has]
    exact shape.path v
  have swept : Follows M m₁ upmaj v (v :: tr) (sweep M.targets upmaj n (M.targets v) (v :: tr)) f :=
    sweep_follows shape acyclic each ⟨entered, missing, room, ready.legal⟩ mem_cons_self path
      (fun _ mem => mem) below₁ once
  refine ⟨fun found => ?_, fun missed => ?_⟩
  · obtain ⟨m', f', legal, leads⟩ := swept.found found
    exact ⟨m', f', legal, goes.trans leads⟩
  · obtain ⟨m', f', legal, leads, explored⟩ := swept.missed missed
    refine ⟨m', f', legal, goes.trans leads, explored.during, explored.finished,
      fun x mem old => ?_, fun x far => ?_, ?_⟩
    · by_cases same : x = v
      · exact same ▸ explored.finished
      · refine explored.done x mem (old.imp (fun new mem => ?_) (done₁ x same))
        exact new ((mem_cons.mp mem).resolve_left same)
    · rw [explored.frame x far, elsewhere x fun same => far (same ▸ ReflTransGen.refl)]
    · rw [explored.origin, at_v]

theorem enter_follows (shape : Shape M M.edges) (acyclic : WaitGraph.Acyclic M.Linked)
    (ready : Ready M m upmaj tr n f) (below : ∀ x ∈ tr, ReflTransGen M.Linked v x → Done m x)
    (once : Once M (enter M.targets upmaj n v tr)) :
    Follows M m upmaj v tr (enter M.targets upmaj n v tr) f := by
  induction n generalizing v tr m f with
  | zero =>
    by_cases met : v ∈ tr
    · exact again_follows ready met (below v met ReflTransGen.refl) once
    · have some_left := unmet_cons_lt (mem_finRange v) met
      have none_left := ready.room
      omega
  | succ n ih =>
    by_cases met : v ∈ tr
    · rw [enter_met ready.missing met] at once ⊢
      exact again_follows ready met (below v met ReflTransGen.refl) once
    have fresh : (m.mux_nodes v).visited = false := by
      rw [Bool.eq_false_iff]
      exact fun visited => met ((ready.during.visited v).mp visited)
    by_cases goal : v = upmaj
    · subst goal
      exact ⟨fun _ => ⟨m, f, ready.legal, Leads.of_turn (turn_goal fresh)⟩,
        fun missed => absurd (mem_enter ready.missing) missed⟩
    rw [enter_fresh ready.missing met goal] at once ⊢
    cases outp : (m.mux_nodes v).mn_outp with
    | none =>
      have no_edges : M.edges v = [] := by
        have head := (shape.path v).head_eq
        rw [← ready.during.kept.outp, outp] at head
        exact head?_eq_none_iff.mp head.symm
      have no_targets : M.targets v = [] := congrArg (map M.me_nodep) no_edges
      rw [no_targets, sweep_nil]
      exact leaf_follows ready fresh goal outp
    | some ep =>
      exact open_follows shape acyclic (fun _ _ _ _ ready below once => ih ready below once)
        ready met fresh goal outp below once

end Walk

/-- `linkcycle` returns, along edges of the graph, and with 1 if and only if the upper driver can
be reached from the lower one. -/
def Exact (m : Muxes cdevcnt) (upmaj lomaj : Fin cdevcnt) : Prop :=
  ∃ rounds answer m' followed,
    linkcycle rounds ⟨false, upmaj⟩ ⟨false, lomaj⟩ m = .returns answer m' followed ∧
      Legal m followed ∧ (answer = true ↔ ReflTransGen m.Linked lomaj upmaj)

/-- Up to the upper driver the search comes at most once to a driver without links from which an
earlier search has a place to start. -/
def NoStaleStart (m : Muxes cdevcnt) (upmaj lomaj : Fin cdevcnt) : Prop :=
  Once m (enter m.targets upmaj cdevcnt lomaj [])

theorem linkcycle_exact_of (shape : Shape m m.edges) (acyclic : WaitGraph.Acyclic m.Linked)
    {upmaj lomaj : Fin cdevcnt} (once : NoStaleStart m upmaj lomaj) : Exact m upmaj lomaj := by
  have edges : m.clear.edges = m.edges := Kept.clear.edges
  have targets : m.clear.targets = m.targets := Kept.clear.targets
  have linked : m.clear.Linked = m.Linked := by
    unfold Muxes.Linked
    rw [targets]
  have start : Ready m.clear m.clear upmaj [] cdevcnt [] := by
    refine ⟨⟨Kept.refl, fun x => ?_, fun _ _ => rfl⟩, not_mem_nil, ?_, nofun⟩
    · exact iff_of_false Bool.noConfusion not_mem_nil
    · exact Nat.le_trans countP_le_length (Nat.le_of_eq length_finRange)
  have search := enter_follows (v := lomaj) (edges ▸ Kept.clear.shape shape) (linked ▸ acyclic)
    start nofun (targets ▸ once)
  have met : upmaj ∈ enter m.targets upmaj cdevcnt lomaj [] ↔ ReflTransGen m.Linked lomaj upmaj :=
    goal_mem_enter (fun _ _ y _ => mem_finRange y) (mem_finRange lomaj)
      (Nat.le_of_eq length_finRange)
  by_cases found : upmaj ∈ enter m.targets upmaj cdevcnt lomaj []
  · obtain ⟨m', f', legal, rounds, result⟩ := search.found found
    refine ⟨rounds, true, m', f', result, ?_, iff_of_true rfl (met.mp found)⟩
    exact legal
  obtain ⟨m', f', legal, ⟨rounds, result⟩, explored⟩ := search.missed found
  have out : leave ⟨m', lomaj, f'⟩ = .returns false m' f' := by
    unfold leave
    rw [explored.origin]
    rfl
  refine ⟨rounds, false, m', f', result.trans out, ?_,
    iff_of_false Bool.noConfusion fun path => found (met.mpr path)⟩
  exact legal

end Multiplexors
