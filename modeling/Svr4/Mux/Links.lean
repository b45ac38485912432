import Svr4.Mux.Search

/- Links and unlinks: which edges the graph has after them. -/
namespace Multiplexors
open Function NextChains DepthFirst LabelledRuns Relation WaitGraph List
variable {cdevcnt : Nat} {m m' : Muxes cdevcnt} {out : Fin cdevcnt → List Nat}
  {upstp lostp : stdata cdevcnt} {muxid : Int} {ep : Nat} {up : Fin cdevcnt} {us vs : List Nat}

/-- `mux_addedge` writes to the node, if it has no edges, and otherwise to its last one. -/
theorem mux_addedge_paths (h : Shape m out) (unused : ep ∉ m.heap) (n : Fin cdevcnt) :
    Path (mux_addedge upstp lostp muxid ep m).me_nextp
      ((mux_addedge upstp lostp muxid ep m).mux_nodes n).mn_outp
        (update out upstp.major (out upstp.major ++ [ep]) n) := by
  have off : ∀ n, ep ∉ out n := fun n mem => unused (h.heap n ep mem)
  have own := h.path upstp.major
  unfold mux_addedge
  dsimp only
  cases first : (m.mux_nodes upstp.major).mn_outp with
  | none =>
    have empty : out upstp.major = [] := by
      rw [first] at own
      exact head?_eq_none_iff.mp own.head_eq.symm
    rw [Muxes.set_node, empty]
    by_cases same : n = upstp.major
    · subst same
      rw [if_pos rfl, update_self]
      exact ⟨rfl, update_self _ _ _⟩
    · rw [if_neg same, update_of_ne same]
      exact Segment.update (h.path n) (off n) none
  | some head =>
    obtain ⟨us, l, list⟩ : ∃ us l, out upstp.major = us ++ [l] := by
      rcases eq_nil_or_concat (out upstp.major) with empty | ⟨us, l, list⟩
      · rw [first, empty] at own
        exact nomatch show some head = none from own
      · exact ⟨us, l, list.trans concat_eq_append⟩
    have short : us.length ≤ m.heap.length := by
      have all := h.short upstp.major
      rw [list, length_append] at all
      omega
    have tail : last m.me_nextp m.heap.length head = l := by
      rw [first, list] at own
      exact own.last_eq short
    have other : l ≠ ep := by
      rintro rfl
      exact off upstp.major (list ▸ mem_append_right _ mem_cons_self)
    dsimp only
    rw [tail, update_comm other]
    by_cases same : n = upstp.major
    · subst same
      rw [update_self]
      have nodup := h.nodup upstp.major
      have away := off upstp.major
      rw [list] at nodup away own ⊢
      exact NextChains.Path.concat (own.update away none) nodup away (update_self _ _ _)
    · rw [update_of_ne same]
      refine (Segment.update (h.path n) (off n) none).update (fun mem => same ?_) _
      exact h.apart n _ l mem (list ▸ mem_append_right _ mem_cons_self)

theorem mux_addedge_shape (h : Shape m out) (unused : ep ∉ m.heap) :
    Shape (mux_addedge upstp lostp muxid ep m)
      (update out upstp.major (out upstp.major ++ [ep])) := by
  have off : ∀ n, ep ∉ out n := fun n mem => unused (h.heap n ep mem)
  have heap : (mux_addedge upstp lostp muxid ep m).heap = ep :: m.heap := by
    unfold mux_addedge
    dsimp only
    split <;> rfl
  refine ⟨mux_addedge_paths h unused, fun n e mem => ?_, fun n => ?_, fun n n' e mem mem' => ?_⟩
  · rw [heap]
    rw [update_apply] at mem
    split at mem
    · rcases mem_append.mp mem with old | new
      · exact mem_cons_of_mem _ (h.heap _ e old)
      · exact mem_singleton.mp new ▸ mem_cons_self
    · exact mem_cons_of_mem _ (h.heap n e mem)
  · rw [update_apply]
    split
    · exact (h.nodup _).append (nodup_singleton ep) (disjoint_singleton.mpr (off _))
    · exact h.nodup n
  · have member : ∀ n, e ∈ update out upstp.major (out upstp.major ++ [ep]) n →
        e ∈ out n ∨ (n = upstp.major ∧ e = ep) := by
      intro n mem
      by_cases same : n = upstp.major
      · subst same
        rw [update_self] at mem
        exact (mem_append.mp mem).imp_right fun new => ⟨rfl, mem_singleton.mp new⟩
      · rw [update_of_ne same] at mem
        exact .inl mem
    rcases member n mem with old | ⟨rfl, rfl⟩
    · rcases member n' mem' with old' | ⟨-, rfl⟩
      · exact h.apart n n' e old old'
      · exact absurd old (off n)
    · rcases member n' mem' with old' | ⟨rfl, -⟩
      · exact absurd old' (off n')
      · rfl

theorem mux_addedge_nodep : (mux_addedge upstp lostp muxid ep m).me_nodep =
    update m.me_nodep ep lostp.major := by
  unfold mux_addedge
  dsimp only
  split <;> rfl

theorem find_edge_spec {fuel : Nat} {pep p head : Option Nat} {xs : List Nat}
    (path : Path m.me_nextp head xs) (found : find_edge m muxid fuel pep head = some (p, ep)) :
    ∃ us vs, xs = us ++ ep :: vs ∧ p = (pep.toList ++ us).getLast? := by
  induction xs generalizing fuel pep head with
  | nil =>
    obtain rfl : head = none := path
    cases fuel <;> cases found
  | cons x xs ih =>
    obtain ⟨rfl, rest⟩ := path
    cases fuel with
    | zero => cases found
    | succ fuel =>
      unfold find_edge at found
      split at found
      · obtain ⟨rfl, rfl⟩ := Prod.mk.injEq .. ▸ Option.some.inj found
        refine ⟨[], xs, rfl, ?_⟩
        cases pep <;> rfl
      · obtain ⟨us, vs, rfl, rfl⟩ := ih rest found
        refine ⟨x :: us, vs, rfl, ?_⟩
        cases pep <;> simp

theorem update_subset (list : out up = us ++ ep :: vs) (n : Fin cdevcnt) :
    update out up (us ++ vs) n ⊆ out n := by
  by_cases same : n = up
  · subst same
    rw [update_self, list]
    exact (Sublist.append_left (sublist_cons_self ep vs) us).subset
  · rw [update_of_ne same]
    exact Subset.refl _

theorem Shape.remove (h : Shape m out) (list : out up = us ++ ep :: vs)
    (path : ∀ n, Path m'.me_nextp (m'.mux_nodes n).mn_outp (update out up (us ++ vs) n))
    (heap : m'.heap = m.heap.erase ep) :
    Shape m' (update out up (us ++ vs)) := by
  have nodup := h.nodup up
  rw [list] at nodup
  refine ⟨path, fun n e mem => ?_, fun n => ?_, fun n n' e mem mem' => ?_⟩
  · have other : e ≠ ep := by
      rintro rfl
      by_cases same : n = up
      · subst same
        rw [update_self] at mem
        have twice := nodup_middle.mp nodup
        exact (nodup_cons.mp twice).1 mem
      · rw [update_of_ne same] at mem
        exact same (h.apart n up e mem (list ▸ mem_append_right _ mem_cons_self))
    rw [heap]
    exact (mem_erase_of_ne other).mpr (h.heap n e (update_subset list n mem))
  · rw [update_apply]
    split
    · exact nodup.sublist (Sublist.append_left (sublist_cons_self ep vs) us)
    · exact h.nodup n
  · exact h.apart n n' e (update_subset list n mem) (update_subset list n' mem')

theorem mux_rmvedge_shape (h : Shape m out) : ∃ out', Shape (mux_rmvedge upstp muxid m) out' ∧
    (mux_rmvedge upstp muxid m).me_nodep = m.me_nodep ∧ ∀ n, out' n ⊆ out n := by
  have own := h.path upstp.major
  unfold mux_rmvedge
  dsimp only
  split
  · exact ⟨out, h, rfl, fun n => Subset.refl _⟩
  · next p ep found =>
    obtain ⟨us, vs, list, last⟩ := find_edge_spec own found
    obtain ⟨us, rfl⟩ : ∃ us', us = us' ++ [p] := getLast?_eq_some_iff.mp last.symm
    refine ⟨_, h.remove list (fun n => ?_) rfl, rfl, update_subset list⟩
    have nodup := h.nodup upstp.major
    by_cases same : n = upstp.major
    · subst same
      rw [update_self]
      rw [list] at own nodup
      rw [append_assoc, singleton_append] at own nodup ⊢
      exact own.skip nodup
    · rw [update_of_ne same]
      refine Segment.update (h.path n) (fun mem => same ?_) _
      exact h.apart n _ p mem (by rw [list]; simp)
  · next ep found =>
    obtain ⟨us, vs, list, last⟩ := find_edge_spec own found
    obtain rfl : us = [] := getLast?_eq_none_iff.mp last.symm
    refine ⟨_, h.remove list (fun n => ?_) rfl, rfl, update_subset list⟩
    rw [Muxes.set_node]
    by_cases same : n = upstp.major
    · subst same
      rw [if_pos rfl, update_self]
      rw [list] at own
      obtain ⟨-, rest⟩ := own
      exact rest
    · rw [if_neg same, update_of_ne same]
      exact h.path n

/-- The lists of edges are as they should be and no link closes a cycle. -/
structure Sound (m : Muxes cdevcnt) : Prop where
  shape : Shape m m.edges
  acyclic : Acyclic m.Linked

theorem linked_iff (h : Shape m out) {a b : Fin cdevcnt} :
    m.Linked a b ↔ ∃ e ∈ out a, m.me_nodep e = b := by
  unfold Muxes.Linked Muxes.targets
  rw [h.edges_eq, mem_map]

theorem Sound.of_shape (h : Shape m out) (acyclic : Acyclic m.Linked) : Sound m := by
  have edges : m.edges = out := funext h.edges_eq
  exact ⟨edges ▸ h, acyclic⟩

theorem strinit_sound (nodep : Nat → Fin cdevcnt) : Sound (strinit nodep) := by
  have shape : Shape (strinit nodep) fun _ => [] :=
    ⟨fun _ => rfl, fun _ _ => nofun, fun _ => nodup_nil, fun _ _ _ => nofun⟩
  refine Sound.of_shape shape fun a loop => ?_
  obtain ⟨b, edge, -⟩ := TransGen.head'_iff.mp loop
  obtain ⟨e, mem, -⟩ := (linked_iff shape).mp edge
  cases mem

theorem Sound.kept (h : Sound m) (kept : Kept m m') : Sound m' := by
  refine Sound.of_shape (kept.shape h.shape) ?_
  unfold Muxes.Linked
  rw [kept.targets]
  exact h.acyclic

theorem Sound.mux_rmvedge (h : Sound m) : Sound (mux_rmvedge upstp muxid m) := by
  have removed : ∃ out', Shape (Multiplexors.mux_rmvedge upstp muxid m) out' ∧ _ :=
    mux_rmvedge_shape h.shape
  obtain ⟨out', shape, nodep, sub⟩ := removed
  refine Sound.of_shape shape (h.acyclic.mono fun a b link => ?_)
  obtain ⟨e, mem, rfl⟩ := (linked_iff shape).mp link
  exact (linked_iff h.shape).mpr ⟨e, sub a mem, by rw [nodep]⟩

theorem Sound.mux_addedge (h : Sound m) (unused : ep ∉ m.heap)
    (apart : ¬ ReflTransGen m.Linked lostp.major upstp.major) :
    Sound (mux_addedge upstp lostp muxid ep m) := by
  have shape : Shape (Multiplexors.mux_addedge upstp lostp muxid ep m) _ :=
    mux_addedge_shape h.shape unused
  refine Sound.of_shape shape ((h.acyclic.add apart).mono fun a b link => ?_)
  obtain ⟨e, mem, target⟩ := (linked_iff shape).mp link
  rw [mux_addedge_nodep] at target
  have old : ∀ n, e ∈ m.edges n → e ≠ ep := fun n mem same =>
    unused (same ▸ h.shape.heap n e mem)
  by_cases same : a = upstp.major
  · subst same
    rw [update_self] at mem
    rcases mem_append.mp mem with before | new
    · rw [update_of_ne (old _ before)] at target
      exact .inl ((linked_iff h.shape).mpr ⟨e, before, target⟩)
    · obtain rfl := mem_singleton.mp new
      rw [update_self] at target
      exact .inr ⟨rfl, target.symm⟩
  · rw [update_of_ne same] at mem
    rw [update_of_ne (old _ mem)] at target
    exact .inl ((linked_iff h.shape).mpr ⟨e, mem, target⟩)

/-- A link attempt meets no stale start of a search. -/
def Fresh (m : Muxes cdevcnt) : Call cdevcnt → Prop
  | .link upmaj lomaj _ _ _ => NoStaleStart m upmaj lomaj
  | .unlink _ _ => True

theorem Sound.step (h : Sound m) {c : Call cdevcnt} (fresh : Fresh m c)
    (taken : step m c = some m') : Sound m' := by
  cases c with
  | unlink upmaj muxid =>
    obtain rfl : Multiplexors.mux_rmvedge ⟨false, upmaj⟩ muxid m = m' := Option.some.inj taken
    exact h.mux_rmvedge
  | link upmaj lomaj muxid ep rounds =>
    have keeps := linkcycle_keeps rounds ⟨false, upmaj⟩ ⟨false, lomaj⟩ m
    obtain ⟨rounds', answer, m₂, followed, returned, -, exact_⟩ :=
      linkcycle_exact_of h.shape h.acyclic fresh
    unfold Multiplexors.step at taken
    dsimp only at taken
    split at taken
    · next m₁ f ep result =>
      rw [result] at keeps
      have kept : Kept m m₁ := keeps
      split at taken
      · cases taken
      next unused =>
      obtain rfl := Option.some.inj taken
      have same := turns_unique result (by rintro s ⟨⟩) returned (by rintro s ⟨⟩)
      injection same with no
      refine (h.kept kept).mux_addedge unused fun path => ?_
      unfold Muxes.Linked at path
      rw [kept.targets] at path
      exact Bool.noConfusion (no.trans (exact_.mpr path))
    · next answer m₁ f _ result _ =>
      obtain rfl := Option.some.inj taken
      rw [result] at keeps
      exact h.kept keeps
    · cases taken

instance (m : Muxes cdevcnt) : ∀ c, Decidable (Fresh m c)
  | .link upmaj lomaj _ _ _ => inferInstanceAs (Decidable (∀ x, (m.mux_nodes x).mn_outp = none →
      (m.mux_nodes x).mn_startp ≠ none →
        (enter m.targets upmaj cdevcnt lomaj []).count x ≤ 1))
  | .unlink _ _ => inferInstanceAs (Decidable True)

/-- No link closes a cycle and every call of `linkcycle` is exact, as long as none meets a stale
start. -/
theorem linkcycle_exact (nodep : Nat → Fin cdevcnt) {calls : List (Call cdevcnt)}
    (fresh : Guarded Multiplexors.step Fresh (strinit nodep) calls) :
    Throughout Multiplexors.step (fun m => Acyclic m.Linked ∧
      ∀ upmaj lomaj, NoStaleStart m upmaj lomaj → Exact m upmaj lomaj) (strinit nodep) calls :=
  throughout_of_guarded Sound
    (fun _ h => ⟨h.acyclic, fun _ _ once => linkcycle_exact_of h.shape h.acyclic once⟩)
    (fun _ _ _ h fresh taken => h.step fresh taken) (strinit_sound nodep) fresh

/-- The driver 0 gets two links to 1, a link back is refused, both links go. Then 2 and 3 get
links to 0, and 2 to 3. -/
def stale_links : List (Call 4) :=
  [.link 0 1 1 (some 10) 9, .link 0 1 2 (some 11) 9, .link 1 0 3 none 9, .unlink 0 1, .unlink 0 2,
    .link 2 0 4 (some 12) 9, .link 3 0 5 (some 13) 9, .link 2 3 6 (some 14) 9]

theorem linkcycle_exact_links : Throughout Multiplexors.step (fun m => Acyclic m.Linked ∧
    ∀ upmaj lomaj, NoStaleStart m upmaj lomaj → Exact m upmaj lomaj) (strinit fun _ => 0)
      stale_links :=
  linkcycle_exact _ (by decide +kernel)

def Turn.is_fault : Turn cdevcnt → Bool
  | .faults => true
  | _ => false

theorem Turn.eq_faults {t : Turn cdevcnt} (fault : t.is_fault = true) : t = .faults := by
  cases t with
  | goes_on s => cases fault
  | returns => cases fault
  | faults => rfl

/-- A search from 2 comes to 0 twice and the second time reads the freed edge 11. -/
theorem stale_start_is_followed : ∃ m, exec Multiplexors.step (strinit fun _ => 0) stale_links =
    some m ∧ ¬ Exact m 1 2 := by
  have runs : (exec Multiplexors.step (strinit fun _ => 0) stale_links).isSome := by decide +kernel
  have faults : ∀ runs, (linkcycle 20 ⟨false, 1⟩ ⟨false, 2⟩
      ((exec Multiplexors.step (strinit fun _ => 0) stale_links).get runs)).is_fault := by
    decide +kernel
  refine ⟨_, (Option.some_get runs).symm, ?_⟩
  rintro ⟨rounds, answer, m', followed, returned, -⟩
  have same := turns_unique (Turn.eq_faults (faults runs)) (by rintro s ⟨⟩) returned
    (by rintro s ⟨⟩)
  cases same

end Multiplexors
