import Mathlib.Data.List.Forall2

/- Programs over the operations of a stream. A program reads or writes words and runs of bytes,
   takes positions and goes back to them, and ends at the first operation that fails. -/
namespace StreamPrograms
open List
variable {W B α β σ τ φ ψ α' β' : Type} {reads writes : Prop} {E : φ → ψ → Prop} {marks' : List τ}
  {P : α → Prop} {marks : List σ} {s : σ} {t : τ}

/-- `reads` and `writes` say which way the stream goes. A position is known by its number. -/
inductive Prog (reads writes : Prop) (W B α : Type) : Type where
  | done (a : α)
  | fail
  | getword (h : reads) (next : W → Prog reads writes W B α)
  | putword (h : writes) (w : W) (next : Prog reads writes W B α)
  | getbytes (h : reads) (len : Nat) (next : List B → Prog reads writes W B α)
  | putbytes (h : writes) (bs : List B) (next : Prog reads writes W B α)
  | getpos (next : Prog reads writes W B α)
  | setpos (i : Nat) (next : Prog reads writes W B α)

def Prog.bind : Prog reads writes W B α → (α → Prog reads writes W B β) → Prog reads writes W B β
  | .done a, f => f a
  | .fail, _ => .fail
  | .getword h next, f => .getword h fun w => (next w).bind f
  | .putword h w next, f => .putword h w (next.bind f)
  | .getbytes h len next, f => .getbytes h len fun bs => (next bs).bind f
  | .putbytes h bs next, f => .putbytes h bs (next.bind f)
  | .getpos next, f => .getpos (next.bind f)
  | .setpos i next, f => .setpos i (next.bind f)

/-- The operations of a kind of stream. What a failed operation leaves is of type `φ`. -/
structure Ops (W B σ φ : Type) where
  getword : σ → Except φ (W × σ)
  putword : σ → W → Except φ σ
  getbytes : σ → Nat → Except φ (List B × σ)
  putbytes : σ → List B → Except φ σ
  getpos : σ → Nat
  setpos : σ → Nat → Except φ σ
  left : σ → φ

/-- A position is kept as the stream it was taken from. -/
def run (ops : Ops W B σ φ) : Prog reads writes W B α → σ → List σ → Except φ (α × σ × List σ)
  | .done a, s, marks => .ok (a, s, marks)
  | .fail, s, _ => .error (ops.left s)
  | .getword _ next, s, marks => (ops.getword s).bind fun x => run ops (next x.1) x.2 marks
  | .putword _ w next, s, marks => (ops.putword s w).bind fun t => run ops next t marks
  | .getbytes _ len next, s, marks =>
    (ops.getbytes s len).bind fun x => run ops (next x.1) x.2 marks
  | .putbytes _ bs next, s, marks => (ops.putbytes s bs).bind fun t => run ops next t marks
  | .getpos next, s, marks => run ops next s (marks ++ [s])
  | .setpos i next, s, marks =>
    match marks[i]? with
    | some mark => (ops.setpos s (ops.getpos mark)).bind fun t => run ops next t marks
    | none => .error (ops.left s)

theorem run_bind (ops : Ops W B σ φ) (p : Prog reads writes W B α)
    (f : α → Prog reads writes W B β) (s : σ) (marks : List σ) :
    run ops (p.bind f) s marks = (run ops p s marks).bind fun r => run ops (f r.1) r.2.1 r.2.2 := by
  induction p generalizing s marks with
  | done a => rfl
  | fail => rfl
  | getword h next ih =>
    simp only [Prog.bind, run]
    cases ops.getword s with
    | ok x => exact ih x.1 x.2 marks
    | error e => rfl
  | putword h w next ih =>
    simp only [Prog.bind, run]
    cases ops.putword s w with
    | ok t => exact ih t marks
    | error e => rfl
  | getbytes h len next ih =>
    simp only [Prog.bind, run]
    cases ops.getbytes s len with
    | ok x => exact ih x.1 x.2 marks
    | error e => rfl
  | putbytes h bs next ih =>
    simp only [Prog.bind, run]
    cases ops.putbytes s bs with
    | ok t => exact ih t marks
    | error e => rfl
  | getpos next ih => exact ih s (marks ++ [s])
  | setpos i next ih =>
    simp only [Prog.bind, run]
    cases marks[i]? with
    | some mark =>
      dsimp only
      cases ops.setpos s (ops.getpos mark) with
      | ok t => exact ih t marks
      | error e => rfl
    | none => rfl

inductive Request (W B σ : Type) where
  | getword
  | putword (w : W)
  | getbytes (len : Nat)
  | putbytes (bs : List B)
  | setpos (mark : σ)

def Results (P : α → Prop) : Except φ α → Prop
  | .ok a => P a
  | .error _ => True

instance Results.decidable (P : α → Prop) [∀ a, Decidable (P a)] :
    (x : Except φ α) → Decidable (Results P x)
  | .ok a => inferInstanceAs (Decidable (P a))
  | .error _ => inferInstanceAs (Decidable True)

variable {E : φ → ψ → Prop} {R : α → β → Prop} {x : Except φ α} {y : Except ψ β}

theorem Results.of_ok {a : α} (results : Results P x) (same : x = .ok a) : P a := by
  subst same
  exact results

def Guarded (ops : Ops W B σ φ) (ok : σ → Request W B σ → Prop) :
    Prog reads writes W B α → σ → List σ → Prop
  | .done _, _, _ => True
  | .fail, _, _ => True
  | .getword _ next, s, marks =>
    ok s .getword ∧ Results (fun x => Guarded ops ok (next x.1) x.2 marks) (ops.getword s)
  | .putword _ w next, s, marks =>
    ok s (.putword w) ∧ Results (fun t => Guarded ops ok next t marks) (ops.putword s w)
  | .getbytes _ len next, s, marks =>
    ok s (.getbytes len) ∧
      Results (fun x => Guarded ops ok (next x.1) x.2 marks) (ops.getbytes s len)
  | .putbytes _ bs next, s, marks =>
    ok s (.putbytes bs) ∧ Results (fun t => Guarded ops ok next t marks) (ops.putbytes s bs)
  | .getpos next, s, marks => Guarded ops ok next s (marks ++ [s])
  | .setpos i next, s, marks =>
    match marks[i]? with
    | some mark => ok s (.setpos mark) ∧
        Results (fun t => Guarded ops ok next t marks) (ops.setpos s (ops.getpos mark))
    | none => True

instance Guarded.decidable (ops : Ops W B σ φ) (ok : σ → Request W B σ → Prop)
    [∀ s r, Decidable (ok s r)] : (p : Prog reads writes W B α) → (s : σ) → (marks : List σ) →
      Decidable (Guarded ops ok p s marks)
  | .done _, _, _ | .fail, _, _ => inferInstanceAs (Decidable True)
  | .getword _ next, s, marks =>
    have : ∀ x : W × σ, Decidable (Guarded ops ok (next x.1) x.2 marks) :=
      fun x => Guarded.decidable ops ok (next x.1) x.2 marks
    inferInstanceAs (Decidable (_ ∧ Results _ _))
  | .putword _ _ next, s, marks =>
    have : ∀ t, Decidable (Guarded ops ok next t marks) :=
      fun t => Guarded.decidable ops ok next t marks
    inferInstanceAs (Decidable (_ ∧ Results _ _))
  | .getbytes _ _ next, s, marks =>
    have : ∀ x : List B × σ, Decidable (Guarded ops ok (next x.1) x.2 marks) :=
      fun x => Guarded.decidable ops ok (next x.1) x.2 marks
    inferInstanceAs (Decidable (_ ∧ Results _ _))
  | .putbytes _ _ next, s, marks =>
    have : ∀ t, Decidable (Guarded ops ok next t marks) :=
      fun t => Guarded.decidable ops ok next t marks
    inferInstanceAs (Decidable (_ ∧ Results _ _))
  | .getpos next, s, marks => Guarded.decidable ops ok next s (marks ++ [s])
  | .setpos i next, s, marks =>
    have : ∀ t, Decidable (Guarded ops ok next t marks) :=
      fun t => Guarded.decidable ops ok next t marks
    match h : marks[i]? with
    | some _ => decidable_of_iff (_ ∧ Results _ _) (by rw [Guarded, h])
    | none => isTrue (by rw [Guarded, h]; trivial)

/-- Both fail, or both give results. -/
inductive Agree (E : φ → ψ → Prop) (R : α → β → Prop) : Except φ α → Except ψ β → Prop where
  | ok {a : α} {b : β} (related : R a b) : Agree E R (.ok a) (.ok b)
  | error {d : φ} {e : ψ} (related : E d e) : Agree E R (.error d) (.error e)

theorem Agree.bind {R' : α' → β' → Prop} {f : α → Except φ α'} {g : β → Except ψ β'}
    (first : Agree E R x y) (then_ : ∀ a b, x = .ok a → R a b → Agree E R' (f a) (g b)) :
    Agree E R' (x.bind f) (y.bind g) := by
  cases first with
  | ok related => exact then_ _ _ rfl related
  | error related => exact .error related

theorem Agree.map {R' : α' → β' → Prop} {f : α → α'} {g : β → β'} (first : Agree E R x y)
    (then_ : ∀ a b, R a b → R' (f a) (g b)) :
    Agree E R' (x.map f) (y.map g) := by
  cases first with
  | ok related => exact .ok (then_ _ _ related)
  | error related => exact .error related

theorem Agree.mono {E' : φ → ψ → Prop} {R' : α → β → Prop} (agree : Agree E R x y)
    (errors : ∀ d e, E d e → E' d e) (results : ∀ a b, R a b → R' a b) : Agree E' R' x y := by
  cases agree with
  | ok related => exact .ok (results _ _ related)
  | error related => exact .error (errors _ _ related)

theorem Agree.trans {γ χ : Type} {E' : ψ → χ → Prop} {R' : β → γ → Prop} {z : Except χ γ}
    (first : Agree E R x y) (second : Agree E' R' y z) :
    Agree (fun d f => ∃ e, E d e ∧ E' e f) (fun a c => ∃ b, R a b ∧ R' b c) x z := by
  cases first with
  | ok related =>
    cases second with
    | ok related' => exact .ok ⟨_, related, related'⟩
  | error related =>
    cases second with
    | error related' => exact .error ⟨_, related, related'⟩

/-- Streams related by `R` do alike what a stream of the first kind is asked with care. -/
structure Simulation (reads writes : Prop) (ops : Ops W B σ φ) (ops' : Ops W B τ ψ)
    (ok : σ → Request W B σ → Prop) (R : σ → τ → Prop) (E : φ → ψ → Prop) : Prop where
  getword : reads → ∀ {s t}, R s t → ok s .getword →
    Agree E (fun x y => x.1 = y.1 ∧ R x.2 y.2) (ops.getword s) (ops'.getword t)
  putword : writes → ∀ {s t} w, R s t → ok s (.putword w) →
    Agree E R (ops.putword s w) (ops'.putword t w)
  getbytes : reads → ∀ {s t} len, R s t → ok s (.getbytes len) →
    Agree E (fun x y => x.1 = y.1 ∧ R x.2 y.2) (ops.getbytes s len) (ops'.getbytes t len)
  putbytes : writes → ∀ {s t} bs, R s t → ok s (.putbytes bs) →
    Agree E R (ops.putbytes s bs) (ops'.putbytes t bs)
  setpos : ∀ {s t mark mark'}, R s t → R mark mark' → ok s (.setpos mark) →
    Agree E R (ops.setpos s (ops.getpos mark)) (ops'.setpos t (ops'.getpos mark'))
  left : ∀ {s t}, R s t → E (ops.left s) (ops'.left t)

/-- A guarded run of the first kind of stream is matched by one of the second. -/
theorem Simulation.run {ops : Ops W B σ φ} {ops' : Ops W B τ ψ} {ok : σ → Request W B σ → Prop}
    {R : σ → τ → Prop} (sim : Simulation reads writes ops ops' ok R E) (p : Prog reads writes W B α)
    (related : R s t) (marked : List.Forall₂ R marks marks') (guarded : Guarded ops ok p s marks) :
    Agree E (fun x y => x.1 = y.1 ∧ R x.2.1 y.2.1) (run ops p s marks) (run ops' p t marks') := by
  induction p generalizing s t marks marks' with
  | done a => exact .ok ⟨rfl, related⟩
  | fail => exact .error (sim.left related)
  | getword h next ih =>
    refine (sim.getword h related guarded.1).bind fun x y taken both => ?_
    rw [← both.1]
    exact ih x.1 both.2 marked (guarded.2.of_ok taken)
  | putword h w next ih =>
    exact (sim.putword h w related guarded.1).bind fun x y taken both =>
      ih both marked (guarded.2.of_ok taken)
  | getbytes h len next ih =>
    refine (sim.getbytes h len related guarded.1).bind fun x y taken both => ?_
    rw [← both.1]
    exact ih x.1 both.2 marked (guarded.2.of_ok taken)
  | putbytes h bs next ih =>
    exact (sim.putbytes h bs related guarded.1).bind fun x y taken both =>
      ih both marked (guarded.2.of_ok taken)
  | getpos next ih => exact ih related (rel_append marked (.cons related .nil)) guarded
  | setpos i next ih =>
    unfold StreamPrograms.run
    by_cases known : i < marks.length
    · have known' : i < marks'.length := marked.length_eq ▸ known
      have mark := getElem?_eq_getElem known
      rw [mark, getElem?_eq_getElem known']
      rw [Guarded, mark] at guarded
      exact (sim.setpos related (marked.get known known') guarded.1).bind fun x y taken both =>
        ih both marked (guarded.2.of_ok taken)
    · have unknown : marks'.length ≤ i := by
        rw [← marked.length_eq]
        omega
      rw [getElem?_eq_none (by omega), getElem?_eq_none unknown]
      exact .error (sim.left related)

/-- What is asked with care of the first kind of stream satisfies `ok'` on the second kind. -/
structure Carried (ok : σ → Request W B σ → Prop) (ok' : τ → Request W B τ → Prop)
    (R : σ → τ → Prop) : Prop where
  getword : ∀ {s t}, R s t → ok s .getword → ok' t .getword
  putword : ∀ {s t} w, R s t → ok s (.putword w) → ok' t (.putword w)
  getbytes : ∀ {s t} len, R s t → ok s (.getbytes len) → ok' t (.getbytes len)
  putbytes : ∀ {s t} bs, R s t → ok s (.putbytes bs) → ok' t (.putbytes bs)
  setpos : ∀ {s t mark mark'}, R s t → R mark mark' → ok s (.setpos mark) → ok' t (.setpos mark')

theorem Agree.results {R : α → β → Prop} {x : Except φ α} {y : Except ψ β} {Q : β → Prop}
    (agree : Agree E R x y) (results : Results P x) (carry : ∀ a b, R a b → P a → Q b) :
    Results Q y := by
  cases agree with
  | ok related => exact carry _ _ related results
  | error related => trivial

theorem Simulation.guarded {ops : Ops W B σ φ} {ops' : Ops W B τ ψ} {ok : σ → Request W B σ → Prop}
    {ok' : τ → Request W B τ → Prop} {R : σ → τ → Prop}
    (sim : Simulation reads writes ops ops' ok R E) (carried : Carried ok ok' R)
    (p : Prog reads writes W B α) (related : R s t) (marked : List.Forall₂ R marks marks')
    (guarded : Guarded ops ok p s marks) : Guarded ops' ok' p t marks' := by
  induction p generalizing s t marks marks' with
  | done a => trivial
  | fail => trivial
  | getword h next ih =>
    refine ⟨carried.getword related guarded.1,
      (sim.getword h related guarded.1).results guarded.2 fun x y both rest => ?_⟩
    rw [← both.1]
    exact ih x.1 both.2 marked rest
  | putword h w next ih =>
    exact ⟨carried.putword w related guarded.1,
      (sim.putword h w related guarded.1).results guarded.2 fun x y both rest =>
        ih both marked rest⟩
  | getbytes h len next ih =>
    refine ⟨carried.getbytes len related guarded.1,
      (sim.getbytes h len related guarded.1).results guarded.2 fun x y both rest => ?_⟩
    rw [← both.1]
    exact ih x.1 both.2 marked rest
  | putbytes h bs next ih =>
    exact ⟨carried.putbytes bs related guarded.1,
      (sim.putbytes h bs related guarded.1).results guarded.2 fun x y both rest =>
        ih both marked rest⟩
  | getpos next ih => exact ih related (rel_append marked (.cons related .nil)) guarded
  | setpos i next ih =>
    unfold Guarded at guarded ⊢
    by_cases known : i < marks.length
    · have known' : i < marks'.length := marked.length_eq ▸ known
      have mark := marked.get known known'
      rw [getElem?_eq_getElem known] at guarded
      rw [getElem?_eq_getElem known']
      exact ⟨carried.setpos related mark guarded.1,
        (sim.setpos related mark guarded.1).results guarded.2 fun x y both rest =>
          ih both marked rest⟩
    · have unknown : marks'.length ≤ i := by
        rw [← marked.length_eq]
        omega
      rw [getElem?_eq_none unknown]
      trivial

end StreamPrograms
