import Svr4.Chains

/- Singly linked lists with a pointer to the last cell: cells are added behind it, taken from the
   front, and unlinked with the cell in front of them at hand. -/
namespace TailedLists
open Function NextChains List

/-- The links of the cells, and the ends of the list. -/
structure Ends where
  next : Nat → Option Nat
  head : Option Nat
  tail : Option Nat

/-- The list is these cells, each once. -/
structure Held (e : Ends) (xs : List Nat) : Prop where
  path : Path e.next e.head xs
  nodup : xs.Nodup
  last : e.tail = xs.getLast?

/-- `if (!head) head = q; else tail->next = q; tail = q; q->next = NULL;` -/
def enqueue (e : Ends) (q : Nat) : Ends where
  next :=
    update
      (match e.head, e.tail with
      | some _, some t => update e.next t (some q)
      | _, _ => e.next) q none
  head := some (e.head.getD q)
  tail := some q

/-- `head = head->next; if (!head) tail = NULL;` -/
def dequeue (e : Ends) (q : Nat) : Ends where
  next := e.next
  head := e.next q
  tail := if e.next q = none then none else e.tail

/-- `q` is unlinked from behind `prev`. -/
def unlink (e : Ends) (prev : Option Nat) (q : Nat) : Ends where
  next :=
    match prev with
    | some p => update e.next p (e.next q)
    | none => e.next
  head := if prev = none then e.next q else e.head
  tail := if e.tail = some q then prev else e.tail

/-- `for (q = head; q; q = q->next)`: unlink the cells that go; `none` is a loop without end. -/
def sweep (goes : Nat → Bool) : Nat → Ends → Option Nat → Option Nat → Option Ends
  | _, e, _, none => some e
  | 0, _, _, some _ => none
  | fuel + 1, e, prev, some q =>
      if goes q then
        let e := unlink e prev q
        sweep goes fuel e prev (e.next q)
      else sweep goes fuel e (some q) (e.next q)

/-- `for (q = head; q; q = q->next)`: the cell looked for, and the one in front of it. -/
def search (found : Nat → Bool) (next : Nat → Option Nat) :
    Nat → Option Nat → Option Nat → Option (Option (Option Nat × Nat))
  | _, _, none => some none
  | 0, _, some _ => none
  | fuel + 1, prev, some q =>
      if found q then some (some (prev, q)) else search found next fuel (some q) (next q)

variable {e : Ends} {xs ys us vs : List Nat} {q fuel : Nat}

theorem held_nil {next : Nat → Option Nat} : Held ⟨next, none, none⟩ [] := ⟨rfl, nodup_nil, rfl⟩

theorem Held.head_eq (held : Held e xs) : e.head = xs.head? := held.path.head_eq

theorem Held.enqueue (held : Held e xs) (off : q ∉ xs) : Held (enqueue e q) (xs ++ [q]) := by
  obtain ⟨path, nodup, last⟩ := held
  have nodup' : (xs ++ [q]).Nodup := by
    rw [nodup_append]
    refine ⟨nodup, nodup_singleton q, fun a mem b single => ?_⟩
    rintro rfl
    rw [mem_singleton.mp single] at mem
    exact off mem
  refine ⟨?_, nodup', by simp [TailedLists.enqueue]⟩
  rcases eq_nil_or_concat xs with rfl | ⟨ys, t, rfl⟩
  · have head : e.head = none := path
    refine ⟨?_, ?_⟩
    · show some (e.head.getD q) = some q
      rw [head]
      rfl
    · exact update_self ..
  rw [concat_eq_append] at *
  have tail : e.tail = some t := by rw [last, getLast?_concat]
  obtain ⟨h, head⟩ : ∃ h, e.head = some h := by
    cases ys with
    | nil => exact ⟨t, path.1⟩
    | cons y ys => exact ⟨y, path.1⟩
  have other : t ≠ q := by
    rintro rfl
    simp at off
  -- the link of `q` may be anything before it is cleared
  have cleared := Segment.update path off none
  have joined := NextChains.Path.concat cleared nodup off (update_self q none e.next)
  unfold TailedLists.enqueue
  rw [head, tail]
  rw [update_comm other]
  rw [head] at joined
  exact joined

theorem Held.dequeue (held : Held e (q :: xs)) : Held (dequeue e q) xs := by
  obtain ⟨path, nodup, last⟩ := held
  obtain ⟨-, rest⟩ := path
  refine ⟨rest, (nodup_cons.mp nodup).2, ?_⟩
  unfold TailedLists.dequeue
  rw [Path.head_eq rest, last]
  cases xs with
  | nil => rfl
  | cons x xs => simp

theorem getLast?_skip {us vs : List Nat} {q : Nat} :
    (us ++ vs).getLast? = if vs = [] then us.getLast? else (us ++ q :: vs).getLast? := by
  cases vs with
  | nil => simp
  | cons v vs => simp [getLast?_append, getLast?_cons]

theorem Held.unlink (held : Held e (us ++ q :: vs)) :
    Held (unlink e us.getLast? q) (us ++ vs) ∧ (unlink e us.getLast? q).next q = vs.head? := by
  obtain ⟨path, nodup, last⟩ := held
  have link : e.next q = vs.head? := path.next_eq
  have nodup' : (us ++ vs).Nodup := nodup.sublist ((sublist_cons_self q vs).append_left us)
  have tail : (TailedLists.unlink e us.getLast? q).tail = (us ++ vs).getLast? := by
    show (if e.tail = some q then us.getLast? else e.tail) = _
    rw [getLast?_skip (q := q), last]
    cases vs with
    | nil => simp
    | cons v vs =>
      have later : (us ++ q :: v :: vs).getLast? ≠ some q := by
        intro same
        rw [getLast?_append, getLast?_cons_cons] at same
        have mem : q ∈ v :: vs := by
          rcases eq_nil_or_concat (v :: vs) with nil | ⟨ws, w, whole⟩
          · cases nil
          · rw [whole, concat_eq_append, getLast?_concat] at same
            obtain rfl : w = q := by simpa using same
            rw [whole]
            simp
        exact (nodup_cons.mp (nodup_append.mp nodup).2.1).1 mem
      rw [if_neg later, if_neg (cons_ne_nil v vs)]
  rcases eq_nil_or_concat us with rfl | ⟨ws, p, rfl⟩
  · exact ⟨⟨path.2, nodup', tail⟩, link⟩
  rw [concat_eq_append] at *
  have skipped : Path (update e.next p (e.next q)) e.head (ws ++ p :: vs) := by
    apply Path.skip
    · simpa using path
    · simpa using nodup
  have apart : q ≠ p := by
    rintro rfl
    exact (nodup_append.mp nodup).2.2 q (by simp) q mem_cons_self rfl
  unfold TailedLists.unlink at tail ⊢
  rw [getLast?_concat] at tail ⊢
  refine ⟨⟨?_, nodup', tail⟩, ?_⟩
  · simpa using skipped
  · show update e.next p (e.next q) q = _
    rw [update_of_ne apart]
    exact link

theorem sweep_held (us : List Nat) (goes : Nat → Bool) {e' : Ends} (held : Held e (us ++ vs))
    (swept : sweep goes fuel e us.getLast? vs.head? = some e') :
    Held e' (us ++ vs.filter fun v => !goes v) := by
  induction vs generalizing fuel us e with
  | nil =>
    have done : some e = some e' := by
      cases fuel <;> exact swept
    cases done
    exact held
  | cons v vs ih =>
    cases fuel with
    | zero => cases swept
    | succ fuel =>
      have step : sweep goes (fuel + 1) e us.getLast? (v :: vs).head? =
          if goes v then sweep goes fuel (unlink e us.getLast? v) us.getLast?
            ((unlink e us.getLast? v).next v)
          else sweep goes fuel e (some v) (e.next v) := rfl
      rw [step] at swept
      cases going : goes v with
      | true =>
        obtain ⟨held', link⟩ := held.unlink
        rw [going, if_pos rfl, link] at swept
        rw [filter_cons_of_neg (by simp [going])]
        exact ih _ held' swept
      | false =>
        have held' : Held e (us ++ [v] ++ vs) := by simpa using held
        rw [going, if_neg (by decide), held.path.next_eq] at swept
        rw [filter_cons_of_pos (by simp [going])]
        rw [← getLast?_concat (l := us)] at swept
        simpa using ih _ held' swept

/-- A search that ends has found nothing, or the first cell that is looked for. -/
theorem search_hit (us : List Nat) (found : Nat → Bool) {hit : Option (Option Nat × Nat)}
    (path : Path e.next e.head (us ++ vs))
    (searched : search found e.next fuel us.getLast? vs.head? = some hit) :
    hit = none ∨ ∃ ws q zs, vs = ws ++ q :: zs ∧ hit = some ((us ++ ws).getLast?, q) := by
  induction vs generalizing fuel us with
  | nil =>
    have nothing : some none = some hit := by
      cases fuel <;> exact searched
    exact .inl (Option.some.inj nothing).symm
  | cons v vs ih =>
    cases fuel with
    | zero => cases searched
    | succ fuel =>
      have step : search found e.next (fuel + 1) us.getLast? (v :: vs).head? =
          if found v then some (some (us.getLast?, v))
          else search found e.next fuel (some v) (e.next v) := rfl
      rw [step] at searched
      split at searched
      · exact .inr ⟨[], v, vs, rfl, by rw [append_nil, Option.some.inj searched]⟩
      · have path' : Path e.next e.head (us ++ [v] ++ vs) := by simpa using path
        rw [path.next_eq, ← getLast?_concat (l := us)] at searched
        rcases ih _ path' searched with nothing | ⟨ws, q, zs, rfl, hit⟩
        · exact .inl nothing
        · exact .inr ⟨v :: ws, q, zs, rfl, by simpa using hit⟩

def Loose (e : Ends) (xs : List Nat) : Prop := Held e xs ∨ e.head = none ∧ xs = []

theorem Loose.head_eq (loose : Loose e xs) : e.head = xs.head? := by
  rcases loose with held | ⟨head, rfl⟩
  · exact held.head_eq
  · exact head

theorem Loose.nodup (loose : Loose e xs) : xs.Nodup := by
  rcases loose with held | ⟨-, rfl⟩
  · exact held.nodup
  · exact nodup_nil

theorem Loose.path (loose : Loose e xs) : Path e.next e.head xs := by
  rcases loose with held | ⟨head, rfl⟩
  · exact held.path
  · exact head

theorem Loose.enqueue (loose : Loose e xs) (off : q ∉ xs) :
    Held (TailedLists.enqueue e q) (xs ++ [q]) := by
  rcases loose with held | ⟨head, rfl⟩
  · exact held.enqueue off
  · refine ⟨⟨?_, ?_⟩, nodup_singleton q, rfl⟩
    · show some (e.head.getD q) = some q
      rw [head]
      rfl
    · exact update_self ..

/-- `head = head->next;` -/
theorem Loose.advance (loose : Loose e (q :: xs)) : Loose { e with head := e.next q } xs := by
  have path := loose.path.2
  rcases loose with held | ⟨-, nil⟩
  · cases xs with
    | nil => exact .inr ⟨path, rfl⟩
    | cons x xs =>
      refine .inl ⟨path, (nodup_cons.mp held.nodup).2, ?_⟩
      rw [held.last, getLast?_cons_cons]
  · cases nil

theorem Loose.unlink (loose : Loose e (us ++ q :: vs)) :
    Held (TailedLists.unlink e us.getLast? q) (us ++ vs) := by
  rcases loose with held | ⟨-, nil⟩
  · exact held.unlink.1
  · simp at nil

end TailedLists
