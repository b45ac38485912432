import Mathlib.Data.List.Perm.Subperm
import Svr4.Msg.Messages

/- Every message header is in one place: on the free list, on a queue, or with a sender. -/
namespace MessageQueues
open Function NextChains List

variable {info : MsgInfo} {h : Pool} {fs : List Nat} {qs : Nat → List Nat} {x k p tql : Nat}

inductive Place
  | free
  | queue (k : Nat)
  | held (p : Nat)
deriving DecidableEq

structure Chained (tql : Nat) (h : Pool) (fs : List Nat) (qs : Nat → List Nat)
    (place : Nat → Place) : Prop where
  free : Path h.msg_next h.msgfp fs
  free_nodup : fs.Nodup
  free_iff : ∀ x, x ∈ fs ↔ x < tql ∧ place x = .free
  queue : ∀ k, Path h.msg_next (h.msgque k).msg_first (qs k)
  last : ∀ k, (h.msgque k).msg_last = (qs k).getLast?
  queue_nodup : ∀ k, (qs k).Nodup
  queue_iff : ∀ k x, x ∈ qs k ↔ x < tql ∧ place x = .queue k

variable {place : Nat → Place}

section
variable (chained : Chained tql h fs qs place)
include chained

theorem Chained.congr {h' : Pool} (next : h'.msg_next = h.msg_next) (top : h'.msgfp = h.msgfp)
    (first : ∀ k, (h'.msgque k).msg_first = (h.msgque k).msg_first)
    (last : ∀ k, (h'.msgque k).msg_last = (h.msgque k).msg_last) : Chained tql h' fs qs place := by
  refine { chained with free := ?_, queue := ?_, last := ?_ }
  · rw [next, top]
    exact chained.free
  · intro k
    rw [next, first]
    exact chained.queue k
  · intro k
    rw [last]
    exact chained.last k

theorem Chained.off_free (there : place x ≠ .free) : x ∉ fs :=
  fun mem => there ((chained.free_iff x).mp mem).2

theorem Chained.off_queue (there : place x ≠ .queue k) :
    x ∉ qs k := fun mem => there ((chained.queue_iff k x).mp mem).2

theorem Chained.apart {j : Nat} (mem : x ∈ qs k) (other : j ≠ k) : x ∉ qs j := by
  apply chained.off_queue
  rw [((chained.queue_iff k x).mp mem).2]
  intro same
  exact other (Place.queue.inj same).symm

theorem Chained.short (k : Nat) : (qs k).length ≤ tql := by
  have sub : qs k ⊆ range tql := by
    intro x mem
    exact mem_range.mpr ((chained.queue_iff k x).mp mem).1
  have := (subperm_of_subset (chained.queue_nodup k) sub).length_le
  rwa [length_range] at this

theorem Chained.first_eq (k : Nat) :
    (h.msgque k).msg_first = (qs k).head? := (chained.queue k).head_eq

end

/-! What the operations do to the places -/

section
variable {l l' : List Nat} {b : Nat} {now later : Place} (members : ∀ y, y ∈ l ↔ y < b ∧ place y = now)
include members

theorem mem_goes (listed : ∀ y, y ∈ l' ↔ y ∈ l ∧ y ≠ x) (differs : now ≠ later) :
    ∀ y, y ∈ l' ↔ y < b ∧ update place x later y = now := by
  intro y
  rw [listed, members]
  by_cases same : y = x
  · subst same
    simp [differs.symm]
  · simp [same]

theorem mem_stays (off : x ∉ l) (differs : now ≠ later) :
    ∀ y, y ∈ l ↔ y < b ∧ update place x later y = now :=
  mem_goes members (fun _ => iff_self_and.mpr fun mem => ne_of_mem_of_not_mem mem off) differs

theorem mem_comes (listed : ∀ y, y ∈ l' ↔ y = x ∨ y ∈ l) (small : x < b) :
    ∀ y, y ∈ l' ↔ y < b ∧ update place x now y = now := by
  intro y
  rw [listed, members]
  by_cases same : y = x
  · subst same
    simp [small]
  · simp [same]

end

section
variable (chained : Chained tql h fs qs place)
include chained

theorem Chained.take_ok (top : h.msgfp = some x) (p : Nat) :
    x < tql ∧ place x = .free ∧ ∃ fs', fs = x :: fs' ∧
      Chained tql (h.take x) fs' qs (update place x (.held p)) := by
  have path := chained.free
  rw [top] at path
  obtain ⟨fs', rfl, rest⟩ := path.pop
  obtain ⟨off, nodup⟩ := nodup_cons.mp chained.free_nodup
  obtain ⟨small, here⟩ := (chained.free_iff x).mp mem_cons_self
  refine ⟨small, here, fs', rfl, rest, nodup, ?_, chained.queue, chained.last, chained.queue_nodup, ?_⟩
  · refine mem_goes chained.free_iff (fun y => ?_) nofun
    rw [mem_cons]
    constructor
    · intro mem
      exact ⟨.inr mem, ne_of_mem_of_not_mem mem off⟩
    · rintro ⟨rfl | mem, other⟩
      · exact absurd rfl other
      · exact mem
  · intro k
    exact mem_stays (chained.queue_iff k) (chained.off_queue (by rw [here]; exact nofun)) nofun

theorem Chained.give_ok (small : x < tql) (here : place x = .held p) :
    Chained tql (h.give x) (x :: fs) qs (update place x .free) := by
  have off : x ∉ fs := chained.off_free (by rw [here]; exact nofun)
  have off_queue : ∀ k, x ∉ qs k := fun k => chained.off_queue (by rw [here]; exact nofun)
  exact ⟨chained.free.push off, nodup_cons.mpr ⟨off, chained.free_nodup⟩,
    mem_comes chained.free_iff (fun _ => mem_cons) small,
    fun k => Segment.update (chained.queue k) (off_queue k) _, chained.last, chained.queue_nodup,
    fun k => mem_stays (chained.queue_iff k) (off_queue k) nofun⟩

/-- One queue gets another list, and the links of the other lists stay. -/
theorem Chained.edit {h' : Pool} {qp : MsqidDs} {l : List Nat} {place' : Nat → Place}
    (queues : h'.msgque = update h.msgque k qp) (free : Path h'.msg_next h'.msgfp fs)
    (path : Path h'.msg_next qp.msg_first l) (last : qp.msg_last = l.getLast?) (nodup : l.Nodup)
    (kept : ∀ j, j ≠ k → Path h'.msg_next (h.msgque j).msg_first (qs j))
    (free_iff : ∀ y, y ∈ fs ↔ y < tql ∧ place' y = .free)
    (queue_iff : ∀ y, y ∈ l ↔ y < tql ∧ place' y = .queue k)
    (others : ∀ j, j ≠ k → ∀ y, y ∈ qs j ↔ y < tql ∧ place' y = .queue j) :
    Chained tql h' fs (update qs k l) place' := by
  refine ⟨free, chained.free_nodup, free_iff, ?_, ?_, ?_, ?_⟩
  · rw [queues]
    intro j
    by_cases same : j = k
    · subst same
      rw [update_self, update_self]
      exact path
    · rw [update_of_ne same, update_of_ne same]
      exact kept j same
  · rw [queues]
    intro j
    rw [update_apply, update_apply]
    split
    · exact last
    · exact chained.last j
  · exact (forall_update_iff qs fun _ l => l.Nodup).mpr ⟨nodup, fun j _ => chained.queue_nodup j⟩
  · exact (forall_update_iff qs fun j l => ∀ y, y ∈ l ↔ y < tql ∧ place' y = .queue j).mpr
      ⟨queue_iff, others⟩

theorem Chained.link_ok (small : x < tql) (here : place x = .held p) (k : Nat) (type : Int)
    (cnt spot serial : Nat) :
    Chained tql (h.link k x type cnt spot serial) fs (update qs k (qs k ++ [x]))
      (update place x (.queue k)) := by
  have off : x ∉ fs := chained.off_free (by rw [here]; exact nofun)
  have off_queue : ∀ k, x ∉ qs k := fun k => chained.off_queue (by rw [here]; exact nofun)
  have nodup : (qs k ++ [x]).Nodup := by
    rw [← concat_eq_append]
    exact (chained.queue_nodup k).concat (off_queue k)
  have listed : ∀ y, y ∈ qs k ++ [x] ↔ y = x ∨ y ∈ qs k := by
    intro y
    rw [mem_append, mem_singleton, or_comm]
  have others : ∀ j, j ≠ k → ∀ y, y ∈ qs j ↔ y < tql ∧ update place x (.queue k) y = .queue j :=
    fun j other => mem_stays (chained.queue_iff j) (off_queue j)
      fun eq => other (Place.queue.inj eq)
  have free_iff : ∀ y, y ∈ fs ↔ y < tql ∧ update place x (.queue k) y = .free :=
    mem_stays chained.free_iff off nofun
  have queue_iff := mem_comes (chained.queue_iff k) listed small
  have last := chained.last k
  unfold Pool.link
  dsimp only
  rcases eq_nil_or_concat (qs k) with empty | ⟨init, l, full⟩
  · rw [empty, getLast?_nil] at last
    rw [last]
    refine chained.edit rfl (Segment.update chained.free off none) ?_ getLast?_concat.symm nodup
      (fun j _ => Segment.update (chained.queue j) (off_queue j) none) free_iff queue_iff others
    rw [empty]
    exact ⟨rfl, update_self ..⟩
  rw [concat_eq_append] at full
  rw [full, getLast?_concat] at last
  rw [last]
  have l_mem : l ∈ qs k := by
    rw [full]
    simp
  have l_free : l ∉ fs := chained.off_free (by
    rw [((chained.queue_iff k l).mp l_mem).2]
    exact nofun)
  refine chained.edit rfl (Segment.update (Segment.update chained.free off none) l_free _) ?_
    getLast?_concat.symm nodup (fun j other => Segment.update
      (Segment.update (chained.queue j) (off_queue j) none) (chained.apart l_mem other) _)
    free_iff queue_iff others
  have path := Segment.update (chained.queue k) (off_queue k) none
  have once := chained.queue_nodup k
  have x_off := off_queue k
  rw [full] at path once x_off ⊢
  exact NextChains.Path.concat path once x_off (update_self ..)

omit chained in
theorem mem_unlinked {pre post : List Nat} (split : qs k = pre ++ x :: post) (nodup : (qs k).Nodup)
    (y : Nat) : y ∈ pre ++ post ↔ y ∈ qs k ∧ y ≠ x := by
  rw [split] at nodup ⊢
  have off := (nodup_cons.mp (nodup_middle.mp nodup)).1
  rw [mem_append] at off ⊢
  rw [mem_append, mem_cons]
  grind

theorem Chained.unlink_ok {pre post : List Nat} (split : qs k = pre ++ x :: post) (p : Nat) :
    Chained tql (h.unlink k pre.getLast? x) fs (update qs k (pre ++ post))
      (update place x (.held p)) := by
  have mem : x ∈ qs k := by
    rw [split]
    simp
  have here := ((chained.queue_iff k x).mp mem).2
  have nodup := chained.queue_nodup k
  have path := chained.queue k
  have last := chained.last k
  rw [split] at nodup path last
  have next : h.msg_next x = post.head? := path.next_eq
  have free_iff : ∀ y, y ∈ fs ↔ y < tql ∧ update place x (.held p) y = .free :=
    mem_stays chained.free_iff (chained.off_free (by rw [here]; exact nofun)) nofun
  have queue_iff : ∀ y, y ∈ pre ++ post ↔ y < tql ∧ update place x (.held p) y = .queue k :=
    mem_goes (chained.queue_iff k) (mem_unlinked split (chained.queue_nodup k)) nofun
  have others : ∀ j, j ≠ k → ∀ y, y ∈ qs j ↔ y < tql ∧ update place x (.held p) y = .queue j :=
    fun j other => mem_stays (chained.queue_iff j) (chained.apart mem other) nofun
  have once := nodup.sublist ((Sublist.refl pre).append (sublist_cons_self x post))
  -- the pointer to the last message moves only if the last one goes
  have new_last : (if h.msg_next x = none then pre.getLast? else (h.msgque k).msg_last) =
      (pre ++ post).getLast? := by
    rw [next]
    rcases eq_nil_or_concat post with rfl | ⟨init, l, rfl⟩
    · simp
    · rw [concat_eq_append] at last ⊢
      have other : (init ++ [l]).head? ≠ none := by simp
      rw [if_neg other, last, ← append_assoc, getLast?_concat,
        ← cons_append, ← append_assoc, getLast?_concat]
  unfold Pool.unlink
  rcases eq_nil_or_concat pre with rfl | ⟨init, q, rfl⟩
  · rw [getLast?_nil] at new_last ⊢
    exact chained.edit rfl chained.free path.2 new_last once (fun j _ => chained.queue j) free_iff
      queue_iff others
  rw [concat_eq_append] at *
  rw [getLast?_concat] at new_last ⊢
  have q_mem : q ∈ qs k := by
    rw [split]
    simp
  have q_free : q ∉ fs := chained.off_free (by
    rw [((chained.queue_iff k q).mp q_mem).2]
    exact nofun)
  refine chained.edit rfl (Segment.update chained.free q_free _) ?_ new_last once
    (fun j other => Segment.update (chained.queue j) (chained.apart q_mem other) _) free_iff
    queue_iff others
  rw [append_assoc, singleton_append] at path nodup ⊢
  exact path.skip nodup

end

end MessageQueues
