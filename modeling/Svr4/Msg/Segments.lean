import Mathlib.Data.List.Pairwise
import Mathlib.Data.List.Perm.Subperm
import Svr4.Msg.Messages

/- Every text segment is free, or part of one text, or lost. -/
namespace MessageQueues
open ResourceMap List

variable {info : MsgInfo} {h h' : Pool} {span : Nat → Nat × Nat} {x size spot a : Nat}
  {e f : MapEnt} {mp : RMap}

def text (span : Nat → Nat × Nat) (x : Nat) : Set Nat := rangeOf (span x).1 (span x).2

def Pool.lostUnits (h : Pool) : Set Nat := {u | ∃ r ∈ h.lost, u ∈ rangeOf r.1 r.2}

structure Segmented (info : MsgInfo) (h : Pool) (span : Nat → Nat × Nat) : Prop where
  map : WellFormed h.msgmap
  slots : h.msgmap.mapsize + (live h.msgmap).length = info.msgmap - 2
  cover : ∀ u, (1 ≤ u ∧ u ≤ info.msgseg) ↔
    u ∈ freeUnits h.msgmap ∨ (∃ x, u ∈ text span x) ∨ u ∈ h.lostUnits
  free_text : ∀ u x, u ∈ freeUnits h.msgmap → u ∉ text span x
  free_lost : ∀ u, u ∈ freeUnits h.msgmap → u ∉ h.lostUnits
  text_lost : ∀ u x, u ∈ text span x → u ∉ h.lostUnits
  apart : ∀ u x y, u ∈ text span x → u ∈ text span y → x = y
  headers : ∀ u x, u ∈ text span x → x < info.msgtql
  lossless : info.msgtql + 4 ≤ info.msgmap → h.lost = []

theorem text_update (x : Nat) (r : Nat × Nat) (y : Nat) : text (Function.update span x r) y =
    if y = x then rangeOf r.1 r.2 else text span y := by
  unfold text
  rw [Function.update_apply]
  split <;> rfl

theorem range_empty (a : Nat) : rangeOf 0 a = ∅ := by
  ext u
  simp only [rangeOf, Set.mem_ofPred_eq, Set.mem_empty_iff_false, iff_false]
  omega

theorem Segmented.congr (segmented : Segmented info h span) (map : h'.msgmap = h.msgmap)
    (lost : h'.lost = h.lost) : Segmented info h' span := by
  cases h
  cases h'
  subst map lost
  exact { segmented with }

theorem Segmented.want (segmented : Segmented info h span) : Segmented info h.want span :=
  { segmented with map := { segmented.map with } }

/-! Units change hands -/

inductive Owner
  | free
  | text (x : Nat)
  | lost

def Pool.units (h : Pool) (span : Nat → Nat × Nat) : Owner → Set Nat
  | .free => freeUnits h.msgmap
  | .text x => text span x
  | .lost => h.lostUnits

theorem units_cover (h : Pool) (span : Nat → Nat × Nat) (u : Nat) :
    (∃ o, u ∈ h.units span o) ↔
      u ∈ freeUnits h.msgmap ∨ (∃ x, u ∈ text span x) ∨ u ∈ h.lostUnits := by
  constructor
  · rintro ⟨_ | x | _, mine⟩
    · exact .inl mine
    · exact .inr (.inl ⟨x, mine⟩)
    · exact .inr (.inr mine)
  · rintro (free | ⟨x, mine⟩ | lost)
    · exact ⟨.free, free⟩
    · exact ⟨.text x, mine⟩
    · exact ⟨.lost, lost⟩

section
variable (segmented : Segmented info h span)
include segmented

theorem Segmented.one_owner {u : Nat} {o o' : Owner} (mine : u ∈ h.units span o)
    (yours : u ∈ h.units span o') : o = o' := by
  rcases o with _ | x | _ <;> rcases o' with _ | y | _
  · rfl
  · exact absurd yours (segmented.free_text u y mine)
  · exact absurd yours (segmented.free_lost u mine)
  · exact absurd mine (segmented.free_text u x yours)
  · rw [segmented.apart u x y mine yours]
  · exact absurd yours (segmented.text_lost u x mine)
  · exact absurd mine (segmented.free_lost u yours)
  · exact absurd mine (segmented.text_lost u y yours)
  · rfl

/-- The units of `given` go from the owner `o` to `w`. -/
theorem Segmented.hand_over {span' : Nat → Nat × Nat} {o w : Owner} {given : Set Nat}
    (map : WellFormed h'.msgmap) (length : h'.msgmap.slots.length = h.msgmap.slots.length)
    (owned : given ⊆ h.units span o) (differs : o ≠ w)
    (gives : ∀ u, u ∈ h'.units span' o ↔ u ∈ h.units span o ∧ u ∉ given)
    (gets : ∀ u, u ∈ h'.units span' w ↔ u ∈ h.units span w ∨ u ∈ given)
    (keeps : ∀ r, r ≠ o → r ≠ w → h'.units span' r = h.units span r)
    (small : ∀ x, w = .text x → x < info.msgtql)
    (lossless : info.msgtql + 4 ≤ info.msgmap → h'.lost = []) : Segmented info h' span' := by
  have now : ∀ u r, u ∈ h'.units span' r ↔ u ∈ given ∧ r = w ∨ u ∉ given ∧ u ∈ h.units span r := by
    intro u r
    by_cases giver : r = o
    · subst giver
      rw [gives]
      simp [differs, and_comm]
    by_cases taker : r = w
    · subst taker
      rw [gets]
      simp only [and_true]
      tauto
    · rw [keeps r giver taker]
      have off : u ∈ h.units span r → u ∉ given :=
        fun mine inside => giver (segmented.one_owner mine (owned inside))
      simp only [taker, and_false, false_or]
      exact ⟨fun mine => ⟨off mine, mine⟩, And.right⟩
  have texts : ∀ u x, u ∈ text span' x → u ∈ given ∧ Owner.text x = w ∨ u ∈ text span x :=
    fun u x mine => ((now u (.text x)).mp mine).imp_right And.right
  have apart : ∀ u r r', u ∈ h'.units span' r → u ∈ h'.units span' r' → r = r' := by
    intro u r r' mine yours
    rcases (now u r).mp mine with ⟨inside, rfl⟩ | ⟨off, mine⟩
    · rcases (now u r').mp yours with ⟨-, rfl⟩ | ⟨off, -⟩
      · rfl
      · exact absurd inside off
    · rcases (now u r').mp yours with ⟨inside, -⟩ | ⟨-, yours⟩
      · exact absurd inside off
      · exact segmented.one_owner mine yours
  refine ⟨map, ?_, ?_, (fun u x free mine => by cases apart u .free (.text x) free mine),
    (fun u free lost => by cases apart u .free .lost free lost),
    (fun u x mine lost => by cases apart u (.text x) .lost mine lost),
    fun u x y mine yours => Owner.text.inj (apart u (.text x) (.text y) mine yours), ?_, lossless⟩
  · have before := wellFormed_length segmented.map
    have after := wellFormed_length map
    have slots := segmented.slots
    omega
  · intro u
    rw [segmented.cover, ← units_cover, ← units_cover]
    simp only [now]
    by_cases inside : u ∈ given
    · exact ⟨fun _ => ⟨w, .inl ⟨inside, rfl⟩⟩, fun _ => ⟨o, owned inside⟩⟩
    · simp [inside]
  · intro u x mine
    rcases texts u x mine with ⟨-, taker⟩ | mine
    · exact small x taker.symm
    · exact segmented.headers u x mine

theorem Segmented.rmalloc_ok (small : x < info.msgtql) (none : span x = (0, 0)) (pos : 0 < size) :
    h.rmalloc size = (0, h) ∨ ∃ r mp, 0 < r ∧ r + size ≤ info.msgseg + 1 ∧
      h.rmalloc size = (r, { h with msgmap := mp }) ∧
      Segmented info { h with msgmap := mp } (Function.update span x (size, r)) := by
  obtain ⟨r, mp, run, wf, len, result⟩ := rmalloc_spec segmented.map pos
  unfold Pool.rmalloc
  rw [run]
  rcases result with ⟨rfl, rfl, -⟩ | fit
  · exact .inl rfl
  right
  obtain ⟨e, mem, rfl, fits⟩ := fit.fits
  have nonzero : 1 ≤ e.mAddr := (segmented.map.tidy.1 e mem).2.1
  have last : e.mAddr + size - 1 ∈ rangeOf size e.mAddr := by
    unfold rangeOf
    simp only [Set.mem_ofPred_eq]
    omega
  have bound := ((segmented.cover _).mpr (.inl (fit.inside last))).2
  refine ⟨e.mAddr, mp, nonzero, by omega, rfl, segmented.hand_over (o := .free) (w := .text x) wf
    len fit.inside nofun (Set.ext_iff.mp fit.taken) ?_ ?_ ?_ segmented.lossless⟩
  · intro u
    unfold Pool.units
    dsimp only
    rw [text_update, if_pos rfl, text, none, range_empty]
    simp
  · rintro (_ | y | _) other differs
    · exact absurd rfl other
    · unfold Pool.units
      dsimp only
      rw [text_update, if_neg fun same => differs (congrArg _ same)]
    · rfl
  · rintro y same
    rwa [← Owner.text.inj same]

end

/-! Free pieces and texts -/

theorem pieces_apart (wf : WellFormed mp) (e_mem : e ∈ live mp) (f_mem : f ∈ live mp)
    (other : e ≠ f) :
    e.mAddr + e.mSize < f.mAddr ∨ f.mAddr + f.mSize < e.mAddr := by
  have either : (live mp).Pairwise fun e f =>
      e.mAddr + e.mSize < f.mAddr ∨ f.mAddr + f.mSize < e.mAddr := wf.tidy.2.imp Or.inl
  have : Std.Symm fun e f : MapEnt =>
      e.mAddr + e.mSize < f.mAddr ∨ f.mAddr + f.mSize < e.mAddr := ⟨fun _ _ => Or.symm⟩
  exact either.forall e_mem f_mem other

theorem Segmented.between (segmented : Segmented info h span) (lossless : h.lost = [])
    (e_mem : e ∈ live h.msgmap) (f_mem : f ∈ live h.msgmap) (order : e.mAddr + e.mSize < f.mAddr) :
    ∃ x, e.mAddr + e.mSize ∈ text span x := by
  have e_ok := segmented.map.tidy.1 e e_mem
  have f_ok := segmented.map.tidy.1 f f_mem
  have f_free : f.mAddr ∈ freeUnits h.msgmap := ⟨f, f_mem, le_refl _, by omega⟩
  have bound := ((segmented.cover _).mpr (.inl f_free)).2
  have inside := (segmented.cover (e.mAddr + e.mSize)).mp ⟨by omega, by omega⟩
  rcases inside with ⟨g, g_mem, low, high⟩ | mine | ⟨r, mem, -⟩
  · -- no free piece begins where another ends
    have other : e ≠ g := by
      rintro rfl
      omega
    have := pieces_apart segmented.map e_mem g_mem other
    omega
  · exact mine
  · rw [lossless] at mem
    exact nomatch mem

theorem Segmented.pieces (segmented : Segmented info h span) (lossless : h.lost = []) :
    (live h.msgmap).length ≤ info.msgtql + 1 := by
  have tidy := segmented.map.tidy
  generalize pieces : live h.msgmap = l at tidy
  rcases eq_nil_or_concat l with rfl | ⟨init, last, rfl⟩
  · exact Nat.zero_le _
  rw [concat_eq_append] at *
  obtain ⟨order, -, before⟩ := pairwise_append.mp tidy.2
  have behind : ∀ e ∈ init, ∃ x, e.mAddr + e.mSize ∈ text span x := by
    intro e mem
    apply segmented.between lossless (e := e) (f := last)
    · rw [pieces]
      exact mem_append_left _ mem
    · rw [pieces]
      simp
    · exact before e mem last (mem_singleton_self last)
  choose! owner owned using behind
  have distinct : (init.map owner).Nodup := by
    refine List.Nodup.map_on ?_ ?_
    · intro e e_mem f f_mem same
      by_contra other
      have one := owned e e_mem
      have two := owned f f_mem
      rw [same] at one
      have e_live : e ∈ live h.msgmap := by
        rw [pieces]
        exact mem_append_left _ e_mem
      have f_live : f ∈ live h.msgmap := by
        rw [pieces]
        exact mem_append_left _ f_mem
      have e_size := (segmented.map.tidy.1 e e_live).1
      have f_size := (segmented.map.tidy.1 f f_live).1
      unfold text rangeOf at one two
      simp only [Set.mem_ofPred_eq] at one two
      -- a text is in one piece, so it would contain the later of the two
      rcases pieces_apart segmented.map e_live f_live other with less | more
      · refine segmented.free_text f.mAddr (owner f) ⟨f, f_live, le_refl _, by omega⟩ ?_
        unfold text rangeOf
        simp only [Set.mem_ofPred_eq]
        omega
      · refine segmented.free_text e.mAddr (owner f) ⟨e, e_live, le_refl _, by omega⟩ ?_
        unfold text rangeOf
        simp only [Set.mem_ofPred_eq]
        omega
    · refine order.imp_of_mem ?_
      rintro e f e_mem - less rfl
      omega
  have sub : init.map owner ⊆ List.range info.msgtql := by
    intro x mem
    obtain ⟨e, e_mem, rfl⟩ := mem_map.mp mem
    exact mem_range.mpr (segmented.headers _ _ (owned e e_mem))
  have few := (subperm_of_subset distinct sub).length_le
  rw [length_map, length_range] at few
  rw [length_append, length_singleton]
  omega

theorem overflow_full {out : FreeOut} (run : ResourceMap.rmfree mp size a = some out)
    (beyond : out.overflow = true) : mp.mapsize = 0 := by
  have insert : ∀ before bp rest, growRightOrInsert mp size a before bp rest = some out →
      mp.mapsize = 0 := by
    intro before bp rest run
    unfold growRightOrInsert at run
    split at run
    · obtain rfl := Option.some.inj run
      rw [wakeWanters_overflow] at beyond
      exact nomatch beyond
    · split at run
      · assumption
      · obtain ⟨tail, -, rfl⟩ := Option.map_eq_some_iff.mp run
        rw [wakeWanters_overflow] at beyond
        exact nomatch beyond
  unfold rmfree at run
  split at run
  · obtain rfl := Option.some.inj run
    exact nomatch beyond
  split at run
  · exact nomatch run
  · exact nomatch run
  · split at run
    · exact insert _ _ _ run
    · split at run
      · obtain ⟨mp', -, rfl⟩ := Option.map_eq_some_iff.mp run
        rw [wakeWanters_overflow] at beyond
        exact nomatch beyond
      · exact insert _ _ _ run

theorem Segmented.rmfree_ok (segmented : Segmented info h span) (owns : span x = (size, a)) :
    Segmented info (h.rmfree size a) (Function.update span x (0, 0)) := by
  have mine : text span x = rangeOf size a := by
    unfold text
    rw [owns]
  have seg := info.seg_lt
  have legal : 0 < size → Legal h.msgmap (.rmfree size a) := by
    intro pos
    have first : a ∈ text span x := by
      rw [mine]
      unfold rangeOf
      simp only [Set.mem_ofPred_eq]
      omega
    have last : a + size - 1 ∈ text span x := by
      rw [mine]
      unfold rangeOf
      simp only [Set.mem_ofPred_eq]
      omega
    have low := ((segmented.cover _).mpr (.inr (.inl ⟨x, first⟩))).1
    have high := ((segmented.cover _).mpr (.inr (.inl ⟨x, last⟩))).2
    refine ⟨?_, low, ?_, ?_, ?_⟩
    · unfold word
      omega
    · unfold word
      omega
    · unfold word
      omega
    · intro u inside free
      rw [← mine] at inside
      exact segmented.free_text u x free inside
  have result : ∃ out, rmfree h.msgmap size a = some out ∧ Freed h.msgmap size a out := by
    by_cases pos : 0 < size
    · exact rmfree_spec segmented.map (legal pos)
    · obtain rfl : size = 0 := by omega
      refine ⟨⟨h.msgmap, false, false⟩, by simp [rmfree], segmented.map, rfl, by simp, ?_⟩
      intro _
      rw [range_empty, Set.union_empty]
  obtain ⟨out, run, freed⟩ := result
  have given : rangeOf size a ⊆ h.units span (.text x) := mine.ge
  have gives : ∀ u, u ∈ text (Function.update span x (0, 0)) x ↔
      u ∈ text span x ∧ u ∉ rangeOf size a := by
    intro u
    rw [text_update, if_pos rfl, range_empty, mine]
    simp
  have keeps : ∀ y, y ≠ x → text (Function.update span x (0, 0)) y = text span y := by
    intro y other
    rw [text_update, if_neg other]
  unfold Pool.rmfree
  rw [run]
  dsimp only
  cases beyond : out.overflow with
  | true =>
    have same := freed.lost beyond
    refine segmented.hand_over (w := .lost) freed.wellFormed freed.slots given (by simp) gives ?_ ?_
      (by simp) ?_
    · intro u
      unfold Pool.units Pool.lostUnits
      simp only [if_true, mem_cons, Set.mem_ofPred_eq]
      constructor
      · rintro ⟨r, rfl | mem, inside⟩
        · exact .inr inside
        · exact .inl ⟨r, mem, inside⟩
      · rintro (⟨r, mem, inside⟩ | inside)
        · exact ⟨r, .inr mem, inside⟩
        · exact ⟨_, .inl rfl, inside⟩
    · rintro (_ | y | _) other differs
      · exact congrArg freeUnits same
      · exact keeps y fun eq => other (congrArg _ eq)
      · exact absurd rfl differs
    · intro large
      -- a large map has an empty slot
      have full := overflow_full run beyond
      have pieces := segmented.pieces (segmented.lossless large)
      have slots := segmented.slots
      omega
  | false =>
    refine segmented.hand_over (w := .free) freed.wellFormed freed.slots given (by simp) gives
      (Set.ext_iff.mp (freed.added beyond)) ?_ (by simp) segmented.lossless
    rintro (_ | y | _) other differs
    · exact absurd rfl differs
    · exact keeps y fun eq => other (congrArg _ eq)
    · rfl

end MessageQueues
