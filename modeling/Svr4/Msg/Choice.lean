import Svr4.Msg.Transfers

/- Which message a receiver finds. -/
namespace MessageQueues
open NextChains List Nat

variable {info : MsgInfo} {h : Pool} {fs rest pre : List Nat} {qs : Nat → List Nat}
  {place : Nat → Place} {k x fuel : Nat} {msgtyp bound : Int} {pmp : Option Nat}

def Lowest (type : Nat → Int) (bound : Int) (pre : List Nat) (x : Nat) (post : List Nat) : Prop :=
  type x ≤ bound ∧ (∀ y ∈ pre, type y ≤ bound → type x < type y) ∧
    ∀ y ∈ post, type y ≤ bound → type x ≤ type y

def Wanted (type : Nat → Int) (msgtyp : Int) (x : Nat) : Prop :=
  msgtyp = 0 ∨ 0 < msgtyp ∧ type x = msgtyp ∨ msgtyp < 0 ∧ type x ≤ -msgtyp

theorem findmsg_pos (pos : 0 < msgtyp) : ∀ (rest pre : List Nat) (fuel : Nat),
    Path h.msg_next rest.head? rest → rest.length ≤ fuel →
    (findmsg h msgtyp fuel pre.getLast? rest.head? none = none ∧
      ∀ y ∈ rest, h.msg_type y ≠ msgtyp) ∨
    ∃ a x b, rest = a ++ x :: b ∧ h.msg_type x = msgtyp ∧ (∀ y ∈ a, h.msg_type y ≠ msgtyp) ∧
      findmsg h msgtyp fuel pre.getLast? rest.head? none = some ((pre ++ a).getLast?, x) := by
  intro rest
  induction rest with
  | nil =>
    intro pre fuel _ _
    left
    refine ⟨?_, nofun⟩
    cases fuel <;> rfl
  | cons y rest ih =>
    intro pre fuel path enough
    obtain ⟨fuel, rfl⟩ := exists_eq_add_one_of_ne_zero (ne_of_gt (lt_of_lt_of_le
      (zero_lt_succ _) enough))
    have next : h.msg_next y = rest.head? := Path.head_eq path.2
    unfold findmsg
    rw [head?_cons]
    dsimp only
    rw [if_pos pos]
    by_cases here : h.msg_type y = msgtyp
    · rw [if_neg (not_not.mpr here.symm)]
      exact .inr ⟨[], y, rest, rfl, here, nofun, by rw [append_nil]⟩
    rw [if_pos (Ne.symm here), next]
    have later := ih (pre ++ [y]) fuel (next ▸ path.2) (le_of_succ_le_succ enough)
    rw [getLast?_concat] at later
    rcases later with ⟨none, others⟩ | ⟨a, x, b, rfl, type, before, found⟩
    · left
      refine ⟨none, ?_⟩
      intro z mem
      rcases mem_cons.mp mem with rfl | mem
      · exact here
      · exact others z mem
    · right
      refine ⟨y :: a, x, b, rfl, type, ?_, ?_⟩
      · intro z mem
        rcases mem_cons.mp mem with rfl | mem
        · exact here
        · exact before z mem
      · rw [found, append_assoc, singleton_append]

/-- `best` is the choice among the messages of `pre`. -/
def Best (type : Nat → Int) (bound : Int) (pre : List Nat) (best : Option (Option Nat × Nat)) :
    Prop :=
  (best = none ∧ ∀ y ∈ pre, ¬ type y ≤ bound) ∨
    ∃ a x b, pre = a ++ x :: b ∧ best = some (a.getLast?, x) ∧ Lowest type bound a x b

theorem Best.skip {type : Nat → Int} {best : Option (Option Nat × Nat)} {y : Nat}
    (known : Best type bound pre best)
    (worse : type y ≤ bound → ∃ a x b, pre = a ++ x :: b ∧ best = some (a.getLast?, x) ∧
      Lowest type bound a x b ∧ type x ≤ type y) : Best type bound (pre ++ [y]) best := by
  by_cases low : type y ≤ bound
  · obtain ⟨a, x, b, rfl, rfl, least, above⟩ := worse low
    right
    refine ⟨a, x, b ++ [y], by simp, rfl, least.1, least.2.1, ?_⟩
    intro z mem small
    rcases mem_append.mp mem with mem | last
    · exact least.2.2 z mem small
    · obtain rfl := mem_singleton.mp last
      exact above
  · rcases known with ⟨rfl, none⟩ | ⟨a, x, b, rfl, rfl, least⟩
    · left
      refine ⟨rfl, ?_⟩
      intro z mem
      rcases mem_append.mp mem with mem | last
      · exact none z mem
      · obtain rfl := mem_singleton.mp last
        exact low
    · right
      refine ⟨a, x, b ++ [y], by simp, rfl, least.1, least.2.1, ?_⟩
      intro z mem small
      rcases mem_append.mp mem with mem | last
      · exact least.2.2 z mem small
      · obtain rfl := mem_singleton.mp last
        exact absurd small low

theorem findmsg_neg (neg : ¬ 0 < msgtyp) : ∀ (rest pre : List Nat) (fuel : Nat)
    (best : Option (Option Nat × Nat)), Path h.msg_next rest.head? rest → rest.length ≤ fuel →
    Best h.msg_type (toLong (-msgtyp)) pre best →
    Best h.msg_type (toLong (-msgtyp)) (pre ++ rest)
      (findmsg h msgtyp fuel pre.getLast? rest.head? best) := by
  intro rest
  induction rest with
  | nil =>
    intro pre fuel best _ _ known
    have stops : findmsg h msgtyp fuel pre.getLast? none best = best := by
      cases fuel <;> rfl
    rw [head?_nil, stops, append_nil]
    exact known
  | cons y rest ih =>
    intro pre fuel best path enough known
    obtain ⟨fuel, rfl⟩ := exists_eq_add_one_of_ne_zero (ne_of_gt (lt_of_lt_of_le
      (zero_lt_succ _) enough))
    have next : h.msg_next y = rest.head? := Path.head_eq path.2
    have later := fun best => ih (pre ++ [y]) fuel best (next ▸ path.2) (le_of_succ_le_succ enough)
    simp only [getLast?_concat, append_assoc, singleton_append] at later
    unfold findmsg
    rw [head?_cons]
    dsimp only
    rw [if_neg neg, next]
    by_cases low : h.msg_type y ≤ toLong (-msgtyp)
    · rw [if_pos low]
      rcases known with ⟨rfl, none⟩ | ⟨a, x, b, rfl, rfl, least⟩
      · apply later
        exact .inr ⟨pre, y, [], rfl, rfl, low, fun z mem small => absurd small (none z mem), nofun⟩
      dsimp only
      by_cases above : h.msg_type x ≤ h.msg_type y
      · rw [if_pos above]
        apply later
        exact Best.skip (.inr ⟨a, x, b, rfl, rfl, least⟩)
          fun _ => ⟨a, x, b, rfl, rfl, least, above⟩
      rw [if_neg above]
      apply later
      refine .inr ⟨a ++ x :: b, y, [], rfl, rfl, low, ?_, nofun⟩
      -- the new one is lower than all before it
      intro z mem small
      rcases mem_append.mp mem with mem | mem
      · have := least.2.1 z mem small
        omega
      · rcases mem_cons.mp mem with rfl | mem
        · omega
        · have := least.2.2 z mem small
          omega
    · rw [if_neg low]
      apply later
      exact known.skip fun small => absurd small low

theorem toLong_neg (long : -2 ^ 31 < msgtyp) (high : msgtyp < 2 ^ 31) : toLong (-msgtyp) = -msgtyp := by
  unfold toLong
  rw [Int.bmod_def]
  split <;> omega

theorem select_some (chained : Chained info.msgtql h fs qs place)
    (typed : ∀ x ∈ qs k, 1 ≤ h.msg_type x) (long : -2 ^ 31 ≤ msgtyp ∧ msgtyp < 2 ^ 31)
    (found : select info h k msgtyp = some (pmp, x)) :
    ∃ pre post, qs k = pre ++ x :: post ∧ pmp = pre.getLast? ∧
      Chosen h.msg_type msgtyp pre x post := by
  have path := chained.queue k
  have short := chained.short k
  rw [path.head_eq] at path
  unfold select at found
  rw [chained.first_eq] at found
  unfold Chosen
  by_cases zero : msgtyp = 0
  · rw [if_pos zero] at found
    obtain ⟨y, first, eq⟩ := Option.map_eq_some_iff.mp found
    obtain ⟨rfl, rfl⟩ := Prod.mk.inj eq
    obtain ⟨post, split⟩ := head?_eq_some_iff.mp first
    exact ⟨[], post, split, rfl, by rw [if_pos zero]⟩
  rw [if_neg zero] at found
  simp only [if_neg zero]
  by_cases pos : 0 < msgtyp
  · simp only [if_pos pos]
    have result := findmsg_pos pos (qs k) [] info.msgtql path short
    rw [getLast?_nil, found] at result
    rcases result with ⟨none, -⟩ | ⟨a, y, b, split, type, before, eq⟩
    · exact nomatch none
    · obtain ⟨rfl, rfl⟩ := Prod.mk.inj (Option.some.inj eq)
      exact ⟨a, b, split, rfl, type, before⟩
  simp only [if_neg pos]
  have result := findmsg_neg pos (qs k) [] info.msgtql none path short (.inl ⟨rfl, nofun⟩)
  rw [getLast?_nil, found, nil_append] at result
  rcases result with ⟨none, -⟩ | ⟨a, y, b, split, eq, least⟩
  · exact nomatch none
  obtain ⟨rfl, rfl⟩ := Prod.mk.inj (Option.some.inj eq)
  have here := typed x (by rw [split]; simp)
  -- the negation overflows for the smallest long only, and then no type is low enough
  have plain : toLong (-msgtyp) = -msgtyp := by
    by_cases least_long : msgtyp = -2 ^ 31
    · have low := least.1
      rw [least_long, show toLong (- -2 ^ 31) = -2 ^ 31 by decide] at low
      omega
    · exact toLong_neg (by omega) long.2
  rw [plain] at least
  exact ⟨a, b, split, rfl, least⟩

theorem select_none (chained : Chained info.msgtql h fs qs place) (long : -2 ^ 31 < msgtyp)
    (high : msgtyp < 2 ^ 31) (none : select info h k msgtyp = none) :
    ∀ x ∈ qs k, ¬ Wanted h.msg_type msgtyp x := by
  have path := chained.queue k
  have short := chained.short k
  rw [path.head_eq] at path
  unfold select at none
  rw [chained.first_eq] at none
  intro x mem wanted
  unfold Wanted at wanted
  by_cases zero : msgtyp = 0
  · rw [if_pos zero, Option.map_eq_none_iff, head?_eq_none_iff] at none
    rw [none] at mem
    exact nomatch mem
  rw [if_neg zero] at none
  by_cases pos : 0 < msgtyp
  · have result := findmsg_pos pos (qs k) [] info.msgtql path short
    rw [getLast?_nil, none] at result
    rcases result with ⟨-, others⟩ | ⟨a, y, b, -, -, -, eq⟩
    · have := others x mem
      omega
    · exact nomatch eq
  · have result := findmsg_neg pos (qs k) [] info.msgtql _ path short (.inl ⟨rfl, nofun⟩)
    rw [getLast?_nil, none, nil_append, toLong_neg long high] at result
    rcases result with ⟨-, others⟩ | ⟨a, y, b, -, eq, -⟩
    · have := others x mem
      omega
    · exact nomatch eq

end MessageQueues
