import Svr4.Ip.Fragments
import Svr4.NumberedPieces

/- The queues hold what has come of each datagram, in order. -/
namespace Ip
open OrderedDicts NumberedPieces List Nat
variable {prov : Provider} {d : Packet} {m count i k j : Nat} {got : Finset Nat} {ipq : Ipq}
  {key : Key}

def frag (d : Packet) (m i : Nat) : Frag where
  ip_off := (8 * (i * m) : Nat)
  ip_len := (chunk d m i).length
  ipf_mff := !decide (Last d m i)
  header := cut_header d m i
  ipf_mblk := chunk d m i

structure Pieces (d : Packet) (m count : Nat) : Prop where
  positive : 0 < m
  several : 1 < count
  enough : d.data.length ≤ 8 * (count * m)
  inside : ∀ j < count, 8 * (j * m) < d.data.length

theorem get_store (ipq : Ipq) (key key' : Key) (r : Option (List Frag) × Option Packet) :
    get (store ipq key r).1 key' = if key' = key then r.1 else get ipq key' := by
  obtain ⟨queue, up⟩ := r
  unfold store
  cases queue with
  | none => exact get_pop
  | some frags =>
    dsimp only
    split
    · exact get_set
    · rw [get_cons]
      exact if_congr eq_comm rfl rfl

theorem store_up (key : Key) (r : Option (List Frag) × Option Packet) :
    (store ipq key r).2 = r.2 := by
  unfold store
  split
  · rfl
  · split <;> rfl

theorem frags_apart (less : j < i) :
    (frag d m j).ip_off + (frag d m j).ip_len ≤ (frag d m i).ip_off := by
  have le := mul_le_mul_right m (succ_le_of_lt less)
  have step := succ_mul j m
  have length := chunk_length (d := d) (m := m) (i := j)
  show ((8 * (j * m) : Nat) : Int) + ((chunk d m j).length : Nat) ≤ (8 * (i * m) : Nat)
  omega

theorem flatten_chunks (n : Nat) : ((List.range' k n).map (chunk d m)).flatten =
      (d.data.drop (8 * (k * m))).take (8 * (n * m)) := by
  induction n generalizing k with
  | zero =>
    rw [zero_mul]
    rfl
  | succ n ih =>
    rw [range'_succ, map_cons, flatten_cons, ih]
    unfold chunk
    rw [show 8 * ((n + 1) * m) = 8 * m + 8 * (n * m) by rw [succ_mul n m]; omega,
      take_add, drop_drop,
      show 8 * (k * m) + 8 * m = 8 * ((k + 1) * m) by rw [succ_mul k m]; omega]

section Piece
variable (pieces : Pieces d m count)
include pieces

theorem Pieces.last_iff (below : i < count) : Last d m i ↔ i + 1 = count := by
  unfold Last
  constructor
  · intro last
    by_contra more
    have inside := pieces.inside (i + 1) (by omega)
    have same : 8 * ((i + 1) * m) = 8 * (i * m) + 8 * m := by rw [succ_mul i m]; omega
    omega
  · rintro rfl
    have enough := pieces.enough
    have same : 8 * ((i + 1) * m) = 8 * (i * m) + 8 * m := by rw [succ_mul i m]; omega
    omega

theorem Pieces.chunk_pos (below : i < count) : 0 < (chunk d m i).length := by
  have inside := pieces.inside i below
  have positive := pieces.positive
  rw [chunk_length]
  omega

theorem Pieces.before (less : j < i) : (frag d m j).ip_off < (frag d m i).ip_off := by
  have positive := pieces.positive
  have lt := Nat.mul_lt_mul_of_pos_right less positive
  show ((8 * (j * m) : Nat) : Int) < (8 * (i * m) : Nat)
  omega

end Piece

section Arrival
variable (whole : Whole d) (pieces : Pieces d m count)
include whole pieces

theorem ipintr_cut (below : i < count) : ipintr true ipq (cut prov d m i) =
    store ipq d.header.key (ip_reass true (frag d m i) (get ipq d.header.key)) := by
  have small := whole.small
  have inside := pieces.inside i below
  have length := chunk_length (d := d) (m := m) (i := i)
  have hl : d.header.ip_hl <<< 2 = sizeof_ip := by
    rw [whole.header]
    rfl
  have offset : i * m < 2 ^ 13 := by omega
  have flagged : cut_header d m i = { d.header with
      ip_len := (sizeof_ip + (chunk d m i).length : Nat)
      ip_off := if Last d m i then i * m else i * m + IP_MF
      options := [] } := rfl
  have more : ((cut_header d m i).ip_off &&& IP_MF ≠ 0) ↔ ¬ Last d m i := by
    rw [flagged]
    split
    · next last =>
      rw [and_mf offset]
      exact iff_of_false (fun h => h rfl) (not_not.mpr last)
    · next last =>
      rw [and_bits offset, and_mf offset]
      exact iff_of_true (by decide) last
  have shifted : short (((cut_header d m i).ip_off <<< 3 : Nat) : Int) = (8 * (i * m) : Nat) := by
    rw [flagged, shiftLeft_eq]
    dsimp only
    split
    · rw [mul_comm, short_of_small (by omega)]
    · unfold short IP_MF
      rw [show (((i * m + 0x2000) * 2 ^ 3 : Nat) : Int) = (8 * (i * m) : Nat) + 1 * (2 ^ 16 : Nat) by
        omega, Int.add_mul_bmod_self_right]
      exact short_of_small (by omega)
  have fragment_ : (cut_header d m i).ip_off &&& 0xbfff ≠ 0 := by
    rw [flagged]
    split
    · next last =>
      rw [and_low offset (by decide)]
      have first := (pieces.last_iff below).mp last
      have several := pieces.several
      have positive := pieces.positive
      exact Nat.ne_of_gt (Nat.mul_pos (by omega) positive)
    · rw [and_bits offset, and_low offset (by decide)]
      intro zero
      have := or_eq_zero_iff.mp zero
      exact absurd this.2 (by decide)
  have later : (cut_header d m i).ip_off &&& IP_MF ≠ 0 ∨ ((8 * (i * m) : Nat) : Int) ≠ 0 := by
    rw [more]
    by_cases last : Last d m i
    · have first := (pieces.last_iff below).mp last
      have several := pieces.several
      have := Nat.mul_pos (show 0 < i by omega) pieces.positive
      exact .inr (by omega)
    · exact .inl last
  obtain ⟨pad, pad_eq⟩ : ∃ pad, (cut prov d m i).data =
      chunk d m i ++ replicate pad 0 := ⟨_, rfl⟩
  have taken : (cut prov d m i).data.take ((cut prov d m i).data.length -
      ((sizeof_ip : Int) + (cut prov d m i).data.length -
        ((sizeof_ip + (chunk d m i).length : Nat) : Int) % 2 ^ 16).toNat) = chunk d m i := by
    rw [pad_eq, length_append, length_replicate, Int.emod_eq_of_lt (by omega) (by omega)]
    rw [take_append_of_le_length (by omega), take_of_length_le (by omega)]
  have hlen : (cut prov d m i).header.ip_hl <<< 2 = sizeof_ip := hl
  have ip_len : (cut prov d m i).header.ip_len = (sizeof_ip + (chunk d m i).length : Nat) := rfl
  have padded : ¬ (sizeof_ip : Int) + (cut prov d m i).data.length -
      ((sizeof_ip + (chunk d m i).length : Nat) : Int) % 2 ^ 16 < 0 := by
    rw [pad_eq, length_append, length_replicate, Int.emod_eq_of_lt (by omega) (by omega)]
    omega
  have own_len : short (((sizeof_ip + (chunk d m i).length : Nat) : Int) - sizeof_ip) =
      (chunk d m i).length := by
    rw [show ((sizeof_ip + (chunk d m i).length : Nat) : Int) - sizeof_ip =
      ((chunk d m i).length : Nat) by omega]
    exact short_of_small (by omega)
  unfold ipintr
  dsimp only
  rw [hlen, ip_len, if_neg (lt_irrefl _), if_neg (by omega), if_neg padded, taken, own_len]
  rw [show (cut prov d m i).header = cut_header d m i from rfl, if_pos fragment_, shifted,
    if_pos (by simpa using later)]
  have flag : decide ((cut_header d m i).ip_off &&& IP_MF ≠ 0) = !decide (Last d m i) := by
    by_cases last : Last d m i
    · simpa [last] using more
    · simpa [last] using more
  rw [flag]
  rfl

end Arrival

section Queue
variable (pieces : Pieces d m count)
include pieces

theorem Pieces.before_eq (below : i < count) :
    (kept (frag d m) got 0 count).takeWhile (fun q => q.ip_off ≤ (frag d m i).ip_off) =
        kept (frag d m) got 0 i ++ (if i ∈ got then [frag d m i] else []) ∧
      (kept (frag d m) got 0 count).dropWhile (fun q => q.ip_off ≤ (frag d m i).ip_off) =
        kept (frag d m) got (i + 1) (count - (i + 1)) := by
  have early : ∀ q ∈ kept (frag d m) got 0 i ++ (if i ∈ got then [frag d m i] else []),
      decide (q.ip_off ≤ (frag d m i).ip_off) = true := by
    intro q mem
    refine decide_eq_true ?_
    rcases mem_append.mp mem with mem | mem
    · obtain ⟨j, range, -, rfl⟩ := mem_kept.mp mem
      exact le_of_lt (pieces.before (by omega))
    · split at mem
      · rw [mem_singleton.mp mem]
      · cases mem
  have late : ∀ q ∈ kept (frag d m) got (i + 1) (count - (i + 1)),
      ¬ decide (q.ip_off ≤ (frag d m i).ip_off) = true := by
    intro q mem
    obtain ⟨j, range, -, rfl⟩ := mem_kept.mp mem
    have less := pieces.before (show i < j by omega)
    rw [decide_eq_true_eq]
    omega
  rw [kept_split below, ← append_assoc, takeWhile_append_of_pos early,
    dropWhile_append_of_pos early]
  cases rest : kept (frag d m) got (i + 1) (count - (i + 1)) with
  | nil =>
    rw [takeWhile_nil, append_nil]
    exact ⟨rfl, rfl⟩
  | cons q rest' =>
    have off := late q (by rw [rest]; exact mem_cons_self)
    rw [takeWhile_cons_of_neg (p := fun q : Frag => q.ip_off ≤ (frag d m i).ip_off) off,
      dropWhile_cons_of_neg (p := fun q : Frag => q.ip_off ≤ (frag d m i).ip_off) off,
      append_nil]
    exact ⟨rfl, rfl⟩

theorem Pieces.reass_old (below : i < count) (old : i ∈ got) :
    ip_reass true (frag d m i) (some (kept (frag d m) got 0 count)) =
      (some (kept (frag d m) got 0 count), none) := by
  have positive := pieces.chunk_pos below
  unfold ip_reass
  dsimp only
  rw [(pieces.before_eq below).1, if_pos old, getLast?_concat]
  unfold trim_front
  dsimp only
  have overlap : (frag d m i).ip_off + (frag d m i).ip_len - (frag d m i).ip_off =
      (chunk d m i).length := by
    show _ + ((chunk d m i).length : Int) - _ = _
    omega
  have all : (frag d m i).ip_len ≤ ((chunk d m i).length : Int) := le_refl _
  rw [overlap, if_neg (by omega), if_pos all]

theorem Pieces.reass_new (below : i < count) (new : i ∉ got) :
    ip_reass true (frag d m i) (some (kept (frag d m) got 0 count)) =
      check d.header.key (kept (frag d m) (insert i got) 0 count) := by
  have front : trim_front (frag d m i) (kept (frag d m) got 0 i).getLast? = some (frag d m i) := by
    cases last : (kept (frag d m) got 0 i).getLast? with
    | none => rfl
    | some q =>
      obtain ⟨j, range, -, rfl⟩ := mem_kept.mp (mem_of_getLast? last)
      have apart := frags_apart (d := d) (m := m) (show j < i by omega)
      unfold trim_front
      dsimp only
      rw [if_pos (by omega)]
  have back : trim_back (frag d m i) (kept (frag d m) got (i + 1) (count - (i + 1))) =
      kept (frag d m) got (i + 1) (count - (i + 1)) := by
    cases rest : kept (frag d m) got (i + 1) (count - (i + 1)) with
    | nil => rfl
    | cons q rest' =>
      obtain ⟨j, range, -, rfl⟩ := mem_kept.mp (show q ∈ kept (frag d m) got (i + 1) _ by
        rw [rest]
        exact mem_cons_self)
      have apart := frags_apart (d := d) (m := m) (show i < j by omega)
      unfold trim_back
      rw [if_pos (by omega)]
  unfold ip_reass
  dsimp only
  rw [(pieces.before_eq below).1, (pieces.before_eq below).2, if_neg new, append_nil, front]
  dsimp only
  rw [back, kept_insert_split below]
  rfl

theorem Pieces.complete_kept (got : Finset Nat) {n : Nat} (range : k + n = count) :
    complete (min (8 * (k * m)) d.data.length : Nat) (decide (k < count))
        (kept (frag d m) got k n) =
      if ∀ j, k ≤ j → j < count → j ∈ got then some (d.data.length : Int) else none := by
  induction n generalizing k with
  | zero =>
    obtain rfl : k = count := by omega
    rw [kept_zero, if_pos fun j more less => absurd less (by omega)]
    unfold complete
    rw [if_neg (by simp), min_eq_right pieces.enough]
  | succ n ih =>
    have inside := pieces.inside k (by omega)
    have length := chunk_length (d := d) (m := m) (i := k)
    rw [kept_succ]
    by_cases here : k ∈ got
    · rw [if_pos here, singleton_append]
      unfold complete
      have off : (frag d m k).ip_off = (min (8 * (k * m)) d.data.length : Nat) := by
        rw [min_eq_left (le_of_lt inside)]
        rfl
      have next : ((min (8 * (k * m)) d.data.length : Nat) : Int) + (frag d m k).ip_len =
          (min (8 * ((k + 1) * m)) d.data.length : Nat) := by
        show _ + ((chunk d m k).length : Int) = _
        rw [succ_mul k m]
        omega
      have flag : (frag d m k).ipf_mff = decide (k + 1 < count) := by
        show (!decide (Last d m k)) = _
        rw [← decide_not]
        refine decide_eq_decide.mpr ?_
        rw [pieces.last_iff (show k < count by omega)]
        omega
      rw [if_neg (not_not.mpr off), next, flag, ih (by omega)]
      refine if_congr ⟨fun all j more less => ?_, fun all j more less => all j (by omega) less⟩
        rfl rfl
      by_cases first : j = k
      · exact first ▸ here
      · exact all j (by omega) less
    · rw [if_neg here, if_neg fun all => here (all k (le_refl k) (by omega)), nil_append]
      cases rest : kept (frag d m) got (k + 1) n with
      | nil =>
        exact if_pos (decide_eq_true (by omega))
      | cons q rest' =>
        obtain ⟨j, range', -, rfl⟩ := mem_kept.mp (show q ∈ kept (frag d m) got (k + 1) n by
          rw [rest]
          exact mem_cons_self)
        have less := pieces.before (show k < j by omega)
        have off : (frag d m k).ip_off = (8 * (k * m) : Nat) := rfl
        unfold complete
        rw [if_pos]
        omega

end Queue

/-- What is compared of a datagram that is passed up. -/
def passed_up (packet : Packet) : Key × Int × List Nat :=
  (packet.header.key, packet.header.ip_len, packet.data)

def payload (d : Packet) : Key × Int × List Nat :=
  (d.header.key, d.header.ip_len - sizeof_ip, d.data)

section Check
variable (pieces : Pieces d m count)
include pieces

theorem check_incomplete (missing : ∃ j < count, j ∉ got) :
    check key (kept (frag d m) got 0 count) = (some (kept (frag d m) got 0 count), none) := by
  obtain ⟨j, below, absent⟩ := missing
  have scan := pieces.complete_kept got (zero_add count)
  rw [if_neg fun all => absent (all j (zero_le j) below), zero_mul, mul_zero, Nat.zero_min] at scan
  cases list : kept (frag d m) got 0 count with
  | nil => rfl
  | cons first rest =>
    unfold check
    rw [list] at scan
    have scan : complete 0 true (first :: rest) = none := scan
    dsimp only
    rw [scan]

theorem check_complete (whole : Whole d) (all : ∀ j < count, j ∈ got) (same : d.header.key = key) :
    ∃ up, check key (kept (frag d m) got 0 count) = (none, some up) ∧ passed_up up = payload d := by
  have small := whole.small
  have scan := pieces.complete_kept got (zero_add count)
  rw [if_pos fun j _ less => all j less, Nat.zero_mul, Nat.mul_zero, Nat.zero_min] at scan
  have list : kept (frag d m) got 0 count = (range' 0 count).map (frag d m) :=
    kept_all fun j _ less => all j (by omega)
  have data : ((kept (frag d m) got 0 count).map Frag.ipf_mblk).flatten = d.data := by
    rw [list, map_map]
    have chunks := flatten_chunks (d := d) (m := m) (k := 0) count
    rw [zero_mul, mul_zero, drop_zero, take_of_length_le pieces.enough] at chunks
    exact chunks
  cases elements : kept (frag d m) got 0 count with
  | nil =>
    have length := congrArg length (list.symm.trans elements)
    rw [length_map, length_range'] at length
    have several := pieces.several
    rw [length] at several
    cases several
  | cons first rest =>
    unfold check
    rw [elements] at scan data
    have scan : complete 0 true (first :: rest) = some (d.data.length : Int) := scan
    dsimp only
    rw [scan, data]
    refine ⟨_, rfl, ?_⟩
    unfold passed_up payload
    dsimp only
    rw [same, whole.length, short_of_small (by omega)]
    refine congrArg _ (congrArg (·, d.data) ?_)
    omega

end Check
end Ip
