import Svr4.Ip.Reassembly

/- Datagrams whose fragments come in any order. -/
namespace Ip
open Function OrderedDicts NumberedPieces List
variable {δ : Type}

/-- Datagrams of different keys, sent over interfaces that let them pass. -/
structure Sent (δ : Type) where
  datagram : δ → Packet
  prov : δ → Provider
  room : δ → Nat → Bool
  packets : δ → List Packet
  whole : ∀ d, Whole (datagram d)
  keys : ∀ d d', (datagram d).header.key = (datagram d').header.key → d = d'
  sent : ∀ d, ip_output (prov d) (room d) (datagram d) = some (packets d, none)

namespace Sent
variable (net : Sent δ)

abbrev Arrival := (d : δ) × Fin (net.packets d).length

def packet (a : net.Arrival) : Packet := (net.packets a.1).get a.2

def key (d : δ) : Key := (net.datagram d).header.key

def count (d : δ) : Nat := (net.packets d).length

structure Cuts (d : δ) (m count : Nat) : Prop where
  pieces : Pieces (net.datagram d) m count
  packets : net.packets d = (range' 0 count).map (cut (net.prov d) (net.datagram d) m)

def Queued (ipq : Ipq) (got : δ → Finset Nat) (d : δ) : Prop :=
  (∃ j < net.count d, j ∉ got d) ∧
    ((got d = ∅ ∧ get ipq (net.key d) = none) ∨
      ∃ m count, net.Cuts d m count ∧
        get ipq (net.key d) = some (kept (frag (net.datagram d) m) (got d) 0 count))

variable {net} {ipq : Ipq} {got : δ → Finset Nat} {d : δ} {m count i : Nat}

theorem Cuts.count_eq (cuts : net.Cuts d m count) : net.count d = count := by
  unfold Sent.count
  rw [cuts.packets, length_map, length_range']

theorem Cuts.packet_eq (cuts : net.Cuts d m count) (below : i < net.count d) :
    net.packet ⟨d, i, below⟩ = cut (net.prov d) (net.datagram d) m i := by
  have found : (net.packets d)[i]? = some (net.packet ⟨d, i, below⟩) :=
    getElem?_eq_getElem below
  obtain ⟨packet, packet_eq⟩ : ∃ packet, packet = net.packet ⟨d, i, below⟩ := ⟨_, rfl⟩
  rw [← packet_eq] at found ⊢
  rw [cuts.packets, getElem?_map, getElem?_range' (cuts.count_eq ▸ below),
    Option.map_some, zero_add, one_mul] at found
  exact (Option.some.inj found).symm

def uncut (prov : Provider) (d : Packet) : Packet :=
  { d with data := padpckt d.data (prov.if_mintu - d.header.ip_len) }

theorem single_passes (ipq : Ipq) (d : δ)
    (single : net.packets d = [uncut (net.prov d) (net.datagram d)]) (below : i < net.count d) :
    ∃ up, ipintr true ipq (net.packet ⟨d, i, below⟩) = (ipq, some up) ∧
      passed_up up = payload (net.datagram d) := by
  have whole := net.whole d
  have small := whole.small
  have first : net.packet ⟨d, i, below⟩ = uncut (net.prov d) (net.datagram d) := by
    have all : ∀ packet ∈ net.packets d, packet = uncut (net.prov d) (net.datagram d) := by
      rw [single]
      exact fun packet mem => mem_singleton.mp mem
    exact all _ (getElem_mem below)
  rw [first]
  unfold uncut
  generalize net.datagram d = p at *
  obtain ⟨pad, pad_eq⟩ : ∃ pad, padpckt p.data ((net.prov d).if_mintu - p.header.ip_len) =
      p.data ++ replicate pad 0 := ⟨_, rfl⟩
  rw [pad_eq]
  have hlen : p.header.ip_hl <<< 2 = sizeof_ip := by
    rw [whole.header]
    rfl
  have length : ((sizeof_ip + p.data.length : Nat) : Int) % 2 ^ 16 =
      (sizeof_ip + p.data.length : Nat) := Int.emod_eq_of_lt (by omega) (by omega)
  have unfragmented : ¬ p.header.ip_off &&& 0xbfff ≠ 0 := by
    rcases whole.unfragmented with zero | df
    · rw [zero]
      decide
    · rw [df]
      decide
  unfold ipintr
  dsimp only
  rw [hlen, whole.length, length, if_neg (lt_irrefl _), if_neg (by omega),
    if_neg (by rw [length_append]; omega), if_neg unfragmented]
  refine ⟨_, rfl, ?_⟩
  unfold passed_up payload
  rw [take_append_of_le_length (by rw [length_append, length_replicate]; omega),
    take_of_length_le (by rw [length_append, length_replicate]; omega),
    whole.length, show ((sizeof_ip + p.data.length : Nat) : Int) - sizeof_ip = p.data.length by
      omega, short_of_small (by omega)]

theorem reass_cases (h : net.Queued ipq got d) (cut : ∃ m count, net.Cuts d m count)
    (below : i < net.count d) : ∃ m count, net.Cuts d m count ∧
      ip_reass true (frag (net.datagram d) m i) (get ipq (net.key d)) =
        if i ∈ got d then (some (kept (frag (net.datagram d) m) (got d) 0 count), none)
        else check (net.key d) (kept (frag (net.datagram d) m) (insert i (got d)) 0 count) := by
  obtain ⟨-, ⟨empty, absent⟩ | ⟨m, count, cuts, found⟩⟩ := h
  · obtain ⟨m, count, cuts⟩ := cut
    refine ⟨m, count, cuts, ?_⟩
    rw [absent, empty, if_neg (Finset.notMem_empty _),
      kept_insert_split (cuts.count_eq ▸ below), kept_empty, kept_empty]
    rfl
  · refine ⟨m, count, cuts, ?_⟩
    rw [found]
    split
    · next old => exact cuts.pieces.reass_old (cuts.count_eq ▸ below) old
    · next new => exact cuts.pieces.reass_new (cuts.count_eq ▸ below) new

variable [DecidableEq δ]

theorem queued_other {c : δ} (h : net.Queued ipq got c) (other : c ≠ d) {ipq' : Ipq}
    (same : ∀ key, key ≠ net.key d → get ipq' key = get ipq key) (numbers : Finset Nat) :
    net.Queued ipq' (update got d numbers) c := by
  have apart : net.key c ≠ net.key d := fun eq => other (net.keys c d eq)
  unfold Queued
  rw [update_of_ne other, same _ apart]
  exact h

theorem arrive (h : ∀ d, net.Queued ipq got d) (below : i < net.count d) :
    if ∀ j < net.count d, j ∈ insert i (got d) then
      (∃ up, (ipintr true ipq (net.packet ⟨d, i, below⟩)).2 = some up ∧
        passed_up up = payload (net.datagram d)) ∧
          ∀ c, net.Queued (ipintr true ipq (net.packet ⟨d, i, below⟩)).1 (update got d ∅) c
    else (ipintr true ipq (net.packet ⟨d, i, below⟩)).2 = none ∧
      ∀ c, net.Queued (ipintr true ipq (net.packet ⟨d, i, below⟩)).1
        (update got d (insert i (got d))) c := by
  have some_ : 0 < net.count d := Nat.zero_lt_of_lt below
  rcases ip_output_cases (net.whole d) (net.sent d) with
    single | ⟨m, count, positive, several, zero, packets, enough, inside⟩
  · -- not cut: nothing is ever kept
    obtain ⟨up, called, same⟩ := single_passes ipq d single below
    have one : net.count d = 1 := by
      unfold Sent.count
      rw [single]
      rfl
    have nothing : got d = ∅ ∧ get ipq (net.key d) = none := by
      obtain ⟨-, nothing | ⟨m, count, cuts, -⟩⟩ := h d
      · exact nothing
      · have := cuts.pieces.several
        rw [← cuts.count_eq, one] at this
        omega
    rw [called, if_pos fun j less => Finset.mem_insert.mpr (.inl (by omega))]
    refine ⟨⟨up, rfl, same⟩, fun c => ?_⟩
    by_cases eq : c = d
    · subst eq
      unfold Queued
      rw [update_self]
      exact ⟨⟨0, some_, Finset.notMem_empty 0⟩, .inl ⟨rfl, nothing.2⟩⟩
    · exact queued_other (h c) eq (fun _ _ => rfl) ∅
  · obtain ⟨m, count, cuts, reassembled⟩ := reass_cases (h d)
      ⟨m, count, ⟨positive, several, enough, inside⟩, packets⟩ below
    have arrived : ipintr true ipq (net.packet ⟨d, i, below⟩) = store ipq (net.key d)
        (ip_reass true (frag (net.datagram d) m i) (get ipq (net.key d))) := by
      rw [cuts.packet_eq below]
      exact ipintr_cut (net.whole d) cuts.pieces (cuts.count_eq ▸ below)
    rw [arrived, store_up]
    have others : ∀ (numbers : Finset Nat) (c : δ), c ≠ d → net.Queued (store ipq (net.key d)
        (ip_reass true (frag (net.datagram d) m i) (get ipq (net.key d)))).1
          (update got d numbers) c := fun numbers c other =>
      queued_other (h c) other (fun key apart => by rw [get_store, if_neg apart]) numbers
    have own := get_store ipq (net.key d) (net.key d)
      (ip_reass true (frag (net.datagram d) m i) (get ipq (net.key d)))
    rw [if_pos rfl] at own
    split
    · next all =>
      have all' : ∀ j < count, j ∈ insert i (got d) := fun j less => all j (cuts.count_eq ▸ less)
      have new : i ∉ got d := by
        intro old
        obtain ⟨⟨j, less, absent⟩, -⟩ := h d
        rw [Finset.insert_eq_of_mem old] at all
        exact absent (all j less)
      obtain ⟨up, checked, same⟩ := check_complete cuts.pieces (net.whole d) all' rfl
      rw [if_neg new] at reassembled
      have result := reassembled.trans checked
      refine ⟨⟨up, by rw [result], same⟩, fun c => ?_⟩
      by_cases eq : c = d
      · subst eq
        unfold Queued
        rw [update_self]
        exact ⟨⟨0, some_, Finset.notMem_empty 0⟩, .inl ⟨rfl, result ▸ own⟩⟩
      · exact others ∅ c eq
    · next some_missing =>
      have missing : ∃ j < net.count d, j ∉ insert i (got d) := by
        by_contra none_
        refine some_missing fun j less => ?_
        by_contra absent
        exact none_ ⟨j, less, absent⟩
      have result : ip_reass true (frag (net.datagram d) m i) (get ipq (net.key d)) =
          (some (kept (frag (net.datagram d) m) (insert i (got d)) 0 count), none) := by
        rw [reassembled]
        split
        · next old => rw [Finset.insert_eq_of_mem old]
        · exact check_incomplete cuts.pieces (cuts.count_eq ▸ missing)
      refine ⟨by rw [result], fun c => ?_⟩
      by_cases eq : c = d
      · subst eq
        unfold Queued
        rw [update_self]
        exact ⟨missing, .inr ⟨m, count, cuts, result ▸ own⟩⟩
      · exact others _ c eq

def number (a : net.Arrival) : δ × Nat := (a.1, a.2)

theorem run (h : ∀ d, net.Queued ipq got d) (arrivals : List net.Arrival) :
    (receive ipq (arrivals.map net.packet)).map passed_up =
      (collected net.count got (arrivals.map number)).map fun d => payload (net.datagram d) := by
  induction arrivals generalizing ipq got with
  | nil => rfl
  | cons a arrivals ih =>
    obtain ⟨d, i, below⟩ := a
    have step := arrive h (d := d) below
    rw [map_cons, map_cons]
    unfold receive collected number
    obtain ⟨ipq', result, called⟩ :
      ∃ ipq' result, ipintr true ipq (net.packet ⟨d, i, below⟩) = (ipq', result) := ⟨_, _, rfl⟩
    rw [called] at step ⊢
    split at step
    · next all =>
      obtain ⟨⟨up, rfl, same⟩, queued⟩ := step
      rw [if_pos all]
      show passed_up up :: _ = payload (net.datagram d) :: _
      rw [same]
      exact congrArg _ (ih queued)
    · next missing =>
      obtain ⟨rfl, queued⟩ := step
      rw [if_neg missing]
      exact ih queued

end Sent

variable [DecidableEq δ]

def sample (ip_id : Nat) : Packet where
  header := ⟨5, 36, 0, ⟨ip_id, 1, 2, 17⟩, []⟩
  data := range 16

end Ip
