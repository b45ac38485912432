import Svr4.Xdr.Flat
import Mathlib.Data.List.TakeWhile

/- rpc/xdr.c and rpc/xdr_array.c: the routines over the operations of a stream. Each takes what
   the caller's variable holds and gives what it holds afterwards. -/
namespace Xdr
open StreamPrograms List

abbrev Filter (x_op : XdrOp) (α : Type) : Type :=
  Prog (x_op = .XDR_DECODE) (x_op = .XDR_ENCODE) Int UInt8 α

abbrev Xdrproc (α : Type) : Type := (x_op : XdrOp) → α → Filter x_op α

def BYTES_PER_XDR_UNIT : Nat := 4

def to_short (l : Int) : Int := Int.bmod l (2 ^ 16)

def xdr_long : Xdrproc Int
  | .XDR_ENCODE, lp => .putword rfl lp (.done lp)
  | .XDR_DECODE, _ => .getword rfl .done
  | .XDR_FREE, lp => .done lp

def xdr_u_long : Xdrproc Nat
  | .XDR_DECODE, _ => .getword rfl fun l => .done (l % 2 ^ 32).toNat
  | .XDR_ENCODE, ulp => .putword rfl ulp (.done ulp)
  | .XDR_FREE, ulp => .done ulp

/-- An int has the size of a long. -/
def xdr_u_int : Xdrproc Nat := xdr_u_long

def xdr_short : Xdrproc Int
  | .XDR_ENCODE, sp => .putword rfl sp (.done sp)
  | .XDR_DECODE, _ => .getword rfl fun l => .done (to_short l)
  | .XDR_FREE, sp => .done sp

def xdr_bool : Xdrproc Bool
  | .XDR_ENCODE, bp => .putword rfl (if bp = true then 1 else 0) (.done bp)
  | .XDR_DECODE, _ => .getword rfl fun lb => .done (if lb = 0 then false else true)
  | .XDR_FREE, bp => .done bp

/-- An enum has the size of a long. -/
def xdr_enum : Xdrproc Int := xdr_long

def rndup (cnt : Nat) : Nat :=
  if cnt % BYTES_PER_XDR_UNIT ≠ 0 then BYTES_PER_XDR_UNIT - cnt % BYTES_PER_XDR_UNIT else 0

/-- `cp` is the `cnt` bytes at cp. -/
def xdr_opaque (cnt : Nat) : Xdrproc (List UInt8)
  | .XDR_DECODE, _ =>
    if cnt = 0 then .done []
    else .getbytes rfl cnt fun cp =>
      if rndup cnt = 0 then .done cp else .getbytes rfl (rndup cnt) fun _ => .done cp
  | .XDR_ENCODE, cp =>
    if cnt = 0 then .done []
    else .putbytes rfl (cp.take cnt)
      (if rndup cnt = 0 then .done cp
        else .putbytes rfl (replicate (rndup cnt) 0) (.done cp))
  | .XDR_FREE, cp => .done cp

def xdr_bytes (maxsize : Nat) : Xdrproc (List UInt8) := fun x_op cpp =>
  (xdr_u_int x_op cpp.length).bind fun nodesize =>
    if nodesize > maxsize ∧ x_op ≠ .XDR_FREE then .fail
    else
      match x_op with
      | .XDR_DECODE => if nodesize = 0 then .done [] else xdr_opaque nodesize .XDR_DECODE []
      | .XDR_ENCODE => xdr_opaque nodesize .XDR_ENCODE cpp
      | .XDR_FREE => .done []

def strlen (sp : List UInt8) : Nat := (sp.takeWhile (· != 0)).length

/-- `cpp` is the string without the byte that ends it, none for NULL. -/
def xdr_string (maxsize : Nat) : Xdrproc (Option (List UInt8)) := fun x_op cpp =>
  if x_op = .XDR_FREE ∧ cpp = none then .done none
  else
    (xdr_u_int x_op (strlen (cpp.getD []))).bind fun size =>
      if size > maxsize then .fail
      else
        match x_op with
        | .XDR_DECODE =>
          if (size + 1) % 2 ^ 32 = 0 then .done cpp
          else ( xdr_opaque size .XDR_DECODE []).bind fun sp => .done (some sp)
        | .XDR_ENCODE =>
          ( xdr_opaque size .XDR_ENCODE (cpp.getD [])).bind fun _ => .done cpp
        | .XDR_FREE => .done none

/-- The routine of the first choice with the value of the discriminant, or the default. -/
def arm {α : Type} (choices : List (Int × Xdrproc α)) (dfault : Option (Xdrproc α)) (dscm : Int) :
    Option (Xdrproc α) :=
  match choices.find? fun choice => choice.1 = dscm with
  | some choice => some choice.2
  | none => dfault

def xdr_union {α : Type} (choices : List (Int × Xdrproc α)) (dfault : Option (Xdrproc α)) :
    Xdrproc (Int × α) := fun x_op ⟨dscmp, unp⟩ =>
  (xdr_enum x_op dscmp).bind fun dscm =>
    match arm choices dfault dscm with
    | some proc => (proc x_op unp).bind fun unp => .done (dscm, unp)
    | none => .fail

def elements {α : Type} (elproc : Xdrproc α) (x_op : XdrOp) : List α → Filter x_op (List α)
  | [] => .done []
  | a :: as =>
    (elproc x_op a).bind fun b => (elements elproc x_op as).bind fun bs => .done (b :: bs)

/-- The array carries its size. A new one is filled with `zero`. -/
def xdr_array {α : Type} (maxsize : Nat) (elproc : Xdrproc α) (zero : α) : Xdrproc (List α) :=
  fun x_op addrp =>
    (xdr_u_int x_op addrp.length).bind fun c =>
      if c > maxsize ∧ x_op ≠ .XDR_FREE then .fail
      else
        match x_op with
        | .XDR_DECODE => elements elproc .XDR_DECODE (replicate c zero)
        | .XDR_ENCODE => elements elproc .XDR_ENCODE (addrp.take c)
        | .XDR_FREE => (elements elproc .XDR_FREE addrp).bind fun _ => .done []

def in_turn {α β : Type} (first : Xdrproc α) (second : Xdrproc β) : Xdrproc (α × β) :=
  fun x_op ⟨a, b⟩ =>
    (first x_op a).bind fun a => (second x_op b).bind fun b => .done (a, b)

end Xdr

/- What a routine has encoded, it decodes. -/
namespace Xdr
open ByteMoves StreamPrograms List

variable {α β : Type} {elproc : Xdrproc α}

def Writes (p : Filter .XDR_ENCODE α) (a : α) (w : List UInt8) : Prop :=
  ∀ f marks, f.pos ≤ f.bytes.length →
    (f.pos + w.length ≤ f.bytes.length →
      run flat_ops p f marks =
        .ok (a, ⟨ByteImages.assign f.bytes f.pos w.length w, f.pos + w.length⟩, marks)) ∧
    (¬ f.pos + w.length ≤ f.bytes.length → ∃ e, run flat_ops p f marks = .error e)

def Reads (p : Filter .XDR_DECODE α) (a : α) (w : List UInt8) : Prop :=
  ∀ f marks, f.pos + w.length ≤ f.bytes.length → ByteImages.slice f.bytes f.pos w.length = w →
    run flat_ops p f marks = .ok (a, ⟨f.bytes, f.pos + w.length⟩, marks)

def RoundTrips (f : Xdrproc α) (dom : α → Prop) : Prop :=
  ∀ a, dom a → ∃ w, Writes (f .XDR_ENCODE a) a w ∧ ∀ before, Reads (f .XDR_DECODE before) a w

theorem writes_done (a : α) : Writes (.done a) a [] := by
  intro f marks inside
  refine ⟨fun _ => ?_, fun full => absurd inside full⟩
  have same : ByteImages.assign f.bytes f.pos 0 [] = f.bytes := by
    simp [ByteImages.assign]
  simp only [length_nil, same]
  rfl

theorem reads_done (a : α) : Reads (.done a) a [] := fun _ _ _ _ => rfl

variable {p : Filter .XDR_ENCODE α} (maxsize : Nat) {dom : α → Prop} {a : α} {b : β}
  {u w : List UInt8} (l : Int)

theorem writes_after {p : Filter .XDR_ENCODE β} {q : Filter .XDR_ENCODE β}
    (put : ∀ f marks, f.pos + u.length ≤ f.bytes.length →
      run flat_ops p f marks = run flat_ops q ⟨ByteImages.assign f.bytes f.pos u.length u, f.pos +
      u.length⟩ marks)
    (full : ∀ f marks, f.pos ≤ f.bytes.length → ¬ f.pos + u.length ≤ f.bytes.length →
      ∃ e, run flat_ops p f marks = .error e)
    (rest : Writes q b w) : Writes p b (u ++ w) := by
  intro f marks inside
  rw [length_append]
  by_cases room : f.pos + u.length ≤ f.bytes.length
  · have same_length := ByteImages.length_assign (rfl : u.length = u.length) room
    have rest := rest ⟨ByteImages.assign f.bytes f.pos u.length u, f.pos + u.length⟩ marks
    dsimp only at rest
    rw [same_length] at rest
    rw [put f marks room]
    refine ⟨fun fits => ?_, fun none => (rest room).2 (by omega)⟩
    rw [(rest room).1 (by omega), ByteImages.assign_assign room w, Nat.add_assoc]
  · exact ⟨fun fits => by omega, fun _ => full f marks inside room⟩

theorem reads_after {p q : Filter .XDR_DECODE β}
    (get : ∀ f marks, f.pos + u.length ≤ f.bytes.length →
      ByteImages.slice f.bytes f.pos u.length = u →
      run flat_ops p f marks = run flat_ops q ⟨f.bytes, f.pos + u.length⟩ marks)
    (rest : Reads q b w) : Reads p b (u ++ w) := by
  intro f marks inside same
  rw [length_append] at inside same
  rw [ByteImages.slice_add] at same
  obtain ⟨front, back⟩ := append_inj same (ByteImages.length_slice (by omega))
  rw [get f marks (by omega) front, length_append, ← Nat.add_assoc]
  exact rest ⟨f.bytes, f.pos + u.length⟩ marks (by dsimp only; omega) back

theorem Writes.bind {k : α → Filter .XDR_ENCODE β} (first : Writes p a u)
    (second : Writes (k a) b w) : Writes (p.bind k) b (u ++ w) := by
  refine writes_after (fun f marks room => ?_) (fun f marks inside full => ?_) second
  · rw [run_bind, (first f marks (by omega)).1 room]
    rfl
  · obtain ⟨e, none⟩ := (first f marks inside).2 full
    exact ⟨e, by rw [run_bind, none]; rfl⟩

theorem Reads.bind {p : Filter .XDR_DECODE α} {k : α → Filter .XDR_DECODE β} (first : Reads p a u)
    (second : Reads (k a) b w) : Reads (p.bind k) b (u ++ w) := by
  refine reads_after (fun f marks inside same => ?_) second
  rw [run_bind, first f marks inside same]
  rfl

theorem ntohl_htonl : ntohl (htonl l) = to_int l := by
  obtain ⟨n, hn⟩ : ∃ n, n = (l % 2 ^ 32).toNat := ⟨_, rfl⟩
  have bytes : (htonl l).foldl (fun n b => n * 256 + b.toNat) 0 = n := by
    simp only [htonl, ← hn, foldl_cons, foldl_nil, UInt8.toNat_ofNat']
    omega
  unfold ntohl to_int
  rw [bytes, hn, Int.toNat_of_nonneg (by omega), Int.bmod_def, Int.bmod_def,
    Int.emod_emod_of_dvd _ (by decide)]

theorem writes_word (rest : Writes p a w) : Writes (.putword rfl l p) a (htonl l ++ w) := by
  refine writes_after (fun f marks room => ?_) (fun f marks inside full => ?_) rest
  · rw [length_htonl] at room ⊢
    simp only [run, flat_ops, if_pos room]
    rfl
  · rw [length_htonl] at full
    simp only [run, flat_ops, if_neg full]
    exact ⟨_, rfl⟩

theorem reads_word {k : Int → Filter .XDR_DECODE α} (rest : Reads (k (to_int l)) a w) :
    Reads (.getword rfl k) a (htonl l ++ w) := by
  refine reads_after (fun f marks inside same => ?_) rest
  rw [length_htonl] at inside same ⊢
  simp only [run, flat_ops, if_pos inside, same, ntohl_htonl]
  rfl

theorem writes_bytes (bs : List UInt8) (rest : Writes p a w) :
    Writes (.putbytes rfl bs p) a (bs ++ w) := by
  refine writes_after (fun f marks room => ?_) (fun f marks inside full => ?_) rest
  · simp only [run, flat_ops, if_pos room]
    rfl
  · simp only [run, flat_ops, if_neg full]
    exact ⟨_, rfl⟩

theorem reads_bytes {k : List UInt8 → Filter .XDR_DECODE α} (bs : List UInt8) {len : Nat}
    (length : bs.length = len) (rest : Reads (k bs) a w) :
    Reads (.getbytes rfl len k) a (bs ++ w) := by
  subst length
  refine reads_after (fun f marks inside same => ?_) rest
  simp only [run, flat_ops, if_pos inside, same]
  rfl

def InLong (l : Int) : Prop := -2 ^ 31 ≤ l ∧ l < 2 ^ 31

theorem xdr_long_round : RoundTrips xdr_long InLong := by
  intro l range
  refine ⟨htonl l ++ [], writes_word l (writes_done l), fun _ => reads_word l ?_⟩
  rw [to_int_of_small range.1 range.2]
  exact reads_done l

theorem xdr_u_int_round : RoundTrips xdr_u_int (· < 2 ^ 32) := by
  intro n range
  have back : (to_int n % 2 ^ 32).toNat = n := by
    unfold to_int
    rw [Int.bmod_def]
    omega
  refine ⟨htonl n ++ [], writes_word n (writes_done n), fun _ => reads_word n ?_⟩
  rw [back]
  exact reads_done n

theorem xdr_short_round : RoundTrips xdr_short fun s => -2 ^ 15 ≤ s ∧ s < 2 ^ 15 := by
  intro s range
  have back : to_short (to_int s) = s := by
    rw [to_int_of_small (by omega) (by omega)]
    unfold to_short
    rw [Int.bmod_def]
    omega
  refine ⟨htonl s ++ [], writes_word s (writes_done s), fun _ => reads_word s ?_⟩
  rw [back]
  exact reads_done s

theorem xdr_bool_round : RoundTrips xdr_bool fun _ => True := by
  intro b _
  refine ⟨htonl (if b = true then 1 else 0) ++ [], writes_word _ (writes_done b),
    fun _ => reads_word _ ?_⟩
  cases b with
  | true => exact reads_done true
  | false => exact reads_done false

theorem xdr_opaque_round (cnt : Nat) : RoundTrips ( xdr_opaque cnt) fun cp => cp.length = cnt := by
  intro cp length
  have whole : cp.take cnt = cp := take_of_length_le (by omega)
  have pad : (replicate (rndup cnt) (0 : UInt8)).length = rndup cnt := length_replicate
  by_cases none : cnt = 0
  · obtain rfl : cp = [] := eq_nil_of_length_eq_zero (by omega)
    refine ⟨[], ?_, fun _ => ?_⟩
    · simp only [ xdr_opaque, if_pos none]
      exact writes_done []
    · simp only [ xdr_opaque, if_pos none]
      exact reads_done []
  · by_cases full : rndup cnt = 0
    · refine ⟨cp ++ [], ?_, fun _ => ?_⟩
      · simp only [ xdr_opaque, if_neg none, if_pos full, whole]
        exact writes_bytes cp (writes_done cp)
      · simp only [ xdr_opaque, if_neg none, if_pos full]
        exact reads_bytes cp length (reads_done cp)
    · refine ⟨cp ++ (replicate (rndup cnt) 0 ++ []), ?_, fun _ => ?_⟩
      · simp only [ xdr_opaque, if_neg none, if_neg full, whole]
        exact writes_bytes cp (writes_bytes _ (writes_done cp))
      · simp only [ xdr_opaque, if_neg none, if_neg full]
        exact reads_bytes cp length (reads_bytes _ pad (reads_done cp))

theorem xdr_bytes_round :
    RoundTrips (xdr_bytes maxsize) fun cpp => cpp.length ≤ maxsize ∧ cpp.length < 2 ^ 32 := by
  intro cpp range
  obtain ⟨u, count, counted⟩ := xdr_u_int_round cpp.length range.2
  obtain ⟨w, bytes, read⟩ := xdr_opaque_round cpp.length cpp rfl
  refine ⟨u ++ w, count.bind ?_, fun _ => (counted _).bind ?_⟩
  · rw [if_neg (by omega)]
    exact bytes
  · rw [if_neg (by omega)]
    by_cases none : cpp.length = 0
    · obtain rfl : cpp = [] := eq_nil_of_length_eq_zero none
      exact read []
    · rw [if_neg none]
      exact read []

def InString (maxsize : Nat) (cpp : Option (List UInt8)) : Prop :=
  ∃ sp, cpp = some sp ∧ 0 ∉ sp ∧ sp.length ≤ maxsize ∧ sp.length + 1 < 2 ^ 32

theorem strlen_of_nonzero {sp : List UInt8} (nonzero : 0 ∉ sp) : strlen sp = sp.length := by
  unfold strlen
  rw [takeWhile_eq_self_iff.mpr fun b member => ?_]
  have : b ≠ 0 := fun zero => nonzero (zero ▸ member)
  simpa using this

theorem xdr_string_round : RoundTrips (xdr_string maxsize) (InString maxsize) := by
  rintro _ ⟨sp, rfl, nonzero, limited, short⟩
  obtain ⟨u, count, counted⟩ := xdr_u_int_round sp.length (show sp.length < 2 ^ 32 by omega)
  obtain ⟨w, bytes, read⟩ := xdr_opaque_round sp.length sp rfl
  refine ⟨u ++ (w ++ []), ?_, fun before => ?_⟩
  · unfold xdr_string
    rw [if_neg (by simp), Option.getD_some, strlen_of_nonzero nonzero]
    refine count.bind ?_
    rw [if_neg (by omega)]
    exact bytes.bind (writes_done _)
  · unfold xdr_string
    rw [if_neg (by simp)]
    refine (counted _).bind ?_
    rw [if_neg (by omega)]
    rw [if_neg (by omega)]
    exact (read []).bind (reads_done _)

def InUnion (choices : List (Int × Xdrproc α)) (dfault : Option (Xdrproc α))
    (dom : Int → α → Prop) (value : Int × α) : Prop :=
  InLong value.1 ∧ (arm choices dfault value.1).isSome = true ∧ dom value.1 value.2

theorem xdr_union_round {choices : List (Int × Xdrproc α)} {dfault : Option (Xdrproc α)}
    {dom : Int → α → Prop}
    (arms : ∀ dscm, ∀ f ∈ arm choices dfault dscm, RoundTrips f (dom dscm)) :
    RoundTrips (xdr_union choices dfault) (InUnion choices dfault dom) := by
  rintro ⟨dscm, unp⟩ ⟨range, chosen, inside⟩
  obtain ⟨f, known⟩ : ∃ f, arm choices dfault dscm = some f := Option.isSome_iff_exists.mp chosen
  obtain ⟨u, tag, tagged⟩ := xdr_long_round dscm range
  obtain ⟨w, body, read⟩ := arms dscm f known unp inside
  refine ⟨u ++ (w ++ []), tag.bind ?_, fun ⟨before, _⟩ => (tagged before).bind ?_⟩
  · rw [known]
    exact body.bind (writes_done _)
  · rw [known]
    exact (read _).bind (reads_done _)

theorem elements_round (element : RoundTrips elproc dom) (zero : α) (as : List α)
    (inside : ∀ a ∈ as, dom a) :
    ∃ w, Writes (elements elproc .XDR_ENCODE as) as w ∧
      Reads (elements elproc .XDR_DECODE (replicate as.length zero)) as w := by
  induction as with
  | nil => exact ⟨[], writes_done [], reads_done []⟩
  | cons a as ih =>
    obtain ⟨u, first, read⟩ := element a (inside a (by simp))
    obtain ⟨w, rest, reads⟩ := ih fun b hb => inside b (by simp [hb])
    exact ⟨u ++ (w ++ []), first.bind (rest.bind (writes_done _)),
      (read zero).bind (reads.bind (reads_done _))⟩

theorem xdr_array_round (element : RoundTrips elproc dom) (zero : α) :
    RoundTrips (xdr_array maxsize elproc zero) fun as =>
      as.length ≤ maxsize ∧ as.length < 2 ^ 32 ∧ ∀ a ∈ as, dom a := by
  rintro as ⟨limited, short, inside⟩
  obtain ⟨u, count, counted⟩ := xdr_u_int_round as.length short
  obtain ⟨w, all, read⟩ := elements_round element zero as inside
  refine ⟨u ++ w, count.bind ?_, fun _ => (counted _).bind ?_⟩
  · rw [if_neg (by omega)]
    rw [take_length]
    exact all
  · rw [if_neg (by omega)]
    exact read

theorem in_turn_round {first : Xdrproc α} {second : Xdrproc β} {dom' : β → Prop}
    (one : RoundTrips first dom) (two : RoundTrips second dom') :
    RoundTrips (in_turn first second) fun value => dom value.1 ∧ dom' value.2 := by
  rintro ⟨a, b⟩ ⟨inside, inside'⟩
  obtain ⟨u, writes, reads⟩ := one a inside
  obtain ⟨w, writes', reads'⟩ := two b inside'
  exact ⟨u ++ (w ++ []), writes.bind (writes'.bind (writes_done _)), fun ⟨before, before'⟩ =>
    (reads before).bind ((reads' before').bind (reads_done _))⟩

/-- The routines that are built from those of rpc/xdr.c, with the values that they carry. -/
inductive Built : {α : Type} → Xdrproc α → (α → Prop) → Prop
  | long : Built xdr_long InLong
  | u_int : Built xdr_u_int (· < 2 ^ 32)
  | short : Built xdr_short fun s => -2 ^ 15 ≤ s ∧ s < 2 ^ 15
  | bool : Built xdr_bool fun _ => True
  | enum : Built xdr_enum InLong
  | fixed (cnt : Nat) : Built ( xdr_opaque cnt) fun cp => cp.length = cnt
  | bytes (maxsize : Nat) :
    Built (xdr_bytes maxsize) fun cpp => cpp.length ≤ maxsize ∧ cpp.length < 2 ^ 32
  | string (maxsize : Nat) : Built (xdr_string maxsize) (InString maxsize)
  | union {α : Type} {choices : List (Int × Xdrproc α)} {dfault : Option (Xdrproc α)}
    {dom : Int → α → Prop}
    (arms : ∀ dscm, ∀ f ∈ arm choices dfault dscm, Built f (dom dscm)) :
    Built (xdr_union choices dfault) (InUnion choices dfault dom)
  | array {α : Type} {elproc : Xdrproc α} {dom : α → Prop} (maxsize : Nat) (zero : α)
    (element : Built elproc dom) :
    Built (xdr_array maxsize elproc zero) fun as =>
      as.length ≤ maxsize ∧ as.length < 2 ^ 32 ∧ ∀ a ∈ as, dom a
  | in_turn {α β : Type} {first : Xdrproc α} {second : Xdrproc β} {dom : α → Prop}
    {dom' : β → Prop} (one : Built first dom) (two : Built second dom') :
    Built (in_turn first second) fun value => dom value.1 ∧ dom' value.2

theorem Built.round {f : Xdrproc α} (built : Built f dom) : RoundTrips f dom := by
  induction built with
  | long => exact xdr_long_round
  | u_int => exact xdr_u_int_round
  | short => exact xdr_short_round
  | bool => exact xdr_bool_round
  | enum => exact xdr_long_round
  | fixed cnt => exact xdr_opaque_round cnt
  | bytes maxsize => exact xdr_bytes_round maxsize
  | string maxsize => exact xdr_string_round maxsize
  | union arms ih => exact xdr_union_round ih
  | array maxsize zero element ih => exact xdr_array_round maxsize ih zero
  | in_turn one two ih ih' => exact in_turn_round ih ih'

end Xdr
