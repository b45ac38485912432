import Mathlib.Algebra.Group.Nat.Defs
import Mathlib.Data.Nat.Bits
import Mathlib.Logic.Function.Basic

/- The kernel memory allocator (os/kma.c): power-of-two buffers carved from small and big
   pools by a lazy buddy scheme.

   The code sections at splhi are single steps, but for kmem_coalesce, whose loop goes
   round once a step with its activations on an explicit stack; nothing else runs
   meanwhile. Between the sections of a call anything else may run. A call that sleeps may
   wake up at any time, so what only decides when (Km_SmallWanted, Km_BigWanted and the
   wake-ups) is left out, as are the statistics; so are requests above MAXABIG, which go to
   sptalloc directly. Freelists and buffer classes are named by the exponent of the size. -/
namespace KernelMemory

def PAGESIZE : Nat := 4096
def SMALLBYTES : Nat := 4096
def BIGBYTES : Nat := 16384
def NIDLEP : Nat := 128
def MINSIDX : Nat := 3
def MAXSIDX : Nat := 8
def MINBIDX : Nat := 9
def MAXBIDX : Nat := 14
def MINASIDX : Nat := 4
def MAXASIDX : Nat := 8
def MINABIDX : Nat := 9
def MAXABIDX : Nat := 12
def MAXASMALL : Nat := 256
def MAXABIG : Nat := 4096
def SHIFT : Nat := 14
def NHASH : Nat := 128

/-- sizeof(bufpool) + 2 * sizeof(hashpool) + BIGBYTES/(MINBIG*8). -/
def BIGHEADER : Nat := 72

/-- `fl_nbits` and `fl_mask` of Km_FreeLists: the bits of a buffer in its bitmap word, at
the high end. -/
def fl_nbits (e : Nat) : Nat := [1, 2, 4, 8, 16, 32, 1, 2, 4, 8, 16, 32].getD (e - MINSIDX) 0

def fl_mask (e : Nat) : BitVec 32 :=
  [0x80000000, 0xc0000000, 0xf0000000, 0xff000000, 0xffff0000, 0xffffffff,
    0x80000000, 0xc0000000, 0xf0000000, 0xff000000, 0xffff0000, 0xffffffff].getD (e - MINSIDX) 0

/-- `fb_union` with the mask that goes with `fb_mapp`. A pool is named by its start address. -/
inductive FbUnion
  | DELAYED
  | mapp (pool word : Nat) (mask : BitVec 32)
  | poolp (pool : Nat)
deriving DecidableEq, Repr

structure FreeBuf where
  addr : Nat
  fb_union : FbUnion
deriving DecidableEq, Repr

structure FreeList where
  bufs : List FreeBuf
  fl_slack : BitVec 32

structure BufPool where
  bp_startp : Nat
  bp_alignp : Nat
  hp_endp : Nat
  bp_inuse : BitVec 32
  bp_idle : Bool
  bp_bitmapp : Nat → BitVec 32
  bp_expmin : Nat
  bp_expmax : Nat

/-- An activation of kmem_coalesce. `first` is not in the source: the buffer it was called with. -/
structure Merge where
  bufp : Nat
  e : Nat
  pool : Nat
  wordp : Nat
  shift : Nat
  mask : BitVec 32
  first : Nat × Nat
deriving DecidableEq

/-- What is active inside kmem_free: kmem_coalesce, or kmem_free itself after its first
call of it. -/
inductive Frame
  | merge (m : Merge)
  | again (e : Nat)
deriving DecidableEq

/-- Where an activation of kmem_alloc stands. `search from` looks through the lists from `from` on;
`creating` is in kmem_allocspool or kmem_allocbpool. -/
inductive Phase
  | search (start : Nat)
  | newpool
  | asleep (next : Phase)
  | creating
deriving DecidableEq

structure Act where
  size : Nat
  nosleep : Bool
  phase : Phase
deriving DecidableEq

/-- The activation of kmem_allocspool that has set Km_SmAllocOn. -/
inductive SmallPool
  | sptalloc
  | publish (pool : Nat)
deriving DecidableEq

/-- The activation of kmem_allocbpool that has set Km_BgAllocOn. -/
inductive BigPool
  | sptalloc
  | header (base : Nat)
  | setup (base header : Nat)
  | publish (pool : Nat)
deriving DecidableEq

/-- `spt` lists the ranges of sptalloc, `live` the buffers of callers of kmem_alloc (exponent and
address), `headers` those that hold the structures of big pools. -/
structure Kma where
  Km_FreeLists : Nat → FreeList
  pools : Nat → Option BufPool
  Km_HashLists : Nat → List Nat
  Km_NewSmall : Option Nat
  Km_NewBig : Option Nat
  Km_SmAllocOn : Option SmallPool
  Km_BgAllocOn : Option BigPool
  Km_Idlep : List Nat
  spt : List (Nat × Nat)
  live : List (Nat × Nat)
  headers : List Nat
  calls : Nat → List Act
  stack : List Frame

/-! Size classes -/

/-- `while (tmpsiz < size)`, for at most the lists there are. -/
def find_list (size : Nat) : Nat → Nat → Nat
  | 0, e => e
  | n + 1, e => if 2 ^ e < size then find_list size n (e + 1) else e

def class_of (size : Nat) : Nat :=
  if size ≤ MAXASMALL then find_list size (MAXASIDX - MINASIDX) MINASIDX
  else find_list size (MAXABIDX - MINABIDX) MINABIDX

/-- The largest allocable class of the pools that class `e` comes from. -/
def max_class (e : Nat) : Nat := if e ≤ MAXASIDX then MAXASIDX else MAXABIDX

/-! Free lists -/

def Kma.bufs (s : Kma) (e : Nat) : List FreeBuf := (s.Km_FreeLists e).bufs
def Kma.slack (s : Kma) (e : Nat) : BitVec 32 := (s.Km_FreeLists e).fl_slack

def Kma.setBufs (s : Kma) (e : Nat) (bufs : List FreeBuf) : Kma :=
  { s with Km_FreeLists := Function.update s.Km_FreeLists e ⟨bufs, s.slack e⟩ }

def Kma.setSlack (s : Kma) (e : Nat) (slack : BitVec 32) : Kma :=
  { s with Km_FreeLists := Function.update s.Km_FreeLists e ⟨s.bufs e, slack⟩ }

def HEADFREE (s : Kma) (e : Nat) (fb : FreeBuf) : Kma := s.setBufs e (fb :: s.bufs e)
def TAILFREE (s : Kma) (e : Nat) (fb : FreeBuf) : Kma := s.setBufs e (s.bufs e ++ [fb])
def UNLINKHEAD (s : Kma) (e : Nat) : Kma := s.setBufs e (s.bufs e).tail

/-- UNLINK of the buffer at `addr`; it is fatal when that is no buffer of the list. -/
def UNLINK (s : Kma) (e addr : Nat) : Option Kma :=
  if (s.bufs e).any fun fb => fb.addr = addr then
    some (s.setBufs e ((s.bufs e).eraseP fun fb => fb.addr = addr))
  else none

/-! Pools -/

def HASH (a : Nat) : Nat := (a >>> SHIFT) &&& (NHASH - 1)

def VALID (s : Kma) (a pool : Nat) : Bool :=
  (s.pools pool).any fun P => P.bp_alignp ≤ a && a < P.hp_endp

def ADDHASH (s : Kma) (i pool : Nat) : Kma :=
  { s with Km_HashLists := Function.update s.Km_HashLists i (pool :: s.Km_HashLists i) }

def LOOKUP (s : Kma) (a : Nat) : Option Nat := (s.Km_HashLists (HASH a)).find? (VALID s a)

def Kma.setPool (s : Kma) (pool : Nat) (P : BufPool) : Kma :=
  { s with pools := Function.update s.pools pool (some P) }

def BufPool.setWord (P : BufPool) (w : Nat) (word : BitVec 32) : BufPool :=
  { P with bp_bitmapp := Function.update P.bp_bitmapp w word }

def mark (s : Kma) (pool w : Nat) (mask : BitVec 32) : Option Kma :=
  (s.pools pool).map fun P => s.setPool pool (P.setWord w (P.bp_bitmapp w ||| mask))

def unmark (s : Kma) (pool w : Nat) (mask : BitVec 32) : Option Kma :=
  (s.pools pool).map fun P => s.setPool pool (P.setWord w (P.bp_bitmapp w &&& ~~~mask))

def use_pool (s : Kma) (pool : Nat) : Option Kma :=
  (s.pools pool).map fun P => s.setPool pool { P with bp_inuse := P.bp_inuse + 1 }

/-- One less; a pool that falls idle is noted for kmem_freepool. -/
def release_pool (s : Kma) (pool : Nat) : Option Kma :=
  (s.pools pool).map fun P =>
    let released := { P with bp_inuse := P.bp_inuse - 1 }
    if released.bp_inuse = 0 ∧ some pool ≠ s.Km_NewSmall ∧ some pool ≠ s.Km_NewBig
        ∧ s.Km_Idlep.length < NIDLEP ∧ P.bp_idle = false then
      { s.setPool pool { released with bp_idle := true } with Km_Idlep := s.Km_Idlep ++ [pool] }
    else s.setPool pool released

/-! kmem_allocspool and kmem_allocbpool: the parts at splhi -/

def carve (s : Kma) (e pool endp : Nat) : Nat → Nat → Kma
  | 0, _ => s
  | n + 1, memp =>
      if memp < endp then carve (HEADFREE s e ⟨memp, .poolp pool⟩) e pool endp n (memp + 2 ^ e)
      else s

def align_up (a size : Nat) : Nat := (a + size - 1) / size * size
def align_down (a size : Nat) : Nat := a / size * size

def hash_pool (s : Kma) (pool bytes : Nat) : Kma :=
  let first := ADDHASH s (HASH pool) pool
  if HASH pool ≠ HASH (pool + bytes - 1) then ADDHASH first (HASH (pool + bytes - 1)) pool else first

/-- The first two buffers hold the bufpool and hashpool structures and the bitmap. -/
def setup_spool (s : Kma) (base : Nat) : Kma :=
  let alignp := align_up base MAXASMALL
  let endp := align_down (base + SMALLBYTES) MAXASMALL
  let P : BufPool := ⟨base, alignp, endp, 0, false, fun w => if w < 16 then BitVec.allOnes 32 else 0,
    MINSIDX, MAXSIDX⟩
  carve (hash_pool (s.setPool base P) base SMALLBYTES) MAXASIDX base endp
    (SMALLBYTES / MAXASMALL) (alignp + 2 * MAXASMALL)

def setup_bpool (s : Kma) (base : Nat) : Kma :=
  let alignp := align_up base MAXABIG
  let endp := align_down (base + BIGBYTES) MAXABIG
  let P : BufPool := ⟨base, alignp, endp, 0, false, fun w => if w < 1 then BitVec.allOnes 32 else 0,
    MINBIDX, MAXBIDX⟩
  carve (hash_pool (s.setPool base P) base BIGBYTES) MAXABIDX base endp (BIGBYTES / MAXABIG) alignp

/-! kmem_alloc: the search at splhi -/

/-- The counters and the bitmap when the head of list `g` is taken; fatal when the union is not what
the class expects. -/
def take_state (s : Kma) (g : Nat) (fb : FreeBuf) : Option Kma :=
  match fb.fb_union with
  | .DELAYED => if g < max_class g then some (s.setSlack g (s.slack g + 2)) else none
  | .mapp pool w mask =>
      if g < max_class g then (mark s pool w mask).map fun s => s.setSlack g (s.slack g + 1) else none
  | .poolp pool =>
      if g < max_class g then none
      else (use_pool s pool).map fun s => s.setSlack g (s.slack g + 2)

/-- The `do ... while` that halves a buffer of class `g` `k` times, freeing the lower ones. -/
def split (s : Kma) : Nat → Nat → Nat → Kma × Nat
  | 0, _, bufp => (s, bufp)
  | k + 1, g, bufp => split (HEADFREE s (g - 1) ⟨bufp, .DELAYED⟩) k (g - 1) (bufp + 2 ^ (g - 1))

/-- Look through `n` lists from `g` on for a buffer to make one of class `e` of. -/
def search_lists (s : Kma) (e : Nat) : Nat → Nat → Option (Kma × Option Nat)
  | 0, _ => some (s, none)
  | n + 1, g =>
    match s.bufs g with
    | [] => search_lists s e n (g + 1)
    | fb :: _ => (take_state (UNLINKHEAD s g) g fb).map fun s =>
        ((split s (g - e) g fb.addr).1, some (split s (g - e) g fb.addr).2)

/-! kmem_alloc: its activations -/

def Kma.setCall (s : Kma) (c : Nat) (acts : List Act) : Kma :=
  { s with calls := Function.update s.calls c acts }

def drop_region (s : Kma) : Kma :=
  match s.Km_BgAllocOn with
  | some (.header base) => { s with spt := s.spt.erase (base, BIGBYTES), Km_BgAllocOn := none }
  | _ => s

def return_null (s : Kma) (c : Nat) : List Act → Kma
  | [] => s.setCall c []
  | act :: rest =>
      if act.nosleep then return_null (drop_region s) c rest
      else (drop_region s).setCall c
        ({ act with phase := .asleep (.search (class_of act.size)) } :: rest)

def fail (s : Kma) (c : Nat) (act : Act) (rest : List Act) (next : Phase) : Kma :=
  if act.nosleep then return_null s c rest
  else s.setCall c ({ act with phase := .asleep next } :: rest)

/-- An activation of kmem_alloc returns a buffer, to its caller or as the header of the big pool. -/
def return_buffer (s : Kma) (c e addr : Nat) : List Act → Kma
  | [] => { s.setCall c [] with live := (e, addr) :: s.live }
  | rest =>
      match s.Km_BgAllocOn with
      | some (.header base) => { s.setCall c rest with
          Km_BgAllocOn := some (.setup base addr), headers := addr :: s.headers }
      | _ => { s.setCall c rest with headers := addr :: s.headers }

def search (s : Kma) (c : Nat) (act : Act) (rest : List Act) (start : Nat) : Option Kma :=
  let e := class_of act.size
  (search_lists s e (max_class e + 1 - start) start).map fun (s, found) =>
    match found with
    | some addr => return_buffer s c e addr rest
    | none => s.setCall c ({ act with phase := .newpool } :: rest)

/-- Entry of kmem_allocspool or kmem_allocbpool; `enough` is whether the reserve allows the pages.
-/
def newpool (s : Kma) (c : Nat) (act : Act) (rest : List Act) (enough : Bool) : Kma :=
  let creating := s.setCall c ({ act with phase := .creating } :: rest)
  let retry := Phase.search (class_of act.size)
  if act.size ≤ MAXASMALL then
    if s.Km_SmAllocOn.isSome then fail s c act rest .newpool
    else if enough then { creating with Km_SmAllocOn := some .sptalloc }
    else fail s c act rest retry
  else
    if s.Km_BgAllocOn.isSome then fail s c act rest .newpool
    else if enough then { creating with Km_BgAllocOn := some .sptalloc }
    else fail s c act rest retry

/-- What sptalloc promises: whole pages that it has not handed out. -/
def fresh (s : Kma) (base bytes : Nat) : Bool :=
  0 < base && base % PAGESIZE = 0 && s.spt.all fun r => base + bytes ≤ r.1 || r.1 + r.2 ≤ base

/-- sptalloc returns, with `none` for NULL. A small pool is set up at once; a big one
first needs a header. -/
def sptalloc (s : Kma) (c : Nat) (act : Act) (rest : List Act) (got : Option Nat) : Option Kma :=
  let retry := Phase.search (class_of act.size)
  if act.size ≤ MAXASMALL then
    if s.Km_SmAllocOn = some .sptalloc then
      match got with
      | none => some (fail { s with Km_SmAllocOn := none } c act rest retry)
      | some base =>
          if fresh s base SMALLBYTES then
            some { setup_spool s base with
              spt := (base, SMALLBYTES) :: s.spt, Km_SmAllocOn := some (.publish base) }
          else none
    else none
  else
    if s.Km_BgAllocOn = some .sptalloc then
      match got with
      | none => some (fail { s with Km_BgAllocOn := none } c act rest retry)
      | some base =>
          if fresh s base BIGBYTES then
            some { s.setCall c (⟨BIGHEADER, act.nosleep, .search (class_of BIGHEADER)⟩ :: act :: rest) with
              spt := (base, BIGBYTES) :: s.spt, Km_BgAllocOn := some (.header base) }
          else none
    else none

def setup (s : Kma) : Option Kma :=
  match s.Km_BgAllocOn with
  | some (.setup base _) => some { setup_bpool s base with Km_BgAllocOn := some (.publish base) }
  | _ => none

/-- The pool becomes the newest of its class; the search goes on at the largest list. -/
def publish (s : Kma) (c : Nat) (act : Act) (rest : List Act) : Option Kma :=
  let ready := s.setCall c
    ({ act with phase := .search (max_class (class_of act.size)) } :: rest)
  if act.size ≤ MAXASMALL then
    match s.Km_SmAllocOn with
    | some (.publish pool) => some { ready with Km_NewSmall := some pool, Km_SmAllocOn := none }
    | _ => none
  else
    match s.Km_BgAllocOn with
    | some (.publish pool) => some { ready with Km_NewBig := some pool, Km_BgAllocOn := none }
    | _ => none

/-! kmem_free and kmem_coalesce -/

/-- The start of kmem_coalesce: find the pool and compute the buffer's mask. -/
def coalesce_start (s : Kma) (bufp e : Nat) : Option Merge :=
  (LOOKUP s bufp).bind fun pool => (s.pools pool).map fun P =>
    let offset := bufp - P.bp_alignp
    let shift := (offset >>> P.bp_expmin) &&& 0x1f
    ⟨bufp, e, pool, offset >>> P.bp_expmax, shift, fl_mask e >>> shift, (e, bufp)⟩

/-- `(buf2p = listp->fl_nextp) != listp && buf2p->fb_state == DELAYED`. -/
def delayed_head (s : Kma) (e : Nat) : Option Nat :=
  match s.bufs e with
  | ⟨addr, .DELAYED⟩ :: _ => some addr
  | _ => none

/-- In accelerated mode coalesce a delayed buffer of list `e` too, under `rest`; otherwise
reset the slack. -/
def accelerate (s : Kma) (e : Nat) (rest : List Frame) : Option Kma :=
  match (if s.slack e = 0 then delayed_head s e else none) with
  | some addr => (coalesce_start s addr e).map fun m =>
      { UNLINKHEAD s e with stack := .merge m :: rest }
  | none => some { s.setSlack e 0 with stack := rest }

scoped instance lawful_live : LawfulBEq (Nat × Nat) := inferInstance

def kmem_free (s : Kma) (addr size : Nat) : Option Kma :=
  let e := class_of size
  if 0 < size ∧ size ≤ MAXABIG ∧ (e, addr) ∈ s.live then
    let freed := { s with live := s.live.erase (e, addr) }
    if 2 ≤ s.slack e ∨ e = max_class e then
      let lazy := freed.setSlack e (s.slack e - 2)
      if e < max_class e then some (HEADFREE lazy e ⟨addr, .DELAYED⟩)
      else (LOOKUP s addr).bind fun pool =>
        release_pool (HEADFREE lazy e ⟨addr, .poolp pool⟩) pool
    else (coalesce_start s addr e).map fun m => { freed with stack := [.merge m, .again e] }
  else none

def keep_merged (s : Kma) (m : Merge) (rest : List Frame) : Option Kma :=
  (mark { s with stack := rest } m.pool m.wordp m.mask).bind fun s =>
    if m.e < max_class m.e then
      some ((HEADFREE s m.e ⟨m.bufp, .DELAYED⟩).setSlack m.e (s.slack m.e - 2))
    else release_pool (HEADFREE s m.e ⟨m.bufp, .poolp m.pool⟩) m.pool

def absorb (m : Merge) : Merge :=
  let bshift := m.shift ^^^ fl_nbits m.e
  { m with
    bufp := Nat.ldiff (m.bufp ^^^ 2 ^ m.e) (2 ^ m.e)
    e := m.e + 1
    shift := m.shift &&& bshift
    mask := m.mask ||| (fl_mask m.e >>> bshift) }

def buddy_free (P : BufPool) (m : Merge) : Bool :=
  P.bp_bitmapp m.wordp &&& (fl_mask m.e >>> (m.shift ^^^ fl_nbits m.e)) = 0

def coalesce_round (s : Kma) (m : Merge) (rest : List Frame) : Option Kma :=
  (s.pools m.pool).bind fun P =>
    if buddy_free P m then
      (UNLINK s m.e (m.bufp ^^^ 2 ^ m.e)).bind fun s =>
        if 2 ≤ s.slack (m.e + 1) ∨ m.e + 1 = max_class m.e then keep_merged s (absorb m) rest
        else accelerate s (m.e + 1) (.merge (absorb m) :: rest)
    else
      (unmark { s with stack := rest } m.pool m.wordp m.mask).map fun s =>
        TAILFREE s m.e ⟨m.bufp, .mapp m.pool m.wordp m.mask⟩

def coalesce (s : Kma) : Option Kma :=
  match s.stack with
  | [] => none
  | .merge m :: rest => coalesce_round s m rest
  | .again e :: rest => accelerate s e rest

/-! The machine -/

inductive Label
  | kmem_alloc (c size : Nat) (nosleep : Bool)
  | search (c : Nat)
  | newpool (c : Nat) (enough : Bool)
  | sptalloc (c : Nat) (got : Option Nat)
  | setup (c : Nat)
  | publish (c : Nat)
  | wake (c : Nat)
  | kmem_free (addr size : Nat)
  | coalesce
deriving DecidableEq

def call_step (s : Kma) (c : Nat) (act : Act) (rest : List Act) : Phase → Label → Option Kma
  | .search start, .search _ => search s c act rest start
  | .newpool, .newpool _ enough => some (newpool s c act rest enough)
  | .asleep next, .wake _ => some (s.setCall c ({ act with phase := next } :: rest))
  | .creating, .sptalloc _ got => sptalloc s c act rest got
  | .creating, .setup _ => setup s
  | .creating, .publish _ => publish s c act rest
  | _, _ => none

def on_call (s : Kma) (c : Nat) (l : Label) : Option Kma :=
  if s.stack = [] then
    match s.calls c with
    | [] => none
    | act :: rest => call_step s c act rest act.phase l
  else none

def step (s : Kma) : Label → Option Kma
  | .kmem_alloc c size nosleep =>
      if s.stack = [] ∧ s.calls c = [] ∧ 0 < size ∧ size ≤ MAXABIG then
        some (s.setCall c [⟨size, nosleep, .search (class_of size)⟩])
      else none
  | .search c => on_call s c (.search c)
  | .newpool c enough => on_call s c (.newpool c enough)
  | .sptalloc c got => on_call s c (.sptalloc c got)
  | .setup c => on_call s c (.setup c)
  | .publish c => on_call s c (.publish c)
  | .wake c => on_call s c (.wake c)
  | .kmem_free addr size => if s.stack = [] then kmem_free s addr size else none
  | .coalesce => coalesce s

def empty : Kma where
  Km_FreeLists := fun _ => ⟨[], 0⟩
  pools := fun _ => none
  Km_HashLists := fun _ => []
  Km_NewSmall := none
  Km_NewBig := none
  Km_SmAllocOn := none
  Km_BgAllocOn := none
  Km_Idlep := []
  spt := []
  live := []
  headers := []
  calls := fun _ => []
  stack := []

end KernelMemory
