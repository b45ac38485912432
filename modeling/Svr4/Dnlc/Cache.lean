import Mathlib.Algebra.BigOperators.Group.Finset.Basic
import Svr4.Rings
import Svr4.Runs

/- The directory name lookup cache, with the calls of many processes. A call gives up the
   processor only while it releases the last reference to a vnode. -/
namespace Dnlc
open Function Rings

abbrev Vnode := Nat
abbrev Cred := Nat
abbrev Vfs := Nat

def NC_NAMLEN : Nat := 15
def NC_HASH_SIZE : Nat := 8

/-- A component of a path name. `lookuppn` does not pass on an empty one. -/
structure Name where
  bytes : List Nat
  nonempty : bytes ≠ []

def NC_HASH (namep : List Nat) (vp : Vnode) : Nat :=
  (namep.headD 0 + namep.getLastD 0 + namep.length + vp) % NC_HASH_SIZE

/-- `ANYCRED`, or one `cred_t *` (which may be `NOCRED`). -/
inductive Wanted
  | anycred
  | cred (c : Option Cred)

def Wanted.admits : Wanted → Option Cred → Bool
  | .anycred, _ => true
  | .cred c, d => c == d

structure Ncache where
  vp : Option Vnode
  dp : Option Vnode
  namlen : Nat
  name : List Nat
  cred : Option Cred

def Ncache.component (n : Ncache) : List Nat := n.name.take n.namlen

def Ncache.matching (n : Ncache) (dp : Vnode) (name : List Nat) (cred : Wanted) : Bool :=
  n.dp == some dp && n.namlen == name.length && cred.admits n.cred &&
    n.name.head? == name.head? && n.name.take name.length == name

def bcopy (name old : List Nat) : List Nat := name ++ old.drop name.length

/-- The headers of the hash chains, the header of the LRU list, and the entries. -/
inductive Cell
  | nc_hash (hash : Nat)
  | nc_lru
  | ncache (i : Nat)
  deriving DecidableEq

def Cell.index : Cell → Option Nat
  | .ncache i => some i
  | _ => none

def Cell.test (test : Nat → Bool) : Cell → Bool
  | .ncache i => test i
  | _ => false

structure Key where
  dp : Vnode
  name : List Nat
  cred : Option Cred
  deriving DecidableEq

structure Entering where
  dp : Vnode
  name : Name
  vp : Vnode
  cred : Option Cred

def Entering.key (e : Entering) : Key := ⟨e.dp, e.name.bytes, e.cred⟩

inductive Sweep
  | dnlc_remove (dp : Vnode) (name : Name)
  | dnlc_purge
  | dnlc_purge_vp (vp : Vnode)
  | dnlc_purge_vfsp (vfsp : Vfs) (count : Int)
  | dnlc_purge1

inductive Due
  | both
  | vp
  | nothing
  deriving DecidableEq

inductive Pc
  | user
  | enter (e : Entering) (ncp : Nat) (due : Due)
  | scan (k : Sweep) (n : Nat)
  | rm (k : Sweep) (n : Nat) (ncp : Nat) (due : Due)

def Pc.hand : Pc → Option (Nat × Due)
  | .enter _ ncp due => some (ncp, due)
  | .rm _ _ ncp due => some (ncp, due)
  | _ => none

/-- `cpu` is the process inside a call that has not slept. The last five fields are not in the
source: references from elsewhere, who has an entry in hand, the vnode entered last for a key and
not taken out since, and whether the name that a process enters has been removed since it looked. -/
structure State where
  doingcache : Bool
  ncsize : Nat
  hash : Links Cell
  lru : Links Cell
  ncache : Nat → Ncache
  v_count : Vnode → Nat
  v_vfsp : Vnode → Vfs
  cr_ref : Cred → Nat
  pc : Nat → Pc
  cpu : Option Nat
  outside : Vnode → Nat
  outsideCred : Cred → Nat
  held : Nat → Option (Nat × Due)
  last : Key → Option Vnode
  overtaken : Nat → Bool

/-- `INS_LRU(ncp, &nc_lru)` for each entry, `NULL_HASH` for all cells. Without `memory` there are no
entries. -/
def dnlc_init (ncsize : Nat) (memory : Bool) (v_vfsp : Vnode → Vfs) (count : Vnode → Nat)
    (ref : Cred → Nat) : State where
  doingcache := decide (0 < ncsize) && memory
  ncsize := if memory then ncsize else 0
  hash := ⟨id, id⟩
  lru := (List.range (if memory then ncsize else 0)).foldl
    (fun l i => l.insertAfter (.ncache i) .nc_lru) ⟨id, id⟩
  ncache := fun _ => ⟨none, none, 0, List.replicate NC_NAMLEN 0, none⟩
  v_count := count
  v_vfsp := v_vfsp
  cr_ref := ref
  pc := fun _ => .user
  cpu := none
  outside := count
  outsideCred := ref
  held := fun _ => none
  last := fun _ => none
  overtaken := fun _ => false

def dnlc_search (s : State) (dp : Vnode) (name : List Nat) (hash : Nat) (cred : Wanted) :
    Option Nat :=
  (s.hash.find (.nc_hash hash) (Cell.test fun i => (s.ncache i).matching dp name cred)
    (s.ncsize + 1) (s.hash.next (.nc_hash hash))).bind Cell.index

def first (s : State) (test : Nat → Bool) : Option Nat :=
  (s.lru.find .nc_lru (Cell.test test) (s.ncsize + 1) (s.lru.next .nc_lru)).bind Cell.index

/-- `RM_LRU(ncp); RM_HASH(ncp);` -/
def State.take (s : State) (p ncp : Nat) : State :=
  { s with
    lru := s.lru.remove (.ncache ncp)
    hash := s.hash.remove (.ncache ncp)
    held := update s.held ncp (some (p, .both)) }

def State.done (s : State) (p : Nat) : State := { s with pc := update s.pc p .user, cpu := none }

def State.goes (s : State) (p : Nat) (pc : Pc) : State :=
  { s with pc := update s.pc p pc, cpu := some p }

def State.owes (s : State) (p : Nat) (pc : Pc) (ncp : Nat) (due : Due) : State :=
  { s.goes p pc with held := update s.held ncp (some (p, due)) }

def VN_HOLD (s : State) (vp : Vnode) : State :=
  { s with v_count := update s.v_count vp (s.v_count vp + 1) }

/-- `VOP_INACTIVE`, which is called for the last reference, may sleep. -/
def VN_RELE (s : State) (vp : Vnode) : Option State :=
  if s.v_count vp = 0 then none
  else some { s with
    v_count := update s.v_count vp (s.v_count vp - 1)
    cpu := if s.v_count vp = 1 then none else s.cpu }

def crhold (s : State) (cr : Cred) : State :=
  { s with cr_ref := update s.cr_ref cr (s.cr_ref cr + 1) }

def crfree (s : State) (cr : Cred) : Option State :=
  if s.cr_ref cr = 0 then none
  else some { s with cr_ref := update s.cr_ref cr (s.cr_ref cr - 1) }

def unless_null {α : Type} (f : State → α → Option State) (s : State) : Option α → Option State
  | none => some s
  | some x => f s x

/-- `dnlc_enter` up to the release of the entry it takes. -/
def dnlc_enter (s : State) (p : Nat) (e : Entering) : State :=
  if ¬ s.doingcache then s
  else if NC_NAMLEN < e.name.bytes.length then s
  else if (dnlc_search s e.dp e.name.bytes (NC_HASH e.name.bytes e.dp) (.cred e.cred)).isSome then s
  else
    match (s.lru.next .nc_lru).index with
    | none => s
    | some ncp =>
      { (s.take p ncp).goes p (.enter e ncp .both) with
        overtaken := update s.overtaken p false }

/-- The end of `dnlc_enter`. A name taken out while the call was asleep does not count as entered.
-/
def fill (s : State) (p : Nat) (e : Entering) (ncp : Nat) : Option State :=
  (unless_null crfree s (s.ncache ncp).cred).map fun s =>
    let s := VN_HOLD s e.dp
    let s := VN_HOLD s e.vp
    let s := e.cred.elim s (crhold s)
    { s with
      ncache := update s.ncache ncp
        { dp := some e.dp
          vp := some e.vp
          namlen := e.name.bytes.length
          name := bcopy e.name.bytes (s.ncache ncp).name
          cred := e.cred }
      lru := s.lru.insertAfter (.ncache ncp) (s.lru.prev .nc_lru)
      hash := s.hash.insertAfter (.ncache ncp) (.nc_hash (NC_HASH e.name.bytes e.dp))
      held := update s.held ncp none
      last := if s.overtaken p then s.last else update s.last e.key (some e.vp)
      pc := update s.pc p .user
      cpu := none }

/-- Bring the entry to the end of the LRU list and one place forward on its chain. -/
def hit (s : State) (hash ncp : Nat) : State :=
  let cell := Cell.ncache ncp
  let lru := s.lru.remove cell
  let chain := s.hash.remove cell
  { s with
    lru := lru.insertAfter cell (lru.prev .nc_lru)
    hash := if s.hash.prev cell ≠ .nc_hash hash then
        chain.insertAfter cell (chain.prev (chain.prev cell))
      else s.hash }

def dnlc_lookup (s : State) (dp : Vnode) (name : Name) (cred : Wanted) : State × Option Vnode :=
  if ¬ s.doingcache then (s, none)
  else if NC_NAMLEN < name.bytes.length then (s, none)
  else
    let hash := NC_HASH name.bytes dp
    match dnlc_search s dp name.bytes hash cred with
    | none => (s, none)
    | some ncp => (hit s hash ncp, (s.ncache ncp).vp)

def victim (s : State) : Sweep → Option Nat
  | .dnlc_remove dp name => dnlc_search s dp name.bytes (NC_HASH name.bytes dp) .anycred
  | .dnlc_purge => (List.range NC_HASH_SIZE).findSome? fun nch =>
      (s.hash.next (.nc_hash nch)).index
  | .dnlc_purge_vp vp => first s fun i => (s.ncache i).dp == some vp || (s.ncache i).vp == some vp
  | .dnlc_purge_vfsp vfsp _ => first s fun i =>
      (s.ncache i).dp.any (fun dp => s.v_vfsp dp == vfsp) ||
        (s.ncache i).vp.any (fun vp => s.v_vfsp vp == vfsp)
  | .dnlc_purge1 => first s fun i => (s.ncache i).dp.isSome

/-- `cmn_err(CE_PANIC, "dnlc_purge: NULL vp")` -/
def panics (s : State) (ncp : Nat) : Sweep → Bool
  | .dnlc_purge => (s.ncache ncp).dp.isNone || (s.ncache ncp).vp.isNone
  | _ => false

def moretodo (n : Nat) : Sweep → Bool
  | .dnlc_purge_vfsp _ count => count == 0 || decide ((n : Int) < count)
  | .dnlc_purge1 => false
  | _ => true

def Sweep.selects (s : State) (dp : Vnode) (name : List Nat) (vp : Vnode) : Sweep → Bool
  | .dnlc_remove d n => dp == d && name == n.bytes
  | .dnlc_purge => true
  | .dnlc_purge_vp v => dp == v || vp == v
  | .dnlc_purge_vfsp vfsp _ => s.v_vfsp dp == vfsp || s.v_vfsp vp == vfsp
  | .dnlc_purge1 => true

def State.overtakes (s : State) (k : Sweep) : Pc → Bool
  | .enter e _ _ => k.selects s e.dp e.name.bytes e.vp
  | _ => false

def swept (s : State) (p : Nat) (k : Sweep) : State :=
  { s.done p with
    last := fun key => (s.last key).filter fun vp => ! k.selects s key.dp key.name vp
    overtaken := fun q => s.overtaken q || s.overtakes k (s.pc q) }

def sweep (s : State) (p : Nat) (k : Sweep) : State :=
  if ¬ s.doingcache then s
  else match k with
    | .dnlc_remove _ name => if NC_NAMLEN < name.bytes.length then s else s.goes p (.scan k 0)
    | _ => s.goes p (.scan k 0)

def scan (s : State) (p : Nat) (k : Sweep) (n : Nat) : Option State :=
  match victim s k with
  | none => some (swept s p k)
  | some ncp => if panics s ncp k then none else some ((s.take p ncp).goes p (.rm k n ncp .both))

def put_back (s : State) (p : Nat) (k : Sweep) (n ncp : Nat) : Option State :=
  (unless_null crfree s (s.ncache ncp).cred).map fun s =>
    let s := { s with
      ncache := update s.ncache ncp { s.ncache ncp with vp := none, cred := none }
      lru := s.lru.insertAfter (.ncache ncp) .nc_lru
      hash := s.hash.single (.ncache ncp)
      held := update s.held ncp none }
    if moretodo (n + 1) k then s.goes p (.scan k (n + 1)) else s.done p

def go (s : State) (p : Nat) : Option State :=
  match s.pc p with
  | .user => none
  | .enter e ncp .both =>
    unless_null VN_RELE (s.owes p (.enter e ncp .vp) ncp .vp) (s.ncache ncp).dp
  | .enter e ncp .vp =>
    unless_null VN_RELE (s.owes p (.enter e ncp .nothing) ncp .nothing) (s.ncache ncp).vp
  | .enter e ncp .nothing => fill s p e ncp
  | .scan k n => scan s p k n
  | .rm k n ncp .both => (s.ncache ncp).dp.bind (VN_RELE (s.owes p (.rm k n ncp .vp) ncp .vp))
  | .rm k n ncp .vp =>
    let s := { s with ncache := update s.ncache ncp { s.ncache ncp with dp := none } }
    (s.ncache ncp).vp.bind (VN_RELE (s.owes p (.rm k n ncp .nothing) ncp .nothing))
  | .rm k n ncp .nothing => put_back s p k n ncp

/-- The last five are what the rest of the system does with vnodes and credentials. -/
inductive Label
  | enter (p : Nat) (e : Entering)
  | lookup (p : Nat) (dp : Vnode) (name : Name) (cred : Wanted)
  | sweep (p : Nat) (k : Sweep)
  | go (p : Nat)
  | hold (vp : Vnode)
  | rele (vp : Vnode)
  | crhold (cr : Cred)
  | crfree (cr : Cred)
  | assign (vp : Vnode) (vfsp : Vfs)

def Pc.idle : Pc → Bool
  | .user => true
  | _ => false

/-- A call begins while no other process is awake inside one. -/
def State.ready (s : State) (p : Nat) : Bool := (s.pc p).idle && s.cpu.isNone

def State.running (s : State) (p : Nat) : Bool := ! (s.pc p).idle && s.cpu.all (· == p)

/-- A vnode that nobody refers to may be given to another file system. -/
def step (s : State) : Label → Option State
  | .enter p e => if s.ready p then some (dnlc_enter s p e) else none
  | .lookup p dp name cred => if s.ready p then some (dnlc_lookup s dp name cred).1 else none
  | .sweep p k => if s.ready p then some (sweep s p k) else none
  | .go p => if s.running p then go s p else none
  | .hold vp => if s.cpu.isNone then
      some { VN_HOLD s vp with outside := update s.outside vp (s.outside vp + 1) } else none
  | .rele vp => if s.cpu.isNone && decide (0 < s.outside vp) then
      (VN_RELE s vp).map fun s => { s with outside := update s.outside vp (s.outside vp - 1) }
      else none
  | .crhold cr => if s.cpu.isNone then
      some { crhold s cr with outsideCred := update s.outsideCred cr (s.outsideCred cr + 1) }
      else none
  | .crfree cr => if s.cpu.isNone && decide (0 < s.outsideCred cr) then
      (crfree s cr).map fun s =>
        { s with outsideCred := update s.outsideCred cr (s.outsideCred cr - 1) }
      else none
  | .assign vp vfsp => if s.v_count vp = 0 then
      some { s with v_vfsp := update s.v_vfsp vp vfsp } else none

end Dnlc
