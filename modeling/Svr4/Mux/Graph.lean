import Svr4.Chains
import Svr4.Runs

/- os/strsubr.c: the graph of multiplexor links between drivers, and the search in it for
   a cycle that a new link would close. An edge lies where kmem_alloc has put it; after
   kmem_free it is not read again, and what it points to may be handed out once more. -/
namespace Multiplexors
open Function NextChains LabelledRuns
variable {cdevcnt : Nat}

structure mux_node (cdevcnt : Nat) where
  /-- where we came from during search -/
  mn_originp : Option (Fin cdevcnt)
  /-- where search left off in mn_outp -/
  mn_startp : Option Nat
  mn_outp : Option Nat
  /-- VISITED in mn_flags -/
  visited : Bool

structure Muxes (cdevcnt : Nat) where
  mux_nodes : Fin cdevcnt → mux_node cdevcnt
  me_nodep : Nat → Fin cdevcnt
  me_nextp : Nat → Option Nat
  me_muxid : Nat → Int
  /-- the edges that are allocated -/
  heap : List Nat

/-- What the graph needs of a stream: the type of its vnode and its major device number. -/
structure stdata (cdevcnt : Nat) where
  fifo : Bool
  major : Fin cdevcnt

namespace Muxes
variable (m : Muxes cdevcnt)

def set (n : Fin cdevcnt) (node : mux_node cdevcnt) : Muxes cdevcnt :=
  { m with mux_nodes := update m.mux_nodes n node }

def clear : Muxes cdevcnt :=
  { m with mux_nodes := fun n => { m.mux_nodes n with visited := false, mn_originp := none } }

def visit (n : Fin cdevcnt) : Muxes cdevcnt := m.set n { m.mux_nodes n with visited := true }

def set_start (n : Fin cdevcnt) (ep : Option Nat) : Muxes cdevcnt :=
  m.set n { m.mux_nodes n with mn_startp := ep }

def set_origin (n origin : Fin cdevcnt) : Muxes cdevcnt :=
  m.set n { m.mux_nodes n with mn_originp := some origin }

def edges (n : Fin cdevcnt) : List Nat :=
  collect m.me_nextp m.heap.length (m.mux_nodes n).mn_outp

def targets (n : Fin cdevcnt) : List (Fin cdevcnt) := (m.edges n).map m.me_nodep

def Linked (a b : Fin cdevcnt) : Prop := b ∈ m.targets a

theorem set_node (n n' : Fin cdevcnt) (node : mux_node cdevcnt) :
    (m.set n node).mux_nodes n' = if n' = n then node else m.mux_nodes n' :=
  update_apply _ _ _ _

end Muxes

/-- The state of the search; `followed` has the edges it went along, with the nodes they left. -/
structure Search (cdevcnt : Nat) where
  mux : Muxes cdevcnt
  np : Fin cdevcnt
  followed : List (Fin cdevcnt × Nat)

inductive Turn (cdevcnt : Nat)
  | goes_on (s : Search cdevcnt)
  | returns (answer : Bool) (mux : Muxes cdevcnt) (followed : List (Fin cdevcnt × Nat))
  /-- an edge is read that is not allocated -/
  | faults

/-- Back to where the search came from, or out of it. -/
def leave (s : Search cdevcnt) : Turn cdevcnt :=
  match (s.mux.mux_nodes s.np).mn_originp with
  | none => .returns false s.mux s.followed
  | some origin => .goes_on { s with np := origin }

def turn (upmaj : Fin cdevcnt) (s : Search cdevcnt) : Turn cdevcnt :=
  let np := s.mux.mux_nodes s.np
  if np.visited = false then
    if s.np = upmaj then .returns true s.mux s.followed
    else
      match np.mn_outp with
      | none => leave { s with mux := s.mux.visit s.np }
      | some ep => .goes_on { s with mux := (s.mux.visit s.np).set_start s.np (some ep) }
  else
    match np.mn_startp with
    | none => leave s
    | some ep =>
        if ep ∈ s.mux.heap then
          let m := s.mux.set_start s.np (s.mux.me_nextp ep)
          let to_node := m.me_nodep ep
          .goes_on ⟨m.set_origin to_node s.np, to_node, (s.np, ep) :: s.followed⟩
        else .faults

def turns (upmaj : Fin cdevcnt) : Nat → Search cdevcnt → Turn cdevcnt
  | 0, s => .goes_on s
  | rounds + 1, s =>
      match turn upmaj s with
      | .goes_on s' => turns upmaj rounds s'
      | result => result

/-- `linkcycle` in at most `rounds` turns of its loop -/
def linkcycle (rounds : Nat) (upstp lostp : stdata cdevcnt) (m : Muxes cdevcnt) : Turn cdevcnt :=
  if lostp.fifo then .returns false m []
  else turns upstp.major rounds ⟨m.clear, lostp.major, []⟩

/-- `mux_addedge`, where `kmem_alloc` gives the edge `ep` -/
def mux_addedge (upstp lostp : stdata cdevcnt) (muxid : Int) (ep : Nat) (m : Muxes cdevcnt) :
    Muxes cdevcnt :=
  let np := m.mux_nodes upstp.major
  let filled := fun (m : Muxes cdevcnt) =>
    { m with
      me_nextp := update m.me_nextp ep none
      me_muxid := update m.me_muxid ep muxid
      me_nodep := update m.me_nodep ep lostp.major
      heap := ep :: m.heap }
  match np.mn_outp with
  | some first =>
      filled { m with
        me_nextp := update m.me_nextp (last m.me_nextp m.heap.length first) (some ep) }
  | none => filled (m.set upstp.major { np with mn_outp := some ep })

def find_edge (m : Muxes cdevcnt) (muxid : Int) : Nat → Option Nat → Option Nat →
    Option (Option Nat × Nat)
  | fuel + 1, pep, some ep =>
      if m.me_muxid ep = muxid then some (pep, ep)
      else find_edge m muxid fuel (some ep) (m.me_nextp ep)
  | _, _, _ => none

def mux_rmvedge (upstp : stdata cdevcnt) (muxid : Int) (m : Muxes cdevcnt) : Muxes cdevcnt :=
  let np := m.mux_nodes upstp.major
  match find_edge m muxid m.heap.length none np.mn_outp with
  | none => m
  | some (some pep, ep) =>
      { m with
        me_nextp := update m.me_nextp pep (m.me_nextp ep)
        heap := m.heap.erase ep }
  | some (none, ep) =>
      { m.set upstp.major { np with mn_outp := m.me_nextp ep } with heap := m.heap.erase ep }

/-- `mux_nodes` as `strinit` leaves it -/
def strinit (nodep : Nat → Fin cdevcnt) : Muxes cdevcnt :=
  ⟨fun _ => ⟨none, none, none, false⟩, nodep, fun _ => none, fun _ => 0, []⟩

/-- The calls that read or change the graph, of streams that are not pipes. -/
inductive Call (cdevcnt : Nat)
  /-- an I_LINK or I_PLINK; `ep` is the edge it gets, if it comes to `mux_addedge` and gets one -/
  | link (upmaj lomaj : Fin cdevcnt) (muxid : Int) (ep : Option Nat) (rounds : Nat)
  | unlink (upmaj : Fin cdevcnt) (muxid : Int)

def step (m : Muxes cdevcnt) : Call cdevcnt → Option (Muxes cdevcnt)
  | .link upmaj lomaj muxid ep rounds =>
      match linkcycle rounds ⟨false, upmaj⟩ ⟨false, lomaj⟩ m, ep with
      | .returns false m _, some ep =>
          if ep ∈ m.heap then none
          else some (mux_addedge ⟨false, upmaj⟩ ⟨false, lomaj⟩ muxid ep m)
      | .returns _ m _, _ => some m
      | _, _ => none
  | .unlink upmaj muxid => some (mux_rmvedge ⟨false, upmaj⟩ muxid m)

end Multiplexors
