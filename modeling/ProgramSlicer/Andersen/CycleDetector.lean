import Mathlib.Data.Finset.Card
import ProgramSlicer.Library.Components
import ProgramSlicer.Library.FoldRules
import ProgramSlicer.Library.GrowingWalk

/-!
The abstract class `CycleDetector`. A client says what the children of a node
are, which node an index stands for by now, and what to do with the members of
a cycle; its own state is threaded through. A failed assertion is `none`, and
so are the increment of an invalid iterator and a recursion deeper than the fuel.
A node is its index.
-/
namespace ProgramSlicer.Andersen

/-- The graph traits and the virtual functions of a client. -/
structure CycleDetector (N σ : Type) where
  children : σ → N → List N
  getRep : N → σ → N × σ
  processNodeOnCycle : N → N → σ → Option σ
  processCycleRepNode : N → σ → Option σ

structure Search (N σ : Type) where
  sccStack : List N
  dfsNum : N → Option Nat
  inComponent : List N
  timestamp : Nat
  client : σ

/-- The constructor. -/
def Search.start {N σ : Type} (client : σ) : Search N σ where
  sccStack := []
  dfsNum _ := none
  inComponent := []
  timestamp := 0
  client := client

namespace CycleDetector
variable {N σ : Type} [DecidableEq N]

def setDfsNum (node : N) (d : Nat) (s : Search N σ) : Search N σ :=
  { s with dfsNum := fun n => if n = node then some d else s.dfsNum n }

def dfsNumOf (s : Search N σ) (n : N) : Nat := (s.dfsNum n).getD 0

def lower (node succRep : N) (s : Search N σ) : Search N σ :=
  if succRep ∉ s.inComponent ∧ dfsNumOf s succRep < dfsNumOf s node then
    setDfsNum node (dfsNumOf s succRep) s
  else s

variable (c : CycleDetector N σ)

def enter (visit : N → Search N σ → Option (Search N σ)) (index : N) (s : Search N σ) :
    Option (N × Search N σ) :=
  let (rep, client) := c.getRep index s.client
  let s := { s with client }
  if (s.dfsNum rep).isSome then some (rep, s) else (visit rep s).map fun s => (rep, s)

def visitEdge (visit : N → Search N σ → Option (Search N σ)) (node : N) (s : Search N σ)
    (child : N) : Option (Search N σ) := do
  let (succRep, s) ← enter c visit child s
  return lower node succRep s

/-- The loop that empties the stack down to the first node of an older cycle. -/
def popCycle (node : N) (myTimeStamp : Nat) : List N → Search N σ → Option (Search N σ)
  | [], s => some { s with sccStack := [] }
  | cycleNode :: rest, s =>
    if dfsNumOf s cycleNode < myTimeStamp then some { s with sccStack := cycleNode :: rest }
    else do
      let client ← c.processNodeOnCycle cycleNode node s.client
      popCycle node myTimeStamp rest
        { s with client, inComponent := cycleNode :: s.inComponent, sccStack := rest }

def visit : Nat → N → Search N σ → Option (Search N σ)
  | 0, _, _ => none
  | fuel + 1, node, s =>
    let myTimeStamp := s.timestamp
    if (s.dfsNum node).isSome then none else do
      let s := setDfsNum node myTimeStamp { s with timestamp := s.timestamp + 1 }
      let s ← (c.children s.client node).foldlM (visitEdge c (visit fuel) node) s
      if dfsNumOf s node ≠ myTimeStamp then return { s with sccStack := node :: s.sccStack }
      else do
        let s := { s with inComponent := node :: s.inComponent }
        let s ← popCycle c node myTimeStamp s.sccStack s
        let client ← c.processCycleRepNode node s.client
        return { s with client }

def runOnNode (fuel : Nat) (s : Search N σ) (node : N) : Option (Search N σ) :=
  if s.sccStack ≠ [] then none else do
    let (_, s) ← enter c (visit c fuel) node s
    if s.sccStack ≠ [] then none else return s

/-- `GraphTraits::node_begin` up to `node_end` on the graph as it is by now, and how often
    the graph has made all its iterators invalid. -/
structure NodeIterator (N σ : Type) where
  nodes : σ → List N
  nodup : ∀ s, (nodes s).Nodup
  epoch : σ → Nat

/-- `runOnGraph` on a fresh detector. `getRep` may put nodes into the graph that the loop
    goes through; the loop needs a turn for each node at most, as many as there is fuel. -/
def runOnGraph (graph : NodeIterator N σ) (fuel : Nat) (client : σ) : Option (Search N σ) := do
  let s ← GrowingWalk.walk (fun s : Search N σ => graph.nodes s.client)
    (fun s => graph.epoch s.client) (fun n s => (enter c (visit c fuel) n s).map Prod.snd) fuel
    (graph.nodes client).head? (Search.start client)
  if s.sccStack ≠ [] then none else return s

end CycleDetector
end ProgramSlicer.Andersen
