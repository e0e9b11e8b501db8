import ProgramSlicer.Andersen.CycleDetector
import ProgramSlicer.Andersen.SparseBitVectorGraph

/-!
`Andersen::solveConstraints` with both cycle detectors. The options are
`EnableHCD` and `EnableLCD`. A failed assertion, a step of an invalid iterator and
a loop that needs more iterations than the fuel are `none`.
-/
namespace ProgramSlicer.Andersen
open AndersNodeFactory

abbrev AndersPtsSet := SparseBitVector

inductive ConstraintKind where
  | copy | load | store
deriving DecidableEq

structure ConstraintGraphNode where
  idx : NodeIndex
  edges : ConstraintKind → SparseBitVector

namespace ConstraintGraphNode

def new (i : NodeIndex) : ConstraintGraphNode := ⟨i, fun _ => ∅⟩

def setEdges (n : ConstraintGraphNode) (kind : ConstraintKind) (set : SparseBitVector) :
    ConstraintGraphNode :=
  { n with edges := fun k => if k = kind then set else n.edges k }

def mergeEdges (n other : ConstraintGraphNode) : ConstraintGraphNode :=
  { n with edges := fun k => (n.edges k).union (other.edges k) }

end ConstraintGraphNode

structure ConstraintGraph where
  graph : NodeIndex → Option ConstraintGraphNode

namespace ConstraintGraph

def empty : ConstraintGraph := ⟨fun _ => none⟩

def put (g : ConstraintGraph) (n : NodeIndex) (node : ConstraintGraphNode) : ConstraintGraph :=
  ⟨fun m => if m = n then some node else g.graph m⟩

def edges (g : ConstraintGraph) (kind : ConstraintKind) (n : NodeIndex) : SparseBitVector :=
  match g.graph n with
  | none => ∅
  | some node => node.edges kind

def isNewEdge (g : ConstraintGraph) (kind : ConstraintKind) (src dst : NodeIndex) : Bool :=
  dst ∉ g.edges kind src

def insertEdge (g : ConstraintGraph) (kind : ConstraintKind) (src dst : NodeIndex) : ConstraintGraph :=
  let srcNode := (g.graph src).getD (.new src)
  g.put src (srcNode.setEdges kind ((srcNode.edges kind).set dst))

def insertCopyEdge (g : ConstraintGraph) := g.insertEdge .copy
def insertLoadEdge (g : ConstraintGraph) := g.insertEdge .load
def insertStoreEdge (g : ConstraintGraph) := g.insertEdge .store

/-- `replaceCopyEdge` and its siblings: the new edge only where the old one was. -/
def replaceEdge (g : ConstraintGraph) (kind : ConstraintKind) (node oldIdx newIdx : NodeIndex) :
    ConstraintGraph :=
  match g.graph node with
  | none => g
  | some n =>
    if oldIdx ∈ n.edges kind then
      g.put node (n.setEdges kind (((n.edges kind).reset oldIdx).set newIdx))
    else g

/-- Where `dst` has no node yet it gets a copy of the other one, with its index. -/
def mergeNodes (g : ConstraintGraph) (dst src : NodeIndex) : ConstraintGraph :=
  match g.graph src with
  | none => g
  | some srcNode =>
    match g.graph dst with
    | none => g.put dst srcNode
    | some dstNode => g.put dst (dstNode.mergeEdges srcNode)

def deleteNode (g : ConstraintGraph) (idx : NodeIndex) : ConstraintGraph :=
  ⟨fun m => if m = idx then none else g.graph m⟩

def getOrInsertNode (g : ConstraintGraph) (idx : NodeIndex) : ConstraintGraph :=
  match g.graph idx with
  | none => g.put idx (.new idx)
  | some _ => g

def getNodeIndex (g : ConstraintGraph) (n : NodeIndex) : NodeIndex :=
  match g.graph n with
  | none => n
  | some node => node.idx

end ConstraintGraph

/-- What collapsing nodes works on. -/
structure Graphs where
  nodeFactory : AndersNodeFactory
  ptsGraph : NodeIndex → Option AndersPtsSet
  constraintGraph : ConstraintGraph

namespace Graphs

def pts (g : Graphs) (n : NodeIndex) : AndersPtsSet := (g.ptsGraph n).getD ∅

def unionWith (g : Graphs) (n : NodeIndex) (set : AndersPtsSet) : Graphs :=
  { g with ptsGraph := fun m => if m = n then some ((g.pts n).union set) else g.ptsGraph m }

def erase (g : Graphs) (n : NodeIndex) : Graphs :=
  { g with
    ptsGraph := fun m => if m = n then none else g.ptsGraph m
    constraintGraph := g.constraintGraph.deleteNode n }

end Graphs

def collapseNodes (dst src : NodeIndex) (g : Graphs) : Option Graphs :=
  if dst = src then some g else do
    let nodeFactory ← g.nodeFactory.mergeNode dst src
    let g := { g with nodeFactory }
    let g := if (g.ptsGraph src).isSome then g.unionWith dst (g.pts src) else g
    let g := { g with constraintGraph := g.constraintGraph.mergeNodes dst src }
    return g.erase src

abbrev AndersWorkList := List NodeIndex

/-- The set beside the queue has the members of the queue. -/
def AndersWorkList.enqueue (w : AndersWorkList) (elem : NodeIndex) : AndersWorkList :=
  if elem ∈ w then w else w ++ [elem]

namespace OfflineCycleDetector

/-- The members of the detector that its callbacks change. -/
structure State where
  offlineGraph : SparseBitVectorGraph
  collapseMap : DenseMap NodeIndex
  mergeMap : DenseMap NodeIndex
  scc : SparseBitVector

def getRefNodeIndex (F : AndersNodeFactory) (n : NodeIndex) : NodeIndex := n + F.numNodes

def addConstraint (F : AndersNodeFactory) (g : SparseBitVectorGraph) (c : AndersConstraint) :
    SparseBitVectorGraph :=
  let srcTgt := F.getMergeTarget c.src
  let dstTgt := F.getMergeTarget c.dest
  match c.type with
  | .ADDR_OF => g
  | .LOAD => g.insertEdge (getRefNodeIndex F srcTgt) dstTgt
  | .STORE => g.insertEdge srcTgt (getRefNodeIndex F dstTgt)
  | .COPY => g.insertEdge srcTgt dstTgt

def buildOfflineConstraintGraph (policy : HashTable.Policy NodeIndex) (F : AndersNodeFactory)
    (cs : List AndersConstraint) : SparseBitVectorGraph :=
  cs.foldl (addConstraint F) (.empty policy)

def classify (F : AndersNodeFactory) (repNode : NodeIndex) (s : State) (cycleNode : NodeIndex) :
    State :=
  if cycleNode > F.numNodes then
    { s with collapseMap := s.collapseMap.insert (cycleNode - F.numNodes) repNode }
  else { s with mergeMap := s.mergeMap.insert cycleNode repNode }

def processCycleRepNode (F : AndersNodeFactory) (node : NodeIndex) (s : State) : Option State :=
  if s.scc.count = 0 then some s else
    match (s.scc.set node).bits with
    | [] => none
    | repNode :: others =>
      if repNode < F.numNodes then
        some { others.foldl (classify F repNode) s with scc := ∅ }
      else none

def detector (F : AndersNodeFactory) : CycleDetector NodeIndex State where
  children s n := (s.offlineGraph.succs n).bits
  getRep idx s := (idx, { s with offlineGraph := s.offlineGraph.getOrInsertNode idx })
  processNodeOnCycle node _ s := some { s with scc := s.scc.set node }
  processCycleRepNode := processCycleRepNode F

/-- The merged factory, and the map for `getCollapseTarget`. -/
def run (policy : HashTable.Policy NodeIndex) (order : HashOrder) (F : AndersNodeFactory)
    (cs : List AndersConstraint) : Option (AndersNodeFactory × DenseMap NodeIndex) := do
  let s ← (detector F).runOnGraph (SparseBitVectorGraph.nodeIterator State.offlineGraph)
    (2 * F.numNodes + 1) ⟨buildOfflineConstraintGraph policy F cs, .empty, .empty, ∅⟩
  let mergeMap := s.client.mergeMap
  let F ← (order.arrange mergeMap.keys).foldlM (fun F n => do
    let repNode ← mergeMap.find n
    F.mergeNode repNode n) F
  return (F, s.client.collapseMap)

end OfflineCycleDetector

def addConstraint (F : AndersNodeFactory) (g : Graphs) (c : AndersConstraint) : Graphs :=
  let srcTgt := F.getMergeTarget c.src
  let dstTgt := F.getMergeTarget c.dest
  match c.type with
  | .ADDR_OF => g.unionWith dstTgt (SparseBitVector.set c.src ∅)
  | .LOAD => { g with constraintGraph := g.constraintGraph.insertLoadEdge srcTgt dstTgt }
  | .STORE => { g with constraintGraph := g.constraintGraph.insertStoreEdge dstTgt srcTgt }
  | .COPY => { g with constraintGraph := g.constraintGraph.insertCopyEdge srcTgt dstTgt }

def buildConstraintGraph (F : AndersNodeFactory) (cs : List AndersConstraint) : Graphs :=
  cs.foldl (addConstraint F) ⟨F, fun _ => none, .empty⟩

namespace OnlineCycleDetector

def detector : CycleDetector NodeIndex Graphs where
  children g n := (g.constraintGraph.edges .copy n).bits
  getRep idx g :=
    let rep := g.nodeFactory.getMergeTarget idx
    (rep, { g with constraintGraph := g.constraintGraph.getOrInsertNode rep })
  processNodeOnCycle node repNode g :=
    let repIdx := g.nodeFactory.getMergeTarget (g.constraintGraph.getNodeIndex repNode)
    let cycleIdx := g.nodeFactory.getMergeTarget (g.constraintGraph.getNodeIndex node)
    collapseNodes repIdx cycleIdx g
  processCycleRepNode _ g := some g

def run (order : HashOrder) (candidates : List NodeIndex) (g : Graphs) : Option Graphs := do
  let s ← (order.arrange candidates).foldlM (detector.runOnNode (g.nodeFactory.numNodes + 1))
    (Search.start g)
  return s.client

end OnlineCycleDetector

structure Solver extends Graphs where
  nextWorkList : AndersWorkList
  cycleCandidates : List NodeIndex
  checkedEdges : List (NodeIndex × NodeIndex)

namespace Solver

def rep (s : Solver) (n : NodeIndex) : NodeIndex := s.nodeFactory.getMergeTarget n

def withGraphs (s : Solver) (g : Graphs) : Solver := { s with toGraphs := g }

def enqueue (s : Solver) (n : NodeIndex) : Solver :=
  { s with nextWorkList := s.nextWorkList.enqueue n }

/-- The members from `start` on that the iterator of a set takes from one word. It keeps
    the rest of a word it has read, and looks at the set again for the next one. -/
def wordFrom (set : AndersPtsSet) (start : Nat) : List NodeIndex :=
  match set.bits.filter (start ≤ ·) with
  | [] => []
  | first :: rest => first :: rest.filter fun i => i / 64 = first / 64

def collapsePointee (node ctRep : NodeIndex) (s : Bool × Solver) (v : NodeIndex) :
    Option (Bool × Solver) :=
  let vRep := s.2.rep v
  if vRep = node then some (true, s.2)
  else (collapseNodes ctRep vRep s.2.toGraphs).map fun g => (s.1, s.2.withGraphs g)

/-- The loop over a points-to set that grows while the loop is in it if `ctRep` is its node. -/
def collapsePointees (node ctRep : NodeIndex) : Nat → Nat → Bool × Solver → Option (Bool × Solver)
  | 0, _, _ => none
  | fuel + 1, start, s =>
    let word := wordFrom (s.2.pts node) start
    match word.getLast? with
    | none => some s
    | some last => do
      let s ← word.foldlM (collapsePointee node ctRep) s
      collapsePointees node ctRep fuel (last + 1) s

/-- The step of HCD. The flag says that `node` itself has been merged away. -/
def collapseStep (collapseMap : DenseMap NodeIndex) (node : NodeIndex) (s : Solver) :
    Option (Bool × Solver) :=
  match collapseMap.find node with
  | none => some (false, s)
  | some collapseTarget => do
    let ctRep := s.rep collapseTarget
    let (mergeSelf, s) ← collapsePointees node ctRep (s.nodeFactory.numNodes + 1) 0 (false, s)
    if mergeSelf then do
      let g ← collapseNodes ctRep node s.toGraphs
      let s := s.withGraphs g
      if ctRep ≠ node then return (true, s.enqueue ctRep) else return (false, s)
    else return (false, s)

def addCopyEdge (src dst : NodeIndex) (s : Solver) : Solver :=
  let inserted := s.constraintGraph.isNewEdge .copy src dst
  let s := { s with constraintGraph := s.constraintGraph.insertCopyEdge src dst }
  if inserted then s.enqueue src else s

/-- Go through an update map: `stale` are the targets that have been merged elsewhere. -/
def updateEdges (kind : ConstraintKind) (node : NodeIndex) (stale : List NodeIndex) (s : Solver) :
    Solver :=
  { s with constraintGraph :=
      stale.foldl (fun g dst => g.replaceEdge kind node dst (s.rep dst)) s.constraintGraph }

def addLoads (node v : NodeIndex) (s : Solver) : Solver :=
  let loads := (s.constraintGraph.edges .load node).bits
  let s := loads.foldl (fun s dst => s.addCopyEdge (s.rep v) (s.rep dst)) s
  s.updateEdges .load node (loads.filter fun dst => s.rep dst ≠ dst)

def addStores (node v : NodeIndex) (s : Solver) : Solver :=
  let stores := (s.constraintGraph.edges .store node).bits
  let s := stores.foldl (fun s dst => s.addCopyEdge (s.rep dst) (s.rep v)) s
  s.updateEdges .store node (stores.filter fun dst => s.rep dst ≠ dst)

/-- The loop over the points-to set that checks the indirect constraints. -/
def addEdges (node : NodeIndex) (s : Solver) : Solver :=
  (s.pts node).bits.foldl (fun s v => (s.addLoads node v).addStores node v) s

/-- Lazy cycle detection of an edge that changed nothing. -/
def checkEdge (node tgtNode : NodeIndex) (s : Solver) : Solver :=
  if (node, tgtNode) ∉ s.checkedEdges ∧ s.pts node = s.pts tgtNode then
    { s with
      checkedEdges := (node, tgtNode) :: s.checkedEdges
      cycleCandidates :=
        if tgtNode ∈ s.cycleCandidates then s.cycleCandidates
        else s.cycleCandidates ++ [tgtNode] }
  else s

def propagateEdge (enableLCD : Bool) (node : NodeIndex) (s : Solver) (dst : NodeIndex) : Solver :=
  let tgtNode := s.rep dst
  if node = tgtNode then s else
    let isChanged := (s.pts tgtNode).unionChanges (s.pts node)
    let s := s.withGraphs (s.unionWith tgtNode (s.pts node))
    if isChanged then s.enqueue tgtNode
    else if enableLCD then s.checkEdge node tgtNode else s

def propagate (enableLCD : Bool) (node : NodeIndex) (s : Solver) : Solver :=
  let dsts := (s.constraintGraph.edges .copy node).bits
  let s := dsts.foldl (propagateEdge enableLCD node) s
  s.updateEdges .copy node (dsts.filter fun dst => s.rep dst ≠ node ∧ s.rep dst ≠ dst)

/-- One turn of the inner loop, for the node that has been taken from the list. -/
def processNode (enableHCD enableLCD : Bool) (collapseMap : DenseMap NodeIndex) (s : Solver)
    (node : NodeIndex) : Option Solver :=
  let node := s.rep node
  if (s.constraintGraph.graph node).isNone ∨ (s.ptsGraph node).isNone then some s else do
    let (gone, s) ← if enableHCD then collapseStep collapseMap node s else some (false, s)
    if gone then return s else return (s.addEdges node).propagate enableLCD node

def detectCycles (order : HashOrder) (s : Solver) : Option Solver := do
  let g ← OnlineCycleDetector.run order s.cycleCandidates s.toGraphs
  return { s.withGraphs g with cycleCandidates := [] }

/-- The start of an iteration: is there any cycle candidate of the last one? -/
def detectIfAny (order : HashOrder) (enableLCD : Bool) (s : Solver) : Option Solver :=
  if enableLCD ∧ s.cycleCandidates ≠ [] then s.detectCycles order else some s

/-- The outer loop. Only the next list is added to, so the inner loop is over the current one. -/
def iterate (order : HashOrder) (enableHCD enableLCD : Bool) (collapseMap : DenseMap NodeIndex) :
    Nat → AndersWorkList → Solver → Option Solver
  | 0, _, _ => none
  | fuel + 1, currWorkList, s =>
    if currWorkList = [] then some s else do
      let s ← s.detectIfAny order enableLCD
      let s ← currWorkList.foldlM (processNode enableHCD enableLCD collapseMap) s
      iterate order enableHCD enableLCD collapseMap fuel s.nextWorkList { s with nextWorkList := [] }

end Solver

/-- The representatives that can contribute right now. -/
def initialWorkList (g : Graphs) : AndersWorkList :=
  (List.range g.nodeFactory.numNodes).filter fun node =>
    (g.ptsGraph node).isSome ∧ g.nodeFactory.getMergeTarget node = node ∧
      (g.constraintGraph.graph node).isSome

def solveConstraints (policy : HashTable.Policy NodeIndex) (order : HashOrder)
    (enableHCD enableLCD : Bool) (fuel : Nat) (F : AndersNodeFactory)
    (cs : List AndersConstraint) : Option Graphs := do
  let (F, collapseMap) ←
    if enableHCD then OfflineCycleDetector.run policy order F cs else some (F, .empty)
  let g := buildConstraintGraph F cs
  let s ← Solver.iterate order enableHCD enableLCD collapseMap fuel (initialWorkList g)
    ⟨g, [], [], []⟩
  return s.toGraphs

end ProgramSlicer.Andersen
