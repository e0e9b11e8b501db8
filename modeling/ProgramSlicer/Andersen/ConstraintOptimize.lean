import ProgramSlicer.Andersen.CycleDetector
import ProgramSlicer.Andersen.SparseBitVectorGraph

/-!
`Andersen::optimizeConstraints`: offline variable substitution by HVN and HU. VAR nodes
come first, then their REF nodes, then their ADR nodes. A failed assertion is `none`, and so
is a step of an invalid iterator.
-/
namespace ProgramSlicer.Andersen
open AndersNodeFactory MergeForest

namespace ConstraintOptimizer

/-- The members, `setLabel` and `ptsSet` being those of the subclasses: HVN has no `ptsSet`. -/
structure State where
  predGraph : SparseBitVectorGraph
  indirectNodes : SparseBitVector
  peLabel : DenseMap Nat
  pointerEqClass : Nat
  mergeTarget : DenseMap NodeIndex
  setLabel : List (SparseBitVector × Nat)
  ptsSet : DenseMap SparseBitVector

def getRefNodeIndex (F : AndersNodeFactory) (n : NodeIndex) : NodeIndex := n + F.numNodes

def getAdrNodeIndex (F : AndersNodeFactory) (n : NodeIndex) : NodeIndex := n + 2 * F.numNodes

def addConstraint (F : AndersNodeFactory) (s : State) (c : AndersConstraint) : State :=
  let srcTgt := F.getMergeTarget c.src
  let dstTgt := F.getMergeTarget c.dest
  match c.type with
  | .ADDR_OF =>
    { s with
      indirectNodes := s.indirectNodes.set srcTgt
      predGraph := (s.predGraph.insertEdge dstTgt (getAdrNodeIndex F srcTgt)).insertEdge
        (getRefNodeIndex F dstTgt) srcTgt }
  | .LOAD => { s with predGraph := s.predGraph.insertEdge dstTgt (getRefNodeIndex F srcTgt) }
  | .STORE => { s with predGraph := s.predGraph.insertEdge (getRefNodeIndex F dstTgt) srcTgt }
  | .COPY =>
    { s with
      predGraph := (s.predGraph.insertEdge dstTgt srcTgt).insertEdge
        (getRefNodeIndex F dstTgt) (getRefNodeIndex F srcTgt) }

def buildPredecessorGraph (policy : HashTable.Policy NodeIndex) (F : AndersNodeFactory)
    (cs : List AndersConstraint) : State :=
  cs.foldl (addConstraint F) ⟨.empty policy, ∅, .empty, 1, .empty, [], .empty⟩

namespace State

/-- No chain of merges is longer than the map has keys. -/
def getMergeTargetRep (s : State) (idx : NodeIndex) : NodeIndex :=
  follow (fun n => (s.mergeTarget.find n).getD n) s.mergeTarget.keys.length idx

def label (s : State) (n : NodeIndex) : Nat := (s.peLabel.find n).getD 0

def setPeLabel (s : State) (node : NodeIndex) (label : Nat) : State :=
  { s with peLabel := s.peLabel.insert node label }

def newLabel (s : State) (node : NodeIndex) : State :=
  { s.setPeLabel node s.pointerEqClass with pointerEqClass := s.pointerEqClass + 1 }

def labelSet (s : State) (node : NodeIndex) (set : SparseBitVector) : State :=
  match s.setLabel.lookup set with
  | some label => s.setPeLabel node label
  | none => { s.newLabel node with setLabel := (set, s.pointerEqClass) :: s.setLabel }

end State

def processNodeOnCycle (F : AndersNodeFactory) (nodeIdx repIdx : NodeIndex) (s : State) : State :=
  { s with
    mergeTarget := s.mergeTarget.insert nodeIdx (s.getMergeTargetRep repIdx)
    indirectNodes :=
      if repIdx < F.numNodes ∧ (nodeIdx ∈ s.indirectNodes ∨ nodeIdx > F.numNodes) then
        s.indirectNodes.set repIdx
      else s.indirectNodes
    predGraph := s.predGraph.mergeEdge repIdx nodeIdx }

abbrev PropagateLabel := AndersNodeFactory → NodeIndex → State → State

def detector (propagateLabel : PropagateLabel) (F : AndersNodeFactory) :
    CycleDetector NodeIndex State where
  children s n := (s.predGraph.succs n).bits
  getRep idx s :=
    let rep := s.getMergeTargetRep idx
    (rep, { s with predGraph := s.predGraph.getOrInsertNode rep })
  processNodeOnCycle node repNode s := some (processNodeOnCycle F node repNode s)
  processCycleRepNode node s := some (propagateLabel F node s)

/-- The nodes of a cycle get the label of the node that they were merged into. -/
def spreadLabel (s : State) (node : NodeIndex) : State :=
  match s.mergeTarget.find node with
  | none => s
  | some target => s.setPeLabel node (s.label (s.getMergeTargetRep target))

/-! ### `rewriteConstraint` -/

/-- `none` is `InvalidIndex`. -/
abbrev RevLabelMap := Nat → Option NodeIndex

/-- The first loop: VAR nodes with one label are merged. -/
def mergeSameLabel (s : State) (F : AndersNodeFactory × RevLabelMap) (node : NodeIndex) :
    Option (AndersNodeFactory × RevLabelMap) :=
  if node ≥ F.1.numNodes then some F
  else if F.1.getMergeTarget node ≠ node then some F
  else
    let iLabel := s.label node
    match F.2 iLabel with
    | none => some (F.1, Function.update F.2 iLabel (some node))
    | some first => if iLabel ≠ 0 then (F.1.mergeNode first node).map (·, F.2) else some F

/-- The second loop: ADR nodes take precedence. -/
def collectAdrLabel (s : State) (F : AndersNodeFactory) (revLabelMap : RevLabelMap)
    (node : NodeIndex) : RevLabelMap :=
  if node < F.numNodes * 2 then revLabelMap
  else
    let varNode := node - F.numNodes * 2
    if F.getMergeTarget varNode ≠ varNode then revLabelMap
    else Function.update revLabelMap (s.label node) (some node)

/-- The body of the third loop: the new constraint, if there is one. -/
def rewriteOne (s : State) (F : AndersNodeFactory) (revLabelMap : RevLabelMap)
    (c : AndersConstraint) : Option (List AndersConstraint) :=
  let destTgt := F.getMergeTarget c.dest
  let srcTgt := F.getMergeTarget c.src
  if s.label c.dest = 0 then some []
  else
    match c.type with
    | .ADDR_OF => some [⟨.ADDR_OF, destTgt, c.src⟩]
    | .LOAD =>
      if s.label srcTgt = 0 then some []
      else
        let srcTgtTgt := (revLabelMap (s.label srcTgt)).getD InvalidIndex
        if srcTgtTgt > F.numNodes then
          if srcTgtTgt % F.numNodes ≠ destTgt then
            some [⟨.COPY, destTgt, srcTgtTgt % F.numNodes⟩]
          else some []
        else if srcTgtTgt = srcTgt then some [⟨.LOAD, destTgt, srcTgt⟩]
        else none
    | .STORE =>
      let destTgtTgt := (revLabelMap (s.label destTgt)).getD InvalidIndex
      if destTgtTgt > F.numNodes then
        if destTgtTgt % F.numNodes ≠ srcTgt then
          some [⟨.COPY, destTgtTgt % F.numNodes, srcTgt⟩]
        else some []
      else if destTgtTgt = destTgt then some [⟨.STORE, destTgt, srcTgt⟩]
      else none
    | .COPY =>
      if destTgt = srcTgt then some []
      else if s.label srcTgt = 0 then some []
      else
        let srcTgtTgt := (revLabelMap (s.label srcTgt)).getD InvalidIndex
        if srcTgtTgt > F.numNodes then some [⟨.ADDR_OF, destTgt, srcTgtTgt % F.numNodes⟩]
        else some [⟨.COPY, destTgt, srcTgt⟩]

def less (a b : AndersConstraint) : Bool :=
  if b.type ≠ a.type then b.type.ctorIdx < a.type.ctorIdx
  else if b.dest ≠ a.dest then b.dest < a.dest
  else b.src < a.src

def uniquify (constraints : List AndersConstraint) : List AndersConstraint :=
  constraints.dedup.insertionSort fun a b => less a b

def rewriteConstraint (order : HashOrder) (s : State) (F : AndersNodeFactory)
    (constraints : List AndersConstraint) :
    Option (AndersNodeFactory × List AndersConstraint) := do
  let labelled := order.arrange s.peLabel.keys
  let (F, revLabelMap) ← labelled.foldlM (mergeSameLabel s) (F, fun _ => none)
  let revLabelMap := labelled.foldl (collectAdrLabel s F) revLabelMap
  let newConstraints ← constraints.foldlM
    (fun new c => (rewriteOne s F revLabelMap c).map (new ++ ·)) []
  return (F, uniquify newConstraints)

/-- `policy` is that of the predecessor graph; `order` is how the maps are gone through. -/
def run (propagateLabel : PropagateLabel) (policy : HashTable.Policy NodeIndex)
    (order : HashOrder) (F : AndersNodeFactory) (constraints : List AndersConstraint) :
    Option (AndersNodeFactory × List AndersConstraint) := do
  let search ← (detector propagateLabel F).runOnGraph
    (SparseBitVectorGraph.nodeIterator State.predGraph) (3 * F.numNodes + 1)
    (buildPredecessorGraph policy F constraints)
  let s := search.client
  let s := (order.arrange s.mergeTarget.keys).foldl spreadLabel s
  rewriteConstraint order s F constraints

end ConstraintOptimizer

namespace HVNOptimizer
open ConstraintOptimizer

structure Scan where
  allSame : Bool
  lastSeenLabel : Nat
  predLabels : SparseBitVector

def examine (s : State) (node : NodeIndex) (scan : Scan) (pred : NodeIndex) : Scan :=
  let predRep := s.getMergeTargetRep pred
  let predRepLabel := s.label predRep
  if predRep = node ∨ predRepLabel = 0 then scan
  else
    { allSame := scan.allSame ∧ (scan.lastSeenLabel = 0 ∨ predRepLabel = scan.lastSeenLabel)
      lastSeenLabel := if scan.lastSeenLabel = 0 then predRepLabel else scan.lastSeenLabel
      predLabels := scan.predLabels.set predRepLabel }

def propagateLabel : PropagateLabel := fun F node s =>
  if node ≥ F.numNodes ∨ node ∈ s.indirectNodes then s.newLabel node
  else
    let scan := (s.predGraph.succs node).bits.foldl (examine s node) ⟨true, 0, ∅⟩
    if scan.predLabels.count = 0 then s.setPeLabel node 0
    else if scan.allSame then s.setPeLabel node scan.lastSeenLabel
    else s.labelSet node scan.predLabels

def run := ConstraintOptimizer.run propagateLabel

end HVNOptimizer

namespace HUOptimizer
open ConstraintOptimizer

def pts (s : State) (n : NodeIndex) : SparseBitVector := (s.ptsSet.find n).getD ∅

def setPts (s : State) (n : NodeIndex) (set : SparseBitVector) : State :=
  { s with ptsSet := s.ptsSet.insert n set }

/-- `none` where no label could be assigned. -/
def assignLabel (F : AndersNodeFactory) (node : NodeIndex) (s : State) : Option State :=
  if node ≥ F.numNodes * 2 then
    some (setPts (s.newLabel node) node ((pts s node).set (node - F.numNodes * 2)))
  else if node ≥ F.numNodes then some (setPts (s.newLabel node) node ((pts s node).set node))
  else if node ∈ s.indirectNodes then
    some (setPts (s.newLabel node) node ((pts s node).set (getAdrNodeIndex F node)))
  else none

def propagateLabel : PropagateLabel := fun F node s =>
  match assignLabel F node s with
  | some s => s
  | none =>
    let myPtsSet := (s.predGraph.succs node).bits.foldl
      (fun set pred => set.union (pts s (s.getMergeTargetRep pred))) (pts s node)
    let s := setPts s node myPtsSet
    if myPtsSet.count = 0 then s.setPeLabel node 0 else s.labelSet node myPtsSet

def run := ConstraintOptimizer.run propagateLabel

end HUOptimizer

def optimizeConstraints (policy : HashTable.Policy NodeIndex) (order : HashOrder)
    (enableHVN enableHU : Bool) (F : AndersNodeFactory) (constraints : List AndersConstraint) :
    Option (AndersNodeFactory × List AndersConstraint) :=
  let afterHVN :=
    if enableHVN then HVNOptimizer.run policy order F constraints else some (F, constraints)
  afterHVN.bind fun r =>
    if enableHU then HUOptimizer.run policy order r.1 r.2 else some r

end ProgramSlicer.Andersen
