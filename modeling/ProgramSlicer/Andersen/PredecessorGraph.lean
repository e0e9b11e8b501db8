import ProgramSlicer.Andersen.ConstraintOptimize
import ProgramSlicer.Library.FoldRules
import ProgramSlicer.Library.ValueNumbering

/-!
The predecessor graph: its edges, its indirect nodes, and how the state of the optimiser
answers for a node that has been merged on a cycle.
-/
namespace ProgramSlicer.Andersen.ConstraintOptimizer
open Relation Components AndersNodeFactory FoldRules MergeForest ValueNumbering
open SparseBitVectorGraph

def edgesOf (F : AndersNodeFactory) (c : AndersConstraint) : List (NodeIndex × NodeIndex) :=
  let srcTgt := F.getMergeTarget c.src
  let dstTgt := F.getMergeTarget c.dest
  match c.type with
  | .ADDR_OF => [(dstTgt, getAdrNodeIndex F srcTgt), (getRefNodeIndex F dstTgt, srcTgt)]
  | .LOAD => [(dstTgt, getRefNodeIndex F srcTgt)]
  | .STORE => [(getRefNodeIndex F dstTgt, srcTgt)]
  | .COPY => [(dstTgt, srcTgt), (getRefNodeIndex F dstTgt, getRefNodeIndex F srcTgt)]

def edges (F : AndersNodeFactory) (cs : List AndersConstraint) : List (NodeIndex × NodeIndex) :=
  cs.flatMap (edgesOf F)

def PredEdge (F : AndersNodeFactory) (cs : List AndersConstraint) (v w : NodeIndex) : Prop :=
  ∃ c ∈ cs, (v, w) ∈ edgesOf F c

/-- The table does not rehash while the search puts the nodes without outgoing edges into it. -/
def Steady (policy : HashTable.Policy NodeIndex) (F : AndersNodeFactory)
    (cs : List AndersConstraint) : Prop :=
  SparseBitVectorGraph.Steady policy (edges F cs)

def AddressTaken (F : AndersNodeFactory) (cs : List AndersConstraint) (v : NodeIndex) : Prop :=
  ∃ c ∈ cs, c.type = .ADDR_OF ∧ F.getMergeTarget c.src = v

/-- REF nodes, ADR nodes and the VAR nodes that may be stored to through a pointer. -/
def Indirect (F : AndersNodeFactory) (cs : List AndersConstraint) (v : NodeIndex) : Prop :=
  F.numNodes ≤ v ∨ AddressTaken F cs v

/-- A cycle on which a VAR node meets node `N`, the REF node of node 0, has another REF node
    on it or a node whose address is taken. -/
def RefZeroGuarded (F : AndersNodeFactory) (cs : List AndersConstraint) : Prop :=
  ∀ v < F.numNodes, Joined (PredEdge F cs) v F.numNodes →
    ∃ m, Joined (PredEdge F cs) m F.numNodes ∧ (m > F.numNodes ∨ AddressTaken F cs m)

variable {policy : HashTable.Policy NodeIndex} {F : AndersNodeFactory}
  {cs : List AndersConstraint}

instance : Decidable (Steady policy F cs) :=
  inferInstanceAs (Decidable (SparseBitVectorGraph.Steady _ _))

theorem mem_edges {v w : NodeIndex} : (v, w) ∈ edges F cs ↔ PredEdge F cs v w := List.mem_flatMap

theorem addConstraint_predGraph (F : AndersNodeFactory) (s : State) (c : AndersConstraint) :
    (addConstraint F s c).predGraph =
      (edgesOf F c).foldl (fun g edge => g.insertEdge edge.1 edge.2) s.predGraph := by
  unfold addConstraint edgesOf
  cases c.type <;> rfl

theorem addConstraints_predGraph (F : AndersNodeFactory) (s : State)
    (cs : List AndersConstraint) : (cs.foldl (addConstraint F) s).predGraph =
      (edges F cs).foldl (fun g edge => g.insertEdge edge.1 edge.2) s.predGraph := by
  induction cs generalizing s with
  | nil => rfl
  | cons c cs ih =>
    simp only [List.foldl_cons, ih, addConstraint_predGraph, edges, List.flatMap_cons,
      List.foldl_append]

theorem buildPredecessorGraph_eq (policy : HashTable.Policy NodeIndex) (F : AndersNodeFactory)
    (cs : List AndersConstraint) :
    (buildPredecessorGraph policy F cs).predGraph = .ofEdges policy (edges F cs) :=
  addConstraints_predGraph F _ cs

theorem mem_succs_pred {v w : NodeIndex} :
    w ∈ (buildPredecessorGraph policy F cs).predGraph.succs v ↔ PredEdge F cs v w := by
  rw [buildPredecessorGraph_eq, mem_succs_ofEdges, mem_edges]

theorem mem_indirect_pred {v : NodeIndex} :
    v ∈ (buildPredecessorGraph policy F cs).indirectNodes ↔ AddressTaken F cs v := by
  unfold buildPredecessorGraph AddressTaken
  rw [foldl_adds (R := fun s : State => v ∈ s.indirectNodes)
    (E := fun c => c.type = .ADDR_OF ∧ F.getMergeTarget c.src = v)]
  · simp
  · intro c _ s
    unfold addConstraint
    cases c.type <;> simp [or_comm, eq_comm]

theorem build_unlabelled (policy : HashTable.Policy NodeIndex) (F : AndersNodeFactory)
    (cs : List AndersConstraint) :
    let s := buildPredecessorGraph policy F cs
    s.peLabel = .empty ∧ s.pointerEqClass = 1 ∧ s.mergeTarget = .empty ∧ s.setLabel = [] := by
  apply foldl_keeps (P := fun s : State =>
    s.peLabel = .empty ∧ s.pointerEqClass = 1 ∧ s.mergeTarget = .empty ∧ s.setLabel = [])
  · intro c _ s kept
    unfold addConstraint
    cases c.type <;> exact kept
  · simp

theorem predEdge_range (wf : F.WellFormed) (valid : ValidConstraints F.numNodes cs)
    {v w : NodeIndex} (edge : PredEdge F cs v w) :
    v < 2 * F.numNodes ∧ w < 3 * F.numNodes := by
  obtain ⟨c, hc, here⟩ := edge
  have src := target_inside wf (valid c hc).2
  have dest := target_inside wf (valid c hc).1
  have each : ∀ s d : Nat, s < F.numNodes → d < F.numNodes →
      (d < 2 * F.numNodes ∧ s < 3 * F.numNodes) ∧ d + F.numNodes < 2 * F.numNodes ∧
      s + F.numNodes < 3 * F.numNodes ∧ s + 2 * F.numNodes < 3 * F.numNodes := by omega
  have bounds := each _ _ src dest
  unfold edgesOf getRefNodeIndex getAdrNodeIndex at here
  cases type : c.type <;> simp only [type, List.mem_cons, Prod.mk.injEq, List.not_mem_nil,
    or_false] at here
  case ADDR_OF | COPY =>
    rcases here with ⟨rfl, rfl⟩ | ⟨rfl, rfl⟩ <;> tauto
  case LOAD | STORE =>
    obtain ⟨rfl, rfl⟩ := here
    tauto

/-! ### The state -/

namespace State
variable {s : State} {v t : NodeIndex}

theorem rep_of_none (root : s.mergeTarget.find v = none) : s.getMergeTargetRep v = v :=
  follow_root (by simp [root]) _

theorem rep_of_some (found : s.mergeTarget.find v = some t)
    (root : s.mergeTarget.find t = none) : s.getMergeTargetRep v = t := by
  have listed : v ∈ s.mergeTarget.keys := by
    rw [DenseMap.listed, found]
    rfl
  have other : t ≠ v := by
    intro same
    rw [same, found] at root
    exact absurd root (by simp)
  unfold getMergeTargetRep
  obtain ⟨k, hk⟩ := Nat.exists_eq_succ_of_ne_zero
    (Nat.ne_of_gt (List.length_pos_of_mem listed))
  rw [hk, follow, found, Option.getD_some, if_neg other]
  exact follow_root (by simp [root]) k

def Flat (s : State) : Prop :=
  ∀ v t, s.mergeTarget.find v = some t → s.mergeTarget.find t = none

theorem rep_of_flat (flat : s.Flat) (v : NodeIndex) :
    s.getMergeTargetRep v = (s.mergeTarget.find v).getD v := by
  cases found : s.mergeTarget.find v with
  | none => exact rep_of_none found
  | some t => exact rep_of_some found (flat v t found)

def labelOf (s : State) (v : NodeIndex) : Nat := s.label (s.getMergeTargetRep v)

def setLabels (s : State) : Set Nat := {l | ∃ set, (set, l) ∈ s.setLabel}

/-- `node` has been labelled, and the graph is as before. -/
structure Relabelled (s s' : State) (node : NodeIndex) (l : Nat) : Prop where
  predGraph : s'.predGraph = s.predGraph
  indirectNodes : s'.indirectNodes = s.indirectNodes
  mergeTarget : s'.mergeTarget = s.mergeTarget
  peLabel : s'.peLabel = s.peLabel.insert node l

theorem labelSet_spec (s : State) (node : NodeIndex) (set : SparseBitVector) {pinned copies : Prop}
    (free : ¬ pinned) (preds : Set Nat) : ∃ l, Relabelled s (s.labelSet node set) node l ∧
      (s.labelSet node set).ptsSet = s.ptsSet ∧
      Choice pinned copies preds s.pointerEqClass s.setLabels l
        (s.labelSet node set).pointerEqClass (s.labelSet node set).setLabels := by
  unfold labelSet
  split
  · rename_i l found
    refine ⟨l, ⟨rfl, rfl, rfl, rfl⟩, rfl, .known free ⟨set, ?_⟩⟩
    obtain ⟨before, after, same, _⟩ := List.lookup_eq_some_iff.mp found
    rw [same]
    simp
  · refine ⟨s.pointerEqClass, ⟨rfl, rfl, rfl, rfl⟩, rfl, ?_⟩
    have more : setLabels { s.newLabel node with
        setLabel := (set, s.pointerEqClass) :: s.setLabel } =
        insert s.pointerEqClass s.setLabels := by
      ext l
      simp only [setLabels, List.mem_cons, Prod.mk.injEq, Set.mem_insert_iff,
        Set.mem_ofPred_eq, exists_or, exists_eq_left]
    rw [more]
    exact .fresh free

theorem labelSet_predGraph (s : State) (node : NodeIndex) (set : SparseBitVector) :
    (s.labelSet node set).predGraph = s.predGraph := by
  unfold labelSet
  split <;> rfl

end State

def predLabels (s : State) (node : NodeIndex) : Set Nat :=
  {k | ∃ w ∈ s.predGraph.succs node, s.getMergeTargetRep w ≠ node ∧
    s.label (s.getMergeTargetRep w) = k}

/-- What the virtual function has to do. `Own` is an invariant of the subclass; `copies` says
    whether a node may get the label of a predecessor. -/
structure Propagates (copies : Prop) (Own : State → Prop) (propagateLabel : PropagateLabel) :
    Prop where
  predGraph : ∀ F node s, (propagateLabel F node s).predGraph = s.predGraph
  own_congr : ∀ s s' : State, s'.peLabel = s.peLabel → s'.ptsSet = s.ptsSet → Own s → Own s'
  spec : ∀ F node s, Own s → ∃ l, s.Relabelled (propagateLabel F node s) node l ∧
    Own (propagateLabel F node s) ∧
    Choice (F.numNodes ≤ node ∨ node ∈ s.indirectNodes) copies (predLabels s node)
      s.pointerEqClass s.setLabels l (propagateLabel F node s).pointerEqClass
      (propagateLabel F node s).setLabels

end ProgramSlicer.Andersen.ConstraintOptimizer
