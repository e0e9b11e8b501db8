import ProgramSlicer.Andersen.SolverInvariant

/-!
The constraint graph over any sequence of calls: a merge leaves the union of the
edges, and the nodes have the indices of their keys as long as no merge has to
make a node.
-/
namespace ProgramSlicer.Andersen.ConstraintGraph
open FoldRules

/-- The calls that change the graph. -/
inductive Operation where
  | insertCopyEdge (src dst : NodeIndex)
  | insertLoadEdge (src dst : NodeIndex)
  | insertStoreEdge (src dst : NodeIndex)
  | mergeNodes (dst src : NodeIndex)
  | deleteNode (idx : NodeIndex)
  | getOrInsertNode (idx : NodeIndex)

def apply (g : ConstraintGraph) : Operation → ConstraintGraph
  | .insertCopyEdge src dst => g.insertCopyEdge src dst
  | .insertLoadEdge src dst => g.insertLoadEdge src dst
  | .insertStoreEdge src dst => g.insertStoreEdge src dst
  | .mergeNodes dst src => g.mergeNodes dst src
  | .deleteNode idx => g.deleteNode idx
  | .getOrInsertNode idx => g.getOrInsertNode idx

def after (ops : List Operation) : ConstraintGraph := ops.foldl apply empty

variable {g : ConstraintGraph}

theorem edges_mergeNodes (kind : ConstraintKind) (dst src : NodeIndex) :
    (g.mergeNodes dst src).edges kind dst = (g.edges kind dst).union (g.edges kind src) := by
  apply SparseBitVector.eq_of_mem
  intro e
  rw [mem_mergeNodes, SparseBitVector.mem_union]
  simp

/-! ### The indices -/

def Keyed (g : ConstraintGraph) : Prop := ∀ n node, g.graph n = some node → node.idx = n

/-- A merge finds a node for `dst`, or has nothing to merge. -/
def FindsTarget (g : ConstraintGraph) : Operation → Prop
  | .mergeNodes dst src => (g.graph src).isSome = true → (g.graph dst).isSome = true
  | _ => True

theorem keyed_empty : empty.Keyed := by
  intro n node found
  simp [empty] at found

theorem keyed_deleteNode (keyed : g.Keyed) (idx : NodeIndex) : (g.deleteNode idx).Keyed := by
  intro n node found
  unfold deleteNode at found
  dsimp only at found
  split at found
  · simp at found
  · exact keyed n node found

theorem keyed_mergeNodes (keyed : g.Keyed) (dst src : NodeIndex) :
    (g.mergeNodes dst src).Keyed ↔ g.FindsTarget (.mergeNodes dst src) := by
  show _ ↔ ((g.graph src).isSome = true → (g.graph dst).isSome = true)
  unfold mergeNodes
  cases source : g.graph src with
  | none => simpa using keyed
  | some srcNode =>
    cases target : g.graph dst with
    | some dstNode =>
      have same : (dstNode.mergeEdges srcNode).idx = dst := keyed dst dstNode target
      have indexed : g.Indexed fun n => n := keyed
      have kept : (g.put dst (dstNode.mergeEdges srcNode)).Keyed := indexed_put indexed same
      simpa using kept
    | none =>
      have other : src ≠ dst := by
        intro same
        rw [same, target] at source
        simp at source
      have index : srcNode.idx = src := keyed src srcNode source
      have broken : ¬ (g.put dst srcNode).Keyed := by
        intro kept
        exact other (index.symm.trans (kept dst srcNode (by rw [graph_put, if_pos rfl])))
      simpa using broken

theorem keyed_apply_iff (keyed : g.Keyed) (op : Operation) :
    (g.apply op).Keyed ↔ g.FindsTarget op := by
  have indexed : g.Indexed fun n => n := keyed
  cases op with
  | mergeNodes dst src => exact keyed_mergeNodes keyed dst src
  | insertCopyEdge src dst => exact iff_of_true (indexed_insertEdge indexed rfl) trivial
  | insertLoadEdge src dst => exact iff_of_true (indexed_insertEdge indexed rfl) trivial
  | insertStoreEdge src dst => exact iff_of_true (indexed_insertEdge indexed rfl) trivial
  | deleteNode idx => exact iff_of_true (keyed_deleteNode keyed idx) trivial
  | getOrInsertNode idx => exact iff_of_true (indexed_getOrInsertNode indexed rfl) trivial

/-- In every state of the run the nodes have the indices of their keys, and each merge
    leaves the union of the edges. -/
structure KeepsRepresentation (ops : List Operation) : Prop where
  keyed : ∀ before rest, ops = before ++ rest → (after before).Keyed
  unions : ∀ before dst src rest, ops = before ++ .mergeNodes dst src :: rest → ∀ kind,
    (after (before ++ [.mergeNodes dst src])).edges kind dst =
      ((after before).edges kind dst).union ((after before).edges kind src)

theorem keyed_throughout_iff (ops : List Operation) :
    (∀ before rest, ops = before ++ rest → (after before).Keyed) ↔
      ∀ before op rest, ops = before ++ op :: rest → (after before).FindsTarget op :=
  foldl_throughout_iff (P := Keyed) (Q := FindsTarget) (fun _ op keyed => keyed_apply_iff keyed op)
    keyed_empty

/-- A sequence of calls keeps the invariant throughout exactly if no merge of it has to make
    a node. -/
theorem keepsRepresentation_iff (ops : List Operation) :
    KeepsRepresentation ops ↔
      ∀ before op rest, ops = before ++ op :: rest → (after before).FindsTarget op := by
  rw [← keyed_throughout_iff]
  constructor
  · exact fun keeps => keeps.keyed
  · intro keyed
    refine ⟨keyed, ?_⟩
    intro before dst src _ _ kind
    unfold after
    rw [List.foldl_append]
    exact edges_mergeNodes kind dst src

def mergedIntoNew : List Operation := [.insertCopyEdge 5 6, .mergeNodes 4 5]

theorem mergedIntoNew_misplaced :
    ((after mergedIntoNew).graph 4).map (·.idx) = some 5 ∧ ¬ KeepsRepresentation mergedIntoNew := by
  have index : ((after mergedIntoNew).graph 4).map (·.idx) = some 5 := by decide
  refine ⟨index, ?_⟩
  intro keeps
  obtain ⟨node, found, here⟩ := Option.map_eq_some_iff.mp index
  have keyed := keeps.keyed mergedIntoNew [] (by simp) 4 node found
  exact absurd (here.symm.trans keyed) (by decide)

end ProgramSlicer.Andersen.ConstraintGraph
