import ProgramSlicer.Library.FoldRules
import ProgramSlicer.Library.HashTable
import ProgramSlicer.Andersen.CycleDetector
import ProgramSlicer.Andersen.NodeFactory

/-!
The hash containers of the optimiser and the offline cycle detector. A `DenseMap` lists its
keys in the order in which they came in; in which order a loop goes through them is a
parameter, and no loop over one adds to it. The graph is a `std::unordered_map`, which grows
while `runOnGraph` goes through it.
-/
namespace ProgramSlicer.Andersen

/-- How a `DenseMap` goes through the keys that it was given in the listed order. -/
structure HashOrder where
  arrange : List NodeIndex → List NodeIndex
  perm : ∀ l, (arrange l).Perm l

theorem HashOrder.mem_arrange (order : HashOrder) {l : List NodeIndex} {n : NodeIndex} :
    n ∈ order.arrange l ↔ n ∈ l := (order.perm l).mem_iff

structure DenseMap (V : Type) where
  keys : List NodeIndex
  find : NodeIndex → Option V
  listed : ∀ k, k ∈ keys ↔ (find k).isSome = true
  nodup : keys.Nodup

namespace DenseMap
variable {V : Type}

def empty : DenseMap V := ⟨[], fun _ => none, by simp, List.nodup_nil⟩

def insert (m : DenseMap V) (k : NodeIndex) (v : V) : DenseMap V where
  keys := if k ∈ m.keys then m.keys else m.keys ++ [k]
  find n := if n = k then some v else m.find n
  listed n := by
    have old := m.listed n
    by_cases same : n = k
    · split <;> simp_all
    · rw [if_neg same, ← old]
      split <;> simp [same]
  nodup := by
    split
    · exact m.nodup
    · rename_i new
      simp only [List.nodup_append, m.nodup, List.nodup_singleton, List.mem_singleton, true_and]
      rintro a mem b rfl rfl
      exact new mem

@[simp] theorem find_empty (n : NodeIndex) : (empty : DenseMap V).find n = none := rfl

@[simp] theorem find_insert (m : DenseMap V) (k : NodeIndex) (v : V) (n : NodeIndex) :
    (m.insert k v).find n = if n = k then some v else m.find n := rfl

end DenseMap

structure SparseBitVectorGraph where
  graph : HashTable.Table NodeIndex SparseBitVector

namespace SparseBitVectorGraph
open HashTable FoldRules

def empty (policy : Policy NodeIndex) : SparseBitVectorGraph := ⟨.empty policy⟩

def nodes (g : SparseBitVectorGraph) : List NodeIndex := g.graph.keys

def nodeIterator {σ : Type} (graphOf : σ → SparseBitVectorGraph) :
    CycleDetector.NodeIterator NodeIndex σ where
  nodes s := (graphOf s).nodes
  nodup s := (graphOf s).graph.nodup
  epoch s := (graphOf s).graph.rehashes

def succs (g : SparseBitVectorGraph) (n : NodeIndex) : SparseBitVector := (g.graph.find n).getD ∅

def getOrInsertNode (g : SparseBitVectorGraph) (idx : NodeIndex) : SparseBitVectorGraph :=
  match g.graph.find idx with
  | none => ⟨g.graph.insert idx ∅⟩
  | some _ => g

def insertEdge (g : SparseBitVectorGraph) (src dst : NodeIndex) : SparseBitVectorGraph :=
  ⟨g.graph.insert src ((g.succs src).set dst)⟩

/-- The successors of `dst` are added to those of `src`. -/
def mergeEdge (g : SparseBitVectorGraph) (src dst : NodeIndex) : SparseBitVectorGraph :=
  match g.graph.find dst with
  | none => g
  | some succs => ⟨g.graph.insert src ((g.succs src).union succs)⟩

variable (g : SparseBitVectorGraph)

@[simp] theorem succs_empty (policy : Policy NodeIndex) (n : NodeIndex) :
    (empty policy).succs n = ∅ := rfl

@[simp] theorem nodes_empty (policy : Policy NodeIndex) : (empty policy).nodes = [] := rfl

@[simp] theorem succs_getOrInsertNode (idx n : NodeIndex) :
    (g.getOrInsertNode idx).succs n = g.succs n := by
  unfold getOrInsertNode
  split
  · rename_i missing
    by_cases same : n = idx <;> simp [succs, same, missing]
  · rfl

theorem mem_succs_insertEdge (src dst n m : NodeIndex) :
    m ∈ (g.insertEdge src dst).succs n ↔ m ∈ g.succs n ∨ (n = src ∧ m = dst) := by
  unfold insertEdge
  by_cases same : n = src
  · simp [succs, same]
    tauto
  · simp [succs, same]

theorem mem_succs_mergeEdge (src dst n m : NodeIndex) :
    m ∈ (g.mergeEdge src dst).succs n ↔ m ∈ g.succs n ∨ (n = src ∧ m ∈ g.succs dst) := by
  unfold mergeEdge
  split
  · rename_i missing
    simp [succs, missing]
  · rename_i set found
    by_cases same : n = src <;> simp [succs, same, found]

theorem mem_nodes_insertEdge (src dst n : NodeIndex) :
    n ∈ (g.insertEdge src dst).nodes ↔ n = src ∨ n ∈ g.nodes := Table.mem_keys_insert

theorem mem_nodes_getOrInsertNode (idx n : NodeIndex) :
    n ∈ (g.getOrInsertNode idx).nodes ↔ n = idx ∨ n ∈ g.nodes := by
  unfold getOrInsertNode
  split
  · exact Table.mem_keys_insert
  · rename_i set found
    have here : idx ∈ g.nodes := (g.graph.listed idx).mpr (by rw [found]; rfl)
    constructor
    · exact .inr
    · rintro (rfl | mem)
      · exact here
      · exact mem

theorem mem_nodes_mergeEdge {src dst n : NodeIndex} (here : n ∈ (g.mergeEdge src dst).nodes) :
    n = src ∨ n ∈ g.nodes := by
  unfold mergeEdge at here
  split at here
  · exact .inr here
  · exact Table.mem_keys_insert.mp here

theorem getOrInsertNode_extends (idx : NodeIndex) :
    Table.Extends g.graph (g.getOrInsertNode idx).graph := by
  unfold getOrInsertNode
  split
  · exact Table.insert_extends ..
  · exact Table.extends_refl _

theorem mergeEdge_extends (src dst : NodeIndex) :
    Table.Extends g.graph (g.mergeEdge src dst).graph := by
  unfold mergeEdge
  split
  · exact Table.extends_refl _
  · exact Table.insert_extends ..

/-! ### A graph with given edges -/

variable {policy : Policy NodeIndex} {edges : List (NodeIndex × NodeIndex)}

def ofEdges (policy : Policy NodeIndex) (edges : List (NodeIndex × NodeIndex)) :
    SparseBitVectorGraph :=
  edges.foldl (fun g edge => g.insertEdge edge.1 edge.2) (empty policy)

theorem mem_succs_ofEdges {v w : NodeIndex} :
    w ∈ (ofEdges policy edges).succs v ↔ (v, w) ∈ edges := by
  unfold ofEdges
  rw [foldl_adds (R := fun g : SparseBitVectorGraph => w ∈ g.succs v) (E := (· = (v, w)))]
  · simp
  · intro edge _ g
    rw [mem_succs_insertEdge, Prod.ext_iff, eq_comm, eq_comm (a := w)]

theorem mem_nodes_ofEdges {v : NodeIndex} :
    v ∈ (ofEdges policy edges).nodes ↔ ∃ w, (v, w) ∈ edges := by
  unfold ofEdges
  rw [foldl_adds (R := fun g : SparseBitVectorGraph => v ∈ g.nodes) (E := fun e => v = e.1)]
  · constructor
    · rintro (none | ⟨⟨a, w⟩, here, rfl⟩)
      · simp at none
      · exact ⟨w, here⟩
    · rintro ⟨w, here⟩
      exact .inr ⟨_, here, rfl⟩
  · intro edge _ g
    rw [mem_nodes_insertEdge, or_comm]

theorem policy_ofEdges (policy : Policy NodeIndex) (edges : List (NodeIndex × NodeIndex)) :
    (ofEdges policy edges).graph.policy = policy := by
  unfold ofEdges
  apply foldl_keeps (P := fun g : SparseBitVectorGraph => g.graph.policy = policy)
  · exact fun _ _ _ same => same
  · rfl

def sources (edges : List (NodeIndex × NodeIndex)) : List NodeIndex := (edges.map Prod.fst).dedup

def endpoints (edges : List (NodeIndex × NodeIndex)) : List NodeIndex :=
  (edges.flatMap fun edge => [edge.1, edge.2]).dedup

/-- The table does not rehash while the second kind is added to the first. -/
def Steady (policy : Policy NodeIndex) (edges : List (NodeIndex × NodeIndex)) : Prop :=
  policy.Calm (sources edges).length (endpoints edges).length

instance : Decidable (Steady policy edges) := inferInstanceAs (Decidable (policy.Calm _ _))

theorem mem_endpoints {v : NodeIndex} :
    v ∈ endpoints edges ↔ ∃ w, (v, w) ∈ edges ∨ (w, v) ∈ edges := by
  unfold endpoints
  rw [List.mem_dedup, List.mem_flatMap]
  simp only [Prod.exists, List.mem_cons, List.not_mem_nil, or_false]
  constructor
  · rintro ⟨a, b, here, rfl | rfl⟩
    · exact ⟨b, .inl here⟩
    · exact ⟨a, .inr here⟩
  · rintro ⟨w, here | here⟩
    · exact ⟨v, w, here, .inl rfl⟩
    · exact ⟨w, v, here, .inr rfl⟩

theorem mem_sources {v : NodeIndex} : v ∈ sources edges ↔ ∃ w, (v, w) ∈ edges := by
  unfold sources
  simp

theorem length_ofEdges (policy : Policy NodeIndex) (edges : List (NodeIndex × NodeIndex)) :
    (ofEdges policy edges).nodes.length = (sources edges).length := by
  apply List.Perm.length_eq
  apply (List.perm_ext_iff_of_nodup (Table.nodup _) (List.nodup_dedup _)).mpr
  exact fun v => mem_nodes_ofEdges.trans mem_sources.symm

end SparseBitVectorGraph
end ProgramSlicer.Andersen
