import Mathlib.Data.List.Basic
import Mathlib.Tactic.Common

/-!
`DirectedGraph<NodeT, EdgeT>`. `succMap[A][B]` and `predMap[B][A]` are written
together and hold the same edge, so one table keyed by the ordered pair is kept;
a second insertion for a pair replaces the edge. An edge may be NULL.
-/
namespace ProgramSlicer

structure DirectedGraph (N E : Type) where
  edges : List ((N × N) × Option E) := []
  nodeSet : List N := []
  deriving DecidableEq, Repr

namespace DirectedGraph
variable {N E : Type} [DecidableEq N]

def insert (g : DirectedGraph N E) (A B : N) (edge : Option E := none) : DirectedGraph N E where
  edges := ((A, B), edge) :: g.edges.filter (·.1 ≠ (A, B))
  nodeSet := (g.nodeSet.insert A).insert B

def getSuccSet (g : DirectedGraph N E) (A : N) : List (N × Option E) :=
  (g.edges.filter (·.1.1 = A)).map fun e => (e.1.2, e.2)

def getPredSet (g : DirectedGraph N E) (B : N) : List (N × Option E) :=
  (g.edges.filter (·.1.2 = B)).map fun e => (e.1.1, e.2)

def getNodeSet (g : DirectedGraph N E) : List N := g.nodeSet

def Connected (g : DirectedGraph N E) (A B : N) : Prop := ∃ edge, ((A, B), edge) ∈ g.edges

omit [DecidableEq N] in
theorem not_connected_empty (A B : N) : ¬ (({} : DirectedGraph N E)).Connected A B := by
  rintro ⟨edge, mem⟩
  simp at mem

theorem mem_getPredSet {g : DirectedGraph N E} {A B : N} {edge : Option E} :
    (A, edge) ∈ g.getPredSet B ↔ ((A, B), edge) ∈ g.edges := by
  simp [getPredSet]

theorem mem_getSuccSet {g : DirectedGraph N E} {A B : N} {edge : Option E} :
    (B, edge) ∈ g.getSuccSet A ↔ ((A, B), edge) ∈ g.edges := by
  simp [getSuccSet]

theorem pred_keys {g : DirectedGraph N E} {A B : N} :
    A ∈ (g.getPredSet B).map Prod.fst ↔ g.Connected A B := by
  simp [Connected, getPredSet]

theorem pred_empty {g : DirectedGraph N E} {B : N} :
    (g.getPredSet B).isEmpty = true ↔ ∀ A, ¬ g.Connected A B := by
  rw [List.isEmpty_iff, List.eq_nil_iff_forall_not_mem]
  constructor
  · rintro none A ⟨edge, mem⟩
    exact none (A, edge) (mem_getPredSet.mpr mem)
  · rintro none ⟨A, edge⟩ mem
    exact none A ⟨edge, mem_getPredSet.mp mem⟩

theorem mem_insert {g : DirectedGraph N E} {A B : N} {edge : Option E}
    {x : (N × N) × Option E} :
    x ∈ (g.insert A B edge).edges ↔ x = ((A, B), edge) ∨ x ∈ g.edges ∧ x.1 ≠ (A, B) := by
  simp [insert]

theorem connected_insert {g : DirectedGraph N E} {A B a b : N} {edge : Option E} :
    (g.insert A B edge).Connected a b ↔ (a = A ∧ b = B) ∨ g.Connected a b := by
  constructor
  · rintro ⟨e, mem⟩
    rcases mem_insert.mp mem with new | ⟨old, _⟩
    · exact Or.inl (Prod.mk.inj (congrArg Prod.fst new))
    · exact Or.inr ⟨e, old⟩
  · intro h
    by_cases same : (a, b) = (A, B)
    · exact ⟨edge, mem_insert.mpr (Or.inl (by rw [same]))⟩
    · rcases h with ⟨rfl, rfl⟩ | ⟨e, old⟩
      · exact absurd rfl same
      · exact ⟨e, mem_insert.mpr (Or.inr ⟨old, same⟩)⟩

theorem insert_preserves {g : DirectedGraph N E} {A B : N} {edge : Option E}
    {P : (N × N) × Option E → Prop} (new : P ((A, B), edge)) (old : ∀ x ∈ g.edges, P x) :
    ∀ x ∈ (g.insert A B edge).edges, P x := by
  intro x mem
  rcases mem_insert.mp mem with same | ⟨before, _⟩
  · exact same ▸ new
  · exact old x before

def NodesListed (g : DirectedGraph N E) : Prop :=
  ∀ A B, g.Connected A B → A ∈ g.nodeSet ∧ B ∈ g.nodeSet

omit [DecidableEq N] in
theorem nodesListed_empty : ({} : DirectedGraph N E).NodesListed :=
  fun A B edge => absurd edge (not_connected_empty A B)

theorem mem_nodeSet_insert {g : DirectedGraph N E} {A B n : N} {edge : Option E} :
    n ∈ (g.insert A B edge).nodeSet ↔ n = B ∨ n = A ∨ n ∈ g.nodeSet := by
  simp [insert]

theorem nodesListed_insert {g : DirectedGraph N E} (listed : g.NodesListed) (A B : N)
    (edge : Option E) : (g.insert A B edge).NodesListed := by
  intro a b conn
  rw [mem_nodeSet_insert, mem_nodeSet_insert]
  rcases connected_insert.mp conn with ⟨rfl, rfl⟩ | old
  · simp
  · have := listed a b old
    simp [this]

def replay (inserts : List ((N × N) × Option E)) (g : DirectedGraph N E) : DirectedGraph N E :=
  inserts.foldl (fun g x => g.insert x.1.1 x.1.2 x.2) g

/-- The graph that a list of insertions leaves. -/
def ofInserts (inserts : List ((N × N) × Option E)) : DirectedGraph N E := replay inserts {}

theorem replay_append (first second : List ((N × N) × Option E)) (g : DirectedGraph N E) :
    replay (first ++ second) g = replay second (replay first g) :=
  List.foldl_append

theorem nodesListed_replay (inserts : List ((N × N) × Option E)) {g : DirectedGraph N E}
    (listed : g.NodesListed) : (replay inserts g).NodesListed := by
  induction inserts generalizing g with
  | nil => exact listed
  | cons x rest ih => exact ih (nodesListed_insert listed x.1.1 x.1.2 x.2)

theorem nodesListed_ofInserts (inserts : List ((N × N) × Option E)) :
    (ofInserts inserts).NodesListed := nodesListed_replay inserts nodesListed_empty

theorem mem_replay {inserts : List ((N × N) × Option E)} {g : DirectedGraph N E}
    {x : (N × N) × Option E} (stored : x ∈ (replay inserts g).edges) :
    x ∈ inserts ∨ x ∈ g.edges := by
  induction inserts generalizing g with
  | nil => exact Or.inr stored
  | cons y rest ih =>
    rcases ih stored with later | before
    · exact Or.inl (List.mem_cons_of_mem y later)
    · rcases mem_insert.mp before with same | ⟨old, _⟩
      · exact Or.inl (same ▸ List.mem_cons_self ..)
      · exact Or.inr old

theorem connected_replay {inserts : List ((N × N) × Option E)} {g : DirectedGraph N E} {A B : N} :
    (replay inserts g).Connected A B ↔ (∃ edge, ((A, B), edge) ∈ inserts) ∨ g.Connected A B := by
  induction inserts generalizing g with
  | nil => simp [replay]
  | cons x rest ih =>
    obtain ⟨⟨a, b⟩, edge⟩ := x
    have split : replay (((a, b), edge) :: rest) g = replay rest (g.insert a b edge) := rfl
    rw [split, ih, connected_insert]
    simp only [List.mem_cons, Prod.mk.injEq, exists_or, exists_and_left, exists_eq, and_true]
    tauto

/-- The multigraph that keeps every edge of a list of insertions. -/
def keepAll (inserts : List ((N × N) × Option E)) : DirectedGraph N E where
  edges := inserts
  nodeSet := (ofInserts inserts).nodeSet

theorem nodesListed_keepAll (inserts : List ((N × N) × Option E)) :
    (keepAll inserts).NodesListed := by
  intro A B ⟨edge, kept⟩
  exact nodesListed_ofInserts inserts A B (connected_replay.mpr (Or.inl ⟨edge, kept⟩))

def NodesUsed (g : DirectedGraph N E) : Prop :=
  ∀ n ∈ g.nodeSet, ∃ m, g.Connected n m ∨ g.Connected m n

omit [DecidableEq N] in
theorem nodesUsed_empty : ({} : DirectedGraph N E).NodesUsed :=
  fun n mem => by simp at mem

theorem nodesUsed_insert {g : DirectedGraph N E} (used : g.NodesUsed) (A B : N)
    (edge : Option E) : (g.insert A B edge).NodesUsed := by
  have new : (g.insert A B edge).Connected A B := connected_insert.mpr (Or.inl ⟨rfl, rfl⟩)
  intro n mem
  rcases mem_nodeSet_insert.mp mem with rfl | rfl | old
  · exact ⟨A, Or.inr new⟩
  · exact ⟨B, Or.inl new⟩
  · obtain ⟨m, before⟩ := used n old
    exact ⟨m, before.imp (connected_insert.mpr <| Or.inr ·) (connected_insert.mpr <| Or.inr ·)⟩

theorem nodesUsed_ofInserts (inserts : List ((N × N) × Option E)) :
    (ofInserts inserts).NodesUsed := by
  have step : ∀ (l : List ((N × N) × Option E)) (g : DirectedGraph N E), g.NodesUsed →
      (replay l g).NodesUsed := by
    intro l
    induction l with
    | nil => exact fun _ used => used
    | cons x rest ih => exact fun g used => ih _ (nodesUsed_insert used x.1.1 x.1.2 x.2)
  exact step inserts {} nodesUsed_empty

end DirectedGraph
end ProgramSlicer
