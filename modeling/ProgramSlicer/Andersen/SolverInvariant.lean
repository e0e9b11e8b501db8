import Mathlib.Data.Finset.Prod
import ProgramSlicer.Andersen.ConstraintSolving

/-!
The solver's state as a configuration of inclusion constraints, and what its
small steps do to it: they are sound, keep every constraint, and put every node
that changes on the next list. Each such change uses up one of finitely many facts.
-/
namespace ProgramSlicer.Andersen
open InclusionConstraints AndersNodeFactory

namespace ConstraintGraph
variable {g : ConstraintGraph} {kind k : ConstraintKind} {n e : NodeIndex}

theorem graph_put (n m : NodeIndex) (node : ConstraintGraphNode) :
    (g.put n node).graph m = if m = n then some node else g.graph m := rfl

theorem edges_put (n m : NodeIndex) (node : ConstraintGraphNode) :
    (g.put n node).edges k m = if m = n then node.edges k else g.edges k m := by
  unfold edges put
  by_cases same : m = n <;> simp [same]

theorem edges_node (src : NodeIndex) :
    ((g.graph src).getD (.new src)).edges k = g.edges k src := by
  unfold edges
  cases g.graph src <;> rfl

theorem mem_setEdges {node : ConstraintGraphNode} {set : SparseBitVector} :
    e ∈ (node.setEdges kind set).edges k ↔ if k = kind then e ∈ set else e ∈ node.edges k := by
  unfold ConstraintGraphNode.setEdges
  split <;> simp_all

theorem mem_insertEdge {src dst : NodeIndex} :
    e ∈ (g.insertEdge kind src dst).edges k n ↔
      e ∈ g.edges k n ∨ (k = kind ∧ n = src ∧ e = dst) := by
  unfold insertEdge
  rw [edges_put]
  by_cases here : n = src
  · rw [if_pos here, mem_setEdges]
    by_cases same : k = kind
    · simp only [same, ↓reduceIte, edges_node, SparseBitVector.mem_set, here, true_and]
      tauto
    · simp [same, edges_node, here]
  · simp [here]

theorem mem_replaceEdge {node oldIdx newIdx : NodeIndex} :
    e ∈ (g.replaceEdge kind node oldIdx newIdx).edges k n ↔
      if k = kind ∧ n = node ∧ oldIdx ∈ g.edges kind node then
        e = newIdx ∨ (e ∈ g.edges k n ∧ e ≠ oldIdx)
      else e ∈ g.edges k n := by
  unfold replaceEdge
  split
  · rename_i missing
    have none : oldIdx ∉ g.edges kind node := by simp [edges, missing]
    simp [none]
  · rename_i found here
    have same : found.edges kind = g.edges kind node := by simp [edges, here]
    have all : found.edges k = g.edges k node := by simp [edges, here]
    rw [same]
    by_cases old : oldIdx ∈ g.edges kind node
    · rw [if_pos old, edges_put]
      by_cases at_node : n = node
      · rw [if_pos at_node, mem_setEdges, all]
        by_cases kinds : k = kind
        · simp [kinds, at_node, old]
        · simp [kinds, at_node]
      · simp [at_node]
    · simp [old]

theorem mem_mergeNodes {dst src : NodeIndex} :
    e ∈ (g.mergeNodes dst src).edges k n ↔ e ∈ g.edges k n ∨ (n = dst ∧ e ∈ g.edges k src) := by
  unfold mergeNodes
  split
  · rename_i missing
    simp [edges, missing]
  · rename_i srcNode found
    have source : g.edges k src = srcNode.edges k := by simp [edges, found]
    split
    · rename_i missing
      have none : e ∉ g.edges k dst := by simp [edges, missing]
      rw [edges_put, source]
      by_cases here : n = dst <;> simp [here, none]
    · rename_i dstNode there
      have target : g.edges k dst = dstNode.edges k := by simp [edges, there]
      rw [edges_put, source]
      by_cases here : n = dst <;> simp [here, target, ConstraintGraphNode.mergeEdges]

theorem mergeNodes_node {dst src : NodeIndex} {node : ConstraintGraphNode}
    (found : (g.mergeNodes dst src).graph n = some node) :
    (∃ old, g.graph n = some old ∧ node.idx = old.idx) ∨
      (n = dst ∧ ∃ old, g.graph src = some old ∧ node.idx = old.idx) := by
  unfold mergeNodes at found
  split at found
  · exact .inl ⟨node, found, rfl⟩
  · rename_i srcNode there
    split at found
    · rw [graph_put] at found
      by_cases here : n = dst
      · rw [if_pos here] at found
        exact .inr ⟨here, srcNode, there, by rw [Option.some.inj found]⟩
      · rw [if_neg here] at found
        exact .inl ⟨node, found, rfl⟩
    · rename_i dstNode before
      rw [graph_put] at found
      by_cases here : n = dst
      · rw [if_pos here] at found
        rw [← Option.some.inj found]
        exact .inl ⟨dstNode, here ▸ before, rfl⟩
      · rw [if_neg here] at found
        exact .inl ⟨node, found, rfl⟩

theorem mem_deleteNode {idx : NodeIndex} :
    e ∈ (g.deleteNode idx).edges k n ↔ n ≠ idx ∧ e ∈ g.edges k n := by
  unfold deleteNode edges
  by_cases same : n = idx <;> simp [same]

theorem edges_getOrInsertNode (idx : NodeIndex) :
    (g.getOrInsertNode idx).edges k n = g.edges k n := by
  unfold getOrInsertNode
  split
  · rename_i missing
    rw [edges_put]
    by_cases same : n = idx
    · simp [same, edges, missing, ConstraintGraphNode.new]
    · simp [same]
  · rfl

def Indexed (rep : NodeIndex → NodeIndex) (g : ConstraintGraph) : Prop :=
  ∀ n node, g.graph n = some node → rep node.idx = n

theorem indexed_put {rep : NodeIndex → NodeIndex} {node : ConstraintGraphNode}
    (indexed : g.Indexed rep) (here : rep node.idx = n) : (g.put n node).Indexed rep := by
  intro m x found
  rw [graph_put] at found
  by_cases same : m = n
  · rw [if_pos same] at found
    rw [← Option.some.inj found, here, same]
  · rw [if_neg same] at found
    exact indexed m x found

theorem indexed_insertEdge {rep : NodeIndex → NodeIndex} {src dst : NodeIndex}
    (indexed : g.Indexed rep) (root : rep src = src) : (g.insertEdge kind src dst).Indexed rep := by
  apply indexed_put indexed
  cases found : g.graph src with
  | none => exact root
  | some node => exact indexed src node found

theorem indexed_replaceEdge {rep : NodeIndex → NodeIndex} {node oldIdx newIdx : NodeIndex}
    (indexed : g.Indexed rep) : (g.replaceEdge kind node oldIdx newIdx).Indexed rep := by
  unfold replaceEdge
  split
  · exact indexed
  · rename_i found here
    split
    · exact indexed_put indexed (indexed node found here)
    · exact indexed

theorem indexed_getOrInsertNode {rep : NodeIndex → NodeIndex} {idx : NodeIndex}
    (indexed : g.Indexed rep) (root : rep idx = idx) : (g.getOrInsertNode idx).Indexed rep := by
  unfold getOrInsertNode
  split
  · exact indexed_put indexed root
  · exact indexed

theorem isSome_put {m : NodeIndex} {node : ConstraintGraphNode} :
    ((g.put n node).graph m).isSome = true ↔ m = n ∨ (g.graph m).isSome = true := by
  rw [graph_put]
  by_cases same : m = n <;> simp [same]

theorem isSome_replaceEdge {node oldIdx newIdx m : NodeIndex} :
    ((g.replaceEdge kind node oldIdx newIdx).graph m).isSome = true ↔
      (g.graph m).isSome = true := by
  unfold replaceEdge
  split
  · rfl
  · rename_i found here
    split
    · rw [isSome_put]
      constructor
      · rintro (same | old)
        · simp [same, here]
        · exact old
      · exact .inr
    · rfl

theorem root_of_edge {rep : NodeIndex → NodeIndex} (indexed : g.Indexed rep)
    (idem : ∀ m, rep (rep m) = rep m) (edge : e ∈ g.edges k n) : rep n = n := by
  unfold edges at edge
  split at edge
  · simp at edge
  · rename_i node found
    rw [← indexed n node found, idem]

theorem getNodeIndex_rep {rep : NodeIndex → NodeIndex} (indexed : g.Indexed rep)
    (root : rep n = n) : rep (g.getNodeIndex n) = n := by
  unfold getNodeIndex
  split
  · exact root
  · rename_i node found
    exact indexed n node found

end ConstraintGraph

namespace Graphs

/-- What the state keeps, with edges to representatives. -/
def view (g : Graphs) : Config NodeIndex where
  rep := g.nodeFactory.getMergeTarget
  pts r := {o | o ∈ g.pts r}
  copyTo r := {d | ∃ e ∈ g.constraintGraph.edges .copy r, g.nodeFactory.getMergeTarget e = d}
  loadTo r := {d | ∃ e ∈ g.constraintGraph.edges .load r, g.nodeFactory.getMergeTarget e = d}
  storeTo r := {d | ∃ e ∈ g.constraintGraph.edges .store r, g.nodeFactory.getMergeTarget e = d}

@[simp] theorem mem_view_pts {g : Graphs} {r o : NodeIndex} : o ∈ g.view.pts r ↔ o ∈ g.pts r :=
  Iff.rfl

theorem mem_pts_unionWith {g : Graphs} {n m o : NodeIndex} {set : AndersPtsSet} :
    o ∈ (g.unionWith n set).pts m ↔ o ∈ g.pts m ∨ (m = n ∧ o ∈ set) := by
  unfold unionWith pts
  by_cases same : m = n <;> simp [same]

/-- Everything is about valid nodes, and only representatives have entries. -/
structure WellFormed (N : Nat) (g : Graphs) : Prop where
  factory : g.nodeFactory.WellFormed
  size : g.nodeFactory.numNodes = N
  indexed : g.constraintGraph.Indexed g.nodeFactory.getMergeTarget
  node_valid : ∀ n, (g.constraintGraph.graph n).isSome = true → n < N
  edge_valid : ∀ kind n, ∀ e ∈ g.constraintGraph.edges kind n, e < N
  entry_root : ∀ n, (g.ptsGraph n).isSome = true → g.nodeFactory.getMergeTarget n = n ∧ n < N
  pts_valid : ∀ n, ∀ o ∈ g.pts n, o < N

variable {N : Nat} {g : Graphs}

theorem edge_source (wf : g.WellFormed N) {kind : ConstraintKind} {n e : NodeIndex}
    (edge : e ∈ g.constraintGraph.edges kind n) : g.nodeFactory.getMergeTarget n = n ∧ n < N := by
  constructor
  · exact g.constraintGraph.root_of_edge wf.indexed (target_idem wf.factory) edge
  · apply wf.node_valid
    unfold ConstraintGraph.edges at edge
    split at edge
    · simp at edge
    · rename_i node found
      simp [found]

theorem gone_discharged (wf : g.WellFormed N) {x : NodeIndex}
    (other : g.nodeFactory.getMergeTarget x ≠ x) : g.view.Discharged x where
  copy := by
    rintro d ⟨e, edge, _⟩
    exact absurd (edge_source wf edge).1 other
  load := by
    rintro d ⟨e, edge, _⟩
    exact absurd (edge_source wf edge).1 other
  store := by
    rintro d ⟨e, edge, _⟩
    exact absurd (edge_source wf edge).1 other

def missing (N : Nat) (g : Graphs) : Nat :=
  ((Finset.range N ×ˢ Finset.range N).filter fun p => p.2 ∉ g.pts p.1).card +
  ((Finset.range N ×ˢ Finset.range N).filter fun p =>
    ¬ (p.2 ∈ g.constraintGraph.edges .copy p.1 ∧ g.nodeFactory.getMergeTarget p.2 = p.2)).card

theorem missing_le_total (N : Nat) (g : Graphs) : g.missing N ≤ 2 * (N * N) := by
  have bound : ∀ p : Nat × Nat → Prop, [DecidablePred p] →
      ((Finset.range N ×ˢ Finset.range N).filter p).card ≤ N * N := by
    intro p _
    apply (Finset.card_le_card (Finset.filter_subset _ _)).trans
    simp
  have first := bound fun p => p.2 ∉ g.pts p.1
  have second := bound fun p =>
    ¬ (p.2 ∈ g.constraintGraph.edges .copy p.1 ∧ g.nodeFactory.getMergeTarget p.2 = p.2)
  unfold missing
  omega

structure Holds (g g' : Graphs) : Prop where
  pts : ∀ n, ∀ o ∈ g.pts n, o ∈ g'.pts n
  edges : ∀ n, ∀ e ∈ g.constraintGraph.edges .copy n, g.nodeFactory.getMergeTarget e = e →
    e ∈ g'.constraintGraph.edges .copy n ∧ g'.nodeFactory.getMergeTarget e = e

theorem missing_pts {g' : Graphs} (holds : g.Holds g') :
    ((Finset.range N ×ˢ Finset.range N).filter fun p => p.2 ∉ g'.pts p.1) ⊆
      (Finset.range N ×ˢ Finset.range N).filter fun p => p.2 ∉ g.pts p.1 := by
  intro p hp
  rw [Finset.mem_filter] at hp ⊢
  exact ⟨hp.1, fun old => hp.2 (holds.pts p.1 p.2 old)⟩

theorem missing_edges {g' : Graphs} (holds : g.Holds g') :
    ((Finset.range N ×ˢ Finset.range N).filter fun p =>
      ¬ (p.2 ∈ g'.constraintGraph.edges .copy p.1 ∧ g'.nodeFactory.getMergeTarget p.2 = p.2)) ⊆
      (Finset.range N ×ˢ Finset.range N).filter fun p =>
        ¬ (p.2 ∈ g.constraintGraph.edges .copy p.1 ∧ g.nodeFactory.getMergeTarget p.2 = p.2) := by
  intro p hp
  rw [Finset.mem_filter] at hp ⊢
  exact ⟨hp.1, fun old => hp.2 (holds.edges p.1 p.2 old.1 old.2)⟩

theorem missing_le {g' : Graphs} (holds : g.Holds g') : g'.missing N ≤ g.missing N :=
  Nat.add_le_add (Finset.card_le_card (missing_pts holds))
    (Finset.card_le_card (missing_edges holds))

theorem missing_lt_pts {g' : Graphs} (holds : g.Holds g') {n o : NodeIndex} (hn : n < N)
    (ho : o < N) (new : o ∈ g'.pts n) (old : o ∉ g.pts n) : g'.missing N < g.missing N := by
  apply Nat.add_lt_add_of_lt_of_le _ (Finset.card_le_card (missing_edges holds))
  apply Finset.card_lt_card
  refine ⟨missing_pts holds, fun back => ?_⟩
  have before : (n, o) ∈ (Finset.range N ×ˢ Finset.range N).filter fun p => p.2 ∉ g.pts p.1 := by
    simp [hn, ho, old]
  exact (Finset.mem_filter.mp (back before)).2 new

theorem missing_lt_edge {g' : Graphs} (holds : g.Holds g') {n e : NodeIndex} (hn : n < N)
    (he : e < N) (new : e ∈ g'.constraintGraph.edges .copy n)
    (root : g'.nodeFactory.getMergeTarget e = e)
    (old : e ∉ g.constraintGraph.edges .copy n) : g'.missing N < g.missing N := by
  apply Nat.add_lt_add_of_le_of_lt (Finset.card_le_card (missing_pts holds))
  apply Finset.card_lt_card
  refine ⟨missing_edges holds, fun back => ?_⟩
  have before : (n, e) ∈ (Finset.range N ×ˢ Finset.range N).filter fun p =>
      ¬ (p.2 ∈ g.constraintGraph.edges .copy p.1 ∧ g.nodeFactory.getMergeTarget p.2 = p.2) := by
    simp [hn, he, old]
  exact (Finset.mem_filter.mp (back before)).2 ⟨new, root⟩

end Graphs

namespace Solver
variable {S : System NodeIndex} {N : Nat} {s : Solver}

structure Valid (S : System NodeIndex) (N : Nat) (s : Solver) : Prop where
  wf : s.toGraphs.WellFormed N
  sound : s.view.Sound S
  candidates : ∀ n ∈ s.cycleCandidates, n < N

/-- One or more small steps. What changes is put on the next list, and uses up facts. -/
structure Progress (N : Nat) (s s' : Solver) : Prop where
  factory : s'.nodeFactory = s.nodeFactory
  grows : s.view.Grows s'.view {x | x ∈ s'.nextWorkList}
  kept : ∀ x ∈ s.nextWorkList, x ∈ s'.nextWorkList
  holds : s.toGraphs.Holds s'.toGraphs
  moved : s'.nextWorkList = s.nextWorkList ∨ s'.toGraphs.missing N < s.toGraphs.missing N

theorem progress_refl (N : Nat) (s : Solver) : Progress N s s :=
  ⟨rfl, Config.grows_refl _ _, fun _ h => h, ⟨fun _ _ h => h, fun _ _ h root => ⟨h, root⟩⟩, .inl rfl⟩

theorem progress_trans {a b c : Solver} (ab : Progress N a b) (bc : Progress N b c) :
    Progress N a c where
  factory := bc.factory.trans ab.factory
  grows := Config.grows_trans ab.grows bc.grows bc.kept
  kept x h := bc.kept x (ab.kept x h)
  holds := by
    constructor
    · exact fun n o h => bc.holds.pts n o (ab.holds.pts n o h)
    · intro n e h root
      obtain ⟨h', root'⟩ := ab.holds.edges n e h root
      exact bc.holds.edges n e h' root'
  moved := by
    have first := Graphs.missing_le (N := N) ab.holds
    have second := Graphs.missing_le (N := N) bc.holds
    rcases ab.moved with sameAB | lessAB <;> rcases bc.moved with sameBC | lessBC
    · exact .inl (sameBC.trans sameAB)
    · right; omega
    · right; omega
    · right; omega

theorem mem_enqueue {w : AndersWorkList} {x n : NodeIndex} :
    x ∈ w.enqueue n ↔ x = n ∨ x ∈ w := by
  unfold AndersWorkList.enqueue
  split
  · rename_i queued
    constructor
    · exact .inr
    · rintro (same | h)
      · exact same ▸ queued
      · exact h
  · rw [List.mem_append, List.mem_singleton]
    tauto

/-- What a step keeps, and what it adds. -/
def Step (S : System NodeIndex) (N : Nat) (s s' : Solver) : Prop :=
  Valid S N s' ∧ Progress N s s'

theorem step_trans {a b c : Solver} (ab : Step S N a b) (bc : Step S N b c) : Step S N a c :=
  ⟨bc.1, progress_trans ab.2 bc.2⟩

theorem foldl_spec {α : Type} {f : Solver → α → Solver} {l : List α} {P : Solver → Prop}
    {E : α → Solver → Prop}
    (turn : ∀ x ∈ l, ∀ s, Valid S N s → P s → Step S N s (f s x) ∧ P (f s x) ∧ E x (f s x))
    (lasting : ∀ x s s', E x s → Step S N s s' → E x s') {s : Solver} (valid : Valid S N s)
    (start : P s) :
    Step S N s (l.foldl f s) ∧ P (l.foldl f s) ∧ ∀ x ∈ l, E x (l.foldl f s) := by
  induction l generalizing s with
  | nil => exact ⟨⟨valid, progress_refl N s⟩, start, by simp⟩
  | cons y l ih =>
    obtain ⟨first, kept, here⟩ := turn y (by simp) s valid start
    obtain ⟨rest, done, there⟩ :=
      ih (fun x hx => turn x (List.mem_cons_of_mem y hx)) first.1 kept
    refine ⟨step_trans first rest, done, ?_⟩
    intro x hx
    rcases List.mem_cons.mp hx with same | later
    · exact same ▸ lasting y _ _ here rest
    · exact there x later

/-! ### Copy edges -/

theorem addCopyEdge_eq (src dst : NodeIndex) (s : Solver) :
    s.addCopyEdge src dst =
      { s with
        constraintGraph := s.constraintGraph.insertCopyEdge src dst
        nextWorkList := if dst ∈ s.constraintGraph.edges .copy src then s.nextWorkList
          else s.nextWorkList.enqueue src } := by
  unfold addCopyEdge ConstraintGraph.isNewEdge enqueue
  by_cases known : dst ∈ s.constraintGraph.edges .copy src <;> simp [known]

theorem addCopyEdge_step {src dst : NodeIndex} (valid : Valid S N s) (rootS : s.rep src = src)
    (rootD : s.rep dst = dst) (hs : src < N) (hd : dst < N)
    (sound : solution S src ⊆ solution S dst) : Step S N s (s.addCopyEdge src dst) := by
  have edges : ∀ k n e, e ∈ (s.constraintGraph.insertCopyEdge src dst).edges k n ↔
      e ∈ s.constraintGraph.edges k n ∨ (k = .copy ∧ n = src ∧ e = dst) :=
    fun _ _ _ => ConstraintGraph.mem_insertEdge
  have copyTo : ∀ r d, d ∈ (s.addCopyEdge src dst).view.copyTo r ↔
      d ∈ s.view.copyTo r ∨ (r = src ∧ d = dst) := by
    intro r d
    rw [addCopyEdge_eq]
    simp only [Graphs.view, Set.mem_ofPred_eq, edges, true_and]
    constructor
    · rintro ⟨e, old | ⟨rfl, rfl⟩, same⟩
      · exact .inl ⟨e, old, same⟩
      · exact .inr ⟨rfl, same.symm.trans rootD⟩
    · rintro (⟨e, old, same⟩ | ⟨rfl, rfl⟩)
      · exact ⟨e, .inl old, same⟩
      · exact ⟨d, .inr ⟨rfl, rfl⟩, rootD⟩
  have loadTo : (s.addCopyEdge src dst).view.loadTo = s.view.loadTo := by
    funext r
    rw [addCopyEdge_eq]
    simp [Graphs.view, edges]
  have storeTo : (s.addCopyEdge src dst).view.storeTo = s.view.storeTo := by
    funext r
    rw [addCopyEdge_eq]
    simp [Graphs.view, edges]
  have next : ∀ x, x ∈ (s.addCopyEdge src dst).nextWorkList ↔
      x ∈ s.nextWorkList ∨ (x = src ∧ dst ∉ s.constraintGraph.edges .copy src) := by
    intro x
    rw [addCopyEdge_eq]
    dsimp only
    split
    · rename_i known
      simp [known]
    · rename_i new
      rw [mem_enqueue]
      tauto
  have grows : s.view.Grows (s.addCopyEdge src dst).view
      {x | x ∈ (s.addCopyEdge src dst).nextWorkList} := by
    constructor
    case rep => rw [addCopyEdge_eq]; rfl
    case loadTo => exact loadTo
    case storeTo => exact storeTo
    case pts => rw [addCopyEdge_eq]; exact fun x o h => h
    case copyTo => exact fun x d h => (copyTo x d).mpr (.inl h)
    case pts_same => rw [addCopyEdge_eq]; exact fun x _ o h => h
    case copyTo_same =>
      intro x same d h
      rcases (copyTo x d).mp h with old | ⟨rfl, rfl⟩
      · exact old
      · by_cases known : d ∈ s.constraintGraph.edges .copy x
        · exact ⟨d, known, rootD⟩
        · exact absurd ((next x).mpr (.inr ⟨rfl, known⟩)) same
  have holds : s.toGraphs.Holds (s.addCopyEdge src dst).toGraphs := by
    rw [addCopyEdge_eq]
    exact ⟨fun _ _ h => h, fun n e h root => ⟨(edges _ n e).mpr (.inl h), root⟩⟩
  refine ⟨⟨?_, ?_, ?_⟩, ?_⟩
  · rw [addCopyEdge_eq]
    constructor
    case factory => exact valid.wf.factory
    case size => exact valid.wf.size
    case indexed => exact ConstraintGraph.indexed_insertEdge valid.wf.indexed rootS
    case node_valid =>
      intro n h
      rcases ConstraintGraph.isSome_put.mp h with same | old
      · exact same ▸ hs
      · exact valid.wf.node_valid n old
    case edge_valid =>
      intro k n e h
      rcases (edges k n e).mp h with old | ⟨_, _, same⟩
      · exact valid.wf.edge_valid k n e old
      · exact same ▸ hd
    case entry_root => exact valid.wf.entry_root
    case pts_valid => exact valid.wf.pts_valid
  · constructor
    case rep => rw [addCopyEdge_eq]; exact valid.sound.rep
    case pts => rw [addCopyEdge_eq]; exact valid.sound.pts
    case copyTo =>
      intro r d h
      rcases (copyTo r d).mp h with old | ⟨rfl, rfl⟩
      · exact valid.sound.copyTo r d old
      · exact sound
    case loadTo => rw [loadTo]; exact valid.sound.loadTo
    case storeTo => rw [storeTo]; exact valid.sound.storeTo
  · rw [addCopyEdge_eq]
    exact valid.candidates
  · refine ⟨by rw [addCopyEdge_eq], grows, fun x h => (next x).mpr (.inl h), holds, ?_⟩
    by_cases known : dst ∈ s.constraintGraph.edges .copy src
    · left
      rw [addCopyEdge_eq]
      exact if_pos known
    · right
      apply Graphs.missing_lt_edge holds hs hd _ _ known
      · rw [addCopyEdge_eq]
        exact (edges _ _ _).mpr (.inr ⟨rfl, rfl, rfl⟩)
      · rw [addCopyEdge_eq]
        exact rootD

theorem edge_addCopyEdge (src dst : NodeIndex) :
    dst ∈ (s.addCopyEdge src dst).constraintGraph.edges .copy src := by
  rw [addCopyEdge_eq]
  exact ConstraintGraph.mem_insertEdge.mpr (.inr ⟨rfl, rfl, rfl⟩)

theorem step_edge {s' : Solver} (step : Step S N s s') {n e : NodeIndex} (root : s.rep e = e)
    (edge : e ∈ s.constraintGraph.edges .copy n) : e ∈ s'.constraintGraph.edges .copy n :=
  (step.2.holds.edges n e edge root).1

theorem step_rep {s' : Solver} (step : Step S N s s') (n : NodeIndex) : s'.rep n = s.rep n := by
  unfold rep
  rw [step.2.factory]

/-! ### Update maps -/

theorem replaceEdge_view {kind : ConstraintKind} {node dst : NodeIndex}
    (wf : s.nodeFactory.WellFormed) :
    ({ s with constraintGraph :=
        s.constraintGraph.replaceEdge kind node dst (s.rep dst) } : Solver).view = s.view := by
  let s' : Solver :=
    { s with constraintGraph := s.constraintGraph.replaceEdge kind node dst (s.rep dst) }
  have idem := target_idem wf
  have edges : ∀ k n e, e ∈ s'.constraintGraph.edges k n ↔
      if k = kind ∧ n = node ∧ dst ∈ s.constraintGraph.edges kind node then
        e = s.rep dst ∨ (e ∈ s.constraintGraph.edges k n ∧ e ≠ dst)
      else e ∈ s.constraintGraph.edges k n := fun _ _ _ => ConstraintGraph.mem_replaceEdge
  have targets : ∀ k n d, (∃ e ∈ s'.constraintGraph.edges k n, s.rep e = d) ↔
      ∃ e ∈ s.constraintGraph.edges k n, s.rep e = d := by
    intro k n d
    by_cases here : k = kind ∧ n = node ∧ dst ∈ s.constraintGraph.edges kind node
    · simp only [edges, if_pos here]
      constructor
      · rintro ⟨e, rfl | ⟨old, _⟩, same⟩
        · exact ⟨dst, by rw [here.1, here.2.1]; exact here.2.2, (idem dst).symm.trans same⟩
        · exact ⟨e, old, same⟩
      · rintro ⟨e, old, same⟩
        by_cases moved : e = dst
        · exact ⟨s.rep dst, .inl rfl, (idem dst).trans (moved ▸ same)⟩
        · exact ⟨e, .inr ⟨old, moved⟩, same⟩
    · simp only [edges, if_neg here]
  have each : ∀ k, (fun r => {d | ∃ e ∈ s'.constraintGraph.edges k r, s.rep e = d}) =
      fun r => {d | ∃ e ∈ s.constraintGraph.edges k r, s.rep e = d} := by
    intro k
    funext r
    ext d
    exact targets k r d
  simp only [Graphs.view, Config.mk.injEq, true_and]
  exact ⟨rfl, each .copy, each .load, each .store⟩

theorem replaceEdge_step (kind : ConstraintKind) (node : NodeIndex) {dst : NodeIndex}
    (valid : Valid S N s)
    (stale : s.rep dst ≠ dst) :
    Step S N s { s with
      constraintGraph := s.constraintGraph.replaceEdge kind node dst (s.rep dst) } := by
  let s' : Solver :=
    { s with constraintGraph := s.constraintGraph.replaceEdge kind node dst (s.rep dst) }
  have edges : ∀ k n e, e ∈ s'.constraintGraph.edges k n ↔
      if k = kind ∧ n = node ∧ dst ∈ s.constraintGraph.edges kind node then
        e = s.rep dst ∨ (e ∈ s.constraintGraph.edges k n ∧ e ≠ dst)
      else e ∈ s.constraintGraph.edges k n := fun _ _ _ => ConstraintGraph.mem_replaceEdge
  have view : s'.view = s.view := replaceEdge_view valid.wf.factory
  have grows : s.view.Grows s'.view {x | x ∈ s'.nextWorkList} := by
    rw [view]
    exact Config.grows_refl _ _
  refine ⟨⟨?_, view ▸ valid.sound, valid.candidates⟩, rfl, grows,
    fun _ h => h, ?_, .inl rfl⟩
  · constructor
    case factory => exact valid.wf.factory
    case size => exact valid.wf.size
    case indexed => exact ConstraintGraph.indexed_replaceEdge valid.wf.indexed
    case node_valid =>
      intro n h
      exact valid.wf.node_valid n (ConstraintGraph.isSome_replaceEdge.mp h)
    case edge_valid =>
      intro k n e h
      rw [edges] at h
      split at h
      · rename_i here
        rcases h with same | ⟨old, _⟩
        · have valid_dst := valid.wf.edge_valid kind node dst here.2.2
          rw [same]
          rw [← valid.wf.size] at valid_dst ⊢
          exact target_inside valid.wf.factory valid_dst
        · exact valid.wf.edge_valid k n e old
      · exact valid.wf.edge_valid k n e h
    case entry_root => exact valid.wf.entry_root
    case pts_valid => exact valid.wf.pts_valid
  · refine ⟨fun _ _ h => h, ?_⟩
    intro n e h root
    refine ⟨?_, root⟩
    rw [edges]
    split
    · exact .inr ⟨h, fun same => stale (same ▸ root)⟩
    · exact h

theorem updateEdges_step (kind : ConstraintKind) (node : NodeIndex) (stale : List NodeIndex)
    (valid : Valid S N s) (moved : ∀ dst ∈ stale, s.rep dst ≠ dst) :
    Step S N s (s.updateEdges kind node stale) := by
  unfold updateEdges
  induction stale generalizing s with
  | nil => exact ⟨valid, progress_refl N s⟩
  | cons dst rest ih =>
    have first := replaceEdge_step kind node valid (moved dst (by simp))
    exact step_trans first (ih first.1 fun d hd => moved d (by simp [hd]))

theorem updateEdges_view {kind : ConstraintKind} {node : NodeIndex} {stale : List NodeIndex}
    (wf : s.nodeFactory.WellFormed) : (s.updateEdges kind node stale).view = s.view := by
  unfold updateEdges
  induction stale generalizing s with
  | nil => rfl
  | cons dst rest ih =>
    let s' : Solver :=
      { s with constraintGraph := s.constraintGraph.replaceEdge kind node dst (s.rep dst) }
    exact (ih (s := s') wf).trans (replaceEdge_view wf)

/-! ### Loads and stores -/

theorem addCopyEdges_spec {l : List NodeIndex} {a b : NodeIndex → NodeIndex}
    (valid : Valid S N s) (inside : ∀ x ∈ l, a x < N ∧ b x < N)
    (sound : ∀ x ∈ l, solution S (a x) ⊆ solution S (b x)) :
    Step S N s (l.foldl (fun s x => s.addCopyEdge (s.rep (a x)) (s.rep (b x))) s) ∧
    (l.foldl (fun s x => s.addCopyEdge (s.rep (a x)) (s.rep (b x))) s).ptsGraph = s.ptsGraph ∧
    ∀ x ∈ l, s.rep (b x) ∈
      (l.foldl (fun s x => s.addCopyEdge (s.rep (a x)) (s.rep (b x))) s).constraintGraph.edges .copy
        (s.rep (a x)) := by
  let P : Solver → Prop := fun t => t.nodeFactory = s.nodeFactory ∧ t.ptsGraph = s.ptsGraph
  let E : NodeIndex → Solver → Prop := fun x t =>
    t.rep (s.rep (b x)) = s.rep (b x) ∧ s.rep (b x) ∈ t.constraintGraph.edges .copy (s.rep (a x))
  have turn : ∀ x ∈ l, ∀ t, Valid S N t → P t →
      Step S N t (t.addCopyEdge (t.rep (a x)) (t.rep (b x))) ∧
      P (t.addCopyEdge (t.rep (a x)) (t.rep (b x))) ∧
      E x (t.addCopyEdge (t.rep (a x)) (t.rep (b x))) := by
    intro x hx t validT same
    have idem : ∀ n, t.rep (t.rep n) = t.rep n := target_idem validT.wf.factory
    have reps : ∀ n, t.rep n = s.rep n := fun n => by unfold rep; rw [same.1]
    have bound : ∀ n, n < N → t.rep n < N := by
      intro n hn
      rw [← validT.wf.size] at hn ⊢
      exact target_inside validT.wf.factory hn
    have less : solution S (t.rep (a x)) ⊆ solution S (t.rep (b x)) := by
      have first : solution S (t.rep (a x)) = solution S (a x) := validT.sound.rep (a x)
      have second : solution S (t.rep (b x)) = solution S (b x) := validT.sound.rep (b x)
      rw [first, second]
      exact sound x hx
    have step := addCopyEdge_step validT (idem (a x)) (idem (b x)) (bound _ (inside x hx).1)
      (bound _ (inside x hx).2) less
    refine ⟨step, ⟨step.2.factory.trans same.1, ?_⟩, ?_⟩
    · rw [addCopyEdge_eq]
      exact same.2
    · have here := edge_addCopyEdge (s := t) (t.rep (a x)) (t.rep (b x))
      have root := (step_rep step (s.rep (b x))).trans ((reps (b x)) ▸ idem (b x))
      exact ⟨root, by rwa [← reps (b x), ← reps (a x)]⟩
  have lasting : ∀ x t t', E x t → Step S N t t' → E x t' := by
    intro x t t' here step
    exact ⟨(step_rep step _).trans here.1, step_edge step here.1 here.2⟩
  obtain ⟨step, same, each⟩ := foldl_spec turn lasting valid ⟨rfl, rfl⟩
  exact ⟨step, same.2, fun x hx => (each x hx).2⟩

theorem addAndUpdate_spec (kind : ConstraintKind) (node : NodeIndex) {l : List NodeIndex}
    {a b : NodeIndex → NodeIndex} (valid : Valid S N s) (inside : ∀ x ∈ l, a x < N ∧ b x < N)
    (sound : ∀ x ∈ l, solution S (a x) ⊆ solution S (b x)) :
    let t := l.foldl (fun s x => s.addCopyEdge (s.rep (a x)) (s.rep (b x))) s
    let u := t.updateEdges kind node (l.filter fun dst => t.rep dst ≠ dst)
    Step S N s u ∧ u.ptsGraph = s.ptsGraph ∧
      ∀ x ∈ l, s.rep (b x) ∈ u.constraintGraph.edges .copy (s.rep (a x)) := by
  intro t u
  obtain ⟨step, same, each⟩ := addCopyEdges_spec valid inside sound
  have update : Step S N t u := updateEdges_step kind node _ step.1
    (fun dst h => by simpa using (List.mem_filter.mp h).2)
  refine ⟨step_trans step update, same, ?_⟩
  intro x hx
  have root := (step_rep step _).trans (target_idem valid.wf.factory (b x))
  exact step_edge update root (each x hx)

theorem addLoads_spec {node v : NodeIndex} (valid : Valid S N s) (pointee : v ∈ s.pts node) :
    Step S N s (s.addLoads node v) ∧ (s.addLoads node v).ptsGraph = s.ptsGraph ∧
    ∀ d ∈ s.view.loadTo node,
      d ∈ (s.addLoads node v).constraintGraph.edges .copy (s.rep v) := by
  have hv := valid.wf.pts_valid node v pointee
  obtain ⟨step, same, each⟩ := addAndUpdate_spec .load node
    (l := (s.constraintGraph.edges .load node).bits) (a := fun _ => v) (b := fun dst => dst) valid
    (fun x hx => ⟨hv, valid.wf.edge_valid .load node x hx⟩)
    (fun x hx => by
      have loaded := valid.sound.loadTo node (s.rep x) ⟨x, hx, rfl⟩ v
        (valid.sound.pts node pointee)
      rwa [show solution S (s.rep x) = solution S x from valid.sound.rep x] at loaded)
  refine ⟨step, same, ?_⟩
  rintro d ⟨e, edge, rfl⟩
  exact each e edge

theorem addStores_spec {node v : NodeIndex} (valid : Valid S N s) (pointee : v ∈ s.pts node) :
    Step S N s (s.addStores node v) ∧ (s.addStores node v).ptsGraph = s.ptsGraph ∧
    ∀ d ∈ s.view.storeTo node,
      s.rep v ∈ (s.addStores node v).constraintGraph.edges .copy d := by
  have hv := valid.wf.pts_valid node v pointee
  obtain ⟨step, same, each⟩ := addAndUpdate_spec .store node
    (l := (s.constraintGraph.edges .store node).bits) (a := fun dst => dst) (b := fun _ => v) valid
    (fun x hx => ⟨valid.wf.edge_valid .store node x hx, hv⟩)
    (fun x hx => by
      have stored := valid.sound.storeTo node (s.rep x) ⟨x, hx, rfl⟩ v
        (valid.sound.pts node pointee)
      rwa [show solution S (s.rep x) = solution S x from valid.sound.rep x] at stored)
  refine ⟨step, same, ?_⟩
  rintro d ⟨e, edge, rfl⟩
  exact each e edge

end Solver

end ProgramSlicer.Andersen
