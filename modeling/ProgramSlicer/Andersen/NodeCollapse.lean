import ProgramSlicer.Andersen.SolverInvariant

/-!
Collapsing one node into another: the configuration is moved along, nothing
else changes, and the number of representatives goes down.
-/
namespace ProgramSlicer.Andersen
open InclusionConstraints AndersNodeFactory

namespace Graphs
variable {N : Nat} {g : Graphs}

def roots (N : Nat) (g : Graphs) : Nat :=
  ((Finset.range N).filter fun n => g.nodeFactory.getMergeTarget n = n).card

def measure (N : Nat) (g : Graphs) : Nat := g.roots N * (2 * (N * N) + 1) + g.missing N

/-- The state after `src` has been collapsed into `dst`, where the factory allows it. -/
structure Collapsed (dst src : NodeIndex) (g g' : Graphs) : Prop where
  rep : ∀ n, g'.nodeFactory.getMergeTarget n = into dst [src] (g.nodeFactory.getMergeTarget n)
  pts : ∀ n o, o ∈ g'.pts n ↔ n ≠ src ∧ (o ∈ g.pts n ∨ (n = dst ∧ o ∈ g.pts src))
  edges : ∀ k n e, e ∈ g'.constraintGraph.edges k n ↔
    n ≠ src ∧ (e ∈ g.constraintGraph.edges k n ∨ (n = dst ∧ e ∈ g.constraintGraph.edges k src))

theorem into_other {dst src n : NodeIndex} (other : n ≠ src) : into dst [src] n = n := by
  simp [into, other]

theorem into_src {dst src : NodeIndex} : into dst [src] src = dst := by simp [into]

theorem collapsed_view {dst src : NodeIndex} {g' : Graphs} (collapsed : Collapsed dst src g g')
    (other : dst ≠ src) : g'.view = g.view.map (into dst [src]) := by
  have pts : (fun x => {o | o ∈ g'.pts x}) =
      fun x => {o | ∃ m, into dst [src] m = x ∧ o ∈ g.pts m} := by
    funext x
    ext o
    simp only [Set.mem_ofPred_eq, collapsed.pts]
    constructor
    · rintro ⟨apart, old | ⟨rfl, known⟩⟩
      · exact ⟨x, into_other apart, old⟩
      · exact ⟨src, into_src, known⟩
    · rintro ⟨m, rfl, known⟩
      by_cases same : m = src
      · rw [same, into_src]
        exact ⟨other, .inr ⟨rfl, same ▸ known⟩⟩
      · rw [into_other same]
        exact ⟨same, .inl known⟩
  have edges : ∀ k, (fun x => {d | ∃ e ∈ g'.constraintGraph.edges k x,
        g'.nodeFactory.getMergeTarget e = d}) =
      fun x => {d | ∃ m, into dst [src] m = x ∧
        ∃ y ∈ {y | ∃ e ∈ g.constraintGraph.edges k m, g.nodeFactory.getMergeTarget e = y},
          into dst [src] y = d} := by
    intro k
    funext x
    ext d
    simp only [Set.mem_ofPred_eq, collapsed.edges, collapsed.rep]
    constructor
    · rintro ⟨e, ⟨apart, old | ⟨rfl, edge⟩⟩, rfl⟩
      · exact ⟨x, into_other apart, _, ⟨e, old, rfl⟩, rfl⟩
      · exact ⟨src, into_src, _, ⟨e, edge, rfl⟩, rfl⟩
    · rintro ⟨m, rfl, _, ⟨e, edge, rfl⟩, rfl⟩
      refine ⟨e, ?_, rfl⟩
      by_cases same : m = src
      · rw [same, into_src]
        exact ⟨other, .inr ⟨rfl, same ▸ edge⟩⟩
      · rw [into_other same]
        exact ⟨same, .inl edge⟩
  simp only [view, Config.map, Config.mk.injEq]
  exact ⟨funext collapsed.rep, pts, edges .copy, edges .load, edges .store⟩

theorem collapsed_measure {dst src : NodeIndex} {g' : Graphs}
    (collapsed : Collapsed dst src g g') (hs : src < N)
    (rootD : g.nodeFactory.getMergeTarget dst = dst)
    (rootS : g.nodeFactory.getMergeTarget src = src) (other : dst ≠ src) :
    g'.measure N < g.measure N := by
  have fewer : g'.roots N < g.roots N := by
    apply Finset.card_lt_card
    constructor
    · intro n hn
      rw [Finset.mem_filter, collapsed.rep] at hn
      rw [Finset.mem_filter]
      refine ⟨hn.1, ?_⟩
      by_cases gone : g.nodeFactory.getMergeTarget n = src
      · have here : dst = n := by rw [← hn.2, gone, into_src]
        rw [← here, rootD]
      · rw [into_other gone] at hn
        exact hn.2
    · intro sub
      have before : src ∈ (Finset.range N).filter fun n => g.nodeFactory.getMergeTarget n = n := by
        simp [hs, rootS]
      have after := (Finset.mem_filter.mp (sub before)).2
      rw [collapsed.rep, rootS, into_src] at after
      exact other after
  have facts := missing_le_total N g'
  have scaled : (g'.roots N + 1) * (2 * (N * N) + 1) ≤ g.roots N * (2 * (N * N) + 1) :=
    Nat.mul_le_mul_right _ fewer
  rw [Nat.add_mul, Nat.one_mul] at scaled
  unfold measure
  omega

theorem collapseNodes_spec (wf : g.WellFormed N) {dst src : NodeIndex} (hd : dst < N)
    (hs : src < N) (rootD : g.nodeFactory.getMergeTarget dst = dst)
    (rootS : g.nodeFactory.getMergeTarget src = src) (other : dst ≠ src) :
    ∃ g', collapseNodes dst src g = some g' ∧ g'.WellFormed N ∧ Collapsed dst src g g' := by
  obtain ⟨F', merged, wf', size, target⟩ :=
    mergeNode_spec wf.factory (wf.size ▸ hd) (wf.size ▸ hs) rootD rootS other
  let ptsGraph : NodeIndex → Option AndersPtsSet := fun n =>
    if n = src then none
    else if (g.ptsGraph src).isSome then (g.unionWith dst (g.pts src)).ptsGraph n
    else g.ptsGraph n
  let graph := (g.constraintGraph.mergeNodes dst src).deleteNode src
  have run : collapseNodes dst src g = some ⟨F', ptsGraph, graph⟩ := by
    unfold collapseNodes
    rw [if_neg other, merged]
    simp only [Option.bind_eq_bind, Option.bind_some, Option.pure_def, Option.some.injEq]
    by_cases entry : (g.ptsGraph src).isSome = true
    · simp [ptsGraph, graph, entry, erase, unionWith, pts]
    · simp [ptsGraph, graph, entry, erase]
  have rep : ∀ n, F'.getMergeTarget n = into dst [src] (g.nodeFactory.getMergeTarget n) := by
    intro n
    rw [target]
    simp [into]
  have pts : ∀ n o, o ∈ (⟨F', ptsGraph, graph⟩ : Graphs).pts n ↔
      n ≠ src ∧ (o ∈ g.pts n ∨ (n = dst ∧ o ∈ g.pts src)) := by
    intro n o
    by_cases gone : n = src
    · simp [Graphs.pts, ptsGraph, gone]
    · by_cases entry : (g.ptsGraph src).isSome = true
      · have shape : (⟨F', ptsGraph, graph⟩ : Graphs).pts n =
            (g.unionWith dst (g.pts src)).pts n := by
          simp [Graphs.pts, ptsGraph, gone, entry]
        rw [shape, mem_pts_unionWith]
        simp [gone]
      · have empty : g.ptsGraph src = none := by simpa using entry
        simp [Graphs.pts, ptsGraph, gone, empty]
  have edges : ∀ k n e, e ∈ graph.edges k n ↔ n ≠ src ∧
      (e ∈ g.constraintGraph.edges k n ∨ (n = dst ∧ e ∈ g.constraintGraph.edges k src)) := by
    intro k n e
    rw [ConstraintGraph.mem_deleteNode, ConstraintGraph.mem_mergeNodes]
  have nodes : ∀ n node, graph.graph n = some node → n ≠ src ∧
      ((∃ old, g.constraintGraph.graph n = some old ∧ node.idx = old.idx) ∨
        (n = dst ∧ ∃ old, g.constraintGraph.graph src = some old ∧ node.idx = old.idx)) := by
    intro n node found
    have apart : n ≠ src := by
      intro same
      simp [graph, ConstraintGraph.deleteNode, same] at found
    refine ⟨apart, ConstraintGraph.mergeNodes_node ?_⟩
    simpa [graph, ConstraintGraph.deleteNode, apart] using found
  have entries : ∀ n, (ptsGraph n).isSome = true →
      n ≠ src ∧ ((g.ptsGraph n).isSome = true ∨ n = dst) := by
    intro n entry
    by_cases gone : n = src
    · simp [ptsGraph, gone] at entry
    · refine ⟨gone, ?_⟩
      by_cases here : n = dst
      · exact .inr here
      · left
        simpa [ptsGraph, gone, unionWith, here] using entry
  refine ⟨_, run, ?_, rep, pts, edges⟩
  constructor
  case factory => exact wf'
  case size => exact size.trans wf.size
  case indexed =>
    intro n node found
    show F'.getMergeTarget node.idx = n
    obtain ⟨apart, ⟨old, before, idx⟩ | ⟨here, old, before, idx⟩⟩ := nodes n node found
    · rw [rep, idx, wf.indexed n old before, into_other apart]
    · rw [rep, idx, wf.indexed src old before, into_src, here]
  case node_valid =>
    intro n found
    obtain ⟨node, there⟩ := Option.isSome_iff_exists.mp found
    obtain ⟨_, ⟨old, before, _⟩ | ⟨here, _⟩⟩ := nodes n node there
    · exact wf.node_valid n (by simp [before])
    · exact here ▸ hd
  case edge_valid =>
    intro k n e h
    obtain ⟨_, old | ⟨_, edge⟩⟩ := (edges k n e).mp h
    · exact wf.edge_valid k n e old
    · exact wf.edge_valid k src e edge
  case entry_root =>
    intro n entry
    show F'.getMergeTarget n = n ∧ n < N
    obtain ⟨apart, old | here⟩ := entries n entry
    · have was := wf.entry_root n old
      rw [rep, was.1, into_other apart]
      exact ⟨rfl, was.2⟩
    · rw [here, rep, rootD, into_other other]
      exact ⟨rfl, hd⟩
  case pts_valid =>
    intro n o h
    obtain ⟨_, old | ⟨_, known⟩⟩ := (pts n o).mp h
    · exact wf.pts_valid n o old
    · exact wf.pts_valid src o known

/-- The nodes of `ps` have been collapsed into `r`. -/
structure Partly (N : Nat) (g : Graphs) (r : NodeIndex) (ps : List NodeIndex) (g' : Graphs) :
    Prop where
  wf : g'.WellFormed N
  rep : ∀ n, g'.nodeFactory.getMergeTarget n = into r ps (g.nodeFactory.getMergeTarget n)
  view : g'.view = g.view.map (into r ps)
  edges : ∀ k n, n ≠ r → n ∉ ps → g'.constraintGraph.edges k n = g.constraintGraph.edges k n
  edges_root : ∀ k, ∀ e ∈ g'.constraintGraph.edges k r,
    ∃ m ∈ r :: ps, e ∈ g.constraintGraph.edges k m
  used : g' = g ∨ g'.measure N < g.measure N

theorem partly_start (wf : g.WellFormed N) (r : NodeIndex) : Partly N g r [] g := by
  have same : into r [] = fun n : NodeIndex => n := by
    funext x
    simp [into]
  exact ⟨wf, fun n => by rw [same], by rw [same, Config.map_id], fun _ _ _ _ => rfl,
    fun k e edge => ⟨r, by simp, edge⟩, .inl rfl⟩

theorem partly_measure {g' : Graphs} {r : NodeIndex} {ps : List NodeIndex}
    (part : Partly N g r ps g') : g'.measure N ≤ g.measure N := by
  rcases part.used with same | less
  · rw [same]
  · exact less.le

theorem partly_collapse {g' : Graphs} {r q : NodeIndex} {ps : List NodeIndex}
    (part : Partly N g r ps g') (hr : r < N) (rootR : g.nodeFactory.getMergeTarget r = r)
    (hq : q < N) (rootQ : g.nodeFactory.getMergeTarget q = q) (apart : r ≠ q) (out : q ∉ ps) :
    ∃ g'', collapseNodes r q g' = some g'' ∧ Partly N g r (ps ++ [q]) g'' ∧
      g''.measure N < g.measure N := by
  have itselfR : g'.nodeFactory.getMergeTarget r = r := by
    rw [part.rep, rootR]
    simp [into]
  have itselfQ : g'.nodeFactory.getMergeTarget q = q := by
    rw [part.rep, rootQ]
    simp [into, out]
  obtain ⟨g'', run, wf', collapsed⟩ := collapseNodes_spec part.wf hr hq itselfR itselfQ apart
  have less : g''.measure N < g.measure N :=
    (collapsed_measure collapsed hq itselfR itselfQ apart).trans_le (partly_measure part)
  refine ⟨g'', run, ?_, less⟩
  constructor
  case wf => exact wf'
  case rep =>
    intro n
    rw [collapsed.rep, part.rep, ← into_append]
    rfl
  case view => rw [collapsed_view collapsed apart, part.view, Config.map_map, into_append]
  case edges =>
    intro k n other out
    have notQ : n ≠ q := fun same => out (by simp [same])
    rw [← part.edges k n other fun h => out (by simp [h])]
    apply SparseBitVector.eq_of_mem
    intro e
    rw [collapsed.edges]
    simp [other, notQ]
  case edges_root =>
    intro k e edge
    rcases ((collapsed.edges k r e).mp edge).2 with old | ⟨_, moved⟩
    · obtain ⟨m, member, before⟩ := part.edges_root k e old
      exact ⟨m, by rw [← List.cons_append]; exact List.mem_append_left _ member, before⟩
    · rw [part.edges k q (Ne.symm apart) out] at moved
      exact ⟨q, by simp, moved⟩
  case used => exact .inr less

theorem partly_pts {g' : Graphs} {r n : NodeIndex} {ps : List NodeIndex}
    (part : Partly N g r ps g') (other : n ≠ r) (out : n ∉ ps) : g'.pts n = g.pts n := by
  apply SparseBitVector.eq_of_mem
  intro o
  rw [← mem_view_pts, part.view, ← mem_view_pts]
  constructor
  · rintro ⟨m, here, known⟩
    unfold into at here
    split at here
    · exact absurd here.symm other
    · exact here ▸ known
  · intro known
    exact ⟨n, by simp [into, out], known⟩

end Graphs

end ProgramSlicer.Andersen
