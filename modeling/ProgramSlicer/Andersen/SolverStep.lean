import ProgramSlicer.Andersen.HybridCollapse

/-!
One turn of the inner loop: the node that was taken is discharged, and every
node that this has changed waits on the next list.
-/
namespace ProgramSlicer.Andersen
open InclusionConstraints AndersNodeFactory

namespace Solver
variable {S : System NodeIndex} {N : Nat} {s : Solver}

/-! ### Propagation along the copy edges -/

theorem checkEdge_graphs (node tgtNode : NodeIndex) (s : Solver) :
    (s.checkEdge node tgtNode).toGraphs = s.toGraphs ∧
      (s.checkEdge node tgtNode).nextWorkList = s.nextWorkList := by
  unfold checkEdge
  split <;> exact ⟨rfl, rfl⟩

theorem propagateEdge_graphs (lcd : Bool) {node dst : NodeIndex} (other : node ≠ s.rep dst) :
    (s.propagateEdge lcd node dst).toGraphs = s.unionWith (s.rep dst) (s.pts node) ∧
    (s.propagateEdge lcd node dst).nextWorkList =
      if (s.pts (s.rep dst)).unionChanges (s.pts node) then s.nextWorkList.enqueue (s.rep dst)
      else s.nextWorkList := by
  unfold propagateEdge
  simp only [if_neg other]
  split
  · exact ⟨rfl, rfl⟩
  · cases lcd with
    | false => exact ⟨rfl, rfl⟩
    | true => exact checkEdge_graphs _ _ _

theorem propagateEdge_candidates (lcd : Bool) {node dst n : NodeIndex}
    (h : n ∈ (s.propagateEdge lcd node dst).cycleCandidates) :
    n = s.rep dst ∨ n ∈ s.cycleCandidates := by
  have check : ∀ t : Solver, n ∈ (t.checkEdge node (s.rep dst)).cycleCandidates →
      n = s.rep dst ∨ n ∈ t.cycleCandidates := by
    intro t h
    unfold checkEdge at h
    split at h
    · dsimp only at h
      split at h
      · exact .inr h
      · rw [List.mem_append, List.mem_singleton] at h
        exact h.symm
    · exact .inr h
  unfold propagateEdge at h
  dsimp only at h
  split at h
  · exact .inr h
  · split at h
    · exact .inr h
    · split at h
      · exact check (s.withGraphs (s.unionWith (s.rep dst) (s.pts node))) h
      · exact .inr h

/-- The targets of `node` have been added to those of `tgt`, which waits if it got a new one. -/
structure Propagated (s t : Solver) (node tgt : NodeIndex) : Prop where
  factory : t.nodeFactory = s.nodeFactory
  graph : t.constraintGraph = s.constraintGraph
  entry : ∀ n, (t.ptsGraph n).isSome = true → n = tgt ∨ (s.ptsGraph n).isSome = true
  pts : ∀ n o, o ∈ t.pts n ↔ o ∈ s.pts n ∨ (n = tgt ∧ o ∈ s.pts node)
  candidates : ∀ n ∈ t.cycleCandidates, n = tgt ∨ n ∈ s.cycleCandidates
  kept : ∀ n ∈ s.nextWorkList, n ∈ t.nextWorkList
  queued : (∃ o ∈ s.pts node, o ∉ s.pts tgt ∧ tgt ∈ t.nextWorkList) ∨
    ((∀ o ∈ s.pts node, o ∈ s.pts tgt) ∧ t.nextWorkList = s.nextWorkList)

theorem propagateEdge_propagated (lcd : Bool) {node dst : NodeIndex} (other : node ≠ s.rep dst) :
    Propagated s (s.propagateEdge lcd node dst) node (s.rep dst) := by
  obtain ⟨graphs, list⟩ := propagateEdge_graphs lcd other
  have candidates := fun n (h : n ∈ (s.propagateEdge lcd node dst).cycleCandidates) =>
    propagateEdge_candidates lcd h
  generalize s.propagateEdge lcd node dst = t at graphs list candidates ⊢
  constructor
  case factory => rw [graphs]; rfl
  case graph => rw [graphs]; rfl
  case entry =>
    intro n entry
    rw [graphs] at entry
    by_cases here : n = s.rep dst
    · exact .inl here
    · exact .inr (by simpa [Graphs.unionWith, here] using entry)
  case pts =>
    intro n o
    show o ∈ t.toGraphs.pts n ↔ _
    rw [graphs, Graphs.mem_pts_unionWith]
  case candidates => exact candidates
  case kept =>
    intro n h
    rw [list]
    split
    · exact mem_enqueue.mpr (.inr h)
    · exact h
  case queued =>
    by_cases changed : (s.pts (s.rep dst)).unionChanges (s.pts node) = true
    · left
      obtain ⟨o, known, new⟩ := SparseBitVector.unionChanges_iff.mp changed
      refine ⟨o, known, new, ?_⟩
      rw [list, if_pos changed]
      exact mem_enqueue.mpr (.inl rfl)
    · right
      refine ⟨?_, by rw [list, if_neg changed]⟩
      intro o known
      by_contra new
      exact changed (SparseBitVector.unionChanges_iff.mpr ⟨o, known, new⟩)

namespace Propagated
variable {t : Solver} {node tgt : NodeIndex} (done : Propagated s t node tgt)
include done

theorem view : t.view.rep = s.view.rep ∧ t.view.copyTo = s.view.copyTo ∧
    t.view.loadTo = s.view.loadTo ∧ t.view.storeTo = s.view.storeTo := by
  simp only [Graphs.view, done.factory, done.graph, and_self]

theorem wellFormed (wf : s.toGraphs.WellFormed N) (root : s.rep tgt = tgt) (bound : tgt < N) :
    t.toGraphs.WellFormed N := by
  constructor
  case factory => rw [done.factory]; exact wf.factory
  case size => rw [done.factory]; exact wf.size
  case indexed => rw [done.factory, done.graph]; exact wf.indexed
  case node_valid => rw [done.graph]; exact wf.node_valid
  case edge_valid => rw [done.graph]; exact wf.edge_valid
  case entry_root =>
    intro n entry
    rw [done.factory]
    rcases done.entry n entry with here | old
    · rw [here]
      exact ⟨root, bound⟩
    · exact wf.entry_root n old
  case pts_valid =>
    intro n o h
    rcases (done.pts n o).mp h with old | ⟨_, known⟩
    · exact wf.pts_valid n o old
    · exact wf.pts_valid node o known

theorem sound (sound : s.view.Sound S) (less : solution S node ⊆ solution S tgt) :
    t.view.Sound S := by
  obtain ⟨rep, copyTo, loadTo, storeTo⟩ := done.view
  constructor
  case rep => rw [rep]; exact sound.rep
  case pts =>
    intro r o h
    rcases (done.pts r o).mp h with old | ⟨here, known⟩
    · exact sound.pts r old
    · rw [here]
      exact less (sound.pts node known)
  case copyTo => rw [copyTo]; exact sound.copyTo
  case loadTo => rw [loadTo]; exact sound.loadTo
  case storeTo => rw [storeTo]; exact sound.storeTo

theorem progress (wf : s.toGraphs.WellFormed N) (bound : tgt < N) : Progress N s t := by
  obtain ⟨rep, copyTo, loadTo, storeTo⟩ := done.view
  have holds : s.toGraphs.Holds t.toGraphs := by
    constructor
    · exact fun n o h => (done.pts n o).mpr (.inl h)
    · intro n e h here
      rw [done.graph, done.factory]
      exact ⟨h, here⟩
  refine ⟨done.factory, ?_, done.kept, holds, ?_⟩
  · constructor
    case rep => exact rep
    case loadTo => exact loadTo
    case storeTo => exact storeTo
    case pts => exact fun x o h => (done.pts x o).mpr (.inl h)
    case copyTo => rw [copyTo]; exact fun x d h => h
    case pts_same =>
      intro x same o h
      rcases (done.pts x o).mp h with old | ⟨here, known⟩
      · exact old
      · rcases done.queued with ⟨_, _, _, waits⟩ | ⟨nothing, _⟩
        · exact absurd (here ▸ waits) same
        · exact here ▸ nothing o known
    case copyTo_same => rw [copyTo]; exact fun x _ d h => h
  · rcases done.queued with ⟨o, known, new, _⟩ | ⟨_, list⟩
    · right
      exact Graphs.missing_lt_pts holds bound (wf.pts_valid node o known)
        ((done.pts _ o).mpr (.inr ⟨rfl, known⟩)) new
    · exact .inl list

end Propagated

theorem propagateEdge_step (lcd : Bool) {node dst : NodeIndex} (valid : Valid S N s)
    (inside : dst < N) (sound : solution S node ⊆ solution S (s.rep dst)) :
    Step S N s (s.propagateEdge lcd node dst) ∧
    (s.propagateEdge lcd node dst).constraintGraph = s.constraintGraph ∧
    (s.propagateEdge lcd node dst).pts node = s.pts node ∧
    ∀ o ∈ s.pts node, o ∈ (s.propagateEdge lcd node dst).pts (s.rep dst) := by
  by_cases other : node = s.rep dst
  · have stays : s.propagateEdge lcd node dst = s := by
      unfold propagateEdge
      exact if_pos other
    rw [stays]
    exact ⟨⟨valid, progress_refl N s⟩, rfl, rfl, fun o h => other ▸ h⟩
  · have done := propagateEdge_propagated lcd other
    have root : s.rep (s.rep dst) = s.rep dst := target_idem valid.wf.factory dst
    have bound : s.rep dst < N := by
      rw [← valid.wf.size] at inside ⊢
      exact target_inside valid.wf.factory inside
    refine ⟨⟨⟨?_, ?_, ?_⟩, ?_⟩, done.graph, ?_, ?_⟩
    · exact done.wellFormed valid.wf root bound
    · exact done.sound valid.sound sound
    · intro n h
      rcases done.candidates n h with new | old
      · exact new ▸ bound
      · exact valid.candidates n old
    · exact done.progress valid.wf bound
    · apply SparseBitVector.eq_of_mem
      intro o
      rw [done.pts]
      exact ⟨fun h => h.elim id fun both => absurd both.1 other, .inl⟩
    · exact fun o h => (done.pts _ o).mpr (.inr ⟨rfl, h⟩)

theorem propagate_spec (lcd : Bool) (node : NodeIndex) (valid : Valid S N s) :
    Step S N s (s.propagate lcd node) ∧
    (s.propagate lcd node).view.pts node = s.view.pts node ∧
    (s.propagate lcd node).view.copyTo node = s.view.copyTo node ∧
    ∀ d ∈ s.view.copyTo node, s.view.pts node ⊆ (s.propagate lcd node).view.pts d := by
  let dsts := (s.constraintGraph.edges .copy node).bits
  let P : Solver → Prop := fun t =>
    t.nodeFactory = s.nodeFactory ∧ t.constraintGraph = s.constraintGraph ∧
      t.pts node = s.pts node
  let E : NodeIndex → Solver → Prop := fun x t => s.view.pts node ⊆ t.view.pts (s.rep x)
  have turn : ∀ x ∈ dsts, ∀ t, Valid S N t → P t →
      Step S N t (t.propagateEdge lcd node x) ∧ P (t.propagateEdge lcd node x) ∧
        E x (t.propagateEdge lcd node x) := by
    rintro x hx t validT ⟨factory, graph, pts⟩
    have reps : t.rep x = s.rep x := by unfold rep; rw [factory]
    have sound : solution S node ⊆ solution S (t.rep x) := by
      rw [reps]
      exact valid.sound.copyTo node _ ⟨x, hx, rfl⟩
    obtain ⟨step, sameGraph, samePts, there⟩ :=
      propagateEdge_step lcd validT (valid.wf.edge_valid .copy node x hx) sound
    refine ⟨step, ⟨step.2.factory.trans factory, sameGraph.trans graph, samePts.trans pts⟩, ?_⟩
    intro o known
    have known' : o ∈ t.pts node := by
      rw [pts]
      exact known
    have arrived := there o known'
    rwa [reps] at arrived
  have lasting : ∀ x t t', E x t → Step S N t t' → E x t' :=
    fun x t t' here step => here.trans (step.2.grows.pts _)
  obtain ⟨step, ⟨factory, graph, pts⟩, each⟩ := foldl_spec turn lasting valid ⟨rfl, rfl, rfl⟩
  have update := updateEdges_step .copy node
    (dsts.filter fun dst => decide
      ((dsts.foldl (propagateEdge lcd node) s).rep dst ≠ node ∧
        (dsts.foldl (propagateEdge lcd node) s).rep dst ≠ dst))
    step.1 (fun dst h => (by simpa using (List.mem_filter.mp h).2 : _ ∧ _).2)
  have whole : Step S N s (s.propagate lcd node) := step_trans step update
  have grown := update.2.grows
  refine ⟨whole, ?_, ?_, ?_⟩
  · ext o
    show o ∈ (dsts.foldl (propagateEdge lcd node) s).pts node ↔ _
    rw [pts]
    rfl
  · have updated : (s.propagate lcd node).view = (dsts.foldl (propagateEdge lcd node) s).view :=
      updateEdges_view step.1.wf.factory
    rw [updated]
    simp only [Graphs.view, factory, graph]
  · rintro d ⟨e, edge, rfl⟩
    exact (each e edge).trans (grown.pts _)

/-! ### One node, and the list of nodes -/

theorem discharged_without_edges {g : Graphs} {n : NodeIndex}
    (none : ∀ kind, ∀ e, e ∉ g.constraintGraph.edges kind n) : g.view.Discharged n where
  copy := by
    rintro d ⟨e, edge, _⟩
    exact absurd edge (none .copy e)
  load := by
    rintro d ⟨e, edge, _⟩
    exact absurd edge (none .load e)
  store := by
    rintro d ⟨e, edge, _⟩
    exact absurd edge (none .store e)

theorem discharged_without_targets {g : Graphs} {n : NodeIndex} (none : ∀ o, o ∉ g.pts n) :
    g.view.Discharged n where
  copy _ _ o known := absurd known (none o)
  load _ _ o known := absurd known (none o)
  store _ _ o known := absurd known (none o)

theorem addEdges_spec (node : NodeIndex) (valid : Valid S N s) :
    Step S N s (s.addEdges node) ∧ (s.addEdges node).pts node = s.pts node ∧
    ∀ v ∈ s.pts node,
      (∀ d ∈ s.view.loadTo node,
        d ∈ (s.addEdges node).constraintGraph.edges .copy (s.rep v)) ∧
      (∀ d ∈ s.view.storeTo node,
        s.rep v ∈ (s.addEdges node).constraintGraph.edges .copy d) := by
  let P : Solver → Prop := fun t =>
    t.ptsGraph = s.ptsGraph ∧ t.nodeFactory = s.nodeFactory ∧
      t.view.loadTo = s.view.loadTo ∧ t.view.storeTo = s.view.storeTo
  let E : NodeIndex → Solver → Prop := fun v t => t.nodeFactory = s.nodeFactory ∧
    (∀ d ∈ s.view.loadTo node, d ∈ t.constraintGraph.edges .copy (s.rep v)) ∧
    (∀ d ∈ s.view.storeTo node, s.rep v ∈ t.constraintGraph.edges .copy d)
  have idem := target_idem valid.wf.factory
  have turn : ∀ v ∈ (s.pts node).bits, ∀ t, Valid S N t → P t →
      Step S N t ((t.addLoads node v).addStores node v) ∧
      P ((t.addLoads node v).addStores node v) ∧ E v ((t.addLoads node v).addStores node v) := by
    rintro v hv t validT ⟨pts, factory, loads, stores⟩
    have here : v ∈ t.pts node := by
      unfold Graphs.pts
      rw [pts]
      exact hv
    have reps : ∀ n, t.rep n = s.rep n := fun n => by unfold rep; rw [factory]
    obtain ⟨load, loadPts, loaded⟩ := addLoads_spec validT here
    have here' : v ∈ (t.addLoads node v).pts node := by
      unfold Graphs.pts
      rw [loadPts]
      exact here
    obtain ⟨store, storePts, stored⟩ := addStores_spec load.1 here'
    have factory' := store.2.factory.trans (load.2.factory.trans factory)
    refine ⟨step_trans load store, ⟨storePts.trans (loadPts.trans pts), factory',
      store.2.grows.loadTo.trans (load.2.grows.loadTo.trans loads),
      store.2.grows.storeTo.trans (load.2.grows.storeTo.trans stores)⟩, factory', ?_, ?_⟩
    · intro d hd
      have root : (t.addLoads node v).rep d = d := by
        obtain ⟨e, _, same⟩ := hd
        rw [step_rep load, reps, ← same]
        exact idem e
      rw [← loads] at hd
      rw [← reps]
      exact step_edge store root (loaded d hd)
    · intro d hd
      rw [← stores, ← load.2.grows.storeTo] at hd
      have there := stored d hd
      rwa [step_rep load v, reps] at there
  have lasting : ∀ v t t', E v t → Step S N t t' → E v t' := by
    rintro v t t' ⟨factory, loads, stores⟩ step
    have reps : ∀ n, t.rep n = s.rep n := fun n => by unfold rep; rw [factory]
    refine ⟨step.2.factory.trans factory, ?_, ?_⟩
    · intro d hd
      apply step_edge step _ (loads d hd)
      obtain ⟨e, _, same⟩ := hd
      rw [reps, ← same]
      exact idem e
    · intro d hd
      exact step_edge step ((reps _).trans (idem v)) (stores d hd)
  obtain ⟨step, ⟨pts, _⟩, each⟩ := foldl_spec turn lasting valid ⟨rfl, rfl, rfl, rfl⟩
  refine ⟨step, ?_, fun v hv => (each v hv).2⟩
  show ((s.addEdges node).ptsGraph node).getD ∅ = _
  unfold addEdges
  rw [pts]
  rfl

def SelfQueued (x : NodeIndex) (s : Solver) : Prop :=
  x ∈ s.constraintGraph.edges .copy x → x ∈ s.nextWorkList

theorem addCopyEdge_selfQueued {x src dst : NodeIndex} (queued : SelfQueued x s) :
    SelfQueued x (s.addCopyEdge src dst) := by
  intro edge
  rw [addCopyEdge_eq] at edge ⊢
  have kept : ∀ n ∈ s.nextWorkList, n ∈ (if dst ∈ s.constraintGraph.edges .copy src then
      s.nextWorkList else s.nextWorkList.enqueue src) := by
    intro n h
    split
    · exact h
    · exact mem_enqueue.mpr (.inr h)
  rcases ConstraintGraph.mem_insertEdge.mp edge with old | ⟨_, rfl, rfl⟩
  · exact kept x (queued old)
  · dsimp only
    split
    · rename_i old
      exact queued old
    · exact mem_enqueue.mpr (.inl rfl)

theorem updateEdges_selfQueued {x node : NodeIndex} {kind : ConstraintKind}
    {stale : List NodeIndex} (other : kind ≠ .copy) (queued : SelfQueued x s) :
    SelfQueued x (s.updateEdges kind node stale) := by
  have same : ∀ g : ConstraintGraph, x ∈ (stale.foldl (fun g dst =>
      g.replaceEdge kind node dst (s.rep dst)) g).edges .copy x → x ∈ g.edges .copy x := by
    induction stale with
    | nil => exact fun g h => h
    | cons dst rest ih =>
      intro g h
      have before := ih _ h
      rw [ConstraintGraph.mem_replaceEdge] at before
      rwa [if_neg fun here => other here.1.symm] at before
  exact fun edge => queued (same _ edge)

theorem addEdges_selfQueued {x node : NodeIndex} (queued : SelfQueued x s) :
    SelfQueued x (s.addEdges node) := by
  unfold addEdges
  apply FoldRules.foldl_keeps _ queued
  intro v _ t queued
  apply updateEdges_selfQueued (by simp)
  apply FoldRules.foldl_keeps fun dst _ u h => addCopyEdge_selfQueued h
  apply updateEdges_selfQueued (by simp)
  exact FoldRules.foldl_keeps (fun dst _ u h => addCopyEdge_selfQueued h) queued

theorem work_spec (lcd : Bool) (node : NodeIndex) (valid : Valid S N s) :
    Step S N s ((s.addEdges node).propagate lcd node) ∧
    ((s.addEdges node).propagate lcd node).view.Discharged node ∧
    ∀ x ∈ (s.addEdges node).nextWorkList,
      x ∈ ((s.addEdges node).propagate lcd node).nextWorkList := by
  obtain ⟨first, pts, edges⟩ := addEdges_spec node valid
  have idem := target_idem valid.wf.factory
  have loaded : ∀ v ∈ s.pts node, ∀ d ∈ s.view.loadTo node,
      d ∈ (s.addEdges node).view.copyTo (s.rep v) := by
    intro v hv d hd
    obtain ⟨e, _, same⟩ := hd
    have root : s.rep d = d := by
      rw [← same]
      exact idem e
    exact ⟨d, (edges v hv).1 d ⟨e, ‹_›, same⟩, (step_rep first d).trans root⟩
  have stored : ∀ v ∈ s.pts node, ∀ d ∈ s.view.storeTo node,
      s.rep v ∈ (s.addEdges node).view.copyTo d :=
    fun v hv d hd => ⟨_, (edges v hv).2 d hd, (step_rep first _).trans (idem v)⟩
  clear edges
  generalize s.addEdges node = t at first pts loaded stored ⊢
  obtain ⟨second, samePts, sameEdges, arrived⟩ := propagate_spec lcd node first.1
  have whole := step_trans first second
  have known : ∀ o, o ∈ (t.propagate lcd node).view.pts node → o ∈ s.pts node := by
    intro o h
    rw [samePts] at h
    rw [← pts]
    exact h
  refine ⟨whole, ⟨?_, ?_, ?_⟩, second.2.kept⟩
  · intro d hd
    rw [samePts]
    rw [sameEdges] at hd
    exact arrived d hd
  · intro d hd o ho
    rw [whole.2.grows.loadTo] at hd
    rw [whole.2.grows.rep]
    exact second.2.grows.copyTo _ (loaded o (known o ho) d hd)
  · intro d hd o ho
    rw [whole.2.grows.storeTo] at hd
    rw [whole.2.grows.rep]
    exact second.2.grows.copyTo _ (stored o (known o ho) d hd)

/-! ### One turn of the inner loop -/

/-- A turn puts nodes on the next list, and if it does, it uses something up. -/
structure Turn (hcd : Bool) (N : Nat) (s s' : Solver) : Prop where
  kept : ∀ x ∈ s.nextWorkList, x ∈ s'.nextWorkList
  measure : s'.measure N ≤ s.measure N
  used : s'.nextWorkList = s.nextWorkList ∨ s'.measure N < s.measure N
  coarser : ∀ a b, s.rep a = s.rep b → s'.rep a = s'.rep b
  covers : ∀ T : System NodeIndex, s.view.Covers T → s'.view.Covers T
  factory : hcd = false → s'.nodeFactory = s.nodeFactory

theorem turn_trans {hcd : Bool} {a b c : Solver} (ab : Turn hcd N a b) (bc : Turn hcd N b c) :
    Turn hcd N a c where
  kept x h := bc.kept x (ab.kept x h)
  measure := bc.measure.trans ab.measure
  used := by
    rcases ab.used with sameAB | lessAB
    · rcases bc.used with sameBC | lessBC
      · exact .inl (sameBC.trans sameAB)
      · exact .inr (lessBC.trans_le ab.measure)
    · exact .inr (bc.measure.trans_lt lessAB)
  coarser x y h := bc.coarser x y (ab.coarser x y h)
  covers T h := bc.covers T (ab.covers T h)
  factory off := (bc.factory off).trans (ab.factory off)

theorem step_turn {s' : Solver} (hcd : Bool) (step : Step S N s s') : Turn hcd N s s' := by
  have roots : s'.roots N = s.roots N := by
    unfold Graphs.roots
    rw [step.2.factory]
  refine ⟨step.2.kept, ?_, ?_, ?_, fun _ => Config.grows_covers step.2.grows,
    fun _ => step.2.factory⟩
  · unfold Graphs.measure
    rw [roots]
    exact Nat.add_le_add_left (Graphs.missing_le step.2.holds) _
  · rcases step.2.moved with same | less
    · exact .inl same
    · right
      unfold Graphs.measure
      rw [roots]
      exact Nat.add_lt_add_left less _
  · intro a b h
    rw [step_rep step, step_rep step, h]

theorem after_turn {node t : NodeIndex} {gone : Bool} {s' : Solver} {ps : List NodeIndex}
    (after : AfterCollapse S N s node t gone s' ps) : Turn true N s s' := by
  have coarser : ∀ a b, s.rep a = s.rep b → s'.rep a = s'.rep b := by
    intro a b h
    show s'.nodeFactory.getMergeTarget a = s'.nodeFactory.getMergeTarget b
    rw [after.part.rep, after.part.rep]
    exact congrArg _ h
  have covers : ∀ T : System NodeIndex, s.view.Covers T → s'.view.Covers T := by
    intro T h
    rw [after.part.view]
    exact Config.map_covers _ h
  cases gone with
  | false =>
    have list := (after.stays rfl).2
    exact ⟨by simp [list], Graphs.partly_measure after.part, .inl list, coarser, covers, by simp⟩
  | true =>
    obtain ⟨_, list, less⟩ := after.merged rfl
    refine ⟨?_, less.le, .inr less, coarser, covers, by simp⟩
    intro x h
    rw [list]
    exact mem_enqueue.mpr (.inr h)

/-- The collapse for `node` leaves nothing undone: nothing is merged, or `node` is the target
    or is itself collapsed, or the target gets its first copy edge to itself, or one of the
    nodes waits, or together they have nothing to pass on. -/
def CollapseSafe (collapseMap : DenseMap NodeIndex) (waiting : Set NodeIndex) (s : Solver)
    (node : NodeIndex) : Prop :=
  ∀ t, collapseMap.find node = some t →
    let ctRep := s.rep t
    let members := (s.pts node).bits.map s.rep
    (∀ m ∈ members, m = ctRep) ∨ ctRep = node ∨ node ∈ members ∨
      (∀ m ∈ ctRep :: members, ctRep ∉ s.constraintGraph.edges .copy m) ∨
      (∃ m ∈ ctRep :: members, s.view.Waits waiting m) ∨
      (s.view.map (into ctRep members)).Discharged ctRep

theorem step_settled {s' : Solver} {node : NodeIndex} {waiting waiting' : Set NodeIndex}
    (step : Step S N s s') (done : s'.view.Discharged node) (root : s.rep node = node)
    (settled : s.view.Settled (insert node waiting)) (kept : waiting ⊆ waiting')
    (next : ∀ x ∈ s'.nextWorkList, x ∈ waiting') : s'.view.Settled waiting' := by
  have grows : s.view.Grows s'.view waiting' :=
    Config.grows_trans step.2.grows (Config.grows_refl _ _) next
  apply Config.grows_settled grows settled kept
  · intro x other
    apply Graphs.gone_discharged step.1.wf
    rwa [step.2.factory]
  · rw [show s.view.rep node = node from root]
    exact done

section Collapse
variable {T : System NodeIndex} {F : AndersNodeFactory} {collapseMap : DenseMap NodeIndex}
  {node t : NodeIndex} {s₁ : Solver} {ps : List NodeIndex}

theorem target_queued (loaded : Loaded T F collapseMap) (covers : s.view.Covers T)
    (coarse : ∀ a b, F.getMergeTarget a = F.getMergeTarget b → s.rep a = s.rep b)
    (valid : Valid S N s) (root : s.rep node = node) (found : collapseMap.find node = some t)
    (after : AfterCollapse S N s node t false s₁ ps) (other : s.rep t ≠ node)
    (some : ¬ ∀ m ∈ (s.pts node).bits.map s.rep, m = s.rep t)
    (first : ∀ m ∈ s.rep t :: (s.pts node).bits.map s.rep,
      s.rep t ∉ s.constraintGraph.edges .copy m) :
    s.rep t ∈ (s₁.addEdges node).nextWorkList := by
  have valid₁ := afterCollapse_valid valid after
  obtain ⟨out, _⟩ := after.stays rfl
  obtain ⟨_, same⟩ := after.complete rfl other
  have moved : ∀ n, s₁.rep n = into (s.rep t) ps (s.rep n) := after.part.rep
  have queued : SelfQueued (s.rep t) s₁ := by
    intro edge
    obtain ⟨m, member, before⟩ := after.part.edges_root .copy _ edge
    have listed : m ∈ s.rep t :: (s.pts node).bits.map s.rep := by
      rcases List.mem_cons.mp member with here | inside
      · simp [here]
      · have both := congrFun same m
        simp only [into, if_pos inside] at both
        split at both
        · exact List.mem_cons_of_mem _ ‹_›
        · simp [both]
    exact absurd before (first m listed)
  have pts : s₁.pts node = s.pts node := Graphs.partly_pts after.part (Ne.symm other) out
  have itself : s₁.rep node = node := by
    rw [moved, root, into, if_neg out]
  have merged : s₁.rep t = s.rep t := by
    rw [moved]
    unfold into
    split <;> rfl
  obtain ⟨m, member, _⟩ := not_forall₂.mp some
  obtain ⟨v, hv, _⟩ := List.mem_map.mp member
  have pointee : s₁.rep v = s.rep t := by
    rw [moved, same]
    exact if_pos (List.mem_map_of_mem hv)
  obtain ⟨d, q, load, sameQ, sameD⟩ := loaded node t found
  have edge := ((after_turn after).covers T covers).load d q load
  have coarse₁ : ∀ a b, F.getMergeTarget a = F.getMergeTarget b → s₁.rep a = s₁.rep b :=
    fun a b h => (after_turn after).coarser a b (coarse a b h)
  rw [show s₁.view.rep q = node from (coarse₁ q node sameQ).trans itself,
    show s₁.view.rep d = s.rep t from (coarse₁ d t sameD).trans merged] at edge
  have inserted := ((addEdges_spec node valid₁).2.2 v (pts ▸ hv)).1 _ edge
  rw [pointee] at inserted
  exact addEdges_selfQueued queued inserted

/-- A safe collapse leaves every node discharged or waiting, the target perhaps only once
    the loads of `node` have been looked at. -/
theorem collapse_settled (loaded : Loaded T F collapseMap) (covers : s.view.Covers T)
    (coarse : ∀ a b, F.getMergeTarget a = F.getMergeTarget b → s.rep a = s.rep b)
    (valid : Valid S N s) (root : s.rep node = node) (found : collapseMap.find node = some t)
    (after : AfterCollapse S N s node t false s₁ ps) {waiting : Set NodeIndex}
    (settled : s.view.Settled (insert node waiting))
    (safe : CollapseSafe collapseMap waiting s node) :
    s₁.view.Settled (insert node waiting) ∨
      (s₁.view.Settled (insert node (insert (s.rep t) waiting)) ∧
        s.rep t ∈ (s₁.addEdges node).nextWorkList) := by
  have again := Config.map_settled_insert (M := ps) settled
    (target_idem valid.wf.factory t)
  by_cases target : s.rep t = node
  · left
    rw [after.part.view]
    apply Config.settled_mono again
    intro x hx
    rcases Set.mem_insert_iff.mp hx with same | member
    · rw [same]
      exact Set.mem_insert_iff.mpr (.inl target)
    · exact member
  · obtain ⟨out, same⟩ := after.complete rfl target
    by_cases nothing : ∀ m ∈ (s.pts node).bits.map s.rep, m = s.rep t
    · left
      have idle : into (s.rep t) ((s.pts node).bits.map s.rep) = fun n => n := by
        funext x
        unfold into
        split
        · exact (nothing x ‹_›).symm
        · rfl
      rw [after.part.view, same, idle, Config.map_id]
      exact settled
    · rcases safe t found with none | here | member | first | waits | done
      · exact absurd none nothing
      · exact absurd here target
      · exact absurd member out
      · right
        refine ⟨?_, target_queued loaded covers coarse valid root found after target nothing first⟩
        rw [after.part.view, Set.insert_comm]
        exact again
      · left
        obtain ⟨m, member, q, hq, waits⟩ := waits
        rw [after.part.view, same]
        apply Config.map_settled_done settled
        left
        refine Config.map_waits ⟨q, Set.mem_insert_of_mem _ hq, waits⟩ ?_
        unfold into
        split
        · rfl
        · exact (List.mem_cons.mp member).resolve_right ‹_›
      · left
        rw [after.part.view, same]
        exact Config.map_settled_done settled (.inr done)

end Collapse

/-- One turn. It always succeeds; if the collapse in it is safe, nothing is left undone. -/
theorem processNode_spec {hcd : Bool} (lcd : Bool) {T : System NodeIndex} {F : AndersNodeFactory}
    {collapseMap : DenseMap NodeIndex} (targets : hcd = true → Targets S N collapseMap)
    (coarse : ∀ a b, F.getMergeTarget a = F.getMergeTarget b → s.rep a = s.rep b)
    (valid : Valid S N s) (covers : s.view.Covers T) (q : NodeIndex) :
    ∃ s', processNode hcd lcd collapseMap s q = some s' ∧ Valid S N s' ∧ Turn hcd N s s' ∧
      ∀ rest : AndersWorkList,
        s.view.Settled (insert q {x | x ∈ rest ∨ x ∈ s.nextWorkList}) →
        (hcd = true → Loaded T F collapseMap ∧
          CollapseSafe collapseMap {x | x ∈ rest ∨ x ∈ s.nextWorkList} s (s.rep q)) →
        s'.view.Settled {x | x ∈ rest ∨ x ∈ s'.nextWorkList} := by
  have idem : ∀ n, s.rep (s.rep n) = s.rep n := target_idem valid.wf.factory
  -- What is left to show when nothing has been collapsed.
  have plain : ∀ s', Step S N s s' → s'.view.Discharged (s.rep q) → ∀ rest : AndersWorkList,
      s.view.Settled (insert q {x | x ∈ rest ∨ x ∈ s.nextWorkList}) →
      s'.view.Settled {x | x ∈ rest ∨ x ∈ s'.nextWorkList} := by
    intro s' step done rest settled
    apply step_settled step done (idem q) (Config.settled_rep (idem q) settled)
    · exact fun x h => h.imp id (step.2.kept x)
    · exact fun x h => .inr h
  unfold processNode
  by_cases skipped : (s.constraintGraph.graph (s.rep q)).isNone ∨ (s.ptsGraph (s.rep q)).isNone
  · refine ⟨s, if_pos skipped, valid, step_turn hcd ⟨valid, progress_refl N s⟩, ?_⟩
    intro rest settled _
    apply plain s ⟨valid, progress_refl N s⟩ _ rest settled
    rcases skipped with noNode | noEntry
    · apply discharged_without_edges
      intro kind e
      unfold ConstraintGraph.edges
      rw [Option.isNone_iff_eq_none.mp noNode]
      exact SparseBitVector.not_mem_empty e
    · apply discharged_without_targets
      intro o
      unfold Graphs.pts
      rw [Option.isNone_iff_eq_none.mp noEntry]
      exact SparseBitVector.not_mem_empty o
  · have inside : s.rep q < N := by
      apply valid.wf.node_valid
      have present := (not_or.mp skipped).1
      rwa [Option.isNone_iff_eq_none, ← ne_eq, Option.ne_none_iff_isSome] at present
    simp only [if_neg skipped]
    by_cases collapse : hcd = true ∧ ∃ t, collapseMap.find (s.rep q) = some t
    · obtain ⟨enabled, t, found⟩ := collapse
      obtain ⟨gone, s₁, ps, run, after⟩ :=
        collapseStep_spec (targets enabled) valid (idem q) inside found
      have valid₁ := afterCollapse_valid valid after
      rw [enabled]
      simp only [if_true, Option.bind_eq_bind]
      cases gone with
      | true =>
        refine ⟨s₁, by rw [run]; rfl, valid₁, after_turn after, ?_⟩
        intro rest settled _
        obtain ⟨member, list, _⟩ := after.merged rfl
        have again := Config.map_settled_insert (M := ps) (r := s.rep t)
          (Config.settled_rep (idem q) settled) (idem t)
        rw [← after.part.view, Set.insert_comm] at again
        have moved : s₁.view.rep (s.rep q) = s.rep t := by
          show s₁.nodeFactory.getMergeTarget (s.rep q) = _
          rw [after.part.rep, show s.nodeFactory.getMergeTarget (s.rep q) = s.rep q from idem q]
          exact if_pos member
        have itself : s₁.view.rep (s.rep t) = s.rep t := by
          show s₁.nodeFactory.getMergeTarget (s.rep t) = _
          rw [after.part.rep, show s.nodeFactory.getMergeTarget (s.rep t) = s.rep t from idem t]
          unfold into
          split <;> rfl
        have dropped := Config.settled_drop
          ⟨s.rep t, Set.mem_insert _ _, itself.trans moved.symm⟩ again
        apply Config.settled_mono dropped
        intro x hx
        show x ∈ rest ∨ x ∈ s₁.nextWorkList
        rw [list, mem_enqueue]
        rcases Set.mem_insert_iff.mp hx with same | before
        · exact .inr (.inl same)
        · exact before.imp id .inr
      | false =>
        obtain ⟨step, done, later⟩ := work_spec lcd (s.rep q) valid₁
        refine ⟨_, by rw [run]; rfl, step.1, turn_trans (after_turn after) (step_turn true step), ?_⟩
        intro rest settled safe
        obtain ⟨out, list⟩ := after.stays rfl
        have root : s₁.rep (s.rep q) = s.rep q := by
          show s₁.nodeFactory.getMergeTarget (s.rep q) = _
          rw [after.part.rep, show s.nodeFactory.getMergeTarget (s.rep q) = s.rep q from idem q]
          exact if_neg out
        have kept : ∀ x, x ∈ rest ∨ x ∈ s.nextWorkList → x ∈ rest ∨
            x ∈ ((s₁.addEdges (s.rep q)).propagate lcd (s.rep q)).nextWorkList :=
          fun x h => h.imp id fun old => step.2.kept x (list ▸ old)
        rcases collapse_settled (safe trivial).1 covers coarse valid (idem q) found after
          (Config.settled_rep (idem q) settled) (safe trivial).2 with same | ⟨again, queued⟩
        · exact step_settled step done root same kept fun x h => .inr h
        · apply step_settled step done root again _ fun x h => .inr h
          intro x hx
          rcases Set.mem_insert_iff.mp hx with new | before
          · exact .inr (new ▸ later _ queued)
          · exact kept x before
    · obtain ⟨step, done, _⟩ := work_spec lcd (s.rep q) valid
      refine ⟨_, ?_, step.1, step_turn hcd step, fun rest settled _ => plain _ step done rest settled⟩
      cases enabled : hcd with
      | false => rfl
      | true =>
        have none : collapseMap.find (s.rep q) = none := by
          rw [Option.eq_none_iff_forall_ne_some]
          exact fun t found => collapse ⟨enabled, t, found⟩
        have idle : collapseStep collapseMap (s.rep q) s = some (false, s) := by
          unfold collapseStep
          rw [none]
        rw [if_pos rfl, idle]
        rfl

/-! ### The states of a run -/

/-- The states between two turns, with what is left of the current list. -/
inductive Reached (order : HashOrder) (hcd lcd : Bool) (collapseMap : DenseMap NodeIndex)
    (currWorkList : AndersWorkList) (s₀ : Solver) : AndersWorkList → Solver → Prop where
  | start {s : Solver} (detected : s₀.detectIfAny order lcd = some s) :
      Reached order hcd lcd collapseMap currWorkList s₀ currWorkList s
  | turn {q : NodeIndex} {rest : AndersWorkList} {s s' : Solver}
      (before : Reached order hcd lcd collapseMap currWorkList s₀ (q :: rest) s)
      (run : processNode hcd lcd collapseMap s q = some s') :
      Reached order hcd lcd collapseMap currWorkList s₀ rest s'
  | pass {s s' : Solver} (before : Reached order hcd lcd collapseMap currWorkList s₀ [] s)
      (detected : { s with nextWorkList := [] }.detectIfAny order lcd = some s') :
      Reached order hcd lcd collapseMap currWorkList s₀ s.nextWorkList s'

theorem processNodes_spec {hcd : Bool} (lcd : Bool) {T : System NodeIndex}
    {F : AndersNodeFactory} {collapseMap : DenseMap NodeIndex}
    (targets : hcd = true → Targets S N collapseMap)
    {R : AndersWorkList → Solver → Prop}
    (turn : ∀ q rest s s', R (q :: rest) s → processNode hcd lcd collapseMap s q = some s' →
      R rest s') (currWorkList : AndersWorkList) :
    ∀ s, Valid S N s → s.view.Covers T →
      (∀ a b, F.getMergeTarget a = F.getMergeTarget b → s.rep a = s.rep b) → R currWorkList s →
      ∃ s', currWorkList.foldlM (processNode hcd lcd collapseMap) s = some s' ∧ Valid S N s' ∧
        Turn hcd N s s' ∧ R [] s' ∧
        (s.view.Settled {x | x ∈ currWorkList ∨ x ∈ s.nextWorkList} →
          (hcd = true → Loaded T F collapseMap ∧ ∀ q rest t, R (q :: rest) t →
            CollapseSafe collapseMap {x | x ∈ rest ∨ x ∈ t.nextWorkList} t (t.rep q)) →
          s'.view.Settled {x | x ∈ s'.nextWorkList}) := by
  induction currWorkList with
  | nil =>
    intro s valid _ _ reached
    refine ⟨s, rfl, valid, step_turn hcd ⟨valid, progress_refl N s⟩, reached, ?_⟩
    intro settled _
    simpa using settled
  | cons q rest ih =>
    intro s valid covers coarse reached
    obtain ⟨t, run, validT, first, settledT⟩ := processNode_spec lcd targets coarse valid covers q
    obtain ⟨s', runs, valid', others, last, settled'⟩ := ih t validT (first.covers T covers)
      (fun a b h => first.coarser a b (coarse a b h)) (turn q rest s t reached run)
    refine ⟨s', ?_, valid', turn_trans first others, last, ?_⟩
    · rw [List.foldlM_cons, run]
      exact runs
    · intro settled safe
      apply settled' _ safe
      apply settledT rest _ fun enabled => ⟨(safe enabled).1, (safe enabled).2 q rest s reached⟩
      apply Config.settled_mono settled
      intro x h
      simp only [Set.mem_ofPred_eq, List.mem_cons] at h
      rw [Set.mem_insert_iff]
      exact or_assoc.mp h

end Solver

end ProgramSlicer.Andersen
