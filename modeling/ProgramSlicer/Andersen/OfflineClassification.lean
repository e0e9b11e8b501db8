import ProgramSlicer.Andersen.ComponentCalls
import ProgramSlicer.Andersen.LeastSolution
import ProgramSlicer.Andersen.OfflineCycles

/-!
The offline cycle detector as its clients see it: whom it merges and which
collapse targets it names, cycle by cycle. It fails only where the REF node of
node 0, whose index is the number of nodes, is on a cycle, and where the table that
the search goes through rehashes under it.
-/
namespace ProgramSlicer.Andersen.OfflineCycleDetector
open Relation AndersNodeFactory CycleDetector SparseBitVectorGraph

def getCollapseTarget (collapseMap : DenseMap NodeIndex) (n : NodeIndex) : NodeIndex :=
  match collapseMap.find n with
  | none => InvalidIndex
  | some target => target

/-- The arguments of `mergeNode` in the second half of `run`, call by call. -/
def mergeCalls (order : HashOrder) (mergeMap : DenseMap NodeIndex) :
    List (NodeIndex × NodeIndex) :=
  (order.arrange mergeMap.keys).filterMap fun n =>
    (mergeMap.find n).map fun repNode => (repNode, n)

section Calls
variable (order : HashOrder) {mergeMap : DenseMap NodeIndex}

theorem mem_mergeCalls {call : NodeIndex × NodeIndex} :
    call ∈ mergeCalls order mergeMap ↔ mergeMap.find call.2 = some call.1 := by
  unfold mergeCalls
  simp only [List.mem_filterMap, Option.map_eq_some_iff, order.mem_arrange, mergeMap.listed]
  constructor
  · intro ⟨n, _, t, found, same⟩
    rw [← same]
    exact found
  · intro found
    exact ⟨call.2, by rw [found]; rfl, call.1, found, rfl⟩

theorem merges_calls {l : List NodeIndex} (listed : ∀ n ∈ l, n ∈ mergeMap.keys)
    (F : AndersNodeFactory) :
    l.foldlM (fun F n => do
      let repNode ← mergeMap.find n
      F.mergeNode repNode n) F =
    (l.filterMap fun n => (mergeMap.find n).map fun repNode => (repNode, n)).foldlM
      (fun F call => F.mergeNode call.1 call.2) F := by
  induction l generalizing F with
  | nil => rfl
  | cons n rest ih =>
    have known := (mergeMap.listed n).mp (listed n (by simp))
    obtain ⟨t, found⟩ := Option.isSome_iff_exists.mp known
    have later := ih fun m hm => listed m (by simp [hm])
    simp only [List.foldlM_cons, List.filterMap_cons, found, Option.map_some]
    cases merged : F.mergeNode t n with
    | none => simp [merged]
    | some F' => simpa [merged] using later F'

theorem run_mergeCalls (policy : HashTable.Policy NodeIndex) (F : AndersNodeFactory)
    (cs : List AndersConstraint) :
    run policy order F cs = do
      let s ← detect policy F cs
      let F ← (mergeCalls order s.mergeMap).foldlM (fun F call => F.mergeNode call.1 call.2) F
      return (F, s.collapseMap) := by
  rw [run_detect]
  congr 1
  funext s
  rw [merges_calls fun n listed => order.mem_arrange.mp listed]
  rfl

end Calls

variable {policy : HashTable.Policy NodeIndex} {F : AndersNodeFactory}
  {cs : List AndersConstraint}

theorem detector_keepsGraph (F : AndersNodeFactory) :
    KeepsGraph (detector F) (nodeIterator State.offlineGraph) where
  getRep s x here := by
    have found := (s.offlineGraph.graph.listed x).mp here
    obtain ⟨set, found⟩ := Option.isSome_iff_exists.mp found
    have same : s.offlineGraph.getOrInsertNode x = s.offlineGraph := by
      unfold getOrInsertNode
      rw [found]
    exact Prod.ext rfl (congrArg (fun g => { s with offlineGraph := g }) same)
  calls call s s' run := by
    have same : s'.offlineGraph = s.offlineGraph := by
      cases call with
      | processNodeOnCycle node repNode => exact Option.some.inj run ▸ rfl
      | processCycleRepNode node => exact processCycleRepNode_graph run
    refine ⟨?_, ?_, ?_⟩
    · funext v
      exact congrArg (fun g => (g.succs v).bits) same
    · exact congrArg SparseBitVectorGraph.nodes same
    · exact congrArg (fun g => g.graph.rehashes) same

theorem detect_calls (policy : HashTable.Policy NodeIndex) (wf : F.WellFormed)
    (valid : ValidConstraints F.numNodes cs)
    (closed : ∀ v w, OfflineEdge F cs v w → ∃ u, OfflineEdge F cs w u) :
    ∃ calls, Reported (successors policy (edges F cs)) {v | v ∈ endpoints (edges F cs)} calls ∧
      detect policy F cs = replay (detector F) calls (.start policy F cs) := by
  have built := buildOffline_eq policy F cs
  have mem : ∀ v, v ∈ (State.start policy F cs).offlineGraph.nodes ↔
      v ∈ endpoints (edges F cs) := by
    intro v
    dsimp only [State.start]
    rw [built, mem_nodes_ofEdges, mem_endpoints]
    constructor
    · exact fun ⟨w, edge⟩ => ⟨w, .inl edge⟩
    · rintro ⟨w, edge | edge⟩
      · exact ⟨w, edge⟩
      · obtain ⟨u, edge⟩ := closed w v (mem_edges.mp edge)
        exact ⟨u, mem_edges.mpr edge⟩
  have fits : (State.start policy F cs).offlineGraph.nodes.length ≤ 2 * F.numNodes + 1 :=
    ((HashTable.Table.nodup _).length_le_of_subset fun v here => (mem v).mp here).trans
      (endpoints_length wf valid)
  have inside : ∀ v ∈ (State.start policy F cs).offlineGraph.nodes,
      ∀ w ∈ successors policy (edges F cs) v, w ∈ (State.start policy F cs).offlineGraph.nodes :=
    fun v _ w edge => (mem w).mpr (mem_endpoints.mpr ⟨v, .inr (mem_successors.mp edge)⟩)
  obtain ⟨calls, ended, reported, _, runs⟩ := runOnGraph_calls inside fits
  have here := runs (detector F) (nodeIterator State.offlineGraph) (detector_keepsGraph F)
    (.start policy F cs) (by funext v; exact congrArg (fun g => (g.succs v).bits) built) rfl
  refine ⟨calls, ?_, ?_⟩
  · have same := Set.ext fun v => mem v
    exact same ▸ reported
  · unfold detect
    rw [here, Option.map_map]
    exact Option.map_id'

def OnCycle (F : AndersNodeFactory) (cs : List AndersConstraint) (v : NodeIndex) : Prop :=
  ∃ w, w ≠ v ∧ Mutual F cs w v

/-- Every member of every cycle is dealt with as it should be. -/
structure Classified (F : AndersNodeFactory) (cs : List AndersConstraint)
    (calls : List (NodeIndex × NodeIndex)) (F' : AndersNodeFactory)
    (collapseMap : DenseMap NodeIndex) : Prop where
  calls_inside : ∀ call ∈ calls, call.1 < F.numNodes ∧ call.2 < F.numNodes
  targets_inside : ∀ n t, collapseMap.find n = some t → t < F.numNodes
  has_var : ∀ r v, OnCycle F cs v → Smallest F cs r v → r < F.numNodes
  var : ∀ r n, n < F.numNodes → n ≠ r → Smallest F cs r n → F'.getMergeTarget n = r
  ref : ∀ r n, OnCycle F cs (getRefNodeIndex F n) → Smallest F cs r (getRefNodeIndex F n) →
    getCollapseTarget collapseMap n = r

/-- The search and the merges come through, and leave everything classified. -/
def RunClassifies (policy : HashTable.Policy NodeIndex) (order : HashOrder)
    (F : AndersNodeFactory) (cs : List AndersConstraint) : Prop :=
  ∃ s F', detect policy F cs = some s ∧ run policy order F cs = some (F', s.collapseMap) ∧
    Classified F cs (mergeCalls order s.mergeMap) F' s.collapseMap

/-- What is loaded through node 0, the universal pointer, comes round to what is stored
    through it. -/
def UniversalCycle (F : AndersNodeFactory) (cs : List AndersConstraint) : Prop :=
  ∃ d p q s, ⟨.LOAD, d, p⟩ ∈ cs ∧ F.getMergeTarget p = UniversalPtrIndex ∧
    ⟨.STORE, q, s⟩ ∈ cs ∧ F.getMergeTarget q = UniversalPtrIndex ∧
    ReflTransGen (OfflineEdge F cs) (F.getMergeTarget d) (F.getMergeTarget s)

theorem ref_universal : getRefNodeIndex F UniversalPtrIndex = F.numNodes := Nat.zero_add _

theorem universalCycle_iff (wf : F.WellFormed) (valid : ValidConstraints F.numNodes cs) :
    UniversalCycle F cs ↔ OnCycle F cs F.numNodes := by
  constructor
  · intro ⟨d, p, q, s, load, hp, store, hq, path⟩
    have first : OfflineEdge F cs F.numNodes (F.getMergeTarget d) :=
      ⟨_, load, by simp [edgeOf, hp, ref_universal]⟩
    have last : OfflineEdge F cs (F.getMergeTarget s) F.numNodes :=
      ⟨_, store, by simp [edgeOf, hq, ref_universal]⟩
    have inside := target_inside wf (valid _ load).1
    exact ⟨F.getMergeTarget d, Nat.ne_of_lt inside, path.tail last, .single first⟩
  · intro ⟨b, other, cycle⟩
    obtain ⟨w, edge, back⟩ := mutual_edge (mutual_symm cycle) (Ne.symm other)
    obtain ⟨d, p, load, hp, hd⟩ := offlineEdge_from_ref wf valid (ref_universal ▸ edge)
    have inside := target_inside wf (valid _ load).1
    rcases ReflTransGen.cases_tail (mutual_trans back cycle).1 with same | ⟨u, path, edge'⟩
    · rw [hd, ← same] at inside
      exact absurd inside (Nat.lt_irrefl _)
    · obtain ⟨q, s, store, hq, hs⟩ := offlineEdge_to_ref wf valid (ref_universal ▸ edge')
      exact ⟨d, p, q, s, load, hp, store, hq, by rw [hd, hs]; exact path⟩

theorem smallest_var (wf : F.WellFormed) (valid : ValidConstraints F.numNodes cs)
    {r v : NodeIndex} (cycle : OnCycle F cs v) (least : Smallest F cs r v) : r < F.numNodes := by
  by_cases same : v = r
  · obtain ⟨w, other, joined⟩ := cycle
    have leastW : Smallest F cs r w :=
      ⟨mutual_trans least.1 (mutual_symm joined), fun x hx => least.2 x (mutual_trans hx joined)⟩
    exact smallest_inside wf rfl valid leastW (same ▸ other)
  · exact smallest_inside wf rfl valid least same

section Good
variable {done : Set NodeIndex} {s : State}

theorem collapse_classified (wf : F.WellFormed) (valid : ValidConstraints F.numNodes cs)
    (good : Good F cs done s) (all : ∀ v w, OfflineEdge F cs v w → v ∈ done) {r n : Nat}
    (positive : 0 < n) (cycle : OnCycle F cs (getRefNodeIndex F n))
    (least : Smallest F cs r (getRefNodeIndex F n)) : getCollapseTarget s.collapseMap n = r := by
  have inside : r < F.numNodes := smallest_var wf valid cycle least
  have other : n + F.numNodes ≠ r := by omega
  obtain ⟨w, edge, _⟩ := mutual_edge (mutual_symm least.1) other
  have found := (good.collapse n r).mpr ⟨all _ w edge, positive, other, least⟩
  simp [getCollapseTarget, found]

end Good

/-- The detector classifies every member of every cycle exactly where the table does not
    rehash during the search and no cycle runs through the REF node of node 0. -/
theorem run_classifies_iff (policy : HashTable.Policy NodeIndex) (order : HashOrder)
    (wf : F.WellFormed) (valid : ValidConstraints F.numNodes cs) :
    RunClassifies policy order F cs ↔ Steady policy F cs ∧ ¬ UniversalCycle F cs := by
  rw [universalCycle_iff wf valid]
  constructor
  · intro ⟨s, F', detected, ran, _⟩
    refine ⟨steady_of_detect wf rfl valid detected, ?_⟩
    intro ⟨b, other, cycle⟩
    exact other (apart_of_run order wf rfl valid ran b cycle)
  · intro ⟨steady, off⟩
    have apart : ∀ b, Mutual F cs b F.numNodes → b = F.numNodes := by
      intro b cycle
      by_contra other
      exact off ⟨b, other, cycle⟩
    obtain ⟨s, done, F', detected, ran, good, all, _, least⟩ :=
      run_good steady order wf rfl valid apart
    refine ⟨s, F', detected, ran, ?_⟩
    constructor
    case calls_inside =>
      intro call here
      have spec := mergeMap_spec wf rfl valid apart good ((mem_mergeCalls order).mp here)
      exact ⟨spec.2.2.1, spec.1⟩
    case targets_inside =>
      intro n t found
      obtain ⟨_, _, other, smallest⟩ := (good.collapse n t).mp found
      exact smallest_inside wf rfl valid smallest other
    case has_var => exact fun r v cycle smallest => smallest_var wf valid cycle smallest
    case var =>
      intro r n inside other smallest
      exact least n r r inside other (mutual_symm smallest.1) smallest
    case ref =>
      intro r n cycle smallest
      rcases Nat.eq_zero_or_pos n with zero | positive
      · obtain ⟨w, other, joined⟩ := cycle
        rw [zero] at other joined
        exact absurd (apart w (ref_universal ▸ joined)) (ref_universal (F := F) ▸ other)
      · exact collapse_classified wf valid good all positive cycle smallest

def throughPointer : List AndersConstraint := [⟨.LOAD, 4, 5⟩, ⟨.STORE, 5, 4⟩]

theorem throughPointer_classified :
    (fresh 6).WellFormed ∧ ValidConstraints 6 throughPointer ∧
    RunClassifies HashTable.Libstdcxx.policy bucketOrder (.fresh 6) throughPointer := by
  have valid : ValidConstraints 6 throughPointer := by unfold ValidConstraints; decide
  refine ⟨fresh_wellFormed 6, valid, ?_⟩
  apply (run_classifies_iff HashTable.Libstdcxx.policy bucketOrder (fresh_wellFormed 6)
    valid).mpr
  refine ⟨by decide, ?_⟩
  intro ⟨d, p, q, s, load, hp, _⟩
  rw [fresh_target] at hp
  simp [throughPointer, hp, UniversalPtrIndex] at load

def throughUniversal : List AndersConstraint := [⟨.LOAD, 4, 0⟩, ⟨.STORE, 0, 4⟩]

theorem throughUniversal_calls :
    (detect HashTable.Libstdcxx.policy (.fresh 5) throughUniversal).map
      (fun s => mergeCalls bucketOrder s.mergeMap) = some [(4, 5)] := by
  decide +kernel

/-- A cycle of two nodes behind ten copies; the fourteenth node comes while the search is under
    way. -/
def behindCopies : List AndersConstraint :=
  [⟨.COPY, 2, 1⟩, ⟨.COPY, 1, 2⟩, ⟨.COPY, 20, 3⟩, ⟨.COPY, 21, 4⟩, ⟨.COPY, 22, 5⟩, ⟨.COPY, 23, 6⟩,
    ⟨.COPY, 24, 7⟩, ⟨.COPY, 25, 8⟩, ⟨.COPY, 26, 9⟩, ⟨.COPY, 27, 10⟩, ⟨.COPY, 28, 11⟩,
    ⟨.COPY, 29, 12⟩]

theorem throughUniversal_misclassified : (ValidConstraints 5 throughUniversal ∧
    ¬ RunClassifies HashTable.Libstdcxx.policy bucketOrder (.fresh 5) throughUniversal) ∧
    ValidConstraints 40 behindCopies ∧
    ¬ RunClassifies HashTable.Libstdcxx.policy bucketOrder (.fresh 40) behindCopies := by
  have valid : ValidConstraints 40 behindCopies := by unfold ValidConstraints; decide
  refine ⟨⟨by unfold ValidConstraints; decide, ?_⟩, valid, ?_⟩
  · intro ⟨s, F', detected, _, classified⟩
    have calls := throughUniversal_calls
    rw [detected, Option.map_some, Option.some.injEq] at calls
    have inside := classified.calls_inside (4, 5) (by rw [calls]; simp)
    exact absurd inside.2 (Nat.lt_irrefl 5)
  · intro ⟨s, F', detected, _⟩
    have steady := steady_of_detect (fresh_wellFormed 40) rfl valid detected
    exact absurd steady (by decide +kernel)

end ProgramSlicer.Andersen.OfflineCycleDetector
