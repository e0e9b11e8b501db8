import ProgramSlicer.Andersen.GraphWalk
import ProgramSlicer.Andersen.ConstraintSolving

/-!
What the offline cycle detector finds: its two maps send every member of a cycle
of the offline constraint graph, except the smallest, to the smallest one. Node
`N`, the REF node of node 0, is taken for a VAR node. The search puts every node
with an incoming edge into the table that it goes through, so that it comes to an
end only if the table does not rehash on the way.
-/
namespace ProgramSlicer.Andersen.OfflineCycleDetector
open Relation Components CycleDetector AndersNodeFactory FoldRules SparseBitVectorGraph

def edgeOf (F : AndersNodeFactory) (c : AndersConstraint) : Option (NodeIndex × NodeIndex) :=
  let srcTgt := F.getMergeTarget c.src
  let dstTgt := F.getMergeTarget c.dest
  match c.type with
  | .ADDR_OF => none
  | .LOAD => some (getRefNodeIndex F srcTgt, dstTgt)
  | .STORE => some (srcTgt, getRefNodeIndex F dstTgt)
  | .COPY => some (srcTgt, dstTgt)

def edges (F : AndersNodeFactory) (cs : List AndersConstraint) : List (NodeIndex × NodeIndex) :=
  cs.filterMap (edgeOf F)

def OfflineEdge (F : AndersNodeFactory) (cs : List AndersConstraint) (v w : NodeIndex) : Prop :=
  ∃ c ∈ cs, edgeOf F c = some (v, w)

/-- The table does not rehash while the search puts the nodes without outgoing edges into it. -/
def Steady (policy : HashTable.Policy NodeIndex) (F : AndersNodeFactory)
    (cs : List AndersConstraint) : Prop :=
  SparseBitVectorGraph.Steady policy (edges F cs)

variable {policy : HashTable.Policy NodeIndex} {F : AndersNodeFactory}
  {cs : List AndersConstraint}

instance : Decidable (Steady policy F cs) :=
  inferInstanceAs (Decidable (SparseBitVectorGraph.Steady _ _))

theorem mem_edges {v w : NodeIndex} : (v, w) ∈ edges F cs ↔ OfflineEdge F cs v w :=
  List.mem_filterMap

theorem buildOffline_eq (policy : HashTable.Policy NodeIndex) (F : AndersNodeFactory)
    (cs : List AndersConstraint) :
    buildOfflineConstraintGraph policy F cs = .ofEdges policy (edges F cs) := by
  unfold buildOfflineConstraintGraph edges SparseBitVectorGraph.ofEdges
  rw [List.foldl_filterMap]
  congr 1
  funext g c
  unfold addConstraint edgeOf
  cases c.type <;> rfl

theorem offlineEdge_range {N : Nat} (wf : F.WellFormed) (size : F.numNodes = N)
    (valid : ValidConstraints N cs) {v w : NodeIndex} (edge : OfflineEdge F cs v w) :
    v < 2 * N ∧ w < 2 * N ∧ (v < N ∨ w < N) ∧ (v < N → F.getMergeTarget v = v) := by
  obtain ⟨c, hc, here⟩ := edge
  have idem := target_idem wf
  have bound : ∀ n, n < N → F.getMergeTarget n < N := by
    intro n hn
    rw [← size] at hn ⊢
    exact target_inside wf hn
  have src := bound _ (valid c hc).2
  have dest := bound _ (valid c hc).1
  unfold edgeOf getRefNodeIndex at here
  rw [size] at here
  have var : ∀ n : Nat, n < N → n < 2 * N := by omega
  have ref : ∀ n : Nat, n < N → n + N < 2 * N ∧ ¬ n + N < N := by omega
  cases type : c.type <;> simp only [type, Option.some.injEq, Prod.mk.injEq, reduceCtorEq] at here
  · obtain ⟨rfl, rfl⟩ := here
    exact ⟨var _ src, var _ dest, .inl src, fun _ => idem _⟩
  · obtain ⟨rfl, rfl⟩ := here
    exact ⟨(ref _ src).1, var _ dest, .inr dest, fun h => absurd h (ref _ src).2⟩
  · obtain ⟨rfl, rfl⟩ := here
    exact ⟨var _ src, (ref _ dest).1, .inl src, fun _ => idem _⟩

theorem offlineEdge_from_ref (wf : F.WellFormed) (valid : ValidConstraints F.numNodes cs)
    {k w : NodeIndex} (edge : OfflineEdge F cs (getRefNodeIndex F k) w) :
    ∃ d s, ⟨.LOAD, d, s⟩ ∈ cs ∧ F.getMergeTarget s = k ∧ F.getMergeTarget d = w := by
  obtain ⟨⟨type, d, s⟩, hc, here⟩ := edge
  have inside := target_inside wf (valid _ hc).2
  have low : ∀ a : Nat, a < F.numNodes → a ≠ k + F.numNodes := by omega
  have shift : ∀ a : Nat, a + F.numNodes = k + F.numNodes → a = k := by omega
  unfold edgeOf getRefNodeIndex at here
  cases type <;> simp only [Option.some.injEq, Prod.mk.injEq, reduceCtorEq] at here
  · exact absurd here.1 (low _ inside)
  · exact ⟨d, s, hc, shift _ here.1, here.2⟩
  · exact absurd here.1 (low _ inside)

theorem offlineEdge_to_ref (wf : F.WellFormed) (valid : ValidConstraints F.numNodes cs)
    {k u : NodeIndex} (edge : OfflineEdge F cs u (getRefNodeIndex F k)) :
    ∃ d s, ⟨.STORE, d, s⟩ ∈ cs ∧ F.getMergeTarget d = k ∧ F.getMergeTarget s = u := by
  obtain ⟨⟨type, d, s⟩, hc, here⟩ := edge
  have inside := target_inside wf (valid _ hc).1
  have low : ∀ a : Nat, a < F.numNodes → a ≠ k + F.numNodes := by omega
  have shift : ∀ a : Nat, a + F.numNodes = k + F.numNodes → a = k := by omega
  unfold edgeOf getRefNodeIndex at here
  cases type <;> simp only [Option.some.injEq, Prod.mk.injEq, reduceCtorEq] at here
  · exact absurd here.2 (low _ inside)
  · exact absurd here.2 (low _ inside)
  · exact ⟨d, s, hc, shift _ here.2, here.1⟩

def Mutual (F : AndersNodeFactory) (cs : List AndersConstraint) (a b : NodeIndex) : Prop :=
  ReflTransGen (OfflineEdge F cs) a b ∧ ReflTransGen (OfflineEdge F cs) b a

def Smallest (F : AndersNodeFactory) (cs : List AndersConstraint) (t v : NodeIndex) : Prop :=
  Mutual F cs t v ∧ ∀ x, Mutual F cs x v → t ≤ x

/-- The detector's state when the components of `done` are finished. -/
structure Good (F : AndersNodeFactory) (cs : List AndersConstraint) (done : Set NodeIndex)
    (s : State) : Prop where
  succs : ∀ v w, w ∈ s.offlineGraph.succs v ↔ OfflineEdge F cs v w
  nodes : ∀ v ∈ s.offlineGraph.nodes, v ∈ endpoints (edges F cs)
  scc : s.scc = ∅
  merge : ∀ k t, s.mergeMap.find k = some t ↔
    k ∈ done ∧ k ≤ F.numNodes ∧ k ≠ t ∧ Smallest F cs t k
  collapse : ∀ k t, s.collapseMap.find k = some t ↔
    k + F.numNodes ∈ done ∧ 0 < k ∧ k + F.numNodes ≠ t ∧ Smallest F cs t (k + F.numNodes)

theorem classify_one (t x : Nat) (s : State) :
    (classify F t s x).offlineGraph = s.offlineGraph ∧
    (∀ k : Nat, (classify F t s x).mergeMap.find k =
      if k = x ∧ k ≤ F.numNodes then some t else s.mergeMap.find k) ∧
    (∀ k : Nat, (classify F t s x).collapseMap.find k =
      if k + F.numNodes = x ∧ 0 < k then some t else s.collapseMap.find k) := by
  by_cases large : x > F.numNodes
  · have result : classify F t s x =
        { s with collapseMap := s.collapseMap.insert (x - F.numNodes) t } := if_pos large
    rw [result]
    refine ⟨rfl, fun k => ?_, fun k => ?_⟩
    · rw [if_neg]
      omega
    · have same : (k = x - F.numNodes) ↔ (k + F.numNodes = x ∧ 0 < k) := by omega
      simp only [DenseMap.find_insert, same]
  · have result : classify F t s x = { s with mergeMap := s.mergeMap.insert x t } := if_neg large
    rw [result]
    refine ⟨rfl, fun k => ?_, fun k => ?_⟩
    · have same : (k = x) ↔ (k = x ∧ k ≤ F.numNodes) := by omega
      simp only [DenseMap.find_insert]
      exact if_congr same rfl rfl
    · rw [if_neg]
      omega

theorem classify_spec (F : AndersNodeFactory) (t : NodeIndex) (others : List NodeIndex) :
    ∀ s : State,
    (others.foldl (classify F t) s).offlineGraph = s.offlineGraph ∧
    (∀ k, (others.foldl (classify F t) s).mergeMap.find k =
      if k ∈ others ∧ k ≤ F.numNodes then some t else s.mergeMap.find k) ∧
    (∀ k, (others.foldl (classify F t) s).collapseMap.find k =
      if k + F.numNodes ∈ others ∧ 0 < k then some t else s.collapseMap.find k) := by
  induction others with
  | nil => exact fun s => ⟨rfl, fun k => by simp, fun k => by simp⟩
  | cons x rest ih =>
    intro s
    obtain ⟨graph, merge, collapse⟩ := ih (classify F t s x)
    obtain ⟨graph₁, merge₁, collapse₁⟩ := classify_one (F := F) t x s
    rw [List.foldl_cons]
    refine ⟨graph.trans graph₁, fun k => ?_, fun k => ?_⟩
    · rw [merge, merge₁]
      simp only [List.mem_cons]
      grind
    · rw [collapse, collapse₁]
      simp only [List.mem_cons]
      grind

theorem smallest_unique {t t' v : NodeIndex} (ht : Smallest F cs t v) (ht' : Smallest F cs t' v) :
    t = t' :=
  Nat.le_antisymm (ht.2 t' ht'.1) (ht'.2 t ht.1)

theorem collect_members (F : AndersNodeFactory) (r : NodeIndex) (ms : List NodeIndex) :
    ∀ s : State, ∃ scc,
    ms.foldlM (fun s m => (detector F).processNodeOnCycle m r s) s = some { s with scc } ∧
    ∀ e, e ∈ scc ↔ e ∈ s.scc ∨ e ∈ ms := by
  induction ms with
  | nil => exact fun s => ⟨s.scc, rfl, by simp⟩
  | cons m ms ih =>
    intro s
    obtain ⟨scc, run, members⟩ := ih { s with scc := s.scc.set m }
    refine ⟨scc, ?_, ?_⟩
    · rw [List.foldlM_cons]
      exact run
    · intro e
      rw [members, SparseBitVector.mem_set, List.mem_cons]
      tauto

section Finish
variable {N : Nat} {done : Set NodeIndex} {r : NodeIndex} {ms : List NodeIndex}

theorem mutual_members (comp : IsComponent (OfflineEdge F cs) done r ms) {v x : NodeIndex}
    (hv : v ∈ r :: ms) : Mutual F cs x v ↔ x ∈ r :: ms :=
  comp.joined_iff hv

theorem component_has_var (wf : F.WellFormed) (size : F.numNodes = N)
    (valid : ValidConstraints N cs)
    (comp : IsComponent (OfflineEdge F cs) done r ms) (cycle : ms ≠ []) :
    ∃ v ∈ r :: ms, v < N := by
  obtain ⟨m, hm⟩ := List.exists_mem_of_ne_nil ms cycle
  have other : r ≠ m := fun same => (List.nodup_cons.mp comp.nodup).1 (same ▸ hm)
  rcases ReflTransGen.cases_head (comp.to_member m hm) with same | ⟨w, edge, rest⟩
  · exact absurd same other
  · rcases (offlineEdge_range wf size valid edge).2.2.1 with first | second
    · exact ⟨r, by simp, first⟩
    · rcases comp.closed r (by simp) w edge with finished | member
      · have fresh := comp.fresh m (List.mem_cons_of_mem r hm)
        exact absurd (comp.done_path rest finished) fresh
      · exact ⟨w, member, second⟩

theorem good_trivial (comp : IsComponent (OfflineEdge F cs) done r []) {s : State}
    (good : Good F cs done s) : Good F cs (done ∪ {v | v ∈ [r]}) s := by
  have alone : ∀ t v, v ∈ [r] → Smallest F cs t v → v = t := by
    intro t v hv small
    have ht := (mutual_members comp hv).mp small.1
    rw [List.mem_singleton.mp hv, List.mem_singleton.mp ht]
  refine ⟨good.succs, good.nodes, good.scc, ?_, ?_⟩
  · intro k t
    rw [good.merge]
    constructor
    · exact fun ⟨h, rest⟩ => ⟨.inl h, rest⟩
    · rintro ⟨h | h, small, other, least⟩
      · exact ⟨h, small, other, least⟩
      · exact absurd (alone t k h least) other
  · intro k t
    rw [good.collapse]
    constructor
    · exact fun ⟨h, rest⟩ => ⟨.inl h, rest⟩
    · rintro ⟨h | h, positive, other, least⟩
      · exact ⟨h, positive, other, least⟩
      · exact absurd (alone t _ h least) other

theorem good_cycle (comp : IsComponent (OfflineEdge F cs) done r ms) {s : State}
    (good : Good F cs done s) {t : NodeIndex} {others : List NodeIndex}
    (members : ∀ e, e ∈ t :: others ↔ e ∈ r :: ms) (least : ∀ e ∈ others, t < e)
    (scc : SparseBitVector) :
    Good F cs (done ∪ {v | v ∈ r :: ms})
      { others.foldl (classify F t) { s with scc } with scc := ∅ } := by
  obtain ⟨graph, merge, collapse⟩ :=
    classify_spec F t others { s with scc }
  have small : ∀ v ∈ r :: ms, Smallest F cs t v := by
    intro v hv
    refine ⟨(mutual_members comp hv).mpr ((members t).mp (by simp)), ?_⟩
    intro x hx
    rcases List.mem_cons.mp ((members x).mpr ((mutual_members comp hv).mp hx)) with same | other
    · exact same ▸ Nat.le_refl _
    · exact (least x other).le
  have inOthers : ∀ v, v ∈ others ↔ v ∈ r :: ms ∧ v ≠ t := by
    intro v
    rw [← members v]
    constructor
    · exact fun h => ⟨List.mem_cons_of_mem t h, (least v h).ne'⟩
    · rintro ⟨h, other⟩
      exact (List.mem_cons.mp h).resolve_left other
  have fresh : ∀ v ∈ others, v ∉ done := fun v h => comp.fresh v ((inOthers v).mp h).1
  refine ⟨?_, ?_, rfl, ?_, ?_⟩
  · intro v w
    dsimp only
    rw [graph]
    exact good.succs v w
  · intro v
    dsimp only
    rw [graph]
    exact good.nodes v
  · intro k t'
    dsimp only
    rw [merge]
    by_cases here : k ∈ others ∧ k ≤ F.numNodes
    · rw [if_pos here, Option.some.injEq]
      have member := (inOthers k).mp here.1
      constructor
      · rintro rfl
        exact ⟨.inr member.1, here.2, member.2, small k member.1⟩
      · rintro ⟨_, _, _, small'⟩
        exact smallest_unique (small k member.1) small'
    · rw [if_neg here, good.merge]
      constructor
      · exact fun ⟨h, rest⟩ => ⟨.inl h, rest⟩
      · rintro ⟨h | h, low, other, small'⟩
        · exact ⟨h, low, other, small'⟩
        · have same := smallest_unique (small k h) small'
          exact absurd ⟨(inOthers k).mpr ⟨h, same ▸ other⟩, low⟩ here
  · intro k t'
    dsimp only
    rw [collapse]
    by_cases here : k + F.numNodes ∈ others ∧ 0 < k
    · rw [if_pos here, Option.some.injEq]
      have member := (inOthers _).mp here.1
      constructor
      · rintro rfl
        exact ⟨.inr member.1, here.2, member.2, small _ member.1⟩
      · rintro ⟨_, _, _, small'⟩
        exact smallest_unique (small _ member.1) small'
    · rw [if_neg here, good.collapse]
      constructor
      · exact fun ⟨h, rest⟩ => ⟨.inl h, rest⟩
      · rintro ⟨h | h, positive, other, small'⟩
        · exact ⟨h, positive, other, small'⟩
        · have same := smallest_unique (small _ h) small'
          exact absurd ⟨(inOthers _).mpr ⟨h, same ▸ other⟩, positive⟩ here

theorem finish_good (wf : F.WellFormed) (size : F.numNodes = N)
    (valid : ValidConstraints N cs)
    (comp : IsComponent (OfflineEdge F cs) done r ms) {s : State} (good : Good F cs done s) :
    ∃ s', process (detector F) r ms s = some s' ∧ Good F cs (done ∪ {v | v ∈ r :: ms}) s' := by
  obtain ⟨scc, run, members⟩ := collect_members F r ms s
  have sccMembers : ∀ e, e ∈ scc ↔ e ∈ ms := by
    intro e
    rw [members, good.scc]
    simp
  have callback : process (detector F) r ms s = processCycleRepNode F r { s with scc } := by
    unfold process
    rw [run]
    rfl
  rw [callback]
  unfold processCycleRepNode
  by_cases trivialCycle : scc.count = 0
  · have none : ms = [] := by
      apply List.eq_nil_iff_forall_not_mem.mpr
      intro m hm
      have : m ∈ scc.bits := (sccMembers m).mpr hm
      rw [List.length_eq_zero_iff.mp trivialCycle] at this
      exact absurd this List.not_mem_nil
    have empty : scc = ∅ := SparseBitVector.eq_of_mem fun e => by simp [sccMembers, none]
    refine ⟨{ s with scc }, if_pos trivialCycle, ?_⟩
    rw [none] at comp ⊢
    exact good_trivial comp ⟨good.succs, good.nodes, empty, good.merge, good.collapse⟩
  · have cycle : ms ≠ [] := by
      intro none
      apply trivialCycle
      apply List.length_eq_zero_iff.mpr
      apply List.eq_nil_iff_forall_not_mem.mpr
      intro e he
      have := (sccMembers e).mp he
      rw [none] at this
      exact absurd this List.not_mem_nil
    rw [if_neg trivialCycle]
    have all : ∀ e, e ∈ (scc.set r).bits ↔ e ∈ r :: ms := by
      intro e
      rw [SparseBitVector.mem_bits, SparseBitVector.mem_set, sccMembers, List.mem_cons]
    cases sorted : (scc.set r).bits with
    | nil =>
      have : r ∈ (scc.set r).bits := (all r).mpr (by simp)
      rw [sorted] at this
      exact absurd this List.not_mem_nil
    | cons t others =>
      rw [sorted] at all
      have ascending := (scc.set r).ascending
      rw [sorted] at ascending
      have least := (List.pairwise_cons.mp ascending).1
      obtain ⟨v, hv, low⟩ := component_has_var wf size valid comp cycle
      have inside : t < F.numNodes := by
        rw [size]
        rcases List.mem_cons.mp ((all v).mpr hv) with same | later
        · exact same ▸ low
        · exact (least v later).trans low
      exact ⟨_, if_pos inside, good_cycle comp good all least scc⟩

end Finish

/-! ### The run of the detector -/

def State.start (policy : HashTable.Policy NodeIndex) (F : AndersNodeFactory)
    (cs : List AndersConstraint) : State :=
  ⟨buildOfflineConstraintGraph policy F cs, .empty, .empty, ∅⟩

/-- The first half of `run`, up to the merges. -/
def detect (policy : HashTable.Policy NodeIndex) (F : AndersNodeFactory)
    (cs : List AndersConstraint) : Option State :=
  ((detector F).runOnGraph (nodeIterator State.offlineGraph) (2 * F.numNodes + 1)
    (.start policy F cs)).map (·.client)

theorem run_detect (policy : HashTable.Policy NodeIndex) (order : HashOrder)
    (F : AndersNodeFactory) (cs : List AndersConstraint) :
    run policy order F cs = do
      let s ← detect policy F cs
      let F ← (order.arrange s.mergeMap.keys).foldlM (fun F n => do
        let repNode ← s.mergeMap.find n
        F.mergeNode repNode n) F
      return (F, s.collapseMap) := by
  unfold run detect State.start
  cases (detector F).runOnGraph (nodeIterator State.offlineGraph) (2 * F.numNodes + 1)
    ⟨buildOfflineConstraintGraph policy F cs, .empty, .empty, ∅⟩ <;> rfl

theorem edge_offline (policy : HashTable.Policy NodeIndex) (F : AndersNodeFactory)
    (cs : List AndersConstraint) :
    Edge (successors policy (edges F cs)) (fun n => n) = OfflineEdge F cs := by
  rw [edge_successors]
  funext v w
  exact propext mem_edges

section Run
variable {N : Nat}

theorem getRep_good {done : Set NodeIndex} {s : State} (good : Good F cs done s)
    {idx : NodeIndex} (member : idx ∈ endpoints (edges F cs)) :
    Good F cs done { s with offlineGraph := s.offlineGraph.getOrInsertNode idx } := by
  refine ⟨?_, ?_, good.scc, good.merge, good.collapse⟩
  · intro v w
    dsimp only
    rw [SparseBitVectorGraph.succs_getOrInsertNode]
    exact good.succs v w
  · intro v here
    rcases (mem_nodes_getOrInsertNode _ idx v).mp here with rfl | old
    · exact member
    · exact good.nodes v old

theorem lawful (policy : HashTable.Policy NodeIndex) (wf : F.WellFormed)
    (valid : ValidConstraints F.numNodes cs) :
    Lawful (detector F) (endpoints (edges F cs)).toFinset (successors policy (edges F cs))
      (fun n => n) (Good F cs) := by
  constructor
  case inside =>
    intro v _ x hx
    exact List.mem_toFinset.mpr (mem_endpoints.mpr ⟨v, .inr (mem_successors.mp hx)⟩)
  case children =>
    intro done s good v _ _
    have same : s.offlineGraph.succs v = (ofEdges policy (edges F cs)).succs v :=
      SparseBitVector.eq_of_mem fun w =>
        (good.succs v w).trans (mem_edges.symm.trans mem_succs_ofEdges.symm)
    exact congrArg SparseBitVector.bits same
  case keeps => exact fun done s good x member => getRep_good good (List.mem_toFinset.mp member)
  case open_rep => exact fun _ _ _ _ _ _ => rfl
  case done_rep => exact fun _ _ _ _ _ inDone => inDone
  case finish =>
    intro done s good r ms _ comp
    rw [edge_offline] at comp
    exact finish_good wf rfl valid comp good

theorem processCycleRepNode_graph {r : NodeIndex} {s s' : State}
    (run : processCycleRepNode F r s = some s') : s'.offlineGraph = s.offlineGraph := by
  unfold processCycleRepNode at run
  split at run
  · rw [Option.some.inj run]
  · split at run
    · cases run
    · rename_i others _
      split at run
      · rw [← Option.some.inj run]
        exact (classify_spec F _ others s).1
      · cases run

theorem tableClient (F : AndersNodeFactory) (cs : List AndersConstraint) :
    TableClient (detector F) State.offlineGraph (edges F cs) (Good F cs) where
  getRep x s := ⟨s.offlineGraph.getOrInsertNode_extends x,
    (mem_nodes_getOrInsertNode _ x x).mpr (.inl rfl)⟩
  onCycle m r s s' run := Option.some.inj run ▸ HashTable.Table.extends_refl _
  atRep r s s' run := by
    rw [processCycleRepNode_graph run]
    exact HashTable.Table.extends_refl _
  inside done s good := good.nodes

theorem endpoints_length (wf : F.WellFormed) (valid : ValidConstraints F.numNodes cs) :
    (endpoints (edges F cs)).length ≤ 2 * F.numNodes + 1 := by
  have inside : ∀ v ∈ endpoints (edges F cs), v ∈ List.range (2 * F.numNodes) := by
    intro v here
    rw [List.mem_range]
    obtain ⟨w, edge | edge⟩ := mem_endpoints.mp here
    · exact (offlineEdge_range wf rfl valid (mem_edges.mp edge)).1
    · exact (offlineEdge_range wf rfl valid (mem_edges.mp edge)).2.1
  have fits := (List.nodup_dedup _).length_le_of_subset inside
  rw [List.length_range] at fits
  exact Nat.le_succ_of_le fits

theorem start_good (policy : HashTable.Policy NodeIndex) (F : AndersNodeFactory)
    (cs : List AndersConstraint) : Good F cs ∅ (.start policy F cs) := by
  constructor
  case succs =>
    intro v w
    dsimp only [State.start]
    rw [buildOffline_eq]
    exact mem_succs_ofEdges.trans mem_edges
  case nodes =>
    intro v here
    dsimp only [State.start] at here
    rw [buildOffline_eq] at here
    obtain ⟨w, edge⟩ := mem_nodes_ofEdges.mp here
    exact mem_endpoints.mpr ⟨w, .inl edge⟩
  case scc => rfl
  case merge => simp [State.start]
  case collapse => simp [State.start]

/-- Every node with an edge is in a component that has been finished, unless the table
    rehashes while it is gone through. -/
theorem detect_spec (policy : HashTable.Policy NodeIndex) (wf : F.WellFormed)
    (valid : ValidConstraints F.numNodes cs) :
    (Steady policy F cs ∧ ∃ s done, detect policy F cs = some s ∧ Good F cs done s ∧
      ∀ v w, OfflineEdge F cs v w → v ∈ done) ∨
    (¬ Steady policy F cs ∧ detect policy F cs = none) := by
  unfold detect
  rcases runOnGraph_table (lawful policy wf valid) (tableClient F cs)
    (endpoints_length wf valid) (buildOffline_eq policy F cs) (start_good policy F cs) with
    ⟨steady, s, run, ⟨_, τ, inv⟩, finished⟩ | ⟨unsteady, run⟩
  · rw [run]
    exact .inl ⟨steady, s.client, _, rfl, inv.good, fun v w edge =>
      finished v w (mem_edges.mpr edge)⟩
  · rw [run]
    exact .inr ⟨unsteady, rfl⟩

theorem detect_good (steady : Steady policy F cs) (wf : F.WellFormed) (size : F.numNodes = N)
    (valid : ValidConstraints N cs) :
    ∃ s done, detect policy F cs = some s ∧ Good F cs done s ∧
      ∀ v w, OfflineEdge F cs v w → v ∈ done := by
  rcases detect_spec policy wf (size ▸ valid) with ⟨_, found⟩ | ⟨unsteady, _⟩
  · exact found
  · exact absurd steady unsteady

theorem steady_of_detect (wf : F.WellFormed) (size : F.numNodes = N)
    (valid : ValidConstraints N cs) {s : State} (found : detect policy F cs = some s) :
    Steady policy F cs := by
  rcases detect_spec policy wf (size ▸ valid) with ⟨steady, _⟩ | ⟨_, none⟩
  · exact steady
  · rw [none] at found
    cases found

theorem mutual_edge {a b : NodeIndex} (cycle : Mutual F cs a b) (other : a ≠ b) :
    ∃ w, OfflineEdge F cs a w ∧ Mutual F cs w b := by
  rcases ReflTransGen.cases_head cycle.1 with same | ⟨w, edge, rest⟩
  · exact absurd same other
  · exact ⟨w, edge, rest, cycle.2.tail edge⟩

theorem mutual_symm {a b : NodeIndex} (cycle : Mutual F cs a b) : Mutual F cs b a :=
  ⟨cycle.2, cycle.1⟩

theorem mutual_trans {a b c : NodeIndex} (ab : Mutual F cs a b) (bc : Mutual F cs b c) :
    Mutual F cs a c :=
  joined_trans ab bc

theorem mutual_root (wf : F.WellFormed) (size : F.numNodes = N) (valid : ValidConstraints N cs)
    {a b : NodeIndex} (cycle : Mutual F cs a b) (other : a ≠ b) (inside : a < N) :
    F.getMergeTarget a = a := by
  obtain ⟨w, edge, _⟩ := mutual_edge cycle other
  exact (offlineEdge_range wf size valid edge).2.2.2 inside

theorem smallest_inside (wf : F.WellFormed) (size : F.numNodes = N) (valid : ValidConstraints N cs)
    {t k : NodeIndex} (least : Smallest F cs t k) (other : k ≠ t) : t < N := by
  obtain ⟨w, edge, cycle⟩ := mutual_edge least.1 (Ne.symm other)
  rcases (offlineEdge_range wf size valid edge).2.2.1 with first | second
  · exact first
  · exact Nat.lt_of_le_of_lt (least.2 w cycle) second

/-- What the merges of the detector do to the representatives. -/
structure Merged (F : AndersNodeFactory) (cs : List AndersConstraint) (F' : AndersNodeFactory) :
    Prop where
  wf : F'.WellFormed
  size : F'.numNodes = F.numNodes
  moved : ∀ n, F'.getMergeTarget n = F.getMergeTarget n ∨
    (F'.getMergeTarget n < F.numNodes ∧ F.getMergeTarget n < F.numNodes ∧
      Mutual F cs (F'.getMergeTarget n) (F.getMergeTarget n))
  coarser : ∀ a b, F.getMergeTarget a = F.getMergeTarget b →
    F'.getMergeTarget a = F'.getMergeTarget b
  joined : ∀ a b, a < F.numNodes → b < F.numNodes → Mutual F cs a b →
    F'.getMergeTarget a = F'.getMergeTarget b

theorem mergeMap_spec (wf : F.WellFormed) (size : F.numNodes = N) (valid : ValidConstraints N cs)
    (apart : ∀ b, Mutual F cs b F.numNodes → b = F.numNodes) {done : Set NodeIndex} {s : State}
    (good : Good F cs done s) {k t : NodeIndex} (found : s.mergeMap.find k = some t) :
    k < N ∧ F.getMergeTarget k = k ∧ t < N ∧ F.getMergeTarget t = t ∧ t ∉ s.mergeMap.keys := by
  obtain ⟨_, low, other, least⟩ := (good.merge k t).mp found
  have hk : k < N := by
    rcases Nat.lt_or_eq_of_le low with less | last
    · exact size ▸ less
    · exact absurd (last.trans (apart t (last ▸ least.1)).symm) other
  have ht := smallest_inside wf size valid least other
  refine ⟨hk, mutual_root wf size valid (mutual_symm least.1) other hk, ht,
    mutual_root wf size valid least.1 (Ne.symm other) ht, ?_⟩
  intro key
  rw [DenseMap.listed] at key
  obtain ⟨t', again⟩ := Option.isSome_iff_exists.mp key
  obtain ⟨_, _, other', least'⟩ := (good.merge t t').mp again
  apply other'
  apply Nat.le_antisymm
  · exact least.2 t' (mutual_trans least'.1 least.1)
  · exact least'.2 t ⟨.refl, .refl⟩

theorem smallest_exists (F : AndersNodeFactory) (cs : List AndersConstraint) (v : NodeIndex) :
    ∃ t, Smallest F cs t v := by
  classical
  have some : ∃ x, Mutual F cs x v := ⟨v, .refl, .refl⟩
  exact ⟨Nat.find some, Nat.find_spec some, fun x hx => Nat.find_min' some hx⟩

theorem merges_spec (order : HashOrder) (wf : F.WellFormed) (size : F.numNodes = N)
    (valid : ValidConstraints N cs) (apart : ∀ b, Mutual F cs b F.numNodes → b = F.numNodes)
    {done : Set NodeIndex} {s : State} (good : Good F cs done s) :
    ∃ F', (order.arrange s.mergeMap.keys).foldlM (fun F n => do
        let repNode ← s.mergeMap.find n
        F.mergeNode repNode n) F = some F' ∧ F'.WellFormed ∧ F'.numNodes = F.numNodes ∧
      ∀ n, F'.getMergeTarget n =
        (s.mergeMap.find (F.getMergeTarget n)).getD (F.getMergeTarget n) := by
  let target : NodeIndex → NodeIndex := fun k => (s.mergeMap.find k).getD k
  have key : ∀ k ∈ order.arrange s.mergeMap.keys, s.mergeMap.find k = some (target k) := by
    intro k hk
    have listed := (s.mergeMap.listed k).mp (order.mem_arrange.mp hk)
    obtain ⟨t, found⟩ := Option.isSome_iff_exists.mp listed
    simp [target, found]
  have spec := fun k hk => mergeMap_spec wf size valid apart good (key k hk)
  obtain ⟨F', run, wf', size', rep⟩ := mergeNodes_spec target
    (f := fun F n => do
        let repNode ← s.mergeMap.find n
        F.mergeNode repNode n)
    (fun F k hk => by simp [key k hk]) ((order.perm _).nodup_iff.mpr s.mergeMap.nodup)
    (fun k hk => ⟨size ▸ (spec k hk).1, (spec k hk).2.1⟩)
    (fun k hk => ⟨size ▸ (spec k hk).2.2.1, (spec k hk).2.2.2.1,
      fun h => (spec k hk).2.2.2.2 (order.mem_arrange.mp h)⟩) wf
  refine ⟨F', run, wf', size', ?_⟩
  intro n
  rw [rep]
  split
  · rfl
  · rename_i unlisted
    rw [order.mem_arrange, s.mergeMap.listed, Option.not_isSome_iff_eq_none] at unlisted
    rw [unlisted, Option.getD_none]

theorem mergeMap_smallest (wf : F.WellFormed) (size : F.numNodes = N)
    (valid : ValidConstraints N cs) {done : Set NodeIndex} {s : State} (good : Good F cs done s)
    (all : ∀ v w, OfflineEdge F cs v w → v ∈ done) {v x t : NodeIndex} (hv : v < F.numNodes)
    (other : v ≠ x) (cycle : Mutual F cs v x) (least : Smallest F cs t v) :
    (s.mergeMap.find (F.getMergeTarget v)).getD (F.getMergeTarget v) = t := by
  obtain ⟨w, edge, _⟩ := mutual_edge cycle other
  rw [mutual_root wf size valid cycle other (size ▸ hv)]
  by_cases itself : v = t
  · cases found : s.mergeMap.find v with
    | none => exact itself
    | some t' =>
      obtain ⟨_, _, _, least'⟩ := (good.merge v t').mp found
      exact smallest_unique least' least
  · have found := (good.merge v t).mpr ⟨all v w edge, hv.le, itself, least⟩
    rw [found, Option.getD_some]

theorem merge_all (order : HashOrder) (wf : F.WellFormed) (size : F.numNodes = N)
    (valid : ValidConstraints N cs) (apart : ∀ b, Mutual F cs b F.numNodes → b = F.numNodes)
    {done : Set NodeIndex} {s : State} (good : Good F cs done s)
    (all : ∀ v w, OfflineEdge F cs v w → v ∈ done) :
    ∃ F', (order.arrange s.mergeMap.keys).foldlM (fun F n => do
        let repNode ← s.mergeMap.find n
        F.mergeNode repNode n) F = some F' ∧ Merged F cs F' ∧
      ∀ v x t, v < F.numNodes → v ≠ x → Mutual F cs v x → Smallest F cs t v →
        F'.getMergeTarget v = t := by
  obtain ⟨F', run, wf', size', rep⟩ := merges_spec order wf size valid apart good
  have toLeast : ∀ v x t, v < F.numNodes → v ≠ x → Mutual F cs v x → Smallest F cs t v →
      F'.getMergeTarget v = t := by
    intro v x t hv other cycle least
    rw [rep]
    exact mergeMap_smallest wf size valid good all hv other cycle least
  refine ⟨F', run, ⟨wf', size', ?_, fun a b h => by rw [rep, rep, h], ?_⟩, toLeast⟩
  · intro n
    rw [rep]
    cases found : s.mergeMap.find (F.getMergeTarget n) with
    | none => exact .inl rfl
    | some t =>
      right
      obtain ⟨hk, _, ht, _⟩ := mergeMap_spec wf size valid apart good found
      exact ⟨size ▸ ht, size ▸ hk, ((good.merge _ _).mp found).2.2.2.1⟩
  · intro a b ha hb cycle
    by_cases same : a = b
    · rw [same]
    · -- The smallest node of the cycle is the target of both.
      obtain ⟨t, least⟩ := smallest_exists F cs a
      have least' : Smallest F cs t b :=
        ⟨mutual_trans least.1 cycle, fun x hx => least.2 x (mutual_trans hx (mutual_symm cycle))⟩
      rw [toLeast a b t ha same cycle least,
        toLeast b a t hb (Ne.symm same) (mutual_symm cycle) least']

theorem run_good (steady : Steady policy F cs) (order : HashOrder) (wf : F.WellFormed)
    (size : F.numNodes = N)
    (valid : ValidConstraints N cs) (apart : ∀ b, Mutual F cs b F.numNodes → b = F.numNodes) :
    ∃ s done F', detect policy F cs = some s ∧ run policy order F cs = some (F', s.collapseMap) ∧
      Good F cs done s ∧ (∀ v w, OfflineEdge F cs v w → v ∈ done) ∧ Merged F cs F' ∧
      ∀ v x t, v < F.numNodes → v ≠ x → Mutual F cs v x → Smallest F cs t v →
        F'.getMergeTarget v = t := by
  obtain ⟨s, done, detected, good, all⟩ := detect_good steady wf size valid
  obtain ⟨F', merges, merged, least⟩ := merge_all order wf size valid apart good all
  refine ⟨s, done, F', detected, ?_, good, all, merged, least⟩
  rw [run_detect, detected, Option.bind_eq_bind, Option.bind_some, merges]
  rfl

/-- The detector merges the VAR nodes of each cycle, and names a VAR node for its REF nodes. -/
theorem run_spec (steady : Steady policy F cs) (order : HashOrder) (wf : F.WellFormed)
    (size : F.numNodes = N)
    (valid : ValidConstraints N cs) (apart : ∀ b, Mutual F cs b F.numNodes → b = F.numNodes) :
    ∃ F' collapseMap, run policy order F cs = some (F', collapseMap) ∧ Merged F cs F' ∧
      ∀ k t, collapseMap.find k = some t →
        t < N ∧ Mutual F cs t (getRefNodeIndex F k) ∧ t ≠ getRefNodeIndex F k := by
  obtain ⟨s, done, F', _, ran, good, _, merged, _⟩ := run_good steady order wf size valid apart
  refine ⟨F', s.collapseMap, ran, merged, ?_⟩
  intro k t found
  obtain ⟨_, _, other, least⟩ := (good.collapse k t).mp found
  exact ⟨smallest_inside wf size valid least other, least.1, Ne.symm other⟩

theorem steady_of_run (order : HashOrder) (wf : F.WellFormed) (size : F.numNodes = N)
    (valid : ValidConstraints N cs) {result} (done : run policy order F cs = some result) :
    Steady policy F cs := by
  rw [run_detect] at done
  obtain ⟨s, found, _⟩ := bind_some done
  exact steady_of_detect wf size valid found

theorem apart_of_run (order : HashOrder) (wf : F.WellFormed) (size : F.numNodes = N)
    (valid : ValidConstraints N cs) {result} (done : run policy order F cs = some result) :
    ∀ b, Mutual F cs b F.numNodes → b = F.numNodes := by
  intro b cycle
  by_contra other
  have steady := steady_of_run order wf size valid done
  obtain ⟨s, finished, detected, good, all⟩ := detect_good steady wf size valid
  obtain ⟨t, least⟩ := smallest_exists F cs F.numNodes
  obtain ⟨w, edge, back⟩ := mutual_edge (mutual_symm cycle) (Ne.symm other)
  have low : F.numNodes ≠ t := by
    intro same
    have above := least.2 w (mutual_trans back cycle)
    rw [← same] at above
    rcases (offlineEdge_range wf size valid edge).2.2.1 with first | second
    · exact absurd size (Nat.ne_of_lt first)
    · exact absurd (size ▸ second) (Nat.not_lt.mpr above)
  have found := (good.merge F.numNodes t).mpr ⟨all _ w edge, Nat.le_refl _, low, least⟩
  have listed : F.numNodes ∈ order.arrange s.mergeMap.keys := by
    rw [order.mem_arrange, DenseMap.listed, found]
    rfl
  rw [run_detect, detected, Option.bind_eq_bind, Option.bind_some] at done
  obtain ⟨F', merges, _⟩ := FoldRules.bind_some done
  obtain ⟨G, G', same, step⟩ := FoldRules.foldlM_visits
    (P := fun G : AndersNodeFactory => G.numNodes = F.numNodes) (by
      intro k _ G G' step same
      obtain ⟨r, _, merged⟩ := FoldRules.bind_some step
      unfold mergeNode at merged
      split at merged
      · rw [← Option.some.inj merged]
        exact same
      · exact absurd merged (by simp)) merges rfl listed
  obtain ⟨r, _, merged⟩ := FoldRules.bind_some step
  unfold mergeNode at merged
  rw [if_neg] at merged
  · exact absurd merged (by simp)
  · rw [same]
    exact fun h => absurd h.2 (Nat.lt_irrefl _)

end Run

end ProgramSlicer.Andersen.OfflineCycleDetector
