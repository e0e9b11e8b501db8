import ProgramSlicer.Andersen.GraphWalk
import ProgramSlicer.Andersen.LabelPropagation

/-!
The search of the optimiser: every component of the predecessor graph is merged into its
root and labelled, after the components it leads to, unless the table rehashes on the way.
Where node `N` is guarded, the code sees every indirect node of a cycle, and the labels are
a value numbering.
-/
namespace ProgramSlicer.Andersen.ConstraintOptimizer
open Relation Components CycleDetector AndersNodeFactory FoldRules ValueNumbering
open SparseBitVectorGraph HashTable

/-- The state when the components of `done` are finished. -/
structure Good (copies : Prop) (Own : State → Prop) (F : AndersNodeFactory)
    (cs : List AndersConstraint) (done : Set NodeIndex) (s : State) : Prop where
  succs : ∀ v ∉ done, ∀ w, w ∈ s.predGraph.succs v ↔ PredEdge F cs v w
  nodes : ∀ v ∈ s.predGraph.nodes, v ∈ endpoints (edges F cs)
  inside : ∀ v ∈ done, v ∈ endpoints (edges F cs)
  settled : ∀ v ∈ done, ∀ w, PredEdge F cs v w → w ∈ done
  indirect : ∀ v ∉ done, (v ∈ s.indirectNodes ↔ AddressTaken F cs v)
  target : ∀ v t, s.mergeTarget.find v = some t →
    v ∈ done ∧ t ∈ done ∧ s.mergeTarget.find t = none
  labelled : ∀ v, v ∈ s.peLabel.keys ↔ v ∈ done ∧ s.mergeTarget.find v = none
  own : Own s
  numbering : RefZeroGuarded F cs → Numbering (PredEdge F cs) (Indirect F cs) copies done
    s.labelOf s.pointerEqClass s.setLabels

variable {copies : Prop} {Own : State → Prop} {propagateLabel : PropagateLabel}
  {policy : Policy NodeIndex} {F : AndersNodeFactory} {cs : List AndersConstraint}
  {done : Set NodeIndex} {s : State}

namespace Good

theorem flat (good : Good copies Own F cs done s) : s.Flat :=
  fun v t found => (good.target v t found).2.2

theorem rep_open (good : Good copies Own F cs done s) {v : NodeIndex} (new : v ∉ done) :
    s.getMergeTargetRep v = v := by
  apply State.rep_of_none
  cases found : s.mergeTarget.find v with
  | none => rfl
  | some t => exact absurd (good.target v t found).1 new

theorem rep_done (good : Good copies Own F cs done s) {v : NodeIndex} (old : v ∈ done) :
    s.getMergeTargetRep v ∈ done ∧ s.mergeTarget.find (s.getMergeTargetRep v) = none := by
  rw [State.rep_of_flat good.flat]
  cases found : s.mergeTarget.find v with
  | none => exact ⟨old, found⟩
  | some t => exact (good.target v t found).2

end Good

theorem good_start (own : Own (buildPredecessorGraph policy F cs)) :
    Good copies Own F cs ∅ (buildPredecessorGraph policy F cs) := by
  obtain ⟨labels, next, merged, sets⟩ := build_unlabelled policy F cs
  constructor
  case succs => exact fun _ _ _ => mem_succs_pred
  case nodes =>
    intro v here
    rw [buildPredecessorGraph_eq] at here
    obtain ⟨w, edge⟩ := mem_nodes_ofEdges.mp here
    exact mem_endpoints.mpr ⟨w, .inl edge⟩
  case inside => simp
  case settled => simp
  case indirect => exact fun v _ => mem_indirect_pred
  case target => simp [merged]
  case labelled => simp [labels, DenseMap.empty]
  case own => exact own
  case numbering =>
    have none : State.setLabels (buildPredecessorGraph policy F cs) = ∅ := by
      simp [State.setLabels, sets]
    rw [next, none]
    exact fun _ => numbering_start

theorem getRep_good (law : Propagates copies Own propagateLabel)
    (good : Good copies Own F cs done s) {idx : NodeIndex} (member : idx ∈ endpoints (edges F cs)) :
    Good copies Own F cs done { s with predGraph := s.predGraph.getOrInsertNode idx } := by
  refine ⟨?_, ?_, good.inside, good.settled, good.indirect, good.target, good.labelled,
    law.own_congr s _ rfl rfl good.own, good.numbering⟩
  · intro v new w
    dsimp only
    rw [SparseBitVectorGraph.succs_getOrInsertNode]
    exact good.succs v new w
  · intro v here
    rcases (mem_nodes_getOrInsertNode _ idx v).mp here with rfl | old
    · exact member
    · exact good.nodes v old

/-! ### One component -/

/-- The members `ms` of a cycle have been merged into `r`. -/
structure CycleMerged (F : AndersNodeFactory) (r : NodeIndex) (ms : List NodeIndex)
    (s s' : State) : Prop where
  target : ∀ v, s'.mergeTarget.find v = if v ∈ ms then some r else s.mergeTarget.find v
  succs : ∀ v w, w ∈ s'.predGraph.succs v ↔
    w ∈ s.predGraph.succs v ∨ (v = r ∧ ∃ m ∈ ms, w ∈ s.predGraph.succs m)
  nodes : ∀ v ∈ s'.predGraph.nodes, v = r ∨ v ∈ s.predGraph.nodes
  indirect : ∀ v, v ∈ s'.indirectNodes ↔ v ∈ s.indirectNodes ∨
    (v = r ∧ r < F.numNodes ∧ ∃ m ∈ ms, m ∈ s.indirectNodes ∨ m > F.numNodes)
  peLabel : s'.peLabel = s.peLabel
  pointerEqClass : s'.pointerEqClass = s.pointerEqClass
  setLabel : s'.setLabel = s.setLabel
  ptsSet : s'.ptsSet = s.ptsSet

theorem processNodeOnCycle_merged {r m : NodeIndex} (root : s.mergeTarget.find r = none) :
    CycleMerged F r [m] s (processNodeOnCycle F m r s) := by
  constructor
  case target =>
    intro v
    simp [processNodeOnCycle, State.rep_of_none root]
  case succs =>
    intro v w
    simp [processNodeOnCycle, SparseBitVectorGraph.mem_succs_mergeEdge]
  case nodes => exact fun v here => mem_nodes_mergeEdge _ here
  case indirect =>
    intro v
    unfold processNodeOnCycle
    dsimp only
    split
    · rename_i found
      rw [SparseBitVector.mem_set]
      grind
    · grind
  case peLabel | pointerEqClass | setLabel | ptsSet => rfl

theorem merge_members (propagateLabel : PropagateLabel) (F : AndersNodeFactory) {r : NodeIndex}
    (ms : List NodeIndex) (apart : r ∉ ms) : ∀ s : State, s.mergeTarget.find r = none →
    ∃ s', ms.foldlM (fun s m => (detector propagateLabel F).processNodeOnCycle m r s) s =
      some s' ∧ CycleMerged F r ms s s' := by
  induction ms with
  | nil =>
    intro s _
    exact ⟨s, rfl, by constructor <;> simp +contextual⟩
  | cons m ms ih =>
    intro s root
    rw [List.mem_cons, not_or] at apart
    have one : CycleMerged F r [m] s (processNodeOnCycle F m r s) :=
      processNodeOnCycle_merged root
    obtain ⟨s', run, rest⟩ := ih apart.2 (processNodeOnCycle F m r s) (by
      rw [one.target, if_neg (by simpa using apart.1), root])
    refine ⟨s', ?_, ?_⟩
    · rw [List.foldlM_cons]
      exact run
    · constructor
      case target =>
        intro v
        rw [rest.target, one.target]
        simp only [List.mem_cons, List.not_mem_nil, or_false]
        grind
      case succs =>
        intro v w
        simp only [rest.succs, one.succs, List.mem_cons, List.not_mem_nil, or_false]
        grind
      case nodes =>
        intro v here
        exact (rest.nodes v here).elim .inl (one.nodes v)
      case indirect =>
        intro v
        simp only [rest.indirect, one.indirect, List.mem_cons, List.not_mem_nil, or_false]
        grind
      case peLabel => exact rest.peLabel.trans one.peLabel
      case pointerEqClass => exact rest.pointerEqClass.trans one.pointerEqClass
      case setLabel => exact rest.setLabel.trans one.setLabel
      case ptsSet => exact rest.ptsSet.trans one.ptsSet

section Finish
variable {r : NodeIndex} {ms : List NodeIndex} {s₁ s₂ : State} {l : Nat}

theorem root_indirect_iff (guarded : RefZeroGuarded F cs)
    (comp : IsComponent (PredEdge F cs) done r ms) (good : Good copies Own F cs done s)
    (merged : CycleMerged F r ms s s₁) :
    (F.numNodes ≤ r ∨ r ∈ s₁.indirectNodes) ↔ ∃ m ∈ r :: ms, Indirect F cs m := by
  have known : ∀ m ∈ r :: ms, (m ∈ s.indirectNodes ↔ AddressTaken F cs m) :=
    fun m hm => good.indirect m (comp.fresh m hm)
  have root : r ∈ r :: ms := by simp
  by_cases high : F.numNodes ≤ r
  · exact ⟨fun _ => ⟨r, root, .inl high⟩, fun _ => .inl high⟩
  have low : r < F.numNodes := Nat.lt_of_not_le high
  rw [merged.indirect, known r root]
  constructor
  · intro h
    rcases h with none | taken | ⟨_, _, m, hm, taken | above⟩
    · exact absurd none high
    · exact ⟨r, root, .inr taken⟩
    · have member := List.mem_cons_of_mem r hm
      exact ⟨m, member, .inr ((known m member).mp taken)⟩
    · exact ⟨m, List.mem_cons_of_mem r hm, .inl above.le⟩
  · intro ⟨m, hm, indirect⟩
    right
    -- Node `N` itself is not seen, but then another member is.
    obtain ⟨m, hm, seen⟩ : ∃ m ∈ r :: ms, m > F.numNodes ∨ AddressTaken F cs m := by
      rcases indirect with above | taken
      · rcases Nat.lt_or_eq_of_le above with more | same
        · exact ⟨m, hm, .inl more⟩
        · obtain ⟨m', joined, seen⟩ := guarded r low (same ▸ (comp.joined_iff hm).mpr root)
          exact ⟨m', (comp.joined_iff hm).mp (same ▸ joined), seen⟩
      · exact ⟨m, hm, .inr taken⟩
    rcases List.mem_cons.mp hm with same | member
    · rw [same] at seen
      exact .inl (seen.resolve_left fun above => high above.le)
    · exact .inr ⟨rfl, low, m, member, seen.symm.imp (known m hm).mpr id⟩

theorem labelOf_relabelled (merged : CycleMerged F r ms s s₁)
    (relabelled : s₁.Relabelled s₂ r l) (v : NodeIndex) :
    s₂.labelOf v = if s₁.getMergeTargetRep v = r then l else s.label (s₁.getMergeTargetRep v) := by
  have same : s₂.getMergeTargetRep v = s₁.getMergeTargetRep v := by
    simp only [State.getMergeTargetRep, relabelled.mergeTarget]
  unfold State.labelOf State.label
  rw [same, relabelled.peLabel, merged.peLabel, DenseMap.find_insert]
  split <;> rfl

variable (comp : IsComponent (PredEdge F cs) done r ms) (good : Good copies Own F cs done s)
  (merged : CycleMerged F r ms s s₁)
include comp good merged

theorem rep_merged (v : NodeIndex) :
    s₁.getMergeTargetRep v = if v ∈ ms then r else s.getMergeTargetRep v := by
  have new : ∀ m ∈ ms, m ∉ done := fun m hm => comp.fresh m (List.mem_cons_of_mem r hm)
  have root : s.mergeTarget.find r = none := by
    cases found : s.mergeTarget.find r with
    | none => rfl
    | some t => exact absurd (good.target r t found).1 (comp.fresh r (by simp))
  have apart := (List.nodup_cons.mp comp.nodup).1
  have flat : s₁.Flat := by
    intro v t found
    rw [merged.target] at found ⊢
    split at found
    · obtain rfl := Option.some.inj found
      rw [if_neg apart, root]
    · obtain ⟨_, inDone, none⟩ := good.target v t found
      rw [if_neg fun member => new t member inDone, none]
  rw [State.rep_of_flat flat, merged.target, State.rep_of_flat good.flat]
  split <;> rfl

theorem rep_root {v : NodeIndex} (member : v ∈ r :: ms) : s₁.getMergeTargetRep v = r := by
  rw [rep_merged comp good merged]
  split
  · rfl
  · rename_i other
    rw [(List.mem_cons.mp member).resolve_right other]
    exact good.rep_open (comp.fresh r (by simp))

theorem rep_kept {v : NodeIndex} (old : v ∈ done) :
    s₁.getMergeTargetRep v = s.getMergeTargetRep v := by
  rw [rep_merged comp good merged, if_neg]
  exact fun member => comp.fresh v (List.mem_cons_of_mem r member) old

variable (relabelled : s₁.Relabelled s₂ r l)
include relabelled

theorem labelOf_members {v : NodeIndex} (member : v ∈ r :: ms) : s₂.labelOf v = l := by
  rw [labelOf_relabelled merged relabelled, if_pos (rep_root comp good merged member)]

theorem labelOf_done {v : NodeIndex} (old : v ∈ done) : s₂.labelOf v = s.labelOf v := by
  rw [labelOf_relabelled merged relabelled, rep_kept comp good merged old, if_neg]
  · rfl
  · intro same
    exact comp.fresh r (by simp) (same ▸ (good.rep_done old).1)

theorem predLabels_root : predLabels s₁ r =
    {k | ∃ v ∈ r :: ms, ∃ w ∈ done, PredEdge F cs v w ∧ s₂.labelOf w = k} := by
  have edges : ∀ v ∈ r :: ms, ∀ w, w ∈ s.predGraph.succs v ↔ PredEdge F cs v w := by
    intro v hv w
    exact good.succs v (comp.fresh v hv) w
  have labels : ∀ w ∈ done, s₁.getMergeTargetRep w ≠ r ∧
      s₁.label (s₁.getMergeTargetRep w) = s₂.labelOf w := by
    intro w old
    have other : s₁.getMergeTargetRep w ≠ r := by
      rw [rep_kept comp good merged old]
      exact fun same => comp.fresh r (by simp) (same ▸ (good.rep_done old).1)
    refine ⟨other, ?_⟩
    rw [labelOf_relabelled merged relabelled, if_neg other]
    unfold State.label
    rw [merged.peLabel]
  have leads : ∀ w, w ∈ s₁.predGraph.succs r ↔ ∃ v ∈ r :: ms, PredEdge F cs v w := by
    intro w
    rw [merged.succs, edges r (by simp)]
    simp only [true_and, List.exists_mem_cons_iff]
    exact or_congr Iff.rfl (exists_congr fun m => and_congr_right fun hm =>
      edges m (List.mem_cons_of_mem r hm) w)
  ext k
  constructor
  · intro ⟨w, hw, other, label⟩
    obtain ⟨v, hv, edge⟩ := (leads w).mp hw
    rcases comp.closed v hv w edge with old | member
    · exact ⟨v, hv, w, old, edge, (labels w old).2 ▸ label⟩
    · exact absurd (rep_root comp good merged member) other
  · intro ⟨v, hv, w, old, edge, label⟩
    obtain ⟨other, same⟩ := labels w old
    exact ⟨w, (leads w).mpr ⟨v, hv, edge⟩, other, same.trans label⟩

end Finish

theorem finish_good (law : Propagates copies Own propagateLabel) {r : NodeIndex}
    {ms : List NodeIndex} (comp : IsComponent (PredEdge F cs) done r ms)
    (member : ∀ v ∈ r :: ms, v ∈ endpoints (edges F cs)) (good : Good copies Own F cs done s) :
    ∃ s', process (detector propagateLabel F) r ms s = some s' ∧
      Good copies Own F cs (done ∪ {v | v ∈ r :: ms}) s' := by
  have newR : r ∉ done := comp.fresh r (by simp)
  have root : s.mergeTarget.find r = none := by
    cases found : s.mergeTarget.find r with
    | none => rfl
    | some t => exact absurd (good.target r t found).1 newR
  have apart := (List.nodup_cons.mp comp.nodup).1
  obtain ⟨s₁, run, merged⟩ := merge_members propagateLabel F ms apart s root
  have own := law.own_congr s s₁ merged.peLabel merged.ptsSet good.own
  obtain ⟨l, relabelled, own', choice⟩ := law.spec F r s₁ own
  refine ⟨propagateLabel F r s₁, ?_, ?_⟩
  · unfold process
    rw [run]
    rfl
  generalize propagateLabel F r s₁ = s₂ at *
  constructor
  case succs =>
    intro v out w
    rw [Set.mem_union, not_or] at out
    have other : v ≠ r := fun same => out.2 (by simp [same])
    rw [← good.succs v out.1 w, relabelled.predGraph, merged.succs]
    simp [other]
  case nodes =>
    intro v here
    rw [relabelled.predGraph] at here
    rcases merged.nodes v here with rfl | old
    · exact member v (by simp)
    · exact good.nodes v old
  case inside => exact fun v h => h.elim (good.inside v) (member v)
  case settled =>
    intro v hv w edge
    rcases hv with old | member
    · exact .inl (good.settled v old w edge)
    · exact comp.closed v member w edge
  case indirect =>
    intro v out
    rw [Set.mem_union, not_or] at out
    have other : v ≠ r := fun same => out.2 (by simp [same])
    rw [relabelled.indirectNodes, merged.indirect, good.indirect v out.1]
    simp [other]
  case target =>
    intro v t found
    rw [relabelled.mergeTarget, merged.target] at found ⊢
    split at found
    · rename_i member
      obtain rfl := Option.some.inj found
      refine ⟨.inr (List.mem_cons_of_mem _ member), .inr (by simp), ?_⟩
      rw [if_neg apart, root]
    · obtain ⟨hv, ht, none⟩ := good.target v t found
      refine ⟨.inl hv, .inl ht, ?_⟩
      rw [if_neg fun member => comp.fresh t (List.mem_cons_of_mem r member) ht, none]
  case labelled =>
    intro v
    rw [DenseMap.listed, relabelled.peLabel, merged.peLabel, relabelled.mergeTarget,
      merged.target, DenseMap.find_insert]
    by_cases same : v = r
    · rw [if_pos same, same, if_neg apart, root]
      simp
    · rw [if_neg same, ← DenseMap.listed, good.labelled]
      by_cases member : v ∈ ms
      · have new : v ∉ done := comp.fresh v (List.mem_cons_of_mem r member)
        simp [member, new]
      · simp [member, same]
  case own => exact own'
  case numbering =>
    intro guarded
    have numbering := (good.numbering guarded).congr good.settled
      (fun v old => labelOf_done comp good merged relabelled old)
    apply numbering.finish comp
    · exact fun v member => labelOf_members comp good merged relabelled member
    · have sets : s₁.setLabels = s.setLabels := by
        unfold State.setLabels
        rw [merged.setLabel]
      have pinned := propext (root_indirect_iff guarded comp good merged)
      rw [pinned, predLabels_root comp good merged relabelled, merged.pointerEqClass, sets]
        at choice
      exact choice

/-! ### The run -/

theorem edge_pred (policy : Policy NodeIndex) (F : AndersNodeFactory)
    (cs : List AndersConstraint) :
    Edge (successors policy (edges F cs)) (fun n => n) = PredEdge F cs := by
  rw [edge_successors]
  funext v w
  exact propext mem_edges

theorem lawful (law : Propagates copies Own propagateLabel) (policy : Policy NodeIndex)
    (F : AndersNodeFactory) (cs : List AndersConstraint) :
    Lawful (detector propagateLabel F) (endpoints (edges F cs)).toFinset
      (successors policy (edges F cs)) (fun n => n) (Good copies Own F cs) := by
  constructor
  case inside =>
    intro v _ x hx
    exact List.mem_toFinset.mpr (mem_endpoints.mpr ⟨v, .inr (mem_successors.mp hx)⟩)
  case children =>
    intro done s good v _ new
    have same : s.predGraph.succs v = (ofEdges policy (edges F cs)).succs v :=
      SparseBitVector.eq_of_mem fun w =>
        (good.succs v new w).trans (mem_edges.symm.trans mem_succs_ofEdges.symm)
    exact congrArg SparseBitVector.bits same
  case keeps =>
    intro done s good x member
    apply getRep_good law good
    by_cases old : x ∈ done
    · exact good.inside _ (good.rep_done old).1
    · rw [good.rep_open old]
      exact List.mem_toFinset.mp member
  case open_rep => exact fun done s good x _ new => good.rep_open new
  case done_rep => exact fun done s good x _ old => (good.rep_done old).1
  case finish =>
    intro done s good r ms member comp
    rw [edge_pred] at comp
    exact finish_good law comp (fun v here => List.mem_toFinset.mp (member v here)) good

theorem tableClient (law : Propagates copies Own propagateLabel) (F : AndersNodeFactory)
    (cs : List AndersConstraint) :
    TableClient (detector propagateLabel F) State.predGraph (edges F cs)
      (Good copies Own F cs) where
  getRep x s := ⟨s.predGraph.getOrInsertNode_extends _,
    (mem_nodes_getOrInsertNode _ _ _).mpr (.inl rfl)⟩
  onCycle m r s s' run := Option.some.inj run ▸ mergeEdge_extends _ r m
  atRep r s s' run := by
    obtain rfl := Option.some.inj run
    rw [law.predGraph]
    exact Table.extends_refl _
  inside done s good := good.nodes

theorem endpoints_inside (wf : F.WellFormed) (valid : ValidConstraints F.numNodes cs) :
    ∀ v ∈ endpoints (edges F cs), v < 3 * F.numNodes := by
  have below : ∀ a N : Nat, a < 2 * N → a < 3 * N := by omega
  intro v here
  obtain ⟨w, edge | edge⟩ := mem_endpoints.mp here
  · exact below _ _ (predEdge_range wf valid (mem_edges.mp edge)).1
  · exact (predEdge_range wf valid (mem_edges.mp edge)).2

theorem endpoints_length (wf : F.WellFormed) (valid : ValidConstraints F.numNodes cs) :
    (endpoints (edges F cs)).length ≤ 3 * F.numNodes + 1 := by
  have fits := (List.nodup_dedup _).length_le_of_subset
    fun v here => List.mem_range.mpr (endpoints_inside wf valid v here)
  rw [List.length_range] at fits
  exact Nat.le_succ_of_le fits

/-- The search finishes every node with an edge, unless the table rehashes on the way. -/
theorem runOnGraph_good (law : Propagates copies Own propagateLabel) (policy : Policy NodeIndex)
    (wf : F.WellFormed) (valid : ValidConstraints F.numNodes cs)
    (own : Own (buildPredecessorGraph policy F cs)) :
    let search := (detector propagateLabel F).runOnGraph (nodeIterator State.predGraph)
      (3 * F.numNodes + 1) (buildPredecessorGraph policy F cs)
    (Steady policy F cs ∧ ∃ s done, search = some s ∧ Good copies Own F cs done s.client ∧
      (∀ v ∈ done, v < 3 * F.numNodes) ∧ ∀ v w, PredEdge F cs v w → v ∈ done) ∨
    (¬ Steady policy F cs ∧ search = none) := by
  intro search
  rcases runOnGraph_table (lawful law policy F cs) (tableClient law F cs)
    (endpoints_length wf valid) (buildPredecessorGraph_eq policy F cs) (good_start own) with
    ⟨steady, s, run, ⟨_, τ, inv⟩, finished⟩ | unsteady
  · exact .inl ⟨steady, s, _, run, inv.good,
      fun v old => endpoints_inside wf valid v (inv.good.inside v old),
      fun v w edge => finished v w (mem_edges.mpr edge)⟩
  · exact .inr unsteady

/-- `rest` is still to be gone through by the loop that spreads the labels. -/
structure Spreading (done : Set NodeIndex) (s t : State) (rest : List NodeIndex) : Prop where
  target : t.mergeTarget = s.mergeTarget
  merged : ∀ v ∈ rest, v ∈ s.mergeTarget.keys
  labels : ∀ v, t.label v = s.labelOf v ∨ (v ∈ rest ∧ t.label v = s.label v)
  keys : ∀ v, v ∈ t.peLabel.keys ∨ v ∈ rest ↔ v ∈ done

theorem spreading_start (order : HashOrder) (good : Good copies Own F cs done s) :
    Spreading done s s (order.arrange s.mergeTarget.keys) := by
  constructor
  case target => rfl
  case merged => exact fun v hv => order.mem_arrange.mp hv
  case labels =>
    intro v
    cases found : s.mergeTarget.find v with
    | none =>
      left
      unfold State.labelOf
      rw [State.rep_of_none found]
    | some t =>
      right
      refine ⟨order.mem_arrange.mpr ?_, rfl⟩
      rw [DenseMap.listed, found]
      rfl
  case keys =>
    intro v
    rw [order.mem_arrange, good.labelled, DenseMap.listed]
    cases found : s.mergeTarget.find v with
    | none => simp
    | some t => simp [(good.target v t found).1]

theorem spreading_step (good : Good copies Own F cs done s) {t : State} {x : NodeIndex}
    {rest : List NodeIndex} (spreading : Spreading done s t (x :: rest)) :
    Spreading done s (spreadLabel t x) rest := by
  obtain ⟨root, found⟩ := Option.isSome_iff_exists.mp
    ((s.mergeTarget.listed x).mp (spreading.merged x (by simp)))
  obtain ⟨_, _, none⟩ := good.target x root found
  have here : t.getMergeTargetRep root = root := State.rep_of_none (spreading.target ▸ none)
  -- A root is no key of the map, so the loop has not touched its label.
  have rootLabel : t.label root = s.labelOf x := by
    rcases spreading.labels root with equal | ⟨member, _⟩
    · rw [equal]
      unfold State.labelOf
      rw [State.rep_of_none none, State.rep_of_some found none]
    · have listed := spreading.merged root member
      rw [DenseMap.listed, none] at listed
      exact absurd listed (by simp)
  have step : spreadLabel t x = t.setPeLabel x (s.labelOf x) := by
    unfold spreadLabel
    rw [spreading.target, found]
    dsimp only
    rw [here, rootLabel]
  rw [step]
  constructor
  case target => exact spreading.target
  case merged => exact fun v hv => spreading.merged v (List.mem_cons_of_mem x hv)
  case labels =>
    intro v
    unfold State.setPeLabel State.label
    rw [DenseMap.find_insert]
    by_cases itself : v = x
    · rw [if_pos itself, itself]
      exact .inl rfl
    · rw [if_neg itself]
      rcases spreading.labels v with done | ⟨member, old⟩
      · exact .inl done
      · exact .inr ⟨(List.mem_cons.mp member).resolve_left itself, old⟩
  case keys =>
    intro v
    rw [← spreading.keys v, DenseMap.listed, DenseMap.listed]
    unfold State.setPeLabel
    rw [DenseMap.find_insert, List.mem_cons]
    by_cases itself : v = x <;> simp [itself]

theorem spreadLabel_spec (order : HashOrder) (good : Good copies Own F cs done s) :
    let s' := (order.arrange s.mergeTarget.keys).foldl spreadLabel s
    s'.label = s.labelOf ∧ ∀ v, v ∈ s'.peLabel.keys ↔ v ∈ done := by
  have each : ∀ (l : List NodeIndex) (t : State), Spreading done s t l →
      Spreading done s (l.foldl spreadLabel t) [] := by
    intro l
    induction l with
    | nil => exact fun t spreading => spreading
    | cons x rest ih => exact fun t spreading => ih _ (spreading_step good spreading)
  have spread := each _ s (spreading_start order good)
  constructor
  · funext v
    exact (spread.labels v).resolve_right (by simp)
  · intro v
    simpa using spread.keys v

end ProgramSlicer.Andersen.ConstraintOptimizer
