import ProgramSlicer.Andersen.PredecessorGraph

/-!
How HVN and HU label one node. HVN may take over the label of a predecessor; HU keeps a
set of targets beside each label, which is empty for the label 0 only.
-/
namespace ProgramSlicer.Andersen
open AndersNodeFactory FoldRules ValueNumbering ConstraintOptimizer

theorem SparseBitVector.count_eq_zero {v : SparseBitVector} : v.count = 0 ↔ ∀ i, i ∉ v := by
  unfold SparseBitVector.count
  rw [List.length_eq_zero_iff, List.eq_nil_iff_forall_not_mem]
  rfl

namespace HVNOptimizer

/-- What the loop over the predecessors has found out. -/
structure Scanned (scan : Scan) : Prop where
  first : scan.lastSeenLabel = 0 → ∀ k, k ∉ scan.predLabels
  seen : scan.lastSeenLabel ≠ 0 → scan.lastSeenLabel ∈ scan.predLabels
  alike : scan.allSame = true → ∀ k ∈ scan.predLabels, k = scan.lastSeenLabel

theorem examine_scanned (s : State) (node : NodeIndex) (scan : Scan) (pred : NodeIndex)
    (scanned : Scanned scan) : Scanned (examine s node scan pred) := by
  unfold examine
  dsimp only
  split
  · exact scanned
  · rename_i taken
    rw [not_or] at taken
    by_cases fresh : scan.lastSeenLabel = 0
    · have none := scanned.first fresh
      constructor <;> simp [fresh, taken.2, none]
    · constructor
      · simp [fresh]
      · simp [fresh, scanned.seen fresh]
      · intro alike k hk
        simp only [fresh, false_or, decide_eq_true_eq, Bool.decide_and, Bool.and_eq_true] at alike
        rw [if_neg fresh]
        rcases SparseBitVector.mem_set.mp hk with same | older
        · rw [same, alike.2]
        · exact scanned.alike (by simpa using alike.1) k older

theorem mem_predLabels (s : State) (node k : NodeIndex) :
    k ∈ ((s.predGraph.succs node).bits.foldl (examine s node) ⟨true, 0, ∅⟩).predLabels ↔
      k ∈ predLabels s node ∧ k ≠ 0 := by
  rw [foldl_adds (R := fun scan : Scan => k ∈ scan.predLabels)
    (E := fun w => s.getMergeTargetRep w ≠ node ∧ s.label (s.getMergeTargetRep w) = k ∧ k ≠ 0)]
  · simp only [predLabels, SparseBitVector.not_mem_empty, SparseBitVector.mem_bits, false_or,
      Set.mem_ofPred_eq]
    grind
  · intro w _ scan
    unfold examine
    dsimp only
    split
    · grind
    · rw [SparseBitVector.mem_set]
      grind

theorem propagates : Propagates True (fun _ => True) propagateLabel := by
  constructor
  case predGraph =>
    intro F node s
    unfold propagateLabel
    split
    · rfl
    · dsimp only
      split
      · rfl
      · split
        · rfl
        · exact s.labelSet_predGraph node _
  case own_congr => exact fun _ _ _ _ _ => trivial
  case spec =>
    intro F node s _
    unfold propagateLabel
    by_cases pinned : F.numNodes ≤ node ∨ node ∈ s.indirectNodes
    · rw [if_pos pinned]
      exact ⟨s.pointerEqClass, ⟨rfl, rfl, rfl, rfl⟩, trivial, .unique pinned⟩
    · rw [if_neg pinned]
      have members := mem_predLabels s node
      have scanned : Scanned
          ((s.predGraph.succs node).bits.foldl (examine s node) ⟨true, 0, ∅⟩) :=
        foldl_keeps (fun w _ scan => examine_scanned s node scan w)
          ⟨by simp, by simp, by simp⟩
      dsimp only
      generalize (s.predGraph.succs node).bits.foldl (examine s node) ⟨true, 0, ∅⟩ = scan at *
      split
      · rename_i empty
        rw [SparseBitVector.count_eq_zero] at empty
        refine ⟨0, ⟨rfl, rfl, rfl, rfl⟩, trivial, .zero pinned ?_⟩
        intro k hk
        by_contra other
        exact empty k ((members k).mpr ⟨hk, other⟩)
      · rename_i some
        split
        · rename_i alike
          have other : scan.lastSeenLabel ≠ 0 := by
            intro first
            exact some (SparseBitVector.count_eq_zero.mpr (scanned.first first))
          refine ⟨scan.lastSeenLabel, ⟨rfl, rfl, rfl, rfl⟩, trivial, .copy pinned trivial other
            ((members _).mp (scanned.seen other)).1 ?_⟩
          intro k hk
          by_cases zero : k = 0
          · exact .inl zero
          · exact .inr (scanned.alike alike k ((members k).mpr ⟨hk, zero⟩))
        · obtain ⟨l, relabelled, _, choice⟩ := s.labelSet_spec node scan.predLabels pinned
            (predLabels s node)
          exact ⟨l, relabelled, trivial, choice⟩

end HVNOptimizer

namespace HUOptimizer

def Targeted (s : State) : Prop := ∀ n l, s.peLabel.find n = some l → l ≠ 0 → ∃ i, i ∈ pts s n

theorem targeted_insert {s t : State} {node : NodeIndex} {l : Nat} {set : SparseBitVector}
    (targeted : Targeted s) (labels : t.peLabel = s.peLabel.insert node l)
    (sets : t.ptsSet = s.ptsSet.insert node set) (some : l ≠ 0 → ∃ i, i ∈ set) :
    Targeted t := by
  intro n k found other
  unfold pts
  rw [labels, DenseMap.find_insert] at found
  rw [sets, DenseMap.find_insert]
  by_cases same : n = node
  · rw [if_pos same, Option.some.injEq] at found
    rw [if_pos same]
    exact some (found ▸ other)
  · rw [if_neg same] at found ⊢
    exact targeted n k found other

theorem label_zero {s : State} (targeted : Targeted s) {n : NodeIndex}
    (empty : ∀ i, i ∉ pts s n) : s.label n = 0 := by
  unfold State.label
  cases found : s.peLabel.find n with
  | none => rfl
  | some l =>
    by_contra other
    obtain ⟨i, hi⟩ := targeted n l found other
    exact empty i hi

theorem assignLabel_spec (F : AndersNodeFactory) (node : NodeIndex) (s : State) :
    (assignLabel F node s = none ∧ ¬ (F.numNodes ≤ node ∨ node ∈ s.indirectNodes)) ∨
    ((F.numNodes ≤ node ∨ node ∈ s.indirectNodes) ∧
      ∃ i, assignLabel F node s = some (setPts (s.newLabel node) node ((pts s node).set i))) := by
  have twice : ∀ m : Nat, m * 2 ≤ node → m ≤ node := by omega
  unfold assignLabel
  by_cases adr : node ≥ F.numNodes * 2
  · exact .inr ⟨.inl (twice _ adr), _, if_pos adr⟩
  · rw [if_neg adr]
    by_cases ref : node ≥ F.numNodes
    · exact .inr ⟨.inl ref, _, if_pos ref⟩
    · rw [if_neg ref]
      by_cases indirect : node ∈ s.indirectNodes
      · exact .inr ⟨.inr indirect, _, if_pos indirect⟩
      · exact .inl ⟨if_neg indirect, fun h => h.elim ref indirect⟩

theorem propagates : Propagates False Targeted propagateLabel := by
  constructor
  case predGraph =>
    intro F node s
    unfold propagateLabel
    rcases assignLabel_spec F node s with ⟨unassigned, _⟩ | ⟨_, i, assigned⟩
    · rw [unassigned]
      dsimp only
      split
      · rfl
      · exact State.labelSet_predGraph _ node _
    · rw [assigned]
      rfl
  case own_congr =>
    intro s s' labels sets targeted n l found other
    unfold pts
    rw [sets]
    exact targeted n l (labels ▸ found) other
  case spec =>
    intro F node s targeted
    unfold propagateLabel
    rcases assignLabel_spec F node s with ⟨unassigned, free⟩ | ⟨pinned, i, assigned⟩
    · rw [unassigned]
      dsimp only
      have union : ∀ i, i ∈ (s.predGraph.succs node).bits.foldl
          (fun set pred => set.union (pts s (s.getMergeTargetRep pred))) (pts s node) ↔
          i ∈ pts s node ∨ ∃ w ∈ s.predGraph.succs node, i ∈ pts s (s.getMergeTargetRep w) := by
        intro i
        exact foldl_adds (R := fun set : SparseBitVector => i ∈ set)
          (E := fun w => i ∈ pts s (s.getMergeTargetRep w)) (fun w _ set => by simp) _
      generalize (s.predGraph.succs node).bits.foldl
        (fun set pred => set.union (pts s (s.getMergeTargetRep pred))) (pts s node) = set at *
      split
      · rename_i empty
        rw [SparseBitVector.count_eq_zero] at empty
        refine ⟨0, ⟨rfl, rfl, rfl, rfl⟩, ?_, .zero free ?_⟩
        · exact targeted_insert targeted (t := (setPts s node set).setPeLabel node 0) rfl rfl
            fun other => absurd rfl other
        · intro k ⟨w, hw, _, label⟩
          rw [← label]
          exact label_zero targeted fun i hi => empty i ((union i).mpr (.inr ⟨w, hw, hi⟩))
      · rename_i some
        have member : ∃ i, i ∈ set := by
          by_contra none
          exact some (SparseBitVector.count_eq_zero.mpr (not_exists.mp none))
        obtain ⟨l, relabelled, sets, choice⟩ := (setPts s node set).labelSet_spec node set free
          (predLabels s node)
        refine ⟨l, ⟨relabelled.predGraph, relabelled.indirectNodes, relabelled.mergeTarget,
          relabelled.peLabel⟩, ?_, choice⟩
        exact targeted_insert targeted relabelled.peLabel sets fun _ => member
    · rw [assigned]
      refine ⟨s.pointerEqClass, ⟨rfl, rfl, rfl, rfl⟩, ?_, .unique pinned⟩
      exact targeted_insert targeted (t := setPts (s.newLabel node) node _) rfl rfl
        fun _ => ⟨i, by simp⟩

end HUOptimizer
end ProgramSlicer.Andersen
