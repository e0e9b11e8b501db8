import ProgramSlicer.Andersen.NodeCollapse

/-!
The collapse that hybrid cycle detection does for one node: the targets of the
node are merged into the node that the offline detector has named for it. A
target is merged without being put on a list, so the result may be incomplete.
-/
namespace ProgramSlicer.Andersen
open InclusionConstraints AndersNodeFactory

structure Targets (S : System NodeIndex) (N : Nat) (collapseMap : DenseMap NodeIndex) : Prop where
  inside : ∀ n t, collapseMap.find n = some t → t < N
  equal : ∀ n t, collapseMap.find n = some t → ∀ v ∈ solution S n, solution S v = solution S t

def Loaded (T : System NodeIndex) (F : AndersNodeFactory) (collapseMap : DenseMap NodeIndex) :
    Prop :=
  ∀ n t, collapseMap.find n = some t → ∃ d s, T.load d s ∧
    F.getMergeTarget s = F.getMergeTarget n ∧ F.getMergeTarget d = F.getMergeTarget t

namespace Solver
variable {S : System NodeIndex} {N : Nat} {s : Solver} {node ct : NodeIndex}

/-- Some of the targets of `node` have been collapsed into `ct`. -/
structure Collapsing (S : System NodeIndex) (N : Nat) (s : Solver) (node ct : NodeIndex)
    (ps : List NodeIndex) (t : Bool × Solver) : Prop where
  part : s.toGraphs.Partly N ct ps t.2.toGraphs
  others : t.2 = s.withGraphs t.2.toGraphs
  apart : node ∉ ps
  members : ∀ p ∈ ps, s.rep p = p ∧ p < N ∧ solution S p = solution S ct
  targets : ct ≠ node → ∀ p ∈ ps, ∃ v ∈ s.pts node, s.rep v = p
  pointees : ∀ p ∈ ps, ∃ v ∈ solution S node, s.rep v = p
  itself : t.1 = true → solution S node = solution S ct ∧
    (ct ≠ node → ∃ v ∈ solution S node, s.rep v = node)

def Visited (s : Solver) (node ct : NodeIndex) (t : Bool × Solver) (v : NodeIndex) : Prop :=
  (t.1 = true ∧ s.rep v = node) ∨ t.2.rep v = ct

theorem collapsing_start (valid : Valid S N s) : Collapsing S N s node ct [] (false, s) :=
  ⟨Graphs.partly_start valid.wf ct, rfl, by simp, by simp, by simp, by simp, by simp⟩

theorem collapsing_sound (valid : Valid S N s) {ps : List NodeIndex} {t : Bool × Solver}
    (part : Collapsing S N s node ct ps t) : t.2.view.Sound S := by
  rw [part.part.view]
  apply Config.map_sound valid.sound
  intro n
  unfold into
  split
  · rename_i member
    exact (part.members n member).2.2.symm
  · rfl

theorem collapsePointee_spec (valid : Valid S N s) (hct : ct < N) (root : s.rep ct = ct)
    {ps : List NodeIndex} {t : Bool × Solver} (part : Collapsing S N s node ct ps t)
    {v : NodeIndex} (hv : v < N) (known : v ∈ solution S node)
    (equal : solution S v = solution S ct) (pointee : ct ≠ node → v ∈ s.pts node) :
    ∃ ps' t', collapsePointee node ct t v = some t' ∧ Collapsing S N s node ct ps' t' ∧
      Visited s node ct t' v ∧ ∀ w, Visited s node ct t w → Visited s node ct t' w := by
  have moved : t.2.rep v = into ct ps (s.rep v) := part.part.rep v
  have solved : solution S (t.2.rep v) = solution S ct :=
    ((collapsing_sound valid part).rep v).trans equal
  unfold collapsePointee
  dsimp only
  by_cases itself : t.2.rep v = node
  · refine ⟨ps, (true, t.2), if_pos itself, ?_, ?_, ?_⟩
    · refine ⟨part.part, part.others, part.apart, part.members, part.targets, part.pointees,
        fun _ => ⟨itself ▸ solved, fun other => ⟨v, known, ?_⟩⟩⟩
      rw [moved, into] at itself
      split at itself
      · exact absurd itself other
      · exact itself
    · by_cases member : s.rep v ∈ ps
      · right
        rw [moved]
        exact if_pos member
      · left
        rw [moved, into, if_neg member] at itself
        exact ⟨rfl, itself⟩
    · rintro w (⟨_, same⟩ | merged)
      · exact .inl ⟨rfl, same⟩
      · exact .inr merged
  · rw [if_neg itself]
    by_cases already : t.2.rep v = ct
    · refine ⟨ps, t, ?_, part, .inr already, fun _ h => h⟩
      rw [already]
      simp only [collapseNodes, if_true, Option.map_some]
      rfl
    · have out : s.rep v ∉ ps := by
        intro member
        rw [moved, into, if_pos member] at already
        exact already rfl
      have same : t.2.rep v = s.rep v := by rw [moved, into, if_neg out]
      rw [same] at itself already solved ⊢
      have inside : s.rep v < N := by
        rw [← valid.wf.size] at hv ⊢
        exact target_inside valid.wf.factory hv
      obtain ⟨g', run, part', _⟩ := Graphs.partly_collapse part.part hct root inside
        (target_idem valid.wf.factory v) (Ne.symm already) out
      have stays : ∀ w, t.2.rep w = ct → (t.2.withGraphs g').rep w = ct := by
        intro w merged
        have before : t.2.rep w = into ct ps (s.rep w) := part.part.rep w
        show g'.nodeFactory.getMergeTarget w = ct
        rw [part'.rep]
        rw [before] at merged
        unfold into at merged ⊢
        by_cases member : s.rep w ∈ ps
        · exact if_pos (List.mem_append_left _ member)
        · rw [if_neg member] at merged
          show (if s.rep w ∈ ps ++ [s.rep v] then ct else s.rep w) = ct
          rw [merged, ite_self]
      refine ⟨ps ++ [s.rep v], (t.1, t.2.withGraphs g'), by rw [run]; rfl, ?_, ?_, ?_⟩
      · constructor
        case part => exact part'
        case others =>
          dsimp only
          rw [part.others]
          rfl
        case apart =>
          rw [List.mem_append, List.mem_singleton, not_or]
          exact ⟨part.apart, Ne.symm itself⟩
        case members =>
          intro p hp
          rcases List.mem_append.mp hp with old | new
          · exact part.members p old
          · rw [List.mem_singleton.mp new]
            exact ⟨target_idem valid.wf.factory v, inside, solved⟩
        case targets =>
          intro other p hp
          rcases List.mem_append.mp hp with old | new
          · exact part.targets other p old
          · exact ⟨v, pointee other, (List.mem_singleton.mp new).symm⟩
        case pointees =>
          intro p hp
          rcases List.mem_append.mp hp with old | new
          · exact part.pointees p old
          · exact ⟨v, known, (List.mem_singleton.mp new).symm⟩
        case itself => exact part.itself
      · right
        show g'.nodeFactory.getMergeTarget v = ct
        rw [part'.rep]
        exact if_pos (by simp [rep])
      · rintro w (⟨flag, same⟩ | merged)
        · exact .inl ⟨flag, same⟩
        · exact .inr (stays w merged)

/-! ### The loop over the targets -/

theorem mem_wordFrom {set : AndersPtsSet} {start v : Nat} (h : v ∈ wordFrom set start) :
    v ∈ set ∧ start ≤ v := by
  have kept : v ∈ set.bits.filter (start ≤ ·) := by
    unfold wordFrom at h
    split at h
    · simp at h
    · rename_i first rest shape
      rw [shape]
      rcases List.mem_cons.mp h with same | later
      · simp [same]
      · exact List.mem_cons_of_mem first (List.mem_filter.mp later).1
  simpa [SparseBitVector.mem_bits] using kept

theorem wordFrom_rest {set : AndersPtsSet} {start last v : Nat}
    (ends : (wordFrom set start).getLast? = some last) (hv : v ∈ set) (late : start ≤ v) :
    v ∈ wordFrom set start ∨ last < v := by
  have kept : v ∈ set.bits.filter (start ≤ ·) := by
    simpa [SparseBitVector.mem_bits] using ⟨hv, late⟩
  have ascending : (set.bits.filter (start ≤ ·)).Pairwise (· < ·) := set.ascending.filter _
  have member := List.mem_of_getLast? ends
  unfold wordFrom at ends member ⊢
  split at ends
  · simp at ends
  · rename_i first rest shape
    rw [shape] at kept ascending
    rw [shape] at member
    rcases List.mem_cons.mp kept with same | later
    · exact .inl (by simp [same])
    · by_cases word : v / 64 = first / 64
      · left
        exact List.mem_cons_of_mem first (List.mem_filter.mpr ⟨later, by simpa using word⟩)
      · right
        have above := (List.pairwise_cons.mp ascending).1 v later
        have near : last / 64 = first / 64 := by
          rcases List.mem_cons.mp member with same | inWord
          · rw [same]
          · simpa using (List.mem_filter.mp inWord).2
        omega

theorem wordFrom_empty {set : AndersPtsSet} {start v : Nat}
    (ends : (wordFrom set start).getLast? = none) (hv : v ∈ set) : v < start := by
  by_contra late
  have kept : v ∈ set.bits.filter (start ≤ ·) := by
    simpa [SparseBitVector.mem_bits] using ⟨hv, Nat.le_of_not_lt late⟩
  unfold wordFrom at ends
  split at ends
  · rename_i shape
    rw [shape] at kept
    simp at kept
  · simp at ends

theorem collapseWord_spec (valid : Valid S N s) (hct : ct < N) (root : s.rep ct = ct)
    {word : List NodeIndex} (members : ∀ v ∈ word, v < N ∧ v ∈ solution S node ∧
      solution S v = solution S ct ∧ (ct ≠ node → v ∈ s.pts node)) :
    ∀ ps t, Collapsing S N s node ct ps t → ∃ ps' t',
      word.foldlM (collapsePointee node ct) t = some t' ∧ Collapsing S N s node ct ps' t' ∧
      (∀ v ∈ word, Visited s node ct t' v) ∧ ∀ w, Visited s node ct t w → Visited s node ct t' w := by
  induction word with
  | nil => exact fun ps t part => ⟨ps, t, rfl, part, by simp, fun _ h => h⟩
  | cons v rest ih =>
    intro ps t part
    obtain ⟨hv, known, equal, pointee⟩ := members v (by simp)
    obtain ⟨ps₁, t₁, run, part₁, here, kept⟩ :=
      collapsePointee_spec valid hct root part hv known equal pointee
    obtain ⟨ps₂, t₂, runs, part₂, there, kept'⟩ :=
      ih (fun w hw => members w (by simp [hw])) ps₁ t₁ part₁
    refine ⟨ps₂, t₂, ?_, part₂, ?_, fun w h => kept' w (kept w h)⟩
    · rw [List.foldlM_cons, run]
      exact runs
    · intro w hw
      rcases List.mem_cons.mp hw with same | later
      · exact same ▸ kept' v here
      · exact there w later

/-- A set that does not grow is visited to its end; `ct`'s own may not be. -/
theorem collapsePointees_spec (valid : Valid S N s) (hct : ct < N) (root : s.rep ct = ct)
    (equal : ∀ v ∈ solution S node, solution S v = solution S ct) :
    ∀ fuel start ps t, N < fuel + start → start ≤ N → Collapsing S N s node ct ps t →
      (ct ≠ node → ∀ v ∈ s.pts node, v < start → Visited s node ct t v) →
      ∃ ps' t', collapsePointees node ct fuel start t = some t' ∧
        Collapsing S N s node ct ps' t' ∧
        (ct ≠ node → ∀ v ∈ s.pts node, Visited s node ct t' v) := by
  intro fuel
  induction fuel with
  | zero =>
    intro start ps t enough bound _ _
    omega
  | succ fuel ih =>
    intro start ps t enough bound part before
    have same : ct ≠ node → t.2.pts node = s.pts node :=
      fun other => Graphs.partly_pts part.part (Ne.symm other) part.apart
    unfold collapsePointees
    cases ends : (wordFrom (t.2.pts node) start).getLast? with
    | none =>
      refine ⟨ps, t, by simp only [ends], part, ?_⟩
      intro other v hv
      exact before other v hv (wordFrom_empty ends (same other ▸ hv))
    | some last =>
      have members : ∀ v ∈ wordFrom (t.2.pts node) start, v < N ∧ v ∈ solution S node ∧
          solution S v = solution S ct ∧ (ct ≠ node → v ∈ s.pts node) := by
        intro v hv
        have known := (mem_wordFrom hv).1
        have solved := (collapsing_sound valid part).pts node known
        exact ⟨part.part.wf.pts_valid node v known, solved, equal v solved,
          fun other => same other ▸ known⟩
      obtain ⟨ps₁, t₁, run, part₁, here, kept⟩ := collapseWord_spec valid hct root members ps t part
      have final := List.mem_of_getLast? ends
      have late := (mem_wordFrom final).2
      have inside := (members last final).1
      have next : ∀ l : Nat, start ≤ l → l < N → N < fuel + (l + 1) ∧ l + 1 ≤ N := by omega
      have progress := next last late inside
      obtain ⟨ps₂, t₂, runs, part₂, all⟩ := ih (last + 1) ps₁ t₁ progress.1 progress.2 part₁ (by
        intro other v hv early
        by_cases seen : v < start
        · exact kept v (before other v hv seen)
        · rcases wordFrom_rest ends (same other ▸ hv) (Nat.le_of_not_lt seen) with now | later
          · exact here v now
          · omega)
      refine ⟨ps₂, t₂, ?_, part₂, all⟩
      simp only [ends, Option.bind_eq_bind]
      rw [run, Option.bind_some]
      exact runs

/-! ### The step for one node -/

/-- What the step for `node` has done when the map names `t` for it. -/
structure AfterCollapse (S : System NodeIndex) (N : Nat) (s : Solver) (node t : NodeIndex)
    (gone : Bool) (s' : Solver) (ps : List NodeIndex) : Prop where
  part : s.toGraphs.Partly N (s.rep t) ps s'.toGraphs
  members : ∀ p ∈ ps, solution S p = solution S (s.rep t)
  pointees : ∀ p ∈ ps, ∃ v ∈ solution S node, s.rep v = p
  candidates : s'.cycleCandidates = s.cycleCandidates
  merged : gone = true → node ∈ ps ∧ s'.nextWorkList = s.nextWorkList.enqueue (s.rep t) ∧
    s'.measure N < s.measure N
  stays : gone = false → node ∉ ps ∧ s'.nextWorkList = s.nextWorkList
  complete : gone = false → s.rep t ≠ node → node ∉ (s.pts node).bits.map s.rep ∧
    into (s.rep t) ps = into (s.rep t) ((s.pts node).bits.map s.rep)

theorem afterCollapse_valid {t : NodeIndex} {gone : Bool} {s' : Solver} {ps : List NodeIndex}
    (valid : Valid S N s) (after : AfterCollapse S N s node t gone s' ps) : Valid S N s' := by
  refine ⟨after.part.wf, ?_, ?_⟩
  · rw [after.part.view]
    apply Config.map_sound valid.sound
    intro n
    unfold into
    split
    · rename_i member
      exact (after.members n member).symm
    · rfl
  · rw [after.candidates]
    exact valid.candidates

theorem complete_members {ps : List NodeIndex} {s₁ : Solver}
    (part : Collapsing S N s node ct ps (false, s₁)) (other : ct ≠ node)
    (all : ∀ v ∈ s.pts node, Visited s node ct (false, s₁) v) :
    into ct ps = into ct ((s.pts node).bits.map s.rep) := by
  have merged : ∀ v ∈ s.pts node, s.rep v ∈ ps ∨ s.rep v = ct := by
    intro v hv
    have here : s₁.rep v = ct := by simpa [Visited] using all v hv
    have moved : s₁.rep v = into ct ps (s.rep v) := part.part.rep v
    rw [moved] at here
    unfold into at here
    split at here
    · exact .inl ‹_›
    · exact .inr here
  funext x
  unfold into
  by_cases listed : x ∈ (s.pts node).bits.map s.rep
  · rw [if_pos listed]
    obtain ⟨v, hv, rfl⟩ := List.mem_map.mp listed
    rcases merged v hv with member | same
    · exact if_pos member
    · rw [same, ite_self]
  · rw [if_neg listed]
    apply if_neg
    intro member
    obtain ⟨v, hv, same⟩ := part.targets other x member
    exact listed (List.mem_map.mpr ⟨v, hv, same⟩)

theorem collapseStep_spec {collapseMap : DenseMap NodeIndex}
    (targets : Targets S N collapseMap) (valid : Valid S N s) (rootN : s.rep node = node)
    (hn : node < N) {t : NodeIndex} (found : collapseMap.find node = some t) :
    ∃ gone s' ps, collapseStep collapseMap node s = some (gone, s') ∧
      AfterCollapse S N s node t gone s' ps := by
  have idem := target_idem valid.wf.factory
  have rootC : s.rep (s.rep t) = s.rep t := idem t
  have hct : s.rep t < N := by
    have inside := targets.inside node t found
    rw [← valid.wf.size] at inside ⊢
    exact target_inside valid.wf.factory inside
  have solved : solution S (s.rep t) = solution S t := valid.sound.rep t
  have equal : ∀ v ∈ solution S node, solution S v = solution S (s.rep t) := by
    rw [solved]
    exact targets.equal node t found
  obtain ⟨ps, ⟨mergeSelf, s₁⟩, loop, part, all⟩ := collapsePointees_spec valid hct rootC equal
    (s.nodeFactory.numNodes + 1) 0 [] (false, s) (by rw [valid.wf.size]; omega) (Nat.zero_le N)
    (collapsing_start valid) (fun _ v _ early => absurd early (Nat.not_lt_zero v))
  have others : s₁ = s.withGraphs s₁.toGraphs := part.others
  have list : s₁.nextWorkList = s.nextWorkList := by rw [others]; rfl
  have candidates : s₁.cycleCandidates = s.cycleCandidates := by rw [others]; rfl
  have members : ∀ p ∈ ps, solution S p = solution S (s.rep t) := fun p hp => (part.members p hp).2.2
  unfold collapseStep
  simp only [found, Option.bind_eq_bind]
  rw [loop, Option.bind_some]
  cases mergeSelf with
  | false =>
    refine ⟨false, s₁, ps, rfl, part.part, members, part.pointees, candidates, by simp,
      fun _ => ⟨part.apart, list⟩, ?_⟩
    intro _ other
    refine ⟨?_, complete_members part other (all other)⟩
    intro listed
    obtain ⟨v, hv, same⟩ := List.mem_map.mp listed
    have moved : s₁.rep v = into (s.rep t) ps (s.rep v) := part.part.rep v
    have here : s₁.rep v = s.rep t := by simpa [Visited] using all other v hv
    rw [moved, same, into, if_neg part.apart] at here
    exact other here.symm
  | true =>
    by_cases same : s.rep t = node
    · refine ⟨false, s₁, ps, ?_, part.part, members, part.pointees, candidates, by simp,
        fun _ => ⟨part.apart, list⟩, fun _ other => absurd same other⟩
      rw [if_pos rfl, same]
      simp only [collapseNodes, if_true, Option.bind_some, ne_eq, not_true_eq_false, if_false]
      rfl
    · obtain ⟨g', run, part', less⟩ := Graphs.partly_collapse part.part hct rootC hn rootN same
        part.apart
      refine ⟨true, (s₁.withGraphs g').enqueue (s.rep t), ps ++ [node], ?_, part', ?_, ?_,
        candidates, ?_, by simp, by simp⟩
      · rw [if_pos rfl, run]
        simp only [Option.bind_some, ne_eq, same, not_false_eq_true, if_true]
        rfl
      · intro p hp
        rcases List.mem_append.mp hp with old | new
        · exact members p old
        · rw [List.mem_singleton.mp new]
          exact (part.itself rfl).1
      · intro p hp
        rcases List.mem_append.mp hp with old | new
        · exact part.pointees p old
        · rw [List.mem_singleton.mp new]
          exact (part.itself rfl).2 same
      · intro _
        refine ⟨by simp, ?_, less⟩
        show s₁.nextWorkList.enqueue (s.rep t) = _
        rw [list]

end Solver

end ProgramSlicer.Andersen
